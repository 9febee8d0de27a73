import PageAsm.Proofs.NumeralGrammar
import PageAsm.Proofs.Operands

/-!
# PageAsm.Proofs.NumeralCodec

Numerals in their two other forms, and back again:

```
text    render, parse    every numeral that a token can give
bits    fit, decode      every numeral that the field accepts, all bits of the field
```

In a field of `w` bits there are `2 ^ w` numbers of each base, and no two of
them have the same bits (`Field.eq_of_emod_eq`).  Since `decode` finds a number
that has the bits (`Field.holds_decode`), it finds the one that was put in.
-/

namespace PageAsm

open Text

/-! ## text -/

namespace Numeral

variable {n : Numeral}

/-- A numeral is written as a letter and the digits of its value. -/
theorem toList_render (n : Numeral) :
    ∃ digits, n.render.toList = n.radix.letter :: digits ∧
      SpellsSigned n.radix.base digits n.value := by
  cases n with
  | hex w =>
      refine ⟨fixedDigits 16 4 w.toNat, ?_, .unsigned ?_⟩
      · rw [render, String.toList_ofList]
        rfl
      · rw [← ofDigits?_eq_some_iff (Radix.base_le _), radix, Radix.base,
          ofDigits?_fixedDigits (by decide) (by decide) (by decide), Option.some.injEq]
        exact Nat.mod_eq_of_lt w.toNat_lt
  | dec v =>
      refine ⟨(decimal v).toList, ?_, spellsSigned_decimal v⟩
      rw [render, String.toList_append]
      rfl

/-- The text of a numeral reads as that numeral, also behind a literal mark. -/
theorem parse_append_render (h : n.radix.Admits n.value) {mark : String}
    (hmark : mark = "" ∨ mark = "=") : parse (mark ++ n.render) = .ok n := by
  obtain ⟨digits, htext, hdigits⟩ := toList_render n
  rw [parse_eq_ok_iff]
  refine ⟨⟨mark.toList, digits, ?_, ?_, hdigits⟩, h⟩
  · rcases hmark with rfl | rfl
    · exact .inl rfl
    · exact .inr rfl
  · rw [String.toList_append, htext]

theorem parse_render (h : n.radix.Admits n.value) : parse n.render = .ok n := by
  have hempty := parse_append_render h (.inl rfl)
  rwa [String.empty_append] at hempty

end Numeral

/-! ## bits -/

namespace Field

/-- The smallest number of the base in the field. -/
def lowest (f : Field) : Radix → Int
  | .hex => 0
  | .dec => f.decMin

/-- The number is one of those in the field. -/
def Holds (f : Field) (r : Radix) (v : Int) : Prop :=
  f.lowest r ≤ v ∧ v < f.lowest r + f.modulus

variable {f : Field} {r : Radix} {v w : Int} {n : Numeral}

theorem accepts_iff : f.accepts n = true ↔ f.Holds n.radix n.value := by
  cases n with
  | hex w =>
      simp only [accepts, decide_eq_true_iff, Holds, lowest, Numeral.radix, Numeral.value]
      cases f <;> simp only [hexMax, modulus] <;> omega
  | dec v =>
      simp only [accepts, decide_eq_true_iff, Holds, lowest, Numeral.radix, Numeral.value]
      cases f <;> simp only [decMin, decMax, modulus] <;> omega

/-- No field holds what is not a numeral. -/
theorem Holds.admits (h : f.Holds r v) : r.Admits v := by
  unfold Holds at h
  unfold Radix.Admits
  cases r <;> cases f <;> simp only [lowest, decMin, modulus, Radix.lowest] at h ⊢ <;> omega

/-- Different numbers in a field have different bits. -/
theorem eq_of_emod_eq (hv : f.Holds r v) (hw : f.Holds r w)
    (h : v % f.modulus = w % f.modulus) : v = w := by
  obtain ⟨hvlow, hvhigh⟩ := hv
  obtain ⟨hwlow, hwhigh⟩ := hw
  have hdvd : (f.modulus : Int) ∣ v - w :=
    Int.dvd_of_emod_eq_zero (Int.emod_eq_emod_iff_emod_sub_eq_zero.mp h)
  have hsmall : |v - w| < f.modulus := abs_lt.mpr ⟨by omega, by omega⟩
  exact Int.eq_of_sub_eq_zero (Int.eq_zero_of_abs_lt_dvd hdvd hsmall)

/-- Half of the decimal numbers in a signed field are negative. -/
theorem decMin_eq (f : Field) :
    f.decMin = if f.isSigned then -((f.modulus / 2 : Nat) : Int) else 0 := by
  cases f <;> rfl

@[simp] theorem radix_decode (f : Field) (r : Radix) (bits : UInt16) :
    (Numeral.decode bits f r).radix = r := by
  cases r <;> rfl

/-- What is read from the bits of a field is a number in it that has these bits. -/
theorem holds_decode (f : Field) (r : Radix) (bits : UInt16) :
    f.Holds r (Numeral.decode bits f r).value ∧
      (Numeral.decode bits f r).value % f.modulus = (bits.toNat % f.modulus : Nat) := by
  have hmodulus : 0 < f.modulus ∧ f.modulus ≤ 65536 ∧ f.modulus % 2 = 0 := by
    cases f <;> decide
  obtain ⟨low, hlow⟩ : ∃ low, low = bits.toNat % f.modulus := ⟨_, rfl⟩
  have hlt : low < f.modulus := hlow ▸ Nat.mod_lt _ hmodulus.1
  have hemod : (low : Int) % f.modulus = low := Int.emod_eq_of_lt (by omega) (by omega)
  rw [← hlow]
  cases r with
  | hex =>
      have hvalue : (Numeral.decode bits f .hex).value = low := by
        rw [Numeral.decode, Numeral.value, ← hlow, UInt16.toNat_ofNat', Nat.mod_eq_of_lt]
        omega
      simp only [hvalue, Holds, lowest]
      exact ⟨⟨by omega, by omega⟩, hemod⟩
  | dec =>
      have hvalue : (Numeral.decode bits f .dec).value =
          if f.isSigned then Numeral.signExtend f low else low := by
        rw [hlow]
        rfl
      simp only [hvalue, Holds, lowest, decMin_eq]
      cases f.isSigned with
      | false =>
          rw [if_neg Bool.false_ne_true, if_neg Bool.false_ne_true]
          exact ⟨⟨by omega, by omega⟩, hemod⟩
      | true =>
          rw [if_pos rfl, if_pos rfl, Numeral.signExtend]
          -- the upper half of the bits is the lower half of the numbers
          split
          · exact ⟨⟨by omega, by omega⟩, hemod⟩
          · rw [Int.sub_emod_right]
            exact ⟨⟨by omega, by omega⟩, hemod⟩

end Field

namespace Numeral

variable {n : Numeral} {f : Field} {bits : UInt16}

theorem accepts_decode (bits : UInt16) (f : Field) (r : Radix) :
    f.accepts (decode bits f r) = true := by
  rw [Field.accepts_iff, Field.radix_decode]
  exact (f.holds_decode r bits).1

theorem fit_decode (bits : UInt16) (f : Field) (r : Radix) :
    (decode bits f r).fit f = .ok (UInt16.ofNat (bits.toNat % 2 ^ f.width)) := by
  rw [fit, if_pos (accepts_decode bits f r), (f.holds_decode r bits).2, Int.toNat_natCast,
    f.modulus_eq, Nat.one_shiftLeft]

/-- A numeral that is put into a field is read back. -/
theorem decode_of_fit (h : n.fit f = .ok bits) : decode bits f n.radix = n := by
  have haccepts : f.accepts n = true := by
    unfold fit at h
    split at h
    · assumption
    · cases h
  obtain ⟨hholds, hemod⟩ := f.holds_decode n.radix bits
  have hvalue : (decode bits f n.radix).value = n.value := by
    apply Field.eq_of_emod_eq hholds (Field.accepts_iff.mp haccepts)
    rw [hemod, Int.natCast_mod, toNat_of_fit h, Int.emod_emod]
  rw [← Radix.numeral_value (decode bits f n.radix), hvalue, Field.radix_decode,
    Radix.numeral_value]

/-! ## round trips -/

/-- Of every numeral that is read from a token, the text is read as that numeral, also behind a
literal mark, and so are its bits in every field that accepts it.  All bits of a field are those
of a numeral that the field accepts, and the text of this numeral is read as well. -/
theorem numerals_round_trip (f : Field) :
    (∀ token n, parse token = .ok n →
      parse n.render = .ok n ∧ parse ("=" ++ n.render) = .ok n ∧
        (f.accepts n = true → ∃ bits, n.fit f = .ok bits ∧ decode bits f n.radix = n)) ∧
    ∀ bits r, f.accepts (decode bits f r) = true ∧
      (decode bits f r).fit f = .ok (UInt16.ofNat (bits.toNat % 2 ^ f.width)) ∧
      parse (decode bits f r).render = .ok (decode bits f r) := by
  constructor
  · intro token n h
    have hadmits := (parse_eq_ok_iff.mp h).2
    refine ⟨parse_render hadmits, parse_append_render hadmits (.inr rfl), fun haccepts => ?_⟩
    have hfit : n.fit f = .ok (UInt16.ofNat (n.value % f.modulus).toNat) := if_pos haccepts
    exact ⟨_, hfit, decode_of_fit hfit⟩
  · intro bits r
    have haccepts := accepts_decode bits f r
    have hadmits := (Field.accepts_iff.mp haccepts).admits
    exact ⟨haccepts, fit_decode bits f r, parse_render hadmits⟩

/-- The smallest number of five bits, written with zeros and as a literal. -/
theorem numerals_round_trip_paddedLiteral :
    parse "=#-0016" = .ok (.dec (-16)) ∧ (dec (-16)).render = "#-16" ∧
      parse "#-16" = .ok (.dec (-16)) ∧
      ∃ bits, (dec (-16)).fit .imm5 = .ok bits ∧ decode bits .imm5 .dec = .dec (-16) := by
  have hparse : parse "=#-0016" = .ok (.dec (-16)) := by decide
  have h := (numerals_round_trip .imm5).1 _ _ hparse
  exact ⟨hparse, rfl, h.1, h.2.2 (by decide)⟩

end Numeral

end PageAsm
