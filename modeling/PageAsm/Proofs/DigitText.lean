import Mathlib.Data.List.Forall2
import Mathlib.Data.Nat.Digits.Defs
import Mathlib.Tactic.IntervalCases
import PageAsm.Text.Digits

/-!
# PageAsm.Proofs.DigitText

What strings of digits say.  A string of digits spells the number that it is in
positional notation, most significant digit first, in a base up to sixteen:

```
Spells 16 "7b"    123        7 · 16 + 11
Spells 10 "0123"  123        zeros in front do not count
```

Reading finds exactly that number (`ofDigits?_eq_some_iff`), also after a sign
(`ofSignedDigits?_eq_some_iff`).  What is written is read back: in a fixed
number of places the low digits of a number (`ofDigits?_fixedDigits`), and in
decimal all of it (`spellsSigned_decimal`).  In a base up to ten, what is read
is also written again as it was (`fixedDigits_of_ofDigits?`).
-/

namespace PageAsm.Text

/-! ## what digits spell -/

/-- The character stands for the value in the base, in upper or in lower case. -/
def IsDigit (base : Nat) (c : Char) (d : Nat) : Prop :=
  d < base ∧
    ("0123456789ABCDEF".toList[d]? = some c ∨ "0123456789abcdef".toList[d]? = some c)

/-- The characters, at least one, are the digits of the number. -/
def Spells (base : Nat) (cs : List Char) (n : Nat) : Prop :=
  cs ≠ [] ∧ ∃ ds, List.Forall₂ (IsDigit base) cs ds ∧ Nat.ofDigits base ds.reverse = n

/-- The characters are the digits of the number after at most one sign. -/
inductive SpellsSigned (base : Nat) : List Char → Int → Prop where
  | unsigned {digits : List Char} {n : Nat} (spells : Spells base digits n) :
      SpellsSigned base digits n
  | plus {digits : List Char} {n : Nat} (spells : Spells base digits n) :
      SpellsSigned base ('+' :: digits) n
  | minus {digits : List Char} {n : Nat} (spells : Spells base digits n) :
      SpellsSigned base ('-' :: digits) (-n)

/-! ## reading -/

variable {base : Nat} {c : Char} {cs : List Char} {d n : Nat} {v : Int}

theorem digit?_eq_some_iff (hbase : base ≤ 16) : digit? base c = some d ↔ IsDigit base c d := by
  unfold digit? IsDigit
  simp only [Option.filter_eq_some_iff, decide_eq_true_iff]
  rw [and_comm, and_congr_right_iff]
  intro hd
  constructor
  · intro hvalue
    rw [← Char.ofNat_toNat c]
    generalize c.toNat = code at hvalue
    -- one block of codes for the digits, and one for the letters of each case
    split_ifs at hvalue with hcode hcode hcode
    all_goals
      obtain ⟨hlow, hhigh⟩ := hcode
      simp only [Char.reduceToNat] at hlow hhigh
      interval_cases code <;> cases hvalue <;> decide
  · intro h
    have hd16 : d < 16 := by omega
    clear hd hbase
    interval_cases d <;> rcases h with h | h <;> cases h <;> rfl

/-- Digits behind others count on from the value of those. -/
theorem foldDigits?_eq_some_iff (hbase : base ≤ 16) {acc : Nat} :
    foldDigits? base acc cs = some n ↔ ∃ ds, List.Forall₂ (IsDigit base) cs ds ∧
      acc * base ^ cs.length + Nat.ofDigits base ds.reverse = n := by
  induction cs generalizing acc with
  | nil => simp [foldDigits?]
  | cons c cs ih =>
      rw [foldDigits?, Option.bind_eq_some_iff]
      simp only [ih, digit?_eq_some_iff hbase, List.forall₂_cons_left_iff]
      constructor
      · rintro ⟨d, hd, ds, hds, rfl⟩
        refine ⟨d :: ds, ⟨d, ds, hd, hds, rfl⟩, ?_⟩
        rw [List.reverse_cons, Nat.ofDigits_append, Nat.ofDigits_singleton, List.length_reverse,
          ← hds.length_eq, List.length_cons]
        ring
      · rintro ⟨-, ⟨d, ds, hd, hds, rfl⟩, rfl⟩
        refine ⟨d, hd, ds, hds, ?_⟩
        rw [List.reverse_cons, Nat.ofDigits_append, Nat.ofDigits_singleton, List.length_reverse,
          ← hds.length_eq, List.length_cons]
        ring

/-- Reading finds the number that the digits spell. -/
theorem ofDigits?_eq_some_iff (hbase : base ≤ 16) :
    ofDigits? base cs = some n ↔ Spells base cs n := by
  cases cs with
  | nil => simp [ofDigits?, Spells]
  | cons c cs => simp [ofDigits?, Spells, foldDigits?_eq_some_iff hbase]

theorem isSome_foldDigits? {acc : Nat} :
    (foldDigits? base acc cs).isSome = cs.all fun c => (digit? base c).isSome := by
  induction cs generalizing acc with
  | nil => rfl
  | cons c cs ih =>
      rw [foldDigits?, List.all_cons]
      cases digit? base c with
      | none => rfl
      | some d => exact ih

/-- What has a value is a non-empty string of digits. -/
theorem isSome_ofDigits? :
    (ofDigits? base cs).isSome = (!cs.isEmpty && cs.all fun c => (digit? base c).isSome) := by
  cases cs with
  | nil => rfl
  | cons c cs => exact isSome_foldDigits?

theorem isSome_digit?_ten : (digit? 10 c).isSome = c.isDigit := by
  rw [Bool.eq_iff_iff, Char.isDigit_iff_toNat, digit?]
  simp only [Option.isSome_filter, Char.reduceToNat]
  -- letters have values too, but from ten on
  split_ifs <;> simp_all
  omega

/-- In decimal these are the digits of ASCII. -/
theorem isSome_ofDigits?_ten :
    (ofDigits? 10 cs).isSome = (!cs.isEmpty && cs.all Char.isDigit) := by
  simp only [isSome_ofDigits?, isSome_digit?_ten]

/-- A sign is not a digit. -/
theorem Spells.head_ne (hbase : base ≤ 16) (h : Spells base (c :: cs) n) : c ≠ '+' ∧ c ≠ '-' := by
  obtain ⟨-, ds, hds, -⟩ := h
  cases hds with
  | cons hd _ =>
      rw [← digit?_eq_some_iff hbase] at hd
      constructor
      · rintro rfl
        cases hd
      · rintro rfl
        cases hd

/-- Reading finds the number that the sign and the digits spell. -/
theorem ofSignedDigits?_eq_some_iff (hbase : base ≤ 16) :
    ofSignedDigits? base cs = some v ↔ SpellsSigned base cs v := by
  constructor
  · intro h
    unfold ofSignedDigits? at h
    split at h
    all_goals
      obtain ⟨n, hn, rfl⟩ := Option.map_eq_some_iff.mp h
      rw [ofDigits?_eq_some_iff hbase] at hn
    · exact .plus hn
    · exact .minus hn
    · exact .unsigned hn
  · intro h
    cases h with
    | plus spells | minus spells =>
        rw [ofSignedDigits?, (ofDigits?_eq_some_iff hbase).mpr spells]
        rfl
    | unsigned spells =>
        rw [ofSignedDigits?, (ofDigits?_eq_some_iff hbase).mpr spells]
        · rfl
        · rintro digits rfl
          exact (spells.head_ne hbase).1 rfl
        · rintro digits rfl
          exact (spells.head_ne hbase).2 rfl

/-! ## writing -/

theorem digit?_digitChar (hbase : base ≤ 16) (hd : d < base) :
    digit? base (digitChar d) = some d := by
  have hd16 : d < 16 := by omega
  rw [digit?_eq_some_iff hbase]
  refine ⟨hd, .inl ?_⟩
  clear hd hbase
  interval_cases d <;> rfl

theorem foldDigits?_append {acc : Nat} (xs ys : List Char) :
    foldDigits? base acc (xs ++ ys) =
      (foldDigits? base acc xs).bind fun acc => foldDigits? base acc ys := by
  induction xs generalizing acc with
  | nil => rfl
  | cons x xs ih =>
      rw [List.cons_append, foldDigits?, foldDigits?, Option.bind_assoc]
      congr
      funext d
      exact ih

/-- Digits in a fixed number of places are the low digits of the number. -/
theorem foldDigits?_fixedDigits (hbase : base ≤ 16) (hpos : 0 < base) (width n acc : Nat) :
    foldDigits? base acc (fixedDigits base width n) =
      some (acc * base ^ width + n % base ^ width) := by
  induction width generalizing n with
  | zero => simp [fixedDigits, foldDigits?, Nat.mod_one]
  | succ width ih =>
      have hdigit : digit? base (digitChar (n % base)) = some (n % base) :=
        digit?_digitChar hbase (Nat.mod_lt _ hpos)
      rw [fixedDigits, foldDigits?_append, ih, Option.bind_some, foldDigits?, hdigit,
        Option.bind_some, foldDigits?, Nat.pow_succ', Nat.mod_mul, Option.some.injEq]
      ring

theorem ofDigits?_fixedDigits (hbase : base ≤ 16) (hpos : 0 < base) {width : Nat}
    (hwidth : 0 < width) (n : Nat) :
    ofDigits? base (fixedDigits base width n) = some (n % base ^ width) := by
  have hfold := foldDigits?_fixedDigits hbase hpos width n 0
  rw [Nat.zero_mul, Nat.zero_add] at hfold
  have hlength := length_fixedDigits base width n
  cases hcs : fixedDigits base width n with
  | nil =>
      rw [hcs, List.length_nil] at hlength
      omega
  | cons c cs =>
      rw [hcs] at hfold
      exact hfold

/-- What is not a digit is not written. -/
theorem not_mem_fixedDigits (hbase : base ≤ 16) (hpos : 0 < base) (hc : digit? base c = none)
    (width n : Nat) : c ∉ fixedDigits base width n := by
  induction width generalizing n with
  | zero => exact List.not_mem_nil
  | succ width ih =>
      have hlast : c ≠ digitChar (n % base) := by
        rintro rfl
        rw [digit?_digitChar hbase (Nat.mod_lt _ hpos)] at hc
        cases hc
      rw [fixedDigits, List.mem_append, List.mem_singleton, not_or]
      exact ⟨ih (n / base), hlast⟩

/-- The leading places have the digits of what is above the others. -/
theorem fixedDigits_add (base front width n : Nat) :
    fixedDigits base (front + width) n =
      fixedDigits base front (n / base ^ width) ++ fixedDigits base width n := by
  induction width generalizing n with
  | zero => simp [fixedDigits]
  | succ width ih =>
      rw [← Nat.add_assoc, fixedDigits, ih, fixedDigits, Nat.div_div_eq_div_mul, Nat.pow_succ',
        List.append_assoc]

/-- What is above the places does not count. -/
theorem fixedDigits_mod (base width n : Nat) :
    fixedDigits base width (n % base ^ width) = fixedDigits base width n := by
  induction width generalizing n with
  | zero => rfl
  | succ width ih =>
      rw [fixedDigits, fixedDigits, Nat.pow_succ', Nat.mod_mul_right_div_self, ih,
        Nat.mod_mul_right_mod]

/-- In a base up to ten there is one character for each digit. -/
theorem IsDigit.eq_digitChar (hbase : base ≤ 10) (h : IsDigit base c d) : c = digitChar d := by
  obtain ⟨hd, h⟩ := h
  have hd10 : d < 10 := by omega
  clear hd hbase
  interval_cases d <;> rcases h with h | h <;> cases h <;> rfl

/-- The digits are the low ones of the number that they make behind others. -/
theorem fixedDigits_of_foldDigits? (hbase : base ≤ 10) {acc : Nat}
    (h : foldDigits? base acc cs = some n) :
    fixedDigits base cs.length n = cs ∧ n / base ^ cs.length = acc := by
  induction cs generalizing acc with
  | nil =>
      cases h
      exact ⟨rfl, by simp⟩
  | cons c cs ih =>
      obtain ⟨d, hd, hrest⟩ := Option.bind_eq_some_iff.mp h
      obtain ⟨hdigits, hquot⟩ := ih hrest
      rw [digit?_eq_some_iff (by omega)] at hd
      have hlow : (acc * base + d) % base = d := by
        rw [Nat.mul_add_mod_self_right, Nat.mod_eq_of_lt hd.1]
      have hhigh : (acc * base + d) / base = acc := by
        rw [Nat.mul_comm, Nat.mul_add_div (Nat.zero_lt_of_lt hd.1), Nat.div_eq_of_lt hd.1,
          Nat.add_zero]
      constructor
      · rw [List.length_cons, Nat.add_comm, fixedDigits_add, hdigits, hquot, fixedDigits,
          fixedDigits, hlow, ← hd.eq_digitChar hbase]
        rfl
      · rw [List.length_cons, Nat.pow_succ, ← Nat.div_div_eq_div_mul, hquot, hhigh]

/-- Digits that are read are written again in as many places. -/
theorem fixedDigits_of_ofDigits? (hbase : base ≤ 10) (h : ofDigits? base cs = some n) :
    fixedDigits base cs.length n = cs := by
  cases cs with
  | nil => cases h
  | cons c cs => exact (fixedDigits_of_foldDigits? hbase h).1

/-- Digits that are read make a number that fits in as many places. -/
theorem lt_of_ofDigits? (hbase : base ≤ 10) (hpos : 0 < base) (h : ofDigits? base cs = some n) :
    n < base ^ cs.length := by
  cases cs with
  | nil => cases h
  | cons c cs =>
      have hquot := (fixedDigits_of_foldDigits? hbase h).2
      exact (Nat.div_eq_zero_iff_lt (Nat.pow_pos hpos)).mp hquot

theorem digitChar_eq {d : Nat} (hd : d < 10) : d.digitChar = digitChar d := by
  interval_cases d <;> rfl

theorem foldDigits?_toDigits (n : Nat) : foldDigits? 10 0 (Nat.toDigits 10 n) = some n := by
  induction n using Nat.strongRecOn with
  | ind n ih =>
      have hdigit : digit? 10 (n % 10).digitChar = some (n % 10) := by
        rw [digitChar_eq (by omega)]
        exact digit?_digitChar (by decide) (by omega)
      by_cases hn : n < 10
      · rw [Nat.toDigits_of_lt_base hn, foldDigits?]
        rw [Nat.mod_eq_of_lt hn] at hdigit
        simp [hdigit, foldDigits?]
      · rw [Nat.toDigits_of_base_le (by decide) (by omega), foldDigits?_append,
          ih (n / 10) (by omega), Option.bind_some, foldDigits?, hdigit, Option.bind_some,
          foldDigits?, Option.some.injEq]
        omega

theorem spells_toDigits (n : Nat) : Spells 10 (Nat.toDigits 10 n) n := by
  rw [← ofDigits?_eq_some_iff (by decide), ← foldDigits?_toDigits n]
  cases hcs : Nat.toDigits 10 n with
  | nil => exact absurd hcs Nat.toDigits_ne_nil
  | cons c cs => rfl

/-- The decimal text of an integer spells it. -/
theorem spellsSigned_decimal (v : Int) : SpellsSigned 10 (decimal v).toList v := by
  cases v with
  | ofNat n =>
      rw [decimal, Nat.toString_eq_ofList_toDigits, String.toList_ofList]
      exact .unsigned (spells_toDigits n)
  | negSucc n =>
      have hdigits : (toString (n + 1)).toList = Nat.toDigits 10 (n + 1) := by
        rw [Nat.toString_eq_ofList_toDigits, String.toList_ofList]
      rw [decimal, String.toList_append, hdigits]
      exact .minus (spells_toDigits (n + 1))

end PageAsm.Text
