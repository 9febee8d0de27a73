import PageAsm.Numeral
import PageAsm.Proofs.DigitText

/-!
# PageAsm.Proofs.NumeralGrammar

Which tokens are numerals, and what comes of the others:

```
'='? 'x' sign? hexdigit+     0 … 65535            a numeral
'='? '#' sign? digit+        -32768 … 65535       a numeral
either of them               other 32-bit value   out of range
anything else                                     malformed
```

A token has at most one number (`IsWritten.unique`), and that number alone
decides what reading the token gives (`parse_of_isWritten`).
-/

namespace PageAsm

open Text

namespace Radix

def base : Radix → Nat
  | hex => 16
  | dec => 10

/-- The character in front of the number. -/
def letter : Radix → Char
  | hex => 'x'
  | dec => '#'

/-- The smallest number of a numeral. -/
def lowest : Radix → Int
  | hex => 0
  | dec => -32768

/-- The number is one of a numeral. -/
def Admits (r : Radix) (v : Int) : Prop := r.lowest ≤ v ∧ v ≤ 65535

instance (r : Radix) (v : Int) : Decidable (r.Admits v) := inferInstanceAs (Decidable (_ ∧ _))

/-- The numeral of a number that is admitted. -/
def numeral : Radix → Int → Numeral
  | hex, v => .hex (UInt16.ofNat v.toNat)
  | dec, v => .dec v

theorem base_le (r : Radix) : r.base ≤ 16 := by
  cases r <;> decide

@[simp] theorem letter_inj {r s : Radix} : r.letter = s.letter ↔ r = s := by
  cases r <;> cases s <;> decide

@[simp] theorem radix_numeral (r : Radix) (v : Int) : (r.numeral v).radix = r := by
  cases r <;> rfl

@[simp] theorem numeral_value (n : Numeral) : n.radix.numeral n.value = n := by
  cases n with
  | hex w => simp [Numeral.radix, Numeral.value, numeral]
  | dec v => rfl

theorem value_numeral {r : Radix} {v : Int} (h : r.Admits v) : (r.numeral v).value = v := by
  obtain ⟨hlow, hhigh⟩ := h
  cases r with
  | hex =>
      rw [lowest] at hlow
      rw [numeral, Numeral.value, UInt16.toNat_ofNat']
      omega
  | dec => rfl

end Radix

namespace Numeral

/-- The number is a signed integer of 32 bits. -/
def IsInt32 (v : Int) : Prop := -2147483648 ≤ v ∧ v ≤ 2147483647

instance (v : Int) : Decidable (IsInt32 v) := inferInstanceAs (Decidable (_ ∧ _))

/-- The token is the number in the base, with or without a literal mark. -/
def IsWritten (token : String) (r : Radix) (v : Int) : Prop :=
  ∃ mark digits, (mark = [] ∨ mark = ['=']) ∧ token.toList = mark ++ r.letter :: digits ∧
    SpellsSigned r.base digits v

variable {token : String} {r s : Radix} {v w : Int}

theorem isInt32_of_admits (h : r.Admits v) : IsInt32 v := by
  obtain ⟨hlow, hhigh⟩ := h
  cases r <;> simp only [Radix.lowest] at hlow <;> constructor <;> omega

/-! ## the parts of a token -/

/-- The token without its literal mark. -/
def unmarked (token : String) : List Char :=
  match token.toList with
  | '=' :: body => body
  | body => body

theorem parse_eq (token : String) : parse token = parseChars (unmarked token) := by
  unfold parse unmarked
  split <;> simp only [*]

theorem isWritten_iff :
    IsWritten token r v ↔
      ∃ digits, unmarked token = r.letter :: digits ∧ ofSignedDigits? r.base digits = some v := by
  simp only [ofSignedDigits?_eq_some_iff r.base_le]
  have hletter : r.letter ≠ '=' := by cases r <;> decide
  constructor
  · rintro ⟨mark, digits, rfl | rfl, htoken, hdigits⟩
    · refine ⟨digits, ?_, hdigits⟩
      rw [List.nil_append] at htoken
      unfold unmarked
      split
      · next body hbody =>
        rw [htoken] at hbody
        exact absurd (List.cons.inj hbody).1 hletter
      · exact htoken
    · refine ⟨digits, ?_, hdigits⟩
      rw [unmarked, htoken]
      rfl
  · rintro ⟨digits, hbody, hdigits⟩
    unfold unmarked at hbody
    split at hbody
    · next body htoken =>
      exact ⟨['='], digits, .inr rfl, by rw [htoken, hbody]; rfl, hdigits⟩
    · exact ⟨[], digits, .inl rfl, hbody, hdigits⟩

/-- A token is one number at most, in one base. -/
theorem IsWritten.unique (h : IsWritten token r v) (h' : IsWritten token s w) : s = r ∧ w = v := by
  obtain ⟨digits, hbody, hdigits⟩ := isWritten_iff.mp h
  obtain ⟨digits', hbody', hdigits'⟩ := isWritten_iff.mp h'
  rw [hbody, List.cons.injEq, Radix.letter_inj] at hbody'
  obtain ⟨rfl, rfl⟩ := hbody'
  rw [hdigits] at hdigits'
  exact ⟨rfl, (Option.some.inj hdigits').symm⟩

/-! ## reading -/

theorem parseChars_letter (r : Radix) (digits : List Char) :
    parseChars (r.letter :: digits) =
      match int32? r.base digits with
      | none => .error .malformed
      | some v => if r.Admits v then .ok (r.numeral v) else .error .outOfRange := by
  cases r <;> rfl

theorem parseChars_of_ne {cs : List Char} (h : ∀ (r : Radix) digits, cs ≠ r.letter :: digits) :
    parseChars cs = .error .malformed := by
  unfold parseChars
  split
  · exact absurd rfl (h .hex _)
  · exact absurd rfl (h .dec _)
  · rfl

theorem int32?_eq_some {base : Nat} {cs : List Char} :
    int32? base cs = some v ↔ ofSignedDigits? base cs = some v ∧ IsInt32 v := by
  rw [int32?, Option.filter_eq_some_iff, decide_eq_true_iff, IsInt32]

/-- What reading gives depends on the number alone. -/
theorem parse_of_isWritten (h : IsWritten token r v) :
    parse token =
      if IsInt32 v then if r.Admits v then .ok (r.numeral v) else .error .outOfRange
      else .error .malformed := by
  obtain ⟨digits, hbody, hdigits⟩ := isWritten_iff.mp h
  rw [parse_eq, hbody, parseChars_letter]
  split
  · next hnone =>
    rw [if_neg]
    intro hv
    rw [int32?_eq_some.mpr ⟨hdigits, hv⟩] at hnone
    cases hnone
  · next w hsome =>
    obtain ⟨hw, hint⟩ := int32?_eq_some.mp hsome
    rw [hdigits] at hw
    cases hw
    rw [if_pos hint]

theorem parse_of_not_isWritten (h : ∀ r v, ¬ IsWritten token r v) :
    parse token = .error .malformed := by
  rw [parse_eq]
  by_cases hletter : ∃ (r : Radix) (digits : List Char), unmarked token = r.letter :: digits
  · obtain ⟨r, digits, hbody⟩ := hletter
    rw [hbody, parseChars_letter]
    split
    · rfl
    · next v hsome =>
      exact absurd (isWritten_iff.mpr ⟨digits, hbody, (int32?_eq_some.mp hsome).1⟩) (h r v)
  · exact parseChars_of_ne fun r digits hbody => hletter ⟨r, digits, hbody⟩

/-- The three things that can come of a token. -/
theorem parse_cases (token : String) :
    (∃ r v, IsWritten token r v ∧ r.Admits v ∧ parse token = .ok (r.numeral v)) ∨
    (∃ r v, IsWritten token r v ∧ IsInt32 v ∧ ¬ r.Admits v ∧ parse token = .error .outOfRange) ∨
    (∀ r v, IsWritten token r v → ¬ IsInt32 v) ∧ parse token = .error .malformed := by
  by_cases hwritten : ∃ r v, IsWritten token r v
  · obtain ⟨r, v, h⟩ := hwritten
    have hparse := parse_of_isWritten h
    by_cases hint : IsInt32 v
    · rw [if_pos hint] at hparse
      by_cases hadmits : r.Admits v
      · rw [if_pos hadmits] at hparse
        exact .inl ⟨r, v, h, hadmits, hparse⟩
      · rw [if_neg hadmits] at hparse
        exact .inr (.inl ⟨r, v, h, hint, hadmits, hparse⟩)
    · rw [if_neg hint] at hparse
      refine .inr (.inr ⟨fun s w h' => ?_, hparse⟩)
      rw [(h.unique h').2]
      exact hint
  · have hnone : ∀ r v, ¬ IsWritten token r v := fun r v h => hwritten ⟨r, v, h⟩
    exact .inr (.inr ⟨fun r v h => absurd h (hnone r v), parse_of_not_isWritten hnone⟩)

theorem parse_eq_ok_iff {n : Numeral} :
    parse token = .ok n ↔ IsWritten token n.radix n.value ∧ n.radix.Admits n.value := by
  constructor
  · intro h
    obtain ⟨r, v, hwritten, hadmits, hparse⟩ | ⟨_, _, -, -, -, hparse⟩ | ⟨-, hparse⟩ :=
      parse_cases token
    · rw [hparse] at h
      cases h
      rw [Radix.radix_numeral, Radix.value_numeral hadmits]
      exact ⟨hwritten, hadmits⟩
    · rw [hparse] at h
      cases h
    · rw [hparse] at h
      cases h
  · rintro ⟨hwritten, hadmits⟩
    rw [parse_of_isWritten hwritten, if_pos (isInt32_of_admits hadmits), if_pos hadmits,
      Radix.numeral_value]

theorem parse_eq_outOfRange_iff :
    parse token = .error .outOfRange ↔
      ∃ r v, IsWritten token r v ∧ IsInt32 v ∧ ¬ r.Admits v := by
  constructor
  · intro h
    obtain ⟨_, _, -, -, hparse⟩ | ⟨r, v, hwritten, hint, hadmits, -⟩ | ⟨-, hparse⟩ :=
      parse_cases token
    · rw [hparse] at h
      cases h
    · exact ⟨r, v, hwritten, hint, hadmits⟩
    · rw [hparse] at h
      cases h
  · rintro ⟨r, v, hwritten, hint, hadmits⟩
    rw [parse_of_isWritten hwritten, if_pos hint, if_neg hadmits]

theorem parse_eq_malformed_iff :
    parse token = .error .malformed ↔ ∀ r v, IsWritten token r v → ¬ IsInt32 v := by
  constructor
  · intro h
    obtain ⟨_, _, -, -, hparse⟩ | ⟨_, _, -, -, -, hparse⟩ | ⟨hnone, -⟩ := parse_cases token
    · rw [hparse] at h
      cases h
    · rw [hparse] at h
      cases h
    · exact hnone
  · intro h
    obtain ⟨r, v, hwritten, hadmits, -⟩ | ⟨r, v, hwritten, hint, -⟩ | ⟨-, hparse⟩ :=
      parse_cases token
    · exact absurd (isInt32_of_admits hadmits) (h r v hwritten)
    · exact absurd hint (h r v hwritten)
    · exact hparse

/-- A token reads as a numeral exactly if it is a number that its base admits, it is out of
range exactly if it is another number of 32 bits, and it is malformed in all other cases. -/
theorem parse_follows_grammar (token : String) :
    (∀ r v, (∃ n, parse token = .ok n ∧ n.radix = r ∧ n.value = v) ↔
      IsWritten token r v ∧ r.Admits v) ∧
    (parse token = .error .outOfRange ↔
      ∃ r v, IsWritten token r v ∧ IsInt32 v ∧ ¬ r.Admits v) ∧
    (parse token = .error .malformed ↔ ∀ r v, IsWritten token r v → ¬ IsInt32 v) := by
  refine ⟨fun r v => ?_, parse_eq_outOfRange_iff, parse_eq_malformed_iff⟩
  simp only [parse_eq_ok_iff]
  constructor
  · rintro ⟨n, h, rfl, rfl⟩
    exact h
  · intro h
    refine ⟨r.numeral v, ?_, r.radix_numeral v, Radix.value_numeral h.2⟩
    rw [Radix.radix_numeral, Radix.value_numeral h.2]
    exact h

end Numeral

end PageAsm
