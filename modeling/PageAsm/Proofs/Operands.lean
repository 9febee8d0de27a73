import PageAsm.Proofs.DigitText
import PageAsm.Proofs.Patching

/-!
# PageAsm.Proofs.Operands

What the operands of an instruction stand for, stated apart from the functions
that read them:

```
number      a numeral, or the name of a number
register    `R` and its number, or the name of its number
address     literal of a transfer          its place in the pool
            numeral, or name of a number   the number
            name of a place                the place
            external name, or alias        zero
```

A name that is declared external is no number and no place of the segment, also
if the layout has a symbol of this name.  There is one equivalence for each way
to read an operand (`value_eq_ok`, `register_eq_ok`, `pointsAt_iff`).
-/

namespace PageAsm

open Outcome

/-! ## the operand field -/

namespace Line

variable {line : Line}

/-- The field has the operands in it, with commas in between. -/
theorem toList_operands (line : Line) :
    line.operands.toList = [','].intercalate (line.operandList.map String.toList) := by
  unfold operandList
  split
  · next hblank =>
    rw [hblank]
    rfl
  · have hid : String.toList ∘ String.ofList = id := funext fun _ => String.toList_ofList
    rw [List.map_map, hid, List.map_id, Text.splitOn_eq, List.intercalate_splitOn]

theorem comma_not_mem {token : String} (h : token ∈ line.operandList) : ',' ∉ token.toList := by
  unfold operandList at h
  split at h
  · cases h
  · obtain ⟨piece, hpiece, rfl⟩ := List.mem_map.mp h
    rw [String.toList_ofList]
    exact Text.not_mem_of_mem_splitOn hpiece

/-- Operands without commas can be put together and taken apart.  Not so a single one that
is blank: the field is then taken to hold none. -/
theorem operandList_of_intercalate {tokens : List String}
    (h : line.operands = ",".intercalate tokens) (comma : ∀ token ∈ tokens, ',' ∉ token.toList)
    (blank : tokens ≠ [""]) : line.operandList = tokens := by
  cases tokens with
  | nil => exact if_pos h
  | cons token tokens =>
      have hlist : line.operands.toList =
          [','].intercalate ((token :: tokens).map String.toList) := by
        rw [h, String.toList_intercalate]
        rfl
      have hfield : line.operands ≠ "" := by
        intro heq
        rw [heq] at hlist
        cases tokens with
        | nil =>
            rw [List.map_cons, List.map_nil, List.intercalate_singleton] at hlist
            exact blank (by rw [String.toList_inj.mp hlist])
        | cons other tokens =>
            rw [List.map_cons, List.map_cons, List.intercalate_cons_cons] at hlist
            simp at hlist
      have hcomma : ∀ piece ∈ (token :: tokens).map String.toList, ',' ∉ piece := by
        intro piece hmem
        obtain ⟨other, hother, rfl⟩ := List.mem_map.mp hmem
        exact comma other hother
      have hid : String.ofList ∘ String.toList = id := funext fun _ => String.ofList_toList
      rw [operandList, if_neg hfield, hlist, Text.splitOn_eq,
        List.splitOn_intercalate _ hcomma (by simp), List.map_map, hid, List.map_id]

end Line

/-! ## numbers in fields -/

namespace Numeral

/-- A field has the low bits of the number that is put into it. -/
theorem toNat_of_fit {n : Numeral} {f : Field} {bits : UInt16} (h : n.fit f = .ok bits) :
    (bits.toNat : Int) = n.value % f.modulus := by
  unfold fit at h
  split at h
  · have hpos : 0 < f.modulus ∧ f.modulus ≤ 65536 := by cases f <;> decide
    have hbits : UInt16.ofNat (n.value % f.modulus).toNat = bits := Except.ok.inj h
    have hlow := Int.emod_nonneg n.value (b := f.modulus) (by omega)
    have hhigh := Int.emod_lt_of_pos n.value (b := f.modulus) (by omega)
    rw [← hbits, UInt16.toNat_ofNat']
    omega
  · cases h

theorem accepts_address_iff {n : Numeral} :
    Field.address.accepts n = true ↔ 0 ≤ n.value ∧ n.value ≤ 65535 := by
  cases n with
  | hex w =>
      have hw := w.toNat_lt
      rw [Field.accepts, decide_eq_true_iff, Field.hexMax, value]
      omega
  | dec v => exact decide_eq_true_iff

/-- The numbers that are addresses. -/
theorem fit_address_eq_ok {n : Numeral} {address : UInt16} :
    n.fit .address = .ok address ↔ n.value = address.toNat := by
  have hlt := address.toNat_lt
  constructor
  · intro h
    have hbits := toNat_of_fit h
    unfold fit at h
    split at h
    · next haccepts =>
      have hrange := accepts_address_iff.mp haccepts
      simp only [Field.modulus] at hbits
      omega
    · cases h
  · intro h
    have haccepts : Field.address.accepts n = true :=
      accepts_address_iff.mpr ⟨by omega, by omega⟩
    rw [fit, if_pos haccepts, Except.ok.injEq]
    apply UInt16.toNat_inj.mp
    rw [UInt16.toNat_ofNat', Field.modulus]
    omega

end Numeral

/-! ## register tokens -/

namespace Register

theorem ofInt?_eq_some {n : Int} {r : Register} : ofInt? n = some r ↔ n = r.val := by
  have hlt := r.isLt
  unfold ofInt?
  split
  · next hrange =>
    rw [Option.some.injEq, Fin.ext_iff]
    simp only
    omega
  · next hrange =>
    simp only [reduceCtorEq, false_iff]
    omega

theorem ofInt?_of_le {n : Nat} (h : 8 ≤ n) : ofInt? n = none := by
  rw [ofInt?, dif_neg (by omega)]

theorem isToken_iff {token : String} :
    isToken token = true ↔
      ∃ digits n, token.toList = 'R' :: digits ∧ Text.ofDigits? 10 digits = some n := by
  unfold isToken
  split
  · next digits hlist =>
    rw [← Text.isSome_ofDigits?_ten, Option.isSome_iff_exists]
    constructor
    · rintro ⟨n, hvalue⟩
      exact ⟨digits, n, hlist, hvalue⟩
    · rintro ⟨digits', n, hlist', hvalue⟩
      cases hlist.symm.trans hlist'
      exact ⟨n, hvalue⟩
  · next hlist =>
    simp only [Bool.false_eq_true, false_iff, not_exists, not_and]
    exact fun digits n heq => absurd heq (hlist digits)

/-- A number that is no 32-bit integer is not that of a register either. -/
theorem parse_of_digits {token : String} {digits : List Char} {n : Nat}
    (hlist : token.toList = 'R' :: digits) (hvalue : Text.ofDigits? 10 digits = some n) :
    parse token = (ofInt? n).elim (.error .outOfRange) .ok := by
  have hdigits : (!digits.isEmpty && digits.all Char.isDigit) = true := by
    rw [← Text.isSome_ofDigits?_ten, hvalue]
    rfl
  have hmalformed : (digits.isEmpty || !digits.all Char.isDigit) = false := by
    rwa [← Bool.not_eq_true', Bool.not_or, Bool.not_not]
  have hsigned : Text.ofSignedDigits? 10 digits = some (n : Int) :=
    (Text.ofSignedDigits?_eq_some_iff (by decide)).mpr
      (.unsigned ((Text.ofDigits?_eq_some_iff (by decide)).mp hvalue))
  have hbind : (Numeral.int32? 10 digits).bind ofInt? = ofInt? n := by
    rw [Numeral.int32?, hsigned, Option.filter_some]
    split
    · rfl
    · next hlarge =>
      rw [decide_eq_true_iff] at hlarge
      rw [ofInt?_of_le (by omega), Option.bind_none]
  simp only [parse, hlist, hmalformed, Bool.false_eq_true, if_false, hbind]
  cases ofInt? n <;> rfl

theorem parse_of_not_isToken {token : String} (h : isToken token = false) :
    parse token = .error .malformed := by
  unfold isToken at h
  unfold parse
  split
  · next digits hlist =>
    rw [hlist] at h
    have hmalformed : (digits.isEmpty || !digits.all Char.isDigit) = true := by
      rwa [← Bool.not_eq_false', Bool.not_or, Bool.not_not]
    rw [if_pos hmalformed]
  · rfl

/-- A register is written as `R` and its number. -/
theorem parse_eq_ok {token : String} {r : Register} :
    parse token = .ok r ↔
      ∃ digits, token.toList = 'R' :: digits ∧ Text.ofDigits? 10 digits = some r.val := by
  constructor
  · intro h
    have htoken : isToken token = true := by
      by_contra hplain
      rw [parse_of_not_isToken (Bool.eq_false_iff.mpr hplain)] at h
      cases h
    obtain ⟨digits, n, hlist, hvalue⟩ := isToken_iff.mp htoken
    rw [parse_of_digits hlist hvalue] at h
    cases hr : ofInt? n with
    | some read =>
        rw [hr] at h
        cases h
        exact ⟨digits, hlist, by rw [hvalue, Int.ofNat_inj.mp (ofInt?_eq_some.mp hr)]⟩
    | none =>
        rw [hr] at h
        cases h
  · rintro ⟨digits, hlist, hvalue⟩
    rw [parse_of_digits hlist hvalue, ofInt?_eq_some.mpr rfl]
    rfl

/-- A register is held as its number. -/
theorem ofNumeral_eq_ok {n : Numeral} {r : Register} :
    ofNumeral n = .ok r ↔ n.value = r.val := by
  rw [← ofInt?_eq_some, ofNumeral]
  split
  · next hr => rw [hr, Except.ok.injEq, Option.some.injEq]
  · next hr => simp [hr]

theorem isToken_of_parse {token : String} {r : Register} (h : parse token = .ok r) :
    isToken token = true := by
  obtain ⟨digits, hlist, hvalue⟩ := parse_eq_ok.mp h
  exact isToken_iff.mpr ⟨digits, _, hlist, hvalue⟩

end Register

/-! ## operands -/

namespace Emitter

variable {t : Layout} {e : Emitter} {line : Line} {token : String}

/-- The operand holds a number: it is a numeral, or the name of a number. -/
inductive HoldsNumber (t : Layout) (e : Emitter) (token : String) (n : Numeral) : Prop where
  | numeral (numeric : isNumeric token = true) (parsed : Numeral.parse token = .ok n)
  | symbol (numeric : isNumeric token = false) (internal : token ∉ e.externals)
      (defined : t.symbols.get? token = some (.absolute n))

/-- The operand stands for a register: it is `R` and the number of the register, or the name
of that number. -/
inductive HoldsRegister (t : Layout) (e : Emitter) (token : String) (r : Register) : Prop where
  | token {digits : List Char} (spelled : token.toList = 'R' :: digits)
      (number : Text.ofDigits? 10 digits = some r.val)
  | symbol {n : Numeral} (plain : Register.isToken token = false)
      (numeric : isNumeric token = false) (held : HoldsNumber t e token n)
      (number : n.value = r.val)

/-- The operand of a line stands for an address. -/
inductive PointsAt (t : Layout) (e : Emitter) (line : Line) (token : String)
    (address : UInt16) : Prop where
  | literal {n : Numeral} (literal : line.takesLiteral = true)
      (parsed : Numeral.parse token = .ok n) (range : Field.word.accepts n = true)
      (pooled : t.literals.get? token = some address)
  | number {n : Numeral} (literal : line.takesLiteral = false) (held : HoldsNumber t e token n)
      (value : n.value = address.toNat)
  | label (literal : line.takesLiteral = false) (numeric : isNumeric token = false)
      (internal : token ∉ e.externals)
      (defined : t.symbols.get? token = some (.relative address))
  | external (literal : line.takesLiteral = false) (numeric : isNumeric token = false)
      (declared : token ∈ e.externals) (zero : address = 0)
  | renamed {name : String} (literal : line.takesLiteral = false)
      (numeric : isNumeric token = false) (internal : token ∉ e.externals)
      (defined : t.symbols.get? token = some (.external name)) (declared : name ∈ e.externals)
      (zero : address = 0)

theorem absolute_eq_ok {n : Numeral} :
    e.absolute t line token = .ok n ↔
      token ∉ e.externals ∧ t.symbols.get? token = some (.absolute n) := by
  unfold absolute
  split
  · next hext => simp [hext]
  · next hint =>
    split
    · next hget => simp [hget]
    · next value hget => simp [hint, hget]
    · next symbol hne hget =>
      rw [hget, Option.some.injEq]
      simp only [Line.fail_ne_ok, false_iff, not_and]
      exact fun _ => hne n

/-- A value operand is the number that it holds, in the bits of its field. -/
theorem value_eq_ok {field : Field} {bits : UInt16} :
    e.value t line token field = .ok bits ↔
      ∃ n, e.HoldsNumber t token n ∧ n.fit field = .ok bits := by
  unfold value
  by_cases hn : isNumeric token = true
  · simp only [hn, if_true, bind_eq_ok, Line.orFail_eq_ok]
    constructor
    · rintro ⟨n, hparse, hfit⟩
      exact ⟨n, .numeral hn hparse, hfit⟩
    · rintro ⟨n, hheld, hfit⟩
      cases hheld with
      | numeral _ parsed => exact ⟨n, parsed, hfit⟩
      | symbol numeric => simp [hn] at numeric
  · simp only [hn, Bool.false_eq_true, if_false, bind_eq_ok, Line.orFail_eq_ok, absolute_eq_ok]
    constructor
    · rintro ⟨n, ⟨hint, hget⟩, hfit⟩
      exact ⟨n, .symbol (Bool.eq_false_iff.mpr hn) hint hget, hfit⟩
    · rintro ⟨n, hheld, hfit⟩
      cases hheld with
      | numeral numeric => exact absurd numeric hn
      | symbol _ internal defined => exact ⟨n, ⟨internal, defined⟩, hfit⟩

/-- The value of a `.BLKW` operand is the number that it holds. -/
theorem blockValue_iff {n : Numeral} :
    e.BlockValue t line n ↔ e.HoldsNumber t line.operands n := by
  unfold BlockValue
  split
  · next numeric =>
    constructor
    · exact .numeral numeric
    · intro h
      cases h with
      | numeral _ parsed => exact parsed
      | symbol hnumeric => simp [numeric] at hnumeric
  · next numeric =>
    rw [absolute_eq_ok]
    constructor
    · rintro ⟨internal, defined⟩
      exact .symbol (Bool.eq_false_iff.mpr numeric) internal defined
    · intro h
      cases h with
      | numeral hnumeric => exact absurd hnumeric numeric
      | symbol _ internal defined => exact ⟨internal, defined⟩

/-- A register operand is the register that it stands for. -/
theorem register_eq_ok {r : Register} :
    e.register t line token = .ok r ↔ e.HoldsRegister t token r := by
  unfold register
  by_cases htoken : Register.isToken token = true
  · rw [if_pos htoken, Line.orFail_eq_ok, Register.parse_eq_ok]
    constructor
    · rintro ⟨digits, spelled, number⟩
      exact .token spelled number
    · intro h
      cases h with
      | token spelled number => exact ⟨_, spelled, number⟩
      | symbol plain => simp [htoken] at plain
  · have hspelled : ∀ digits, token.toList = 'R' :: digits →
        Text.ofDigits? 10 digits ≠ some r.val := fun digits spelled number =>
      htoken (Register.isToken_of_parse (Register.parse_eq_ok.mpr ⟨digits, spelled, number⟩))
    rw [if_neg htoken]
    by_cases hn : isNumeric token = true
    · rw [if_pos hn, Line.fail_ne_ok, false_iff]
      intro h
      cases h with
      | token spelled number => exact hspelled _ spelled number
      | symbol _ numeric => simp [hn] at numeric
    · have hn' := Bool.eq_false_iff.mpr hn
      simp only [hn, Bool.false_eq_true, if_false, bind_eq_ok, Line.orFail_eq_ok, absolute_eq_ok,
        Register.ofNumeral_eq_ok]
      constructor
      · rintro ⟨n, ⟨hint, hget⟩, hvalue⟩
        exact .symbol (Bool.eq_false_iff.mpr htoken) hn' (.symbol hn' hint hget) hvalue
      · intro h
        cases h with
        | token spelled number => exact absurd number (hspelled _ spelled)
        | symbol _ _ held number =>
            cases held with
            | numeral numeric => exact absurd numeric hn
            | symbol _ internal defined => exact ⟨_, ⟨internal, defined⟩, number⟩

/-- A literal that is a word refers to its place in the pool. -/
theorem literal_eq_ok {target : Target} :
    literal t line token = .ok target ↔ ∃ n address, Numeral.parse token = .ok n ∧
      Field.word.accepts n = true ∧ t.literals.get? token = some address ∧
      target = .relative address := by
  have hword : (∃ w, literalWord line token = .ok w) ↔
      ∃ n, Numeral.parse token = .ok n ∧ Field.word.accepts n = true := by
    simp only [literalWord, Line.orFail_eq_ok, bind_eq_ok, Numeral.fit]
    constructor
    · rintro ⟨w, n, hparse, hfit⟩
      split at hfit
      · next haccepts => exact ⟨n, hparse, haccepts⟩
      · cases hfit
    · rintro ⟨n, hparse, haccepts⟩
      exact ⟨_, n, hparse, if_pos haccepts⟩
  unfold literal
  rw [bind_eq_ok]
  cases hget : t.literals.get? token with
  | none => simp
  | some address =>
      simp only [pure_eq_ok, Option.some.injEq, exists_and_right, hword]
      grind

/-- An operand stands for an address if it refers to something whose address that is. -/
theorem pointsAt_iff {address : UInt16} :
    e.PointsAt t line token address ↔
      ∃ target, e.RefersTo t line token target ∧ target.address line token = .ok address := by
  unfold RefersTo
  constructor
  · intro h
    cases h with
    | literal literal parsed range pooled =>
        refine ⟨.relative address, ?_, rfl⟩
        rw [if_pos literal]
        exact literal_eq_ok.mpr ⟨_, _, parsed, range, pooled, rfl⟩
    | @number n literal held value =>
        have haddress : (Target.absolute n).address line token = .ok address := by
          rw [Target.address, Line.orFail_eq_ok]
          exact Numeral.fit_address_eq_ok.mpr value
        refine ⟨.absolute n, ?_, haddress⟩
        cases held with
        | numeral numeric parsed =>
            rw [if_neg (by simp [literal]), resolve, if_pos numeric, parsed]
            rfl
        | symbol numeric internal defined => simp [literal, resolve, numeric, internal, defined]
    | label literal numeric internal defined =>
        exact ⟨.relative address, by simp [literal, resolve, numeric, internal, defined], rfl⟩
    | external literal numeric declared zero =>
        exact ⟨.external token, by simp [literal, resolve, numeric, declared], by rw [zero]; rfl⟩
    | @renamed name literal numeric internal defined declared zero =>
        refine ⟨.external name, ?_, by rw [zero]; rfl⟩
        simp [literal, resolve, numeric, internal, defined, declared]
  · rintro ⟨target, hrefers, haddress⟩
    split at hrefers
    · next literal =>
      obtain ⟨n, address', parsed, range, pooled, rfl⟩ := literal_eq_ok.mp hrefers
      cases haddress
      exact .literal literal parsed range pooled
    · next literal =>
      have literal := Bool.eq_false_iff.mpr literal
      unfold resolve at hrefers
      split at hrefers
      · next numeric =>
        simp only [bind_eq_ok, Line.orFail_eq_ok, pure_eq_ok] at hrefers
        obtain ⟨n, parsed, rfl⟩ := hrefers
        rw [Target.address, Line.orFail_eq_ok, Numeral.fit_address_eq_ok] at haddress
        exact .number literal (.numeral numeric parsed) haddress
      · next numeric =>
        have numeric := Bool.eq_false_iff.mpr numeric
        split at hrefers
        · next declared =>
          cases hrefers
          exact .external literal numeric declared (Except.ok.inj haddress).symm
        · next internal =>
          split at hrefers
          · simp at hrefers
          · next name defined =>
            split at hrefers
            · next declared =>
              cases hrefers
              exact .renamed literal numeric internal defined declared (Except.ok.inj haddress).symm
            · simp at hrefers
          · next n defined =>
            cases hrefers
            rw [Target.address, Line.orFail_eq_ok, Numeral.fit_address_eq_ok] at haddress
            exact .number literal (.symbol numeric internal defined) haddress
          · next place defined =>
            cases hrefers
            cases haddress
            exact .label literal numeric internal defined

end Emitter

end PageAsm
