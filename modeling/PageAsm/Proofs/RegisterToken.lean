import PageAsm.Proofs.Operands

/-!
# PageAsm.Proofs.RegisterToken

Which tokens are registers.  One function tests for the form of a register token
and another reads it:

```
token                 test    reading
R7, R007              yes     the register
R8, R99999999999      yes     out of range
R, r7, R+7, R7a, x7   no      malformed
```

The test and the reading look at the digits on their own, and the reading makes a
32-bit integer of them.  They agree nevertheless, whatever the number of digits
(`Register.parse_cases`).  So an operand that is taken for a register is none of
the symbols, whatever these are called.
-/

namespace PageAsm

open Outcome

namespace Register

variable {token : String} {n m : Nat} {r : Register}

/-- The token is `R` and the decimal digits of the number. -/
def IsWritten (token : String) (n : Nat) : Prop :=
  ∃ digits, token.toList = 'R' :: digits ∧ Text.Spells 10 digits n

theorem isToken_iff_isWritten : isToken token = true ↔ ∃ n, IsWritten token n := by
  simp only [isToken_iff, IsWritten, Text.ofDigits?_eq_some_iff (by decide : 10 ≤ 16)]
  exact exists_comm

theorem IsWritten.unique (hn : IsWritten token n) (hm : IsWritten token m) : n = m := by
  obtain ⟨digits, hlist, hn⟩ := hn
  obtain ⟨digits', hlist', hm⟩ := hm
  cases hlist.symm.trans hlist'
  rw [← Text.ofDigits?_eq_some_iff (by decide)] at hn hm
  exact Option.some.inj (hn.symm.trans hm)

/-- A token is a register, or has a number that no register has, or is of another form. -/
theorem parse_cases (token : String) :
    (∃ r : Register, IsWritten token r.val ∧ parse token = .ok r) ∨
      (∃ n, 8 ≤ n ∧ IsWritten token n ∧ parse token = .error .outOfRange) ∨
      (∀ n, ¬ IsWritten token n) ∧ parse token = .error .malformed := by
  by_cases htoken : isToken token = true
  · obtain ⟨n, hwritten⟩ := isToken_iff_isWritten.mp htoken
    obtain ⟨digits, hlist, hspells⟩ := hwritten
    have hparse := parse_of_digits hlist ((Text.ofDigits?_eq_some_iff (by decide)).mpr hspells)
    by_cases hsmall : n < 8
    · have hr : ofInt? n = some ⟨n, hsmall⟩ := ofInt?_eq_some.mpr rfl
      rw [hr] at hparse
      exact .inl ⟨⟨n, hsmall⟩, ⟨digits, hlist, hspells⟩, hparse⟩
    · have hle := Nat.le_of_not_lt hsmall
      rw [ofInt?_of_le hle] at hparse
      exact .inr (.inl ⟨n, hle, ⟨digits, hlist, hspells⟩, hparse⟩)
  · have hplain : ∀ n, ¬ IsWritten token n := fun n hwritten =>
      htoken (isToken_iff_isWritten.mpr ⟨n, hwritten⟩)
    exact .inr (.inr ⟨hplain, parse_of_not_isToken (Bool.eq_false_iff.mpr htoken)⟩)

theorem isToken_iff_parse : isToken token = true ↔ parse token ≠ .error .malformed := by
  rw [isToken_iff_isWritten]
  obtain ⟨r, hwritten, hparse⟩ | ⟨n, -, hwritten, hparse⟩ | ⟨hplain, hparse⟩ := parse_cases token
  · exact iff_of_true ⟨_, hwritten⟩ (by simp [hparse])
  · exact iff_of_true ⟨_, hwritten⟩ (by simp [hparse])
  · exact iff_of_false (by simpa using hplain) (by simp [hparse])

theorem parse_eq_ok_iff : parse token = .ok r ↔ IsWritten token r.val := by
  simp only [parse_eq_ok, IsWritten, Text.ofDigits?_eq_some_iff (by decide : 10 ≤ 16)]

theorem parse_eq_outOfRange_iff :
    parse token = .error .outOfRange ↔ ∃ n, 8 ≤ n ∧ IsWritten token n := by
  obtain ⟨r, hwritten, hparse⟩ | ⟨n, hle, hwritten, hparse⟩ | ⟨hplain, hparse⟩ := parse_cases token
  · refine iff_of_false (by simp [hparse]) ?_
    rintro ⟨n, hle, hn⟩
    rw [hn.unique hwritten] at hle
    exact Nat.not_le_of_lt r.isLt hle
  · exact iff_of_true hparse ⟨n, hle, hwritten⟩
  · refine iff_of_false (by simp [hparse]) ?_
    rintro ⟨n, -, hn⟩
    exact hplain n hn

end Register

namespace Emitter

variable {t t' : Layout} {e e' : Emitter} {line : Line} {token : String}

/-- What has the form of a register is looked up nowhere. -/
theorem register_of_isToken (h : Register.isToken token = true) :
    e.register t line token = line.orFail (.badRegister token) (Register.parse token) :=
  if_pos h

/-- A token that is taken for a register is one, or is reported as out of range. -/
theorem register_cases (h : Register.isToken token = true) :
    (∃ r, Register.parse token = .ok r ∧ e.register t line token = .ok r) ∨
      e.register t line token = line.fail (.badRegister token .outOfRange) := by
  rw [register_of_isToken h]
  obtain ⟨r, -, hparse⟩ | ⟨n, -, -, hparse⟩ | ⟨-, hparse⟩ := Register.parse_cases token
  · exact .inl ⟨r, hparse, by rw [hparse]; rfl⟩
  · exact .inr (by rw [hparse]; rfl)
  · exact absurd hparse (Register.isToken_iff_parse.mp h)

/-- The second source of an operation on two values is the register that is written there,
or a number, and then what is written there is no register. -/
theorem source_cases {op : Arith} {dr sr : String} {i : Instruction} {target? : Option Target}
    (operands : line.operandList = [dr, sr, token])
    (h : e.instruction t line (.arith op) = .ok (i, target?)) :
    (∃ d s r, i = .arith op d s (.register r) ∧ Register.parse token = .ok r) ∨
      ∃ d s n bits, i = .arith op d s (.immediate bits) ∧
        Register.parse token = .error .malformed ∧
        e.HoldsNumber t token n ∧ n.fit .imm5 = .ok bits := by
  cases instruction_ok_iff.mp h with
  | @arithRegister _ _ _ _ d s r operands' _ _ htoken second =>
      cases operands.symm.trans operands'
      rw [register_of_isToken htoken, Line.orFail_eq_ok] at second
      exact .inl ⟨d, s, r, rfl, second⟩
  | @arithImmediate _ _ _ _ d s bits operands' _ _ htoken second =>
      cases operands.symm.trans operands'
      obtain ⟨n, held, hfit⟩ := value_eq_ok.mp second
      exact .inr ⟨d, s, n, bits, rfl, Register.parse_of_not_isToken htoken, held, hfit⟩

/-- A second source that has the form of a register is the same whatever the symbols are. -/
theorem instruction_of_isToken {op : Arith} {dr sr : String}
    (operands : line.operandList = [dr, sr, token]) (h : Register.isToken token = true)
    (destination : e'.register t' line dr = e.register t line dr)
    (first : e'.register t' line sr = e.register t line sr) :
    e'.instruction t' line (.arith op) = e.instruction t line (.arith op) := by
  have second : e'.register t' line token = e.register t line token := by
    rw [register_of_isToken h, register_of_isToken h]
  simp only [instruction, operands, destination, first, h, if_true, second]

end Emitter

/-- The test for the form of a register and the reading of it agree on every token.  A token
is read as a register if it is `R` and the digits of one of the eight numbers, and is out of
range if it is `R` and those of any other number.  So the emitter never reports a register
token as malformed, and the second source of an operation on two values is either a register,
whatever the symbols are, or a number whose operand is not read as a register. -/
theorem register_tests_agree (token : String) :
    (Register.isToken token = true ↔ Register.parse token ≠ .error .malformed) ∧
    (∀ r : Register, Register.parse token = .ok r ↔ Register.IsWritten token r.val) ∧
    (Register.parse token = .error .outOfRange ↔ ∃ n, 8 ≤ n ∧ Register.IsWritten token n) ∧
    (∀ (t : Layout) (e : Emitter) (line : Line), Register.isToken token = true →
      (∃ r, Register.parse token = .ok r ∧ e.register t line token = .ok r) ∨
        e.register t line token = line.fail (.badRegister token .outOfRange)) ∧
    ∀ (t : Layout) (e : Emitter) (line : Line) (op : Arith) (dr sr : String),
      line.operandList = [dr, sr, token] →
      (Register.isToken token = true → ∀ (t' : Layout) (e' : Emitter),
        e'.register t' line dr = e.register t line dr →
        e'.register t' line sr = e.register t line sr →
        e'.instruction t' line (.arith op) = e.instruction t line (.arith op)) ∧
      ∀ i target?, e.instruction t line (.arith op) = .ok (i, target?) →
        (∃ d s r, i = .arith op d s (.register r) ∧ Register.parse token = .ok r) ∨
        ∃ d s n bits, i = .arith op d s (.immediate bits) ∧
          Register.parse token = .error .malformed ∧
          e.HoldsNumber t token n ∧ n.fit .imm5 = .ok bits :=
  ⟨Register.isToken_iff_parse, fun _ => Register.parse_eq_ok_iff, Register.parse_eq_outOfRange_iff,
    fun _ _ _ htoken => Emitter.register_cases htoken,
    fun _ _ _ _ _ _ operands =>
      ⟨fun htoken _ _ destination first =>
        Emitter.instruction_of_isToken operands htoken destination first,
      fun _ _ h => Emitter.source_cases operands h⟩⟩

/-- A segment in which a number has the name of a register. -/
def labelledRegister : List Line :=
  [⟨"PROG", ".ORIG", "x3000", 1, .nowhere⟩,
   ⟨"R01", ".EQU", "#5", 2, .nowhere⟩,
   ⟨"", "ADD", "R0,R0,R01", 3, .nowhere⟩,
   ⟨"", ".END", "", 4, .nowhere⟩]

theorem register_tests_agree_labelledRegister :
    ∃ t, Layout.ofLines labelledRegister = .ok t ∧
      t.symbols.get? "R01" = some (.absolute (.dec 5)) ∧
      (Emitter.start t).instruction t ⟨"", "ADD", "R0,R0,R01", 3, .nowhere⟩ (.arith .add) =
        .ok (.arith .add 0 0 (.register 1), none) ∧
      Register.IsWritten "R01" 1 := by
  obtain ⟨t, laid, hsymbol, hread⟩ : ∃ t, Layout.ofLines labelledRegister = .ok t ∧
      t.symbols.get? "R01" = some (.absolute (.dec 5)) ∧
      (Emitter.start t).instruction t ⟨"", "ADD", "R0,R0,R01", 3, .nowhere⟩ (.arith .add) =
        .ok (.arith .add 0 0 (.register 1), none) := ⟨_, rfl, rfl, rfl⟩
  obtain ⟨-, hwritten, -, -, hsource⟩ := register_tests_agree "R01"
  refine ⟨t, laid, hsymbol, hread, ?_⟩
  obtain ⟨d, s, r, hi, hparse⟩ | ⟨d, s, n, bits, hi, -⟩ :=
    (hsource t _ _ .add "R0" "R0" rfl).2 _ _ hread
  · cases hi
    exact (hwritten 1).mp hparse
  · cases hi

end PageAsm
