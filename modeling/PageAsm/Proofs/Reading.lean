import PageAsm.Emission
import PageAsm.Proofs.Outcome

/-!
# PageAsm.Proofs.Reading

Reading the operands of an instruction.  `Emitter.Reads` lists the ways in
which the operands of a line make an instruction, one constructor for each
shape of operands, and `instruction_ok_iff` states that these are all the ways
there are.

Branches, jumps and transfers refer to an address by its offset in a page, and
keep it in the low nine bits of the word: `word?_atOffset` says what the word
becomes when only the offset changes.
-/

namespace PageAsm

open Outcome

/-! ## the offset in an instruction word -/

namespace Bits

theorem appendAll?_append (bits : Bits) (xs ys : List BitField) :
    bits.appendAll? (xs ++ ys) = (bits.appendAll? xs).bind fun bits => bits.appendAll? ys := by
  induction xs generalizing bits with
  | nil => rfl
  | cons x xs ih =>
      simp only [List.cons_append, appendAll?]
      cases bits.append? x with
      | none => rfl
      | some next => exact ih next

/-- A word that is finished with an offset. -/
theorem word?_offset (bits : Bits) (offset : UInt16) :
    (bits.appendAll? [⟨offset, 9⟩]).bind word? =
      if bits.width = 7 then some (UInt16.ofNat (bits.value * 512 + offset.toNat % 512))
      else none := by
  simp only [appendAll?, append?, Nat.shiftLeft_eq, Nat.one_mul]
  by_cases hwidth : bits.width = 7
  · simp [hwidth, word?]
  · rw [if_neg hwidth]
    split
    · have hne : bits.width + 9 ≠ 16 := by omega
      simp [word?, hne]
    · rfl

end Bits

/-- A word whose last field is an offset, for every other offset as well. -/
theorem Word.ofFields?_offset {front : List BitField} {offset word : UInt16}
    (h : Word.ofFields? (front ++ [⟨offset, 9⟩]) = some word) :
    word.toNat % 512 = offset.toNat % 512 ∧
      ∀ other : UInt16, Word.ofFields? (front ++ [⟨other, 9⟩]) =
        some (UInt16.ofNat (word.toNat / 512 * 512 + other.toNat % 512)) := by
  unfold Word.ofFields? at h ⊢
  simp only [Bits.appendAll?_append] at h ⊢
  cases hfront : Bits.empty.appendAll? front with
  | none =>
      rw [hfront] at h
      cases h
  | some bits =>
      simp only [hfront, Option.bind_some, Bits.word?_offset] at h ⊢
      split at h
      · next hwidth =>
        have hword : word.toNat = (bits.value * 512 + offset.toNat % 512) % 65536 := by
          rw [← Option.some.inj h, UInt16.toNat_ofNat']
        refine ⟨by omega, fun other => ?_⟩
        rw [if_pos hwidth, Option.some.injEq]
        apply UInt16.toNat_inj.mp
        rw [UInt16.toNat_ofNat', UInt16.toNat_ofNat']
        omega
      · cases h

namespace Instruction

/-- The offset in an instruction that refers to an address. -/
def offset? : Instruction → Option UInt16
  | branch _ offset => some offset
  | jump _ offset => some offset
  | transfer _ _ offset => some offset
  | _ => none

/-- The same instruction with another offset. -/
def atOffset (offset : UInt16) : Instruction → Instruction
  | branch condition _ => .branch condition offset
  | jump link _ => .jump link offset
  | transfer op reg _ => .transfer op reg offset
  | other => other

/-- The offset stands in the low nine bits, and the other bits do not depend on it. -/
theorem word?_atOffset {i : Instruction} {offset word : UInt16} (ho : i.offset? = some offset)
    (hw : i.word? = some word) :
    word.toNat % 512 = offset.toNat % 512 ∧
      ∀ other : UInt16, (i.atOffset other).word? =
        some (UInt16.ofNat (word.toNat / 512 * 512 + other.toNat % 512)) := by
  have hfields : ∃ front, ∀ other : UInt16, (i.atOffset other).fields = front ++ [⟨other, 9⟩] := by
    cases i with
    | branch condition o => exact ⟨[⟨0, 4⟩, ⟨condition.bits, 3⟩], fun _ => rfl⟩
    | jump link o => exact ⟨[⟨4, 4⟩, .ofBool link, .zeros 2], fun _ => rfl⟩
    | transfer op reg o =>
        exact ⟨[⟨(Opcode.transfer op).code, 4⟩, .ofRegister reg], fun _ => rfl⟩
    | _ => cases ho
  have hself : i.atOffset offset = i := by
    cases i <;> cases ho <;> rfl
  obtain ⟨front, hfront⟩ := hfields
  have hword : Word.ofFields? (front ++ [⟨offset, 9⟩]) = some word := by
    rw [← hfront offset, hself]
    exact hw
  obtain ⟨hlow, hother⟩ := Word.ofFields?_offset hword
  refine ⟨hlow, fun other => ?_⟩
  rw [word?, hfront other]
  exact hother other

end Instruction

/-! ## operands -/

theorem Numeral.eq_word_of_fit {n : Numeral} {w : UInt16} (h : n.fit .word = .ok w) :
    w = n.word := by
  unfold Numeral.fit at h
  split at h
  · exact (Except.ok.inj h).symm
  · cases h

namespace Emitter

variable {t : Layout} {e : Emitter} {line : Line}

theorem pageOffset_eq_ok {token : String} {target : Target} {offset : UInt16} :
    e.pageOffset line token target = .ok offset ↔
      ∃ address, target.address line token = .ok address ∧
        Page.offset e.location address = .ok offset := by
  unfold pageOffset
  simp only [bind_eq_ok, Line.orFail_eq_ok]

/-- The word of a numeral is its value. -/
theorem literalWord_ok {token : String} {w : UInt16} (h : literalWord line token = .ok w) :
    ∃ value, Numeral.parse token = .ok value ∧ w = value.word := by
  simp only [literalWord, Line.orFail_eq_ok, bind_eq_ok] at h
  obtain ⟨value, hparse, hfit⟩ := h
  exact ⟨value, hparse, Numeral.eq_word_of_fit hfit⟩

/-- A literal that is referred to has an address in the layout. -/
theorem literal_ok {token : String} {target : Target}
    (h : literal t line token = .ok target) :
    ∃ address, t.literals.get? token = some address ∧ target = .relative address := by
  simp only [literal, bind_eq_ok] at h
  obtain ⟨word, -, h⟩ := h
  split at h
  · next address haddr => exact ⟨address, haddr, (Except.ok.inj h).symm⟩
  · simp at h

/-- What the second operand of a transfer refers to: a literal or any other address. -/
def Addresses (t : Layout) (e : Emitter) (line : Line) (token : String) (target : Target) : Prop :=
  if isLiteral token then literal t line token = .ok target
  else e.resolve t line token = .ok target

/-- The operands of a line make an instruction, which may refer to a target. -/
inductive Reads (t : Layout) (e : Emitter) (line : Line) :
    Opcode → Instruction → Option Target → Prop where
  | arithRegister {op : Arith} {dr sr source : String} {d s r : Register}
      (operands : line.operandList = [dr, sr, source])
      (destination : e.register t line dr = .ok d)
      (first : e.register t line sr = .ok s)
      (token : Register.isToken source = true)
      (second : e.register t line source = .ok r) :
      Reads t e line (.arith op) (.arith op d s (.register r)) none
  | arithImmediate {op : Arith} {dr sr source : String} {d s : Register} {bits : UInt16}
      (operands : line.operandList = [dr, sr, source])
      (destination : e.register t line dr = .ok d)
      (first : e.register t line sr = .ok s)
      (token : Register.isToken source = false)
      (second : e.value t line source .imm5 = .ok bits) :
      Reads t e line (.arith op) (.arith op d s (.immediate bits)) none
  | complement {dr sr : String} {d s : Register}
      (operands : line.operandList = [dr, sr])
      (destination : e.register t line dr = .ok d)
      (source : e.register t line sr = .ok s) :
      Reads t e line .complement (.complement d s) none
  | branch {condition : Condition} {token : String} {target : Target} {offset : UInt16}
      (operands : line.operandList = [token])
      (refers : e.resolve t line token = .ok target)
      (page : e.pageOffset line token target = .ok offset) :
      Reads t e line (.branch condition) (.branch condition offset) (some target)
  | jump {link : Bool} {token : String} {target : Target} {offset : UInt16}
      (operands : line.operandList = [token])
      (refers : e.resolve t line token = .ok target)
      (page : e.pageOffset line token target = .ok offset) :
      Reads t e line (.jump link) (.jump link offset) (some target)
  | jumpVia {link : Bool} {base index : String} {b : Register} {bits : UInt16}
      (operands : line.operandList = [base, index])
      (register : e.register t line base = .ok b)
      (value : e.value t line index .index6 = .ok bits) :
      Reads t e line (.jumpVia link) (.jumpVia link b bits) none
  | transfer {op : Transfer} {reg token : String} {r : Register} {target : Target}
      {offset : UInt16}
      (operands : line.operandList = [reg, token])
      (register : e.register t line reg = .ok r)
      (refers : e.Addresses t line token target)
      (page : e.pageOffset line token target = .ok offset) :
      Reads t e line (.transfer op) (.transfer op r offset) (some target)
  | indexed {op : Indexed} {reg base index : String} {r b : Register} {bits : UInt16}
      (operands : line.operandList = [reg, base, index])
      (register : e.register t line reg = .ok r)
      (via : e.register t line base = .ok b)
      (value : e.value t line index .index6 = .ok bits) :
      Reads t e line (.indexed op) (.indexed op r b bits) none
  | ret (operands : line.operandList = []) : Reads t e line .ret .ret none
  | debug (operands : line.operandList = []) : Reads t e line .debug .debug none
  | trap {vector : String} {bits : UInt16}
      (operands : line.operandList = [vector])
      (value : e.value t line vector .trap8 = .ok bits) :
      Reads t e line .trap (.trap bits) none

/-- Operands are read with success exactly in the ways that `Reads` lists. -/
theorem instruction_ok_iff {op : Opcode} {i : Instruction} {target? : Option Target} :
    e.instruction t line op = .ok (i, target?) ↔ Reads t e line op i target? := by
  constructor
  · intro h
    unfold instruction at h
    split at h
    next op dr sr source operands =>
      simp only [bind_eq_ok] at h
      obtain ⟨d, hd, s, hs, h⟩ := h
      split at h
      · next token =>
        simp only [bind_eq_ok, pure_eq_ok, Prod.mk.injEq] at h
        obtain ⟨r, hr, rfl, rfl⟩ := h
        exact .arithRegister operands hd hs token hr
      · next token =>
        simp only [bind_eq_ok, pure_eq_ok, Prod.mk.injEq] at h
        obtain ⟨bits, hb, rfl, rfl⟩ := h
        exact .arithImmediate operands hd hs (Bool.eq_false_iff.mpr token) hb
    next dr sr operands =>
      simp only [bind_eq_ok, pure_eq_ok, Prod.mk.injEq] at h
      obtain ⟨d, hd, s, hs, rfl, rfl⟩ := h
      exact .complement operands hd hs
    next condition token operands =>
      simp only [bind_eq_ok, pure_eq_ok, Prod.mk.injEq] at h
      obtain ⟨target, htarget, offset, hoffset, rfl, rfl⟩ := h
      exact .branch operands htarget hoffset
    next link token operands =>
      simp only [bind_eq_ok, pure_eq_ok, Prod.mk.injEq] at h
      obtain ⟨target, htarget, offset, hoffset, rfl, rfl⟩ := h
      exact .jump operands htarget hoffset
    next link base index operands =>
      simp only [bind_eq_ok, pure_eq_ok, Prod.mk.injEq] at h
      obtain ⟨b, hb, bits, hbits, rfl, rfl⟩ := h
      exact .jumpVia operands hb hbits
    next op reg token operands =>
      rw [bind_eq_ok] at h
      obtain ⟨r, hr, h⟩ := h
      split at h
      · next hlit =>
        simp only [bind_eq_ok, pure_eq_ok, Prod.mk.injEq] at h
        obtain ⟨target, htarget, offset, hoffset, rfl, rfl⟩ := h
        exact .transfer operands hr ((if_pos hlit).mpr htarget) hoffset
      · next hlit =>
        simp only [bind_eq_ok, pure_eq_ok, Prod.mk.injEq] at h
        obtain ⟨target, htarget, offset, hoffset, rfl, rfl⟩ := h
        exact .transfer operands hr ((if_neg hlit).mpr htarget) hoffset
    next op reg base index operands =>
      simp only [bind_eq_ok, pure_eq_ok, Prod.mk.injEq] at h
      obtain ⟨r, hr, b, hb, bits, hbits, rfl, rfl⟩ := h
      exact .indexed operands hr hb hbits
    next operands =>
      cases h
      exact .ret operands
    next operands =>
      cases h
      exact .debug operands
    next vector operands =>
      simp only [bind_eq_ok, pure_eq_ok, Prod.mk.injEq] at h
      obtain ⟨bits, hbits, rfl, rfl⟩ := h
      exact .trap operands hbits
    next => simp at h
  · intro h
    cases h with
    | arithRegister operands hd hs token hr =>
        simp only [instruction, operands, hd, hs, token, hr]
        rfl
    | arithImmediate operands hd hs token hb =>
        simp only [instruction, operands, hd, hs, token, hb]
        rfl
    | complement operands hd hs =>
        simp only [instruction, operands, hd, hs]
        rfl
    | branch operands htarget hoffset | jump operands htarget hoffset =>
        simp only [instruction, operands, htarget, bind, Except.bind, hoffset]
        rfl
    | jumpVia operands hb hbits =>
        simp only [instruction, operands, hb, hbits]
        rfl
    | transfer operands hr htarget hoffset =>
        unfold Addresses at htarget
        split at htarget
        · next hlit =>
          simp only [instruction, operands, hr, hlit, htarget, bind, Except.bind, hoffset]
          rfl
        · next hlit =>
          simp only [instruction, operands, hr, hlit, htarget, bind, Except.bind, hoffset]
          rfl
    | indexed operands hr hb hbits =>
        simp only [instruction, operands, hr, hb, hbits]
        rfl
    | ret operands | debug operands =>
        simp only [instruction, operands]
        rfl
    | trap operands hbits =>
        simp only [instruction, operands, hbits]
        rfl

end Emitter

end PageAsm
