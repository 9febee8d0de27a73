import Mathlib.Algebra.Group.Int.Defs
import Mathlib.Algebra.Group.Nat.Defs
import Mathlib.Data.List.Forall2
import PageAsm.Proofs.Fault
import PageAsm.Proofs.Operands

/-!
# PageAsm.Proofs.Decoding

A decoder for instruction words, and what it makes of the words that are
emitted:

```
line        mnemonic, operands as they are written
            |  Emitter.Denotes
instruction opcode, registers, values modulo the widths of their fields
            |  Instruction.word?        ^  Instruction.decode?
word        sixteen bits
```

`Word.Holds` says which bits of a word a list of fields takes, so the fields of
an instruction fill its word in one way only (`Word.ofFields?_eq_some_iff`).
The decoder picks the fields out of the word by their places and rejects bits
without a meaning that are not zero: it accepts the words of instructions and no
others (`Instruction.decode?_eq_some_iff`).

A line denotes at most one instruction (`Emitter.Denotes.unique`), and it is the
one whose word is emitted (`Emitter.Step.decodes`).
-/

namespace PageAsm

open Outcome

/-! ## fields of a word -/

namespace BitField

/-- The bits that fields take up. -/
def totalWidth : List BitField → Nat
  | [] => 0
  | field :: rest => field.width + totalWidth rest

/-- The number in the bits of fields. -/
def number : List BitField → Nat
  | [] => 0
  | field :: rest => field.value.toNat % 2 ^ field.width * 2 ^ totalWidth rest + number rest

theorem number_lt (fields : List BitField) : number fields < 2 ^ totalWidth fields := by
  induction fields with
  | nil => decide
  | cons field rest ih =>
      have hfield : field.value.toNat % 2 ^ field.width + 1 ≤ 2 ^ field.width :=
        Nat.mod_lt _ (Nat.two_pow_pos _)
      calc number (field :: rest)
          < field.value.toNat % 2 ^ field.width * 2 ^ totalWidth rest + 2 ^ totalWidth rest :=
            Nat.add_lt_add_left ih _
        _ = (field.value.toNat % 2 ^ field.width + 1) * 2 ^ totalWidth rest :=
            (Nat.succ_mul _ _).symm
        _ ≤ 2 ^ field.width * 2 ^ totalWidth rest := Nat.mul_le_mul_right _ hfield
        _ = 2 ^ totalWidth (field :: rest) := (Nat.pow_add _ _ _).symm

end BitField

namespace Bits

open BitField

theorem appendAll?_eq {bits : Bits} {fields : List BitField}
    (h : bits.width + totalWidth fields ≤ 16) :
    bits.appendAll? fields =
      some ⟨bits.value * 2 ^ totalWidth fields + number fields,
        bits.width + totalWidth fields⟩ := by
  induction fields generalizing bits with
  | nil => simp [appendAll?, totalWidth, number]
  | cons field rest ih =>
      rw [totalWidth] at h
      have hroom : bits.width + field.width ≤ 16 := by omega
      rw [appendAll?, append?, if_pos hroom, Option.bind_some, ih (by simp only; omega)]
      simp only [totalWidth, number, Nat.shiftLeft_eq, Nat.one_mul, Nat.pow_add, Nat.add_mul,
        Nat.mul_assoc, Nat.add_assoc]

theorem width_of_appendAll? {bits bits' : Bits} {fields : List BitField}
    (h : bits.appendAll? fields = some bits') : bits'.width = bits.width + totalWidth fields := by
  induction fields generalizing bits with
  | nil =>
      cases h
      rfl
  | cons field rest ih =>
      obtain ⟨next, hnext, hrest⟩ := Option.bind_eq_some_iff.mp h
      obtain ⟨-, hnext⟩ := Option.ite_none_right_eq_some.mp hnext
      cases hnext
      rw [ih hrest, totalWidth, Nat.add_assoc]

end Bits

namespace Word

open BitField

/-- The number in `width` bits of a word that has `low` bits behind them. -/
def slice (word : UInt16) (low width : Nat) : Nat := word.toNat / 2 ^ low % 2 ^ width

/-- The last bits of the word are those of the fields. -/
def Holds (word : UInt16) : List BitField → Prop
  | [] => True
  | field :: rest =>
    slice word (totalWidth rest) field.width = field.value.toNat % 2 ^ field.width ∧
      Holds word rest

theorem slice_lt (word : UInt16) (low width : Nat) : slice word low width < 2 ^ width :=
  Nat.mod_lt _ (Nat.two_pow_pos _)

theorem holds_iff {word : UInt16} {fields : List BitField} :
    Holds word fields ↔ word.toNat % 2 ^ totalWidth fields = number fields := by
  induction fields with
  | nil => simp [Holds, totalWidth, number, Nat.mod_one]
  | cons field rest ih =>
      have hpos := Nat.two_pow_pos (totalWidth rest)
      have hlow := number_lt rest
      have hmod := Nat.mod_lt word.toNat hpos
      -- the first field is what is above the width of the others
      have hsplit : word.toNat % 2 ^ totalWidth (field :: rest) =
          slice word (totalWidth rest) field.width * 2 ^ totalWidth rest +
            word.toNat % 2 ^ totalWidth rest := by
        rw [totalWidth, Nat.pow_add, Nat.mul_comm, Nat.mod_mul, slice, Nat.mul_comm]
        omega
      rw [Holds, ih, hsplit, number]
      constructor
      · rintro ⟨hfield, hrest⟩
        rw [hfield, hrest]
      · intro heq
        have hdiv := congrArg (· / 2 ^ totalWidth rest) heq
        have hrem := congrArg (· % 2 ^ totalWidth rest) heq
        simp only [Nat.mul_add_mod_self_right, Nat.mod_mod, Nat.mod_eq_of_lt hlow] at hrem
        simp only [Nat.mul_comm _ (2 ^ totalWidth rest), Nat.mul_add_div hpos,
          Nat.div_eq_of_lt hlow, Nat.div_eq_of_lt hmod, Nat.add_zero] at hdiv
        exact ⟨hdiv, hrem⟩

/-- Fields make a word if they fill it, and fail to do so otherwise. -/
theorem ofFields?_eq (fields : List BitField) :
    ofFields? fields =
      if totalWidth fields = 16 then some (UInt16.ofNat (number fields)) else none := by
  split
  · next h =>
    rw [ofFields?, Bits.appendAll?_eq (by simp [Bits.empty, h])]
    simp [Bits.empty, Bits.word?, h]
  · next h =>
    rw [ofFields?, Option.bind_eq_none_iff]
    intro bits hbits
    have hwidth := Bits.width_of_appendAll? hbits
    rw [Bits.empty, Nat.zero_add] at hwidth
    rw [Bits.word?, if_neg (hwidth ▸ h)]

/-- Fields that fill a word make the word that has each of them in its place. -/
theorem ofFields?_eq_some_iff {fields : List BitField} {word : UInt16}
    (h : totalWidth fields = 16) : ofFields? fields = some word ↔ Holds word fields := by
  have hlt := number_lt fields
  have hword := word.toNat_lt
  rw [h] at hlt
  rw [ofFields?_eq, if_pos h, Option.some.injEq, holds_iff, h, ← UInt16.toNat_inj,
    UInt16.toNat_ofNat', Nat.mod_eq_of_lt hlt, Nat.mod_eq_of_lt hword]
  exact eq_comm

/-- The bits of a field of the word. -/
def field (word : UInt16) (low width : Nat) : UInt16 := UInt16.ofNat (slice word low width)

/-- The register in a field of the word. -/
def register (word : UInt16) (low : Nat) : Register := ⟨slice word low 3, slice_lt word low 3⟩

/-- A single bit of the word. -/
def flag (word : UInt16) (low : Nat) : Bool := slice word low 1 == 1

theorem toNat_field {word : UInt16} {low width : Nat} (h : width ≤ 16) :
    (field word low width).toNat = slice word low width := by
  have hlt := slice_lt word low width
  have hpow : 2 ^ width ≤ 2 ^ 16 := Nat.pow_le_pow_right (by decide) h
  rw [field, UInt16.toNat_ofNat', Nat.mod_eq_of_lt (Nat.lt_of_lt_of_le hlt hpow)]

theorem field_eq_iff {word : UInt16} {low width : Nat} {bits : UInt16} (h : width ≤ 16) :
    field word low width = bits ↔ slice word low width = bits.toNat := by
  rw [← UInt16.toNat_inj, toNat_field h]

theorem register_eq_iff {word : UInt16} {low : Nat} {r : Register} :
    register word low = r ↔ slice word low 3 = r.val :=
  Fin.ext_iff

theorem flag_eq_iff {word : UInt16} {low : Nat} {b : Bool} :
    flag word low = b ↔ slice word low 1 = b.toNat := by
  have hlt := slice_lt word low 1
  cases b with
  | false =>
      rw [flag, beq_eq_false_iff_ne, Bool.toNat_false]
      omega
  | true => rw [flag, beq_iff_eq, Bool.toNat_true]

end Word

/-! ## the decoder -/

/-- The opcode in the leading bits of a word. -/
def Opcode.ofWord (word : UInt16) : Opcode :=
  match Word.slice word 12 4 with
  | 0x0 => .branch ⟨Word.flag word 11, Word.flag word 10, Word.flag word 9⟩
  | 0x1 => .arith .add
  | 0x2 => .transfer .ld
  | 0x3 => .transfer .st
  | 0x4 => .jump (Word.flag word 11)
  | 0x5 => .arith .and
  | 0x6 => .indexed .ldr
  | 0x7 => .indexed .str
  | 0x8 => .debug
  | 0x9 => .complement
  | 0xA => .transfer .ldi
  | 0xB => .transfer .sti
  | 0xC => .jumpVia (Word.flag word 11)
  | 0xD => .ret
  | 0xE => .transfer .lea
  | _ => .trap

/-- The second source of an operation on two values; a bit in front of it tells the kind. -/
def SecondSource.decode? (word : UInt16) : Option SecondSource :=
  if Word.flag word 5 then some (.immediate (Word.field word 0 5))
  else if Word.slice word 3 2 = 0 then some (.register (Word.register word 0))
  else none

namespace Instruction

/-- The instruction of a word.  Bits without a meaning have to be zero. -/
def decode? (word : UInt16) : Option Instruction :=
  match Opcode.ofWord word with
  | .arith op =>
    (SecondSource.decode? word).map (.arith op (Word.register word 9) (Word.register word 6))
  | .complement =>
    if Word.slice word 0 6 = 0 then some (.complement (Word.register word 9) (Word.register word 6))
    else none
  | .branch condition => some (.branch condition (Word.field word 0 9))
  | .jump link =>
    if Word.slice word 9 2 = 0 then some (.jump link (Word.field word 0 9)) else none
  | .jumpVia link =>
    if Word.slice word 9 2 = 0 then
      some (.jumpVia link (Word.register word 6) (Word.field word 0 6))
    else none
  | .transfer op => some (.transfer op (Word.register word 9) (Word.field word 0 9))
  | .indexed op =>
    some (.indexed op (Word.register word 9) (Word.register word 6) (Word.field word 0 6))
  | .ret => if Word.slice word 0 12 = 0 then some .ret else none
  | .debug => if Word.slice word 0 12 = 0 then some .debug else none
  | .trap => if Word.slice word 8 4 = 0 then some (.trap (Word.field word 0 8)) else none

/-- The values of the instruction are within the widths of their fields. -/
def IsReduced : Instruction → Prop
  | arith _ _ _ (.immediate bits) => bits.toNat < 2 ^ 5
  | branch _ offset => offset.toNat < 2 ^ 9
  | jump _ offset => offset.toNat < 2 ^ 9
  | jumpVia _ _ index => index.toNat < 2 ^ 6
  | transfer _ _ offset => offset.toNat < 2 ^ 9
  | indexed _ _ _ index => index.toNat < 2 ^ 6
  | trap vector => vector.toNat < 2 ^ 8
  | _ => True

end Instruction

/-! ## decoding undoes encoding -/

namespace BitField

@[simp] theorem totalWidth_nil : totalWidth [] = 0 := rfl

@[simp] theorem totalWidth_cons (field : BitField) (rest : List BitField) :
    totalWidth (field :: rest) = field.width + totalWidth rest := rfl

@[simp] theorem width_ofRegister (r : Register) : (ofRegister r).width = 3 := rfl

@[simp] theorem width_ofBool (b : Bool) : (ofBool b).width = 1 := rfl

@[simp] theorem width_zeros (width : Nat) : (zeros width).width = width := rfl

end BitField

namespace Word

open BitField

variable {word : UInt16} {rest : List BitField}

@[simp] theorem holds_nil : Holds word [] := trivial

@[simp] theorem holds_ofRegister {r : Register} :
    Holds word (.ofRegister r :: rest) ↔
      register word (totalWidth rest) = r ∧ Holds word rest := by
  have hvalue : (ofRegister r).value.toNat % 2 ^ 3 = r.val := by
    have hlt := r.isLt
    rw [ofRegister, UInt16.toNat_ofNat']
    omega
  rw [register_eq_iff, ← hvalue]
  rfl

@[simp] theorem holds_ofBool {b : Bool} :
    Holds word (.ofBool b :: rest) ↔ flag word (totalWidth rest) = b ∧ Holds word rest := by
  have hvalue : (ofBool b).value.toNat % 2 ^ 1 = b.toNat := by cases b <;> rfl
  rw [flag_eq_iff, ← hvalue]
  rfl

@[simp] theorem holds_zeros {width : Nat} :
    Holds word (.zeros width :: rest) ↔
      slice word (totalWidth rest) width = 0 ∧ Holds word rest := by
  rw [Holds, zeros, UInt16.toNat_zero, Nat.zero_mod]

@[simp] theorem holds_condition {c : Condition} :
    Holds word (⟨c.bits, 3⟩ :: rest) ↔
      (⟨flag word (2 + totalWidth rest), flag word (1 + totalWidth rest),
        flag word (totalWidth rest)⟩ : Condition) = c ∧ Holds word rest := by
  obtain ⟨n, z, p⟩ := c
  have hvalue : (Condition.bits ⟨n, z, p⟩).toNat % 2 ^ 3 =
      4 * n.toNat + 2 * z.toNat + p.toNat := by
    cases n <;> cases z <;> cases p <;> rfl
  have hn := n.toNat_le
  have hz := z.toNat_le
  have hp := p.toNat_le
  rw [Holds, hvalue, Condition.mk.injEq, flag_eq_iff, flag_eq_iff, flag_eq_iff]
  -- three fields of one bit against one of three, over the same quotient of the word
  simp only [slice, Nat.add_comm _ (totalWidth rest), Nat.pow_add, ← Nat.div_div_eq_div_mul]
  refine and_congr_left fun _ => ?_
  omega

/-- A field holds a value that is within its width. -/
theorem holds_value {bits : UInt16} {width : Nat} (h : bits.toNat < 2 ^ width)
    (hwidth : width ≤ 16) :
    Holds word (⟨bits, width⟩ :: rest) ↔
      field word (totalWidth rest) width = bits ∧ Holds word rest := by
  rw [Holds, Nat.mod_eq_of_lt h, field_eq_iff hwidth]

theorem field_lt {low width : Nat} (h : width ≤ 16) : (field word low width).toNat < 2 ^ width := by
  rw [toNat_field h]
  exact slice_lt word low width

theorem holds_field {width : Nat} (h : width ≤ 16) :
    Holds word [⟨field word 0 width, width⟩] :=
  (holds_value (field_lt h) h).mpr ⟨rfl, trivial⟩

end Word

namespace Opcode

open Word

/-- The bits of the word that tell opcodes of the same code apart. -/
def Shows (word : UInt16) : Opcode → Prop
  | branch condition => ⟨flag word 11, flag word 10, flag word 9⟩ = condition
  | jump link => flag word 11 = link
  | jumpVia link => flag word 11 = link
  | _ => True

theorem code_lt (op : Opcode) : op.code.toNat < 2 ^ 4 := by
  unfold code
  split <;> decide

theorem code_ofWord (word : UInt16) : (ofWord word).code.toNat = slice word 12 4 := by
  have hlt := slice_lt word 12 4
  unfold ofWord
  split <;> simp only [code, UInt16.reduceToNat] <;> grind

theorem shows_ofWord (word : UInt16) : (ofWord word).Shows word := by
  unfold ofWord
  split <;> simp [Shows]

theorem ofWord_eq_iff {word : UInt16} {op : Opcode} :
    ofWord word = op ↔ slice word 12 4 = op.code.toNat ∧ op.Shows word := by
  constructor
  · intro h
    subst h
    exact ⟨(code_ofWord word).symm, shows_ofWord word⟩
  · rintro ⟨hcode, hshows⟩
    unfold code at hcode
    split at hcode <;> simp only [UInt16.reduceToNat] at hcode <;> simp_all [ofWord, Shows]

end Opcode

namespace Instruction

open Word BitField

variable {i : Instruction} {word : UInt16}

theorem totalWidth_operandFields (i : Instruction) : totalWidth i.operandFields = 12 := by
  cases i with
  | arith op dr sr source => cases source <;> rfl
  | _ => rfl

/-- The word of an instruction has its code in front, and each of its fields in its place. -/
theorem word?_eq_some_iff :
    i.word? = some word ↔
      slice word 12 4 = i.opcode.code.toNat ∧ Holds word i.operandFields := by
  have hwidth : totalWidth i.fields = 16 := by
    rw [fields, totalWidth_cons, totalWidth_operandFields]
  rw [word?, Word.ofFields?_eq_some_iff hwidth, fields, Holds, totalWidth_operandFields,
    Nat.mod_eq_of_lt i.opcode.code_lt]

theorem ofWord_of_word? (h : i.word? = some word) : Opcode.ofWord word = i.opcode := by
  obtain ⟨hcode, hfields⟩ := word?_eq_some_iff.mp h
  refine Opcode.ofWord_eq_iff.mpr ⟨hcode, ?_⟩
  cases i with
  | branch condition offset => exact (holds_condition.mp hfields).1
  | jump link offset => exact (holds_ofBool.mp hfields).1
  | jumpVia link base index => exact (holds_ofBool.mp hfields).1
  | _ => trivial

/-- Three zeros are the mode bit of a register and two bits without a meaning. -/
theorem slice_mode_iff :
    slice word 3 3 = 0 ↔ flag word 5 = false ∧ slice word 3 2 = 0 := by
  rw [flag_eq_iff, Bool.toNat_false]
  simp only [slice]
  omega

/-- The word of an instruction is decoded to the instruction. -/
theorem decode?_of_word? (h : i.word? = some word) (hreduced : i.IsReduced) :
    decode? word = some i := by
  have hfields := (word?_eq_some_iff.mp h).2
  rw [decode?, ofWord_of_word? h]
  cases i with
  | arith op dr sr source =>
      cases source with
      | register r =>
          simp [operandFields, slice_mode_iff] at hfields
          simp [opcode, SecondSource.decode?, hfields]
      | immediate bits =>
          simp [operandFields, holds_value hreduced] at hfields
          simp [opcode, SecondSource.decode?, hfields]
  | branch condition offset | jump link offset | jumpVia link base index | transfer op reg offset
  | indexed op reg base index | trap vector =>
      simp [operandFields, holds_value hreduced] at hfields
      simp [opcode, hfields]
  | complement dr sr | ret | debug =>
      simp [operandFields] at hfields
      simp [opcode, hfields]

/-- A word that is decoded is the word of the instruction. -/
theorem word?_of_decode? (h : decode? word = some i) : i.word? = some word ∧ i.IsReduced := by
  rw [word?_eq_some_iff]
  unfold decode? at h
  generalize hop : Opcode.ofWord word = op at h
  obtain ⟨hcode, hshows⟩ := Opcode.ofWord_eq_iff.mp hop
  cases op with
  | arith op =>
      obtain ⟨source, hsource, rfl⟩ := Option.map_eq_some_iff.mp h
      unfold SecondSource.decode? at hsource
      split at hsource
      · next hmode =>
        cases hsource
        exact ⟨⟨hcode, by simp [operandFields, hmode, holds_field]⟩, field_lt (by decide)⟩
      · next hmode =>
        obtain ⟨hzero, hsource⟩ := Option.ite_none_right_eq_some.mp hsource
        cases hsource
        have hbits := slice_mode_iff.mpr ⟨Bool.eq_false_iff.mpr hmode, hzero⟩
        exact ⟨⟨hcode, by simp [operandFields, hbits]⟩, trivial⟩
  | complement | ret | debug =>
      obtain ⟨hzero, h⟩ := Option.ite_none_right_eq_some.mp h
      cases h
      exact ⟨⟨hcode, by simp [operandFields, hzero]⟩, trivial⟩
  | branch condition =>
      cases h
      refine ⟨⟨hcode, ?_⟩, field_lt (by decide)⟩
      exact holds_condition.mpr ⟨hshows, holds_field (by decide)⟩
  | jump link | jumpVia link =>
      obtain ⟨hzero, h⟩ := Option.ite_none_right_eq_some.mp h
      cases h
      refine ⟨⟨hcode, ?_⟩, field_lt (by decide)⟩
      exact holds_ofBool.mpr ⟨hshows, by simp [hzero, holds_field]⟩
  | transfer op | indexed op =>
      cases h
      exact ⟨⟨hcode, by simp [operandFields, holds_field]⟩, field_lt (by decide)⟩
  | trap =>
      obtain ⟨hzero, h⟩ := Option.ite_none_right_eq_some.mp h
      cases h
      exact ⟨⟨hcode, by simp [operandFields, hzero, holds_field]⟩, field_lt (by decide)⟩

/-- The words with a meaning are those of the instructions, one for each. -/
theorem decode?_eq_some_iff : decode? word = some i ↔ i.word? = some word ∧ i.IsReduced :=
  ⟨word?_of_decode?, fun h => decode?_of_word? h.1 h.2⟩

end Instruction

/-! ## the instruction that a line denotes -/

/-- One operand of an instruction. -/
inductive Operand where
  | register (r : Register)
  | source (s : SecondSource)
  /-- The value in a field. -/
  | value (f : Field) (bits : UInt16)
  /-- The offset of an address in its page. -/
  | offset (bits : UInt16)
deriving DecidableEq

/-- The operands take the same place of an instruction. -/
def Operand.SameKind : Operand → Operand → Prop
  | register _, register _ => True
  | source _, source _ => True
  | value f _, value g _ => f = g
  | offset _, offset _ => True
  | _, _ => False

/-- The value of the operand is within the width of its field. -/
def Operand.IsReduced : Operand → Prop
  | source (.immediate bits) => bits.toNat < 2 ^ 5
  | value f bits => bits.toNat < 2 ^ f.width
  | offset bits => bits.toNat < 2 ^ 9
  | _ => True

namespace Instruction

/-- The operands in the order in which they are written. -/
def operands : Instruction → List Operand
  | arith _ dr sr source => [.register dr, .register sr, .source source]
  | complement dr sr => [.register dr, .register sr]
  | branch _ offset => [.offset offset]
  | jump _ offset => [.offset offset]
  | jumpVia _ base index => [.register base, .value .index6 index]
  | transfer _ reg offset => [.register reg, .offset offset]
  | indexed _ reg base index => [.register reg, .register base, .value .index6 index]
  | ret => []
  | debug => []
  | trap vector => [.value .trap8 vector]

/-- An opcode and its operands make one instruction. -/
theorem eq_of_operands {i j : Instruction} (hop : i.opcode = j.opcode)
    (hoperands : i.operands = j.operands) : i = j := by
  cases i <;> cases j <;> simp_all [opcode, operands]

/-- The opcode tells the kinds of the operands. -/
theorem sameKind_operands {i j : Instruction} (hop : i.opcode = j.opcode) :
    List.Forall₂ Operand.SameKind i.operands j.operands := by
  cases i <;> cases j <;> simp_all [opcode, operands, Operand.SameKind]

theorem isReduced_of_operands {i : Instruction} (h : ∀ x ∈ i.operands, x.IsReduced) :
    i.IsReduced := by
  cases i with
  | arith op dr sr source =>
      cases source with
      | register r => trivial
      | immediate bits => exact h (.source (.immediate bits)) (by simp [operands])
  | branch _ offset | jump _ offset | transfer _ _ offset =>
      exact h (.offset offset) (by simp [operands])
  | jumpVia _ _ index | indexed _ _ _ index => exact h (.value .index6 index) (by simp [operands])
  | trap vector => exact h (.value .trap8 vector) (by simp [operands])
  | _ => trivial

end Instruction

namespace Emitter

variable {t : Layout} {e : Emitter} {line : Line} {token : String}

/-- What is written for an operand stands for it: the register, the number modulo the
width of its field, or the offset of the address in its page. -/
inductive Spells (t : Layout) (e : Emitter) (line : Line) (token : String) : Operand → Prop where
  | register {r : Register} (held : e.HoldsRegister t token r) :
      Spells t e line token (.register r)
  | sourceRegister {r : Register} (spelled : Register.isToken token = true)
      (held : e.HoldsRegister t token r) : Spells t e line token (.source (.register r))
  | sourceValue {n : Numeral} {bits : UInt16} (plain : Register.isToken token = false)
      (held : e.HoldsNumber t token n) (low : (bits.toNat : Int) = n.value % 2 ^ 5) :
      Spells t e line token (.source (.immediate bits))
  | value {f : Field} {n : Numeral} {bits : UInt16} (held : e.HoldsNumber t token n)
      (low : (bits.toNat : Int) = n.value % 2 ^ f.width) : Spells t e line token (.value f bits)
  | offset {address bits : UInt16} (points : e.PointsAt t line token address)
      (low : bits.toNat = address.toNat % 2 ^ 9) : Spells t e line token (.offset bits)

/-- The line denotes the instruction: it has its mnemonic, and what is written for each
operand stands for it. -/
structure Denotes (t : Layout) (e : Emitter) (line : Line) (i : Instruction) : Prop where
  operation : line.operation? = some (.instruction i.opcode)
  operands : List.Forall₂ (e.Spells t line) line.operandList i.operands

/-! ### at most one instruction -/

theorem HoldsNumber.unique {n m : Numeral} (hn : e.HoldsNumber t token n)
    (hm : e.HoldsNumber t token m) : n = m := by
  cases hn with
  | numeral numeric parsed =>
      cases hm with
      | numeral _ parsed' => exact Except.ok.inj (parsed.symm.trans parsed')
      | symbol numeric' => simp [numeric] at numeric'
  | symbol numeric _ defined =>
      cases hm with
      | numeral numeric' => simp [numeric] at numeric'
      | symbol _ _ defined' =>
          rw [defined] at defined'
          cases defined'
          rfl

theorem PointsAt.unique {a b : UInt16} (ha : e.PointsAt t line token a)
    (hb : e.PointsAt t line token b) : a = b := by
  obtain ⟨target, hrefers, haddress⟩ := pointsAt_iff.mp ha
  obtain ⟨target', hrefers', haddress'⟩ := pointsAt_iff.mp hb
  have htarget : target = target' := by
    unfold RefersTo at hrefers hrefers'
    split at hrefers
    · next hliteral =>
      rw [if_pos hliteral, hrefers] at hrefers'
      exact Except.ok.inj hrefers'
    · next hliteral =>
      rw [if_neg hliteral, hrefers] at hrefers'
      exact Except.ok.inj hrefers'
  rw [htarget, haddress'] at haddress
  exact (Except.ok.inj haddress).symm

theorem Spells.unique {x y : Operand} (hx : e.Spells t line token x) (hy : e.Spells t line token y)
    (hkind : x.SameKind y) : x = y := by
  have hregister : ∀ r r', e.HoldsRegister t token r → e.HoldsRegister t token r' → r = r' := by
    intro r r' h h'
    have hread : e.register t line token = .ok r := register_eq_ok.mpr h
    rw [register_eq_ok.mpr h'] at hread
    exact (Except.ok.inj hread).symm
  cases hx with
  | register held =>
      cases hy with
      | register held' => rw [hregister _ _ held held']
      | _ => cases hkind
  | sourceRegister spelled held =>
      cases hy with
      | sourceRegister _ held' => rw [hregister _ _ held held']
      | sourceValue plain => simp [spelled] at plain
      | _ => cases hkind
  | sourceValue plain held low =>
      cases hy with
      | sourceRegister spelled => simp [plain] at spelled
      | sourceValue _ held' low' =>
          rw [held.unique held', ← low', Int.ofNat_inj, UInt16.toNat_inj] at low
          rw [low]
      | _ => cases hkind
  | value held low =>
      cases hy with
      | value held' low' =>
          cases hkind
          rw [held.unique held', ← low', Int.ofNat_inj, UInt16.toNat_inj] at low
          rw [low]
      | _ => cases hkind
  | offset points low =>
      cases hy with
      | offset points' low' =>
          rw [points.unique points', ← low', UInt16.toNat_inj] at low
          rw [low]
      | _ => cases hkind

theorem operands_unique {tokens : List String} {xs ys : List Operand}
    (hx : List.Forall₂ (e.Spells t line) tokens xs) (hy : List.Forall₂ (e.Spells t line) tokens ys)
    (hkind : List.Forall₂ Operand.SameKind xs ys) : xs = ys := by
  induction hx generalizing ys with
  | nil =>
      cases hkind
      rfl
  | cons hx hxs ih =>
      cases hy with
      | cons hy hys =>
          cases hkind with
          | cons hkind hkinds => rw [hx.unique hy hkind, ih hys hkinds]

/-- A line denotes at most one instruction. -/
theorem Denotes.unique {i j : Instruction} (hi : e.Denotes t line i) (hj : e.Denotes t line j) :
    i = j := by
  have hop : i.opcode = j.opcode := by
    have hsame := hi.operation.symm.trans hj.operation
    rwa [Option.some.injEq, Operation.instruction.injEq] at hsame
  exact Instruction.eq_of_operands hop
    (operands_unique hi.operands hj.operands (Instruction.sameKind_operands hop))

/-! ### reading the operands -/

theorem spells_value {f : Field} {bits : UInt16} (h : e.value t line token f = .ok bits) :
    e.Spells t line token (.value f bits) := by
  obtain ⟨n, held, hfit⟩ := value_eq_ok.mp h
  have hlow := Numeral.toNat_of_fit hfit
  rw [Field.modulus_eq, Nat.one_shiftLeft] at hlow
  exact .value held (by exact_mod_cast hlow)

theorem spells_source {bits : UInt16} (plain : Register.isToken token = false)
    (h : e.value t line token .imm5 = .ok bits) :
    e.Spells t line token (.source (.immediate bits)) := by
  obtain ⟨n, held, hfit⟩ := value_eq_ok.mp h
  exact .sourceValue plain held (Numeral.toNat_of_fit hfit)

theorem spells_offset {target : Target} {bits : UInt16} (hrefers : e.RefersTo t line token target)
    (h : e.pageOffset line token target = .ok bits) : e.Spells t line token (.offset bits) := by
  obtain ⟨address, haddress, hoffset⟩ := pageOffset_eq_ok.mp h
  obtain ⟨-, rfl⟩ := Page.offset_eq_ok.mp hoffset
  refine .offset (pointsAt_iff.mpr ⟨target, hrefers, haddress⟩) ?_
  rw [UInt16.toNat_ofNat']
  omega

/-- The instruction that is read from the operands of a line is the one that it denotes. -/
theorem Reads.denotes {op : Opcode} {i : Instruction} {target? : Option Target}
    (h : Reads t e line op i target?) (hop : line.operation? = some (.instruction op)) :
    i.opcode = op ∧ e.Denotes t line i := by
  cases h with
  | arithRegister operands destination first token second =>
      refine ⟨rfl, hop, ?_⟩
      rw [operands]
      exact .cons (.register (register_eq_ok.mp destination)) (.cons
        (.register (register_eq_ok.mp first)) (.cons
        (.sourceRegister token (register_eq_ok.mp second)) .nil))
  | arithImmediate operands destination first token second =>
      refine ⟨rfl, hop, ?_⟩
      rw [operands]
      exact .cons (.register (register_eq_ok.mp destination)) (.cons
        (.register (register_eq_ok.mp first)) (.cons (spells_source token second) .nil))
  | complement operands destination source =>
      refine ⟨rfl, hop, ?_⟩
      rw [operands]
      exact .cons (.register (register_eq_ok.mp destination)) (.cons
        (.register (register_eq_ok.mp source)) .nil)
  | branch operands refers page | jump operands refers page =>
      have hplain : line.takesLiteral = false := by simp only [Line.takesLiteral, hop]
      refine ⟨rfl, hop, ?_⟩
      rw [operands]
      exact .cons (spells_offset (by rwa [RefersTo, if_neg (by simp [hplain])]) page) .nil
  | jumpVia operands register value =>
      refine ⟨rfl, hop, ?_⟩
      rw [operands]
      exact .cons (.register (register_eq_ok.mp register)) (.cons (spells_value value) .nil)
  | @transfer _ _ token _ target _ operands register refers page =>
      have hrefers : e.RefersTo t line token target := by
        simp only [RefersTo, Line.takesLiteral, hop, operands]
        exact refers
      refine ⟨rfl, hop, ?_⟩
      rw [operands]
      exact .cons (.register (register_eq_ok.mp register)) (.cons (spells_offset hrefers page) .nil)
  | indexed operands register via value =>
      refine ⟨rfl, hop, ?_⟩
      rw [operands]
      exact .cons (.register (register_eq_ok.mp register)) (.cons
        (.register (register_eq_ok.mp via)) (.cons (spells_value value) .nil))
  | ret operands | debug operands =>
      refine ⟨rfl, hop, ?_⟩
      rw [operands]
      exact .nil
  | trap operands value =>
      refine ⟨rfl, hop, ?_⟩
      rw [operands]
      exact .cons (spells_value value) .nil

theorem Spells.isReduced {x : Operand} (h : e.Spells t line token x) : x.IsReduced := by
  cases h with
  | register | sourceRegister => trivial
  | @sourceValue n bits _ _ low =>
      show bits.toNat < 2 ^ 5
      omega
  | @value f n bits _ low =>
      show bits.toNat < 2 ^ f.width
      cases f <;> simp only [Field.width] at low ⊢ <;> omega
  | @offset address bits _ low =>
      show bits.toNat < 2 ^ 9
      omega

/-- The values of the instruction that a line denotes are within the widths of their fields. -/
theorem Denotes.isReduced {i : Instruction} (h : e.Denotes t line i) : i.IsReduced := by
  refine Instruction.isReduced_of_operands fun x hx => ?_
  obtain ⟨n, hn, rfl⟩ := List.getElem_of_mem hx
  exact (h.operands.get (h.operands.length_eq ▸ hn) hn).isReduced

/-- What is emitted for a line is the word of the instruction that it denotes. -/
theorem Step.decodes {op : Opcode} {out : Emission} {e' : Emitter} (h : Step t e line out e')
    (hop : line.operation? = some (.instruction op)) :
    e' = e.advance 1 ∧ ∃ word patch i, out.records = [.text e.location word patch] ∧
      i.opcode = op ∧ e.Denotes t line i ∧ Instruction.decode? word = some i := by
  obtain ⟨i, target?, word, hreads, hword, rfl, rfl⟩ := h.of_instruction hop
  obtain ⟨hopcode, hdenotes⟩ := hreads.denotes hop
  exact ⟨rfl, word, _, i, rfl, hopcode, hdenotes,
    Instruction.decode?_of_word? hword hdenotes.isReduced⟩

end Emitter

/-- A line of a machine instruction that is emitted makes one word, at the location of the
line.  The word is decoded to the instruction that the line denotes, and it is the only
one that is, so lines that denote different instructions have different words.  The fields
of every instruction fill a word. -/
theorem step_instruction_decodes {t : Layout} {e : Emitter} {line : Line} {op : Opcode}
    (operation : line.operation? = some (.instruction op)) :
    (∀ i : Instruction, ∃ word, i.word? = some word) ∧
    (∀ fault, (e.step t line).1 ≠ .error (.fault fault)) ∧
    ∀ out e', e.step t line = (.ok out, e') →
      e' = { e with location := e.location + 1 } ∧
      ∃ word patch i, out.records = [.text e.location word patch] ∧
        i.opcode = op ∧ e.Denotes t line i ∧ Instruction.decode? word = some i ∧
        (∀ other, Instruction.decode? other = some i → other = word) ∧
        ∀ t₂ e₂ line₂ i₂ out₂ e₂' word₂ patch₂, Emitter.Denotes t₂ e₂ line₂ i₂ →
          e₂.step t₂ line₂ = (.ok out₂, e₂') → out₂.records = [.text e₂.location word₂ patch₂] →
          i ≠ i₂ → word ≠ word₂ := by
  refine ⟨Instruction.exists_word, reports_of_blamed (Emitter.failsOnly_step t e line), ?_⟩
  intro out e' hstep
  obtain ⟨hmove, word, patch, i, hrecords, hop, hdenotes, hdecode⟩ :=
    (Emitter.step_ok_iff.mp hstep).decodes operation
  refine ⟨hmove, word, patch, i, hrecords, hop, hdenotes, hdecode, ?_, ?_⟩
  · intro other hother
    have hword := (Instruction.decode?_eq_some_iff.mp hother).1
    rw [(Instruction.decode?_eq_some_iff.mp hdecode).1] at hword
    exact (Option.some.inj hword).symm
  · -- one word for both lines would be decoded to both instructions
    intro t₂ e₂ line₂ i₂ out₂ e₂' word₂ patch₂ hdenotes₂ hstep₂ hrecords₂ hne hword
    obtain ⟨-, word', patch', j, hrecords', -, hj, hdecode'⟩ :=
      (Emitter.step_ok_iff.mp hstep₂).decodes hdenotes₂.operation
    rw [hrecords₂] at hrecords'
    cases hrecords'
    rw [← hword, hdecode, Option.some.injEq] at hdecode'
    exact hne (hdecode'.trans (hj.unique hdenotes₂))

/-- A layout with a name for a negative number. -/
def negativeStep : Layout :=
  ⟨⟨[("STEP", .absolute (.dec (-3)))]⟩, [], .empty, 0x3000, 0x3001, 0x3001, 1⟩

theorem step_instruction_decodes_negativeStep :
    Instruction.decode? 0x5EBD = some (.arith .and 7 2 (.immediate 0x1D)) ∧
      (Emitter.start negativeStep).Denotes negativeStep ⟨"", "AND", "R7,R2,STEP", 2, .nowhere⟩
        (.arith .and 7 2 (.immediate 0x1D)) := by
  obtain ⟨-, -, emitted⟩ := @step_instruction_decodes negativeStep (.start negativeStep)
    ⟨"", "AND", "R7,R2,STEP", 2, .nowhere⟩ (.arith .and) rfl
  obtain ⟨-, word, patch, i, hrecords, -, hdenotes, hdecode, -⟩ := emitted _ _ rfl
  cases hrecords
  obtain rfl : i = .arith .and 7 2 (.immediate 0x1D) := (Option.some.inj hdecode).symm
  exact ⟨hdecode, hdenotes⟩

end PageAsm
