import PageAsm.Operation
import PageAsm.Register
import PageAsm.Word

/-!
# PageAsm.Instruction

Machine instructions with the values of their operands, and their bit layout,
most significant bits first:

```
ADD AND         opcode:4  dr:3  sr:3  000  sr:3
                opcode:4  dr:3  sr:3  1    imm:5
NOT             opcode:4  dr:3  sr:3  000000
BR              opcode:4  nzp:3  offset:9
JSR JMP         opcode:4  link:1  00  offset:9
JSRR JMPR       opcode:4  link:1  00  base:3  index:6
LD LDI ST STI   opcode:4  reg:3  offset:9
LEA             opcode:4  reg:3  offset:9
LDR STR         opcode:4  reg:3  base:3  index:6
RET DBUG        opcode:4  000000000000
TRAP            opcode:4  0000  vector:8
```

`exists_word` states that the layout of every instruction fills a word.
-/

namespace PageAsm

/-- The second source of an operation on two values. -/
inductive SecondSource where
  | register (r : Register)
  | immediate (bits : UInt16)
deriving DecidableEq

/-- A machine instruction with the values of its operands. -/
inductive Instruction where
  | arith (op : Arith) (dr sr : Register) (source : SecondSource)
  | complement (dr sr : Register)
  | branch (condition : Condition) (offset : UInt16)
  | jump (link : Bool) (offset : UInt16)
  | jumpVia (link : Bool) (base : Register) (index : UInt16)
  | transfer (op : Transfer) (reg : Register) (offset : UInt16)
  | indexed (op : Indexed) (reg base : Register) (index : UInt16)
  | ret
  | debug
  | trap (vector : UInt16)
deriving DecidableEq

namespace BitField

def ofRegister (r : Register) : BitField := ⟨UInt16.ofNat r.val, 3⟩

def ofBool (b : Bool) : BitField := ⟨if b then 1 else 0, 1⟩

/-- Bits without a meaning, always zero. -/
def zeros (width : Nat) : BitField := ⟨0, width⟩

end BitField

namespace Instruction

def opcode : Instruction → Opcode
  | arith op _ _ _ => .arith op
  | complement _ _ => .complement
  | branch condition _ => .branch condition
  | jump link _ => .jump link
  | jumpVia link _ _ => .jumpVia link
  | transfer op _ _ => .transfer op
  | indexed op _ _ _ => .indexed op
  | ret => .ret
  | debug => .debug
  | trap _ => .trap

/-- The bit fields behind the opcode. -/
def operandFields : Instruction → List BitField
  | arith _ dr sr (.register r) =>
    [.ofRegister dr, .ofRegister sr, .zeros 3, .ofRegister r]
  | arith _ dr sr (.immediate bits) =>
    [.ofRegister dr, .ofRegister sr, .ofBool true, ⟨bits, 5⟩]
  | complement dr sr => [.ofRegister dr, .ofRegister sr, .zeros 6]
  | branch condition offset => [⟨condition.bits, 3⟩, ⟨offset, 9⟩]
  | jump link offset => [.ofBool link, .zeros 2, ⟨offset, 9⟩]
  | jumpVia link base index => [.ofBool link, .zeros 2, .ofRegister base, ⟨index, 6⟩]
  | transfer _ reg offset => [.ofRegister reg, ⟨offset, 9⟩]
  | indexed _ reg base index => [.ofRegister reg, .ofRegister base, ⟨index, 6⟩]
  | ret => [.zeros 12]
  | debug => [.zeros 12]
  | trap vector => [.zeros 4, ⟨vector, 8⟩]

/-- All bit fields of the instruction word. -/
def fields (i : Instruction) : List BitField := ⟨i.opcode.code, 4⟩ :: i.operandFields

/-- The instruction word. -/
def word? (i : Instruction) : Option UInt16 := Word.ofFields? i.fields

/-- The fields of an instruction fill a word. -/
theorem exists_word (i : Instruction) : ∃ w, i.word? = some w := by
  cases i with
  | arith op dr sr source =>
    cases source <;>
      simp [word?, fields, operandFields, Word.ofFields?, Bits.appendAll?, Bits.append?,
        Bits.word?, Bits.empty, BitField.ofRegister, BitField.ofBool, BitField.zeros]
  | _ =>
    simp [word?, fields, operandFields, Word.ofFields?, Bits.appendAll?, Bits.append?,
      Bits.word?, Bits.empty, BitField.ofRegister, BitField.ofBool, BitField.zeros]

end Instruction

end PageAsm
