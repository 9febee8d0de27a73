/-!
# PageAsm.Operation

What can stand in the operation column of a line: the opcode of a machine
instruction, or a directive to the assembler.  `Operation.table` gives their
spellings; mnemonics are matched exactly, in upper case.

Opcodes are grouped by the shape of their operands, so that the eight branches
are one constructor with a condition, and the two ways to jump differ only in
whether they link.
-/

namespace PageAsm

/-! ## opcodes -/

/-- The condition bits a branch tests. -/
structure Condition where
  negative : Bool
  zero : Bool
  positive : Bool
deriving DecidableEq

/-- The three condition bits, `negative` the most significant. -/
def Condition.bits (c : Condition) : UInt16 :=
  (if c.negative then 4 else 0) + (if c.zero then 2 else 0) + (if c.positive then 1 else 0)

/-- Operations on two values. -/
inductive Arith where
  | add
  | and
deriving DecidableEq

/-- Transfers between a register and an address on the page. -/
inductive Transfer where
  | ld
  | ldi
  | st
  | sti
  | lea
deriving DecidableEq

/-- Transfers between a register and an indexed address. -/
inductive Indexed where
  | ldr
  | str
deriving DecidableEq

/-- Machine instructions without their operands. -/
inductive Opcode where
  | arith (op : Arith)
  | complement
  | branch (condition : Condition)
  /-- `JSR` links, `JMP` does not. -/
  | jump (link : Bool)
  /-- `JSRR` links, `JMPR` does not. -/
  | jumpVia (link : Bool)
  | transfer (op : Transfer)
  | indexed (op : Indexed)
  | ret
  | debug
  | trap
deriving DecidableEq

namespace Opcode

/-- The four leading bits of the instruction word. -/
def code : Opcode → UInt16
  | branch _ => 0x0
  | arith .add => 0x1
  | transfer .ld => 0x2
  | transfer .st => 0x3
  | jump _ => 0x4
  | arith .and => 0x5
  | indexed .ldr => 0x6
  | indexed .str => 0x7
  | debug => 0x8
  | complement => 0x9
  | transfer .ldi => 0xA
  | transfer .sti => 0xB
  | jumpVia _ => 0xC
  | ret => 0xD
  | transfer .lea => 0xE
  | trap => 0xF

/-- Number of operands. -/
def arity : Opcode → Nat
  | arith _ => 3
  | complement => 2
  | branch _ => 1
  | jump _ => 1
  | jumpVia _ => 2
  | transfer _ => 2
  | indexed _ => 3
  | ret => 0
  | debug => 0
  | trap => 1

/-- Words of memory; every instruction is one word long. -/
def words (_ : Opcode) : Nat := 1

end Opcode

/-! ## directives -/

/-- Directives to the assembler. -/
inductive Directive where
  /-- Opens the segment and gives its load address. -/
  | orig
  /-- Gives its label the value of a numeral, a symbol or an external name. -/
  | equ
  /-- Closes the segment and gives the execution address. -/
  | «end»
  /-- Publishes symbols as entry points. -/
  | ent
  /-- Declares external names. -/
  | ext
  /-- Stores one word. -/
  | fill
  /-- Reserves a block of words. -/
  | blkw
  /-- Stores the characters of a string and a zero word. -/
  | strz
deriving DecidableEq

namespace Directive

def mnemonic : Directive → String
  | orig => ".ORIG"
  | equ => ".EQU"
  | «end» => ".END"
  | ent => ".ENT"
  | ext => ".EXT"
  | fill => ".FILL"
  | blkw => ".BLKW"
  | strz => ".STRZ"

/-- Words of memory, where the operand does not decide. -/
def fixedWords : Directive → Nat
  | fill => 1
  | _ => 0

/-- The operand decides the words of memory. -/
def isVariable : Directive → Bool
  | blkw => true
  | strz => true
  | _ => false

/-- The directive occupies memory. -/
def isStorage (d : Directive) : Bool := d.isVariable || d.fixedWords != 0

end Directive

/-! ## operations -/

/-- What the operation column of a line names. -/
inductive Operation where
  | instruction (op : Opcode)
  | directive (d : Directive)
deriving DecidableEq

namespace Operation

/-- Every mnemonic with the operation it names. -/
def table : List (String × Operation) :=
  [("ADD", .instruction (.arith .add)),
   ("AND", .instruction (.arith .and)),
   ("NOT", .instruction .complement),
   ("LD", .instruction (.transfer .ld)),
   ("LDI", .instruction (.transfer .ldi)),
   ("LDR", .instruction (.indexed .ldr)),
   ("LEA", .instruction (.transfer .lea)),
   ("ST", .instruction (.transfer .st)),
   ("STI", .instruction (.transfer .sti)),
   ("STR", .instruction (.indexed .str)),
   ("BR", .instruction (.branch ⟨false, false, false⟩)),
   ("BRN", .instruction (.branch ⟨true, false, false⟩)),
   ("BRZ", .instruction (.branch ⟨false, true, false⟩)),
   ("BRP", .instruction (.branch ⟨false, false, true⟩)),
   ("BRNZ", .instruction (.branch ⟨true, true, false⟩)),
   ("BRNP", .instruction (.branch ⟨true, false, true⟩)),
   ("BRZP", .instruction (.branch ⟨false, true, true⟩)),
   ("BRNZP", .instruction (.branch ⟨true, true, true⟩)),
   ("JSR", .instruction (.jump true)),
   ("JMP", .instruction (.jump false)),
   ("JSRR", .instruction (.jumpVia true)),
   ("JMPR", .instruction (.jumpVia false)),
   ("RET", .instruction .ret),
   ("TRAP", .instruction .trap),
   ("DBUG", .instruction .debug),
   (".ORIG", .directive .orig),
   (".EQU", .directive .equ),
   (".END", .directive .end),
   (".ENT", .directive .ent),
   (".EXT", .directive .ext),
   (".FILL", .directive .fill),
   (".BLKW", .directive .blkw),
   (".STRZ", .directive .strz)]

/-- The operation a mnemonic names. -/
def parse? (mnemonic : String) : Option Operation := table.lookup mnemonic

theorem parse?_mnemonic (d : Directive) : parse? d.mnemonic = some (.directive d) := by
  cases d <;> decide

end Operation

end PageAsm
