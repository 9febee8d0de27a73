import PageAsm.Text.Split
import PageAsm.Operation

/-!
# PageAsm.Line

Source lines as the assembler takes them: three fields, the line number, and
the place that diagnostics point at.
-/

namespace PageAsm

/-- A range of bytes in the source text. -/
structure Span where
  offset : Nat
  length : Nat
deriving DecidableEq

namespace Span

/-- The span of lines that do not come from a text. -/
def nowhere : Span := ⟨0, 0⟩

/-- The first byte behind the span. -/
def stop (s : Span) : Nat := s.offset + s.length

def isEmpty (s : Span) : Bool := s.length == 0

end Span

/-- A source line. -/
structure Line where
  label : String
  mnemonic : String
  /-- The whole operand field. -/
  operands : String
  /-- Lines are counted from one. -/
  number : Nat
  /-- The operand field, or the operation where there are no operands. -/
  span : Span := Span.nowhere
deriving DecidableEq

namespace Line

/-- The operation of the line, if its mnemonic names one. -/
def operation? (line : Line) : Option Operation := Operation.parse? line.mnemonic

/-- The operands between commas; an empty field holds none. -/
def operandList (line : Line) : List String :=
  if line.operands = "" then []
  else (Text.splitOn ',' line.operands.toList).map String.ofList

/-- The line has the given directive. -/
def isDirective (line : Line) (d : Directive) : Bool := line.mnemonic == d.mnemonic

end Line

end PageAsm
