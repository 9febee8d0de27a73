import PageAsm.Diagnostic
import PageAsm.Text.Blank
import PageAsm.Text.Bytes

/-!
# PageAsm.SourceText

Reading source text in fixed columns, counted in bytes from zero:

```
0-5    label        6-8    blank
9-13   operation    14-16  blank
17-    operands
```

1. Blank lines and lines that start with `;` are skipped.
2. A `;` outside double quotes starts a comment.
3. Fields are trimmed; the quotes around a `.STRZ` string are dropped.
4. The first line must be `.ORIG` and the last one `.END`.
-/

namespace PageAsm

namespace SourceText

/-! ## physical lines -/

/-- A line of the text without its terminator. -/
structure PhysicalLine where
  /-- Lines are counted from one. -/
  number : Nat
  /-- Offset of the first byte in the text. -/
  start : Nat
  text : List Char
deriving DecidableEq

def isTerminator (c : Char) : Bool := c == '\n' || c == '\r'

/-- Number the lines of a text and find their offsets. -/
def numberLines : Nat → Nat → List (List Char) → List PhysicalLine
  | _, _, [] => []
  | number, start, line :: lines =>
    ⟨number, start, Text.dropEndWhile isTerminator line⟩
      :: numberLines (number + 1) (start + Text.byteSize line) lines

def physicalLines (source : List Char) : List PhysicalLine :=
  numberLines 1 0 (Text.lines source)

/-- The line is blank or holds only a comment. -/
def PhysicalLine.isSkipped (line : PhysicalLine) : Bool :=
  match Text.trim line.text with
  | [] => true
  | c :: _ => c == ';'

/-! ## fields -/

/-- The text before the first `;` outside double quotes; `quoted` tells
whether the text starts inside them. -/
def stripComment : Bool → List Char → List Char
  | _, [] => []
  | quoted, c :: cs =>
    if c = '"' then c :: stripComment (!quoted) cs
    else if c = ';' ∧ quoted = false then []
    else c :: stripComment quoted cs

/-- Drop double quotes that stand at both ends. -/
def stripQuotes (cs : List Char) : List Char :=
  match cs with
  | '"' :: inner => if inner.getLast? = some '"' then inner.dropLast else cs
  | _ => cs

/-- A range of columns. -/
structure Columns where
  start : Nat
  stop : Nat
deriving DecidableEq

namespace Columns

def label : Columns := ⟨0, 6⟩

def firstGap : Columns := ⟨6, 9⟩

def operation : Columns := ⟨9, 14⟩

def secondGap : Columns := ⟨14, 17⟩

/-- Operands go to the end of the line. -/
def operands (code : List Char) : Columns := ⟨17, max (Text.byteSize code) 17⟩

/-- The text in the columns. -/
def raw (cols : Columns) (code : List Char) : List Char :=
  Text.column code cols.start cols.stop

/-- The text in the columns without blanks at the ends. -/
def field (cols : Columns) (code : List Char) : List Char := Text.trim (cols.raw code)

/-- The range in the source of the field, in a line that starts at `start`. -/
def span (cols : Columns) (code : List Char) (start : Nat) : Span :=
  let raw := cols.raw code
  let lead := Text.byteSize raw - Text.byteSize (Text.trimStart raw)
  ⟨start + cols.start + lead, Text.byteSize (cols.field code)⟩

end Columns

/-! ## lines -/

/-- Read the fields of a line without its comment. -/
def readFields (code : List Char) (start number : Nat) : Except Diagnostic Line :=
  if Columns.firstGap.field code ≠ [] then
    .error ⟨.misaligned, some number, Columns.firstGap.span code start⟩
  else if Columns.secondGap.field code ≠ [] then
    .error ⟨.misaligned, some number, Columns.secondGap.span code start⟩
  else
    let mnemonic := String.ofList (Columns.operation.field code)
    let operationSpan := Columns.operation.span code start
    match Operation.parse? mnemonic with
    | none => .error ⟨.unknownOperation mnemonic, some number, operationSpan⟩
    | some operation =>
      let columns := Columns.operands code
      let operands := columns.field code
      .ok
        { label := String.ofList (Columns.label.field code)
          mnemonic := mnemonic
          operands := String.ofList
            (if operation = .directive .strz then stripQuotes operands else operands)
          number := number
          span := if operands = [] then operationSpan else columns.span code start }

def PhysicalLine.read (line : PhysicalLine) : Except Diagnostic Line :=
  readFields (stripComment false line.text) line.start line.number

/-- Read the lines that are not skipped. -/
def readLines : List PhysicalLine → Except Diagnostic (List Line)
  | [] => .ok []
  | line :: lines =>
    if line.isSkipped then readLines lines
    else do
      let first ← line.read
      let rest ← readLines lines
      return first :: rest

/-- The lines form a segment: `.ORIG` first, and `.END` last on another line. -/
def checkFrame (lines : List Line) : Except Diagnostic Unit :=
  match lines.head?, lines.getLast? with
  | some first, some last =>
    if !first.isDirective .orig then .error ⟨.missingOrig, none, first.span⟩
    else if lines.length ≤ 1 || !last.isDirective .end then .error ⟨.missingEnd, none, last.span⟩
    else .ok ()
  | _, _ => .error ⟨.missingOrig, none, Span.nowhere⟩

/-- Read a segment from source text. -/
def read (source : String) : Except Diagnostic (List Line) := do
  let lines ← readLines (physicalLines source.toList)
  checkFrame lines
  return lines

end SourceText

end PageAsm
