import PageAsm.Line
import PageAsm.Text.Blank
import PageAsm.Word

/-!
# PageAsm.Listing

Rows of the listing file.  Words of memory are shown with address, hexadecimal
and binary form in front of the source line; other lines have blanks there, so
that the source columns stay aligned:

```
(3000) 1283 0001001010000011 (   3) START           ADD   R1,R2,R3
                             (   2) PROG            .ORIG x3000
(3001)                       (   4) BUF             .BLKW x3
(3004) 000A 0000000000001010 ( lit)
```
-/

namespace PageAsm

/-- The fields of a source line that are listed. -/
structure SourceColumns where
  number : Nat
  label : String
  mnemonic : String
  operands : String
deriving DecidableEq

def Line.columns (line : Line) : SourceColumns :=
  ⟨line.number, line.label, line.mnemonic, line.operands⟩

/-- A row of the listing. -/
inductive Row where
  /-- A line that occupies no memory. -/
  | bare (source : SourceColumns)
  /-- The first or only word of a line. -/
  | word (address word : UInt16) (source : SourceColumns)
  /-- A further word of line `number`. -/
  | continuation (address word : UInt16) (number : Nat)
  /-- The first address of a reserved block. -/
  | block (address : UInt16) (source : SourceColumns)
  /-- A word of the literal pool. -/
  | literal (address word : UInt16)
deriving DecidableEq

/-- The line number in its column. -/
def SourceColumns.renderNumber (number : Nat) : String :=
  "(" ++ Text.alignRight 4 (toString number) ++ ")"

/-- The source columns without trailing blanks. -/
def SourceColumns.render (source : SourceColumns) : String :=
  let row := renderNumber source.number ++ " " ++ Text.alignLeft 16 source.label
    ++ Text.alignLeft 6 source.mnemonic ++ source.operands
  String.ofList (Text.trimEnd row.toList)

namespace Row

/-- Width of the columns in front of the source. -/
def memoryWidth : Nat := 29

def renderAddress (address : UInt16) : String := "(" ++ Word.hex address ++ ")"

def renderWord (address bits : UInt16) : String :=
  renderAddress address ++ " " ++ Word.hex bits ++ " " ++ Word.binary bits 16 ++ " "

/-- The line of a row in the listing file. -/
def render : Row → String
  | .bare source => Text.alignLeft memoryWidth "" ++ source.render
  | .word address bits source => renderWord address bits ++ source.render
  | .continuation address bits number =>
    renderWord address bits ++ SourceColumns.renderNumber number
  | .block address source =>
    Text.alignLeft memoryWidth (renderAddress address) ++ source.render
  | .literal address bits => renderWord address bits ++ "( lit)"

end Row

end PageAsm
