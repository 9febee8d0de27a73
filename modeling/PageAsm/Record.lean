import PageAsm.Word

/-!
# PageAsm.Record

Records of the object file, one a line:

```
HPROG  30000012        header: name, origin, length
T30001283              text: address, word
T30012005X9PROG        text with a 9-bit patch against the segment
T3002FFFFX16PUTS       text with a 16-bit patch against an external name
NMAIN=000              entry point: name, offset
E3000                  end: execution address
```
-/

namespace PageAsm

/-- The bits of a word that are patched at link time. -/
inductive PatchWidth where
  /-- The low nine bits, an offset in a page. -/
  | nine
  /-- The whole word. -/
  | sixteen
deriving DecidableEq

/-- A request to add an address to a word at link time. -/
structure Patch where
  width : PatchWidth
  /-- The padded name of the segment, or an external name. -/
  name : String
deriving DecidableEq

/-- A record of the object file. -/
inductive Record where
  | header (name : String) (origin length : UInt16)
  | text (address word : UInt16) (patch : Option Patch)
  | entry (name : String) (offset : UInt16)
  | «end» (address : UInt16)
deriving DecidableEq

def PatchWidth.render : PatchWidth → String
  | nine => "X9"
  | sixteen => "X16"

def Patch.render (p : Patch) : String := p.width.render ++ p.name

/-- Three hexadecimal digits, or four where three are too few. -/
def Record.offsetText (offset : UInt16) : String :=
  String.ofList (Text.fixedDigits 16 (if offset < 0x1000 then 3 else 4) offset.toNat)

/-- The line of a record in the object file. -/
def Record.render : Record → String
  | header name origin length =>
    "H" ++ Text.alignLeft 6 name ++ Word.hex origin ++ Word.hex length
  | text address word none => "T" ++ Word.hex address ++ Word.hex word
  | text address word (some patch) => "T" ++ Word.hex address ++ Word.hex word ++ patch.render
  | entry name offset => "N" ++ name ++ "=" ++ offsetText offset
  | «end» address => "E" ++ Word.hex address

end PageAsm
