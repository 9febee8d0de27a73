import PageAsm.Numeral
import PageAsm.Table
import PageAsm.Word

/-!
# PageAsm.Symbol

What a symbol stands for, and the tables of symbols and literals with their
text form.
-/

namespace PageAsm

/-- What a symbol stands for. -/
inductive Symbol where
  /-- A plain number, never patched. -/
  | absolute (value : Numeral)
  /-- An address in the segment, patched when the segment is moved. -/
  | relative (address : UInt16)
  /-- An external name, whose address is known at link time only. -/
  | external (name : String)
deriving DecidableEq

namespace Symbol

/-- The number in the table; external names hold the place with zero. -/
def value : Symbol → Numeral
  | absolute value => value
  | relative address => .hex address
  | external _ => .hex 0

def isAbsolute : Symbol → Bool
  | absolute _ => true
  | _ => false

/-- `A` for absolute symbols, `R` for those that are patched. -/
def classLetter : Symbol → String
  | absolute _ => "A"
  | _ => "R"

def external? : Symbol → Option String
  | external name => some name
  | _ => none

/-- The row of a symbol in the printed table. -/
def render (name : String) (symbol : Symbol) : String :=
  let value :=
    match symbol with
    | external _ => "----"
    | other => Word.hex other.value.word
  let row := Text.alignLeft 6 name ++ "  " ++ value ++ "  " ++ symbol.classLetter
  match symbol with
  | external target => row ++ "  -> " ++ target
  | _ => row

end Symbol

/-- Symbols in order of definition. -/
abbrev SymbolTable := Table Symbol

namespace SymbolTable

/-- At most this many symbols may be defined. -/
def capacity : Nat := 100

def render (t : SymbolTable) : String :=
  String.join (t.entries.map fun (name, symbol) => symbol.render name ++ "\n")

end SymbolTable

/-- Addresses of literals in the order of the pool; the key is the token as it
is written. -/
abbrev LiteralTable := Table UInt16

namespace LiteralTable

/-- At most this many literals may be used. -/
def capacity : Nat := 50

/-- Give every new token the next address from `base` on, and return the
address after the last one. -/
def allocate : LiteralTable → UInt16 → List String → LiteralTable × UInt16
  | t, base, [] => (t, base)
  | t, base, token :: tokens =>
    if t.contains token then allocate t base tokens
    else allocate (t.insert token base) (base + 1) tokens

def render (t : LiteralTable) : String :=
  String.join (t.entries.map fun (token, address) =>
    Text.alignLeft 8 token ++ "  " ++ Word.hex address ++ "\n")

end LiteralTable

end PageAsm
