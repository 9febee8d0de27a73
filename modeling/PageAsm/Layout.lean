import PageAsm.Diagnostic
import PageAsm.Symbol

/-!
# PageAsm.Layout

The layout of a segment: what every label stands for, the address of every
literal, and the number of words.  It is found in one scan of the lines
between `.ORIG` and `.END`; each line in turn

1. declares external names, if it is `.EXT`;
2. defines its label, unless that is defined above;
3. adds the literal in its operands to the pool, which follows the code;
4. takes up its words of memory.

The location counter wraps around memory; the count of words does not, and has
to fit in 32 bits.
-/

namespace PageAsm

/-- The tables of a segment. -/
structure Layout where
  symbols : SymbolTable
  externals : List String
  literals : LiteralTable
  /-- The load address; zero if none is given. -/
  origin : UInt16
  /-- The address after the code, where the literal pool starts. -/
  codeEnd : UInt16
  /-- The address after the literal pool. -/
  poolEnd : UInt16
  /-- Words of code and pool, without wrapping. -/
  length : Nat
deriving DecidableEq

/-- The load address on a `.ORIG` line; zero if the operand is blank. -/
def Line.origin (line : Line) : Except Failure UInt16 :=
  if line.operands = "" then .ok 0
  else
    line.orFail (.badValue line.operands .address) do
      let value ← Numeral.parse line.operands
      value.fit .address

/-- The words that `.BLKW` reserves: an address, but not zero. -/
def Line.blockCount (line : Line) (value : Numeral) : Except Failure UInt16 :=
  match value.fit .address with
  | .ok count => if count = 0 then line.fail (.blockLength line.operands) else .ok count
  | .error _ => line.fail (.blockLength line.operands)

/-- The literal in the operands: the text from the first `=` on. -/
def Line.literal? (line : Line) : Option String :=
  match line.operands.toList.dropWhile (· != '=') with
  | [] => none
  | token => some (String.ofList token)

/-- The sum of two counts of words. -/
def addCounts (a b : Nat) : Except Failure Nat :=
  if a + b < 4294967296 then .ok (a + b) else .error (.fault .countOverflow)

/-! ## the scan -/

/-- What is known after some lines. -/
structure Scan where
  location : UInt16
  length : Nat
  symbols : SymbolTable
  externals : List String
  /-- Literal tokens in the order they are met. -/
  literals : List String
deriving DecidableEq

namespace Scan

def start (origin : UInt16) : Scan := ⟨origin, 0, .empty, [], []⟩

def declare (s : Scan) (line : Line) (operation : Operation) : Scan :=
  if operation = .directive .ext then
    { s with externals := Names.declareAll s.externals line.operandList }
  else s

/-- What the operand of `.EQU` or of a labelled `.EXT` stands for: a numeral,
a symbol defined above, or an external name. -/
def aliased (s : Scan) (line : Line) : Except Failure Symbol :=
  if isNumeric line.operands then do
    let value ← line.orFail (.badValue line.operands .word) (Numeral.parse line.operands)
    return .absolute value
  else
    match s.symbols.get? line.operands with
    | some symbol => .ok symbol
    | none =>
      if line.operands ∈ s.externals then .ok (.external line.operands)
      else if line.operandList.length > 1 then line.fail (.ambiguousAlias line.label)
      else line.fail (.forwardReference line.operands)

/-- What the label of a line stands for. -/
def labelled (s : Scan) (line : Line) : Operation → Except Failure Symbol
  | .directive .equ => s.aliased line
  | .directive .ext => s.aliased line
  | _ => .ok (.relative s.location)

def define (s : Scan) (line : Line) (operation : Operation) : Except Failure Scan :=
  if line.label = "" || s.symbols.contains line.label then .ok s
  else do
    let symbol ← s.labelled line operation
    let symbols := s.symbols.insert line.label symbol
    if symbols.size > SymbolTable.capacity then line.fail .symbolCapacity
    else return { s with symbols := symbols }

def collect (s : Scan) (line : Line) (operation : Operation) : Except Failure Scan :=
  if operation = .directive .strz then .ok s
  else
    match line.literal? with
    | none => .ok s
    | some token =>
      let literals := Names.declare s.literals token
      if token ∉ s.literals && literals.length > LiteralTable.capacity then
        line.fail .literalCapacity
      else .ok { s with literals := literals }

/-- The value of a `.BLKW` operand. -/
def blockValue (s : Scan) (line : Line) : Except Failure Numeral :=
  if isNumeric line.operands then
    line.orFail (fun _ => .blockLength line.operands) (Numeral.parse line.operands)
  else if line.operands ∈ s.externals then line.fail (.externalMisuse line.operands)
  else
    match s.symbols.get? line.operands with
    | some (.absolute value) => .ok value
    | some _ => line.fail (.notAbsolute line.operands)
    | none => line.fail (.undefinedSymbol line.operands)

/-- The words of memory a line takes up. -/
def words (s : Scan) (line : Line) : Operation → Except Failure Nat
  | .instruction op => .ok op.words
  | .directive .strz => addCounts (line.operands.toList.length % 4294967296) 1
  | .directive .blkw => do
    let value ← s.blockValue line
    let count ← line.blockCount value
    return count.toNat
  | .directive d => .ok d.fixedWords

def advance (s : Scan) (words : Nat) : Except Failure Scan := do
  let length ← addCounts s.length words
  let location ← addCounts s.location.toNat words
  return { s with length := length, location := UInt16.ofNat (location % 65536) }

/-- Scan one line. -/
def line (s : Scan) (line : Line) : Except Failure Scan :=
  match line.operation? with
  | none => line.fail (.unknownOperation line.mnemonic)
  | some operation => do
    let s ← (s.declare line operation).define line operation
    let s ← s.collect line operation
    let words ← s.words line operation
    s.advance words

/-- Scan several lines in order. -/
def lines : Scan → List Line → Except Failure Scan
  | s, [] => .ok s
  | s, line :: rest => do
    let s ← s.line line
    s.lines rest

end Scan

/-! ## the layout -/

namespace Layout

/-- The lines between the first and the last. -/
def inner (lines : List Line) : List Line := lines.tail.dropLast

/-- Put the literal pool behind the scanned code. -/
def ofScan (origin : UInt16) (s : Scan) : Except Failure Layout := do
  let (literals, poolEnd) := LiteralTable.allocate .empty s.location s.literals
  let length ← addCounts s.length literals.size
  return {
    symbols := s.symbols
    externals := s.externals
    literals := literals
    origin := origin
    codeEnd := s.location
    poolEnd := poolEnd
    length := length }

/-- Lay out a segment. -/
def ofLines (lines : List Line) : Except Failure Layout := do
  let origin ←
    match lines.head? with
    | some first => first.origin
    | none => .ok 0
  let s ← (Scan.start origin).lines (inner lines)
  ofScan origin s

/-- The printed tables. -/
def render (t : Layout) : String :=
  s!"Symbols ({t.symbols.size})\n" ++ SymbolTable.render t.symbols
    ++ s!"Externals ({t.externals.length})\n"
    ++ String.join (t.externals.map (· ++ "\n"))
    ++ s!"Literals ({t.literals.size})\n" ++ LiteralTable.render t.literals

end Layout

end PageAsm
