import PageAsm.Instruction
import PageAsm.Layout
import PageAsm.Listing
import PageAsm.Record

/-!
# PageAsm.Emission

Turning the lines of a laid-out segment into object records and listing rows,
one line at a time.  `Emitter.step` takes the state before a line to its output
and the state after it.

A line that fails leaves the state as it was, with two exceptions: `.ORIG` has
opened its segment when the size is found too large, and `.EXT` has declared
the names in front of one that collides.
-/

namespace PageAsm

/-- The output of a line. -/
structure Emission where
  records : List Record
  rows : List Row
deriving DecidableEq

/-- What an address operand refers to. -/
inductive Target where
  | absolute (value : Numeral)
  /-- An address in this segment. -/
  | relative (address : UInt16)
  /-- A name that is resolved at link time. -/
  | external (name : String)
deriving DecidableEq

namespace Target

/-- The address, as far as it is known: external names are at zero. -/
def address (line : Line) (token : String) : Target → Except Failure UInt16
  | absolute value => line.orFail (.badValue token .address) (value.fit .address)
  | relative address => .ok address
  | external _ => .ok 0

/-- The value as a full word. -/
def word (line : Line) (token : String) : Target → Except Failure UInt16
  | absolute value => line.orFail (.badValue token .word) (value.fit .word)
  | relative address => .ok address
  | external _ => .ok 0

end Target

/-- The state between two lines. -/
structure Emitter where
  location : UInt16
  origin : UInt16
  /-- The label of `.ORIG`, padded to six characters. -/
  segment : String
  /-- The segment has no load address and may be moved. -/
  relocatable : Bool
  /-- External names declared so far. -/
  externals : List String
deriving DecidableEq

namespace Emitter

/-- At most this many names on a line of `.ENT` or `.EXT`. -/
def maxNames : Nat := 5

/-- The state before the first line. -/
def start (t : Layout) : Emitter := ⟨t.origin, t.origin, "", false, []⟩

/-! ## operands -/

/-- The value of a symbol that must be absolute. -/
def absolute (t : Layout) (e : Emitter) (line : Line) (name : String) : Except Failure Numeral :=
  if name ∈ e.externals then line.fail (.externalMisuse name)
  else
    match t.symbols.get? name with
    | none => line.fail (.undefinedSymbol name)
    | some (.absolute value) => .ok value
    | some _ => line.fail (.notAbsolute name)

/-- A register operand: a register token, or an absolute symbol that holds its
number. -/
def register (t : Layout) (e : Emitter) (line : Line) (token : String) :
    Except Failure Register :=
  if Register.isToken token then line.orFail (.badRegister token) (Register.parse token)
  else if isNumeric token then line.fail (.badRegister token .malformed)
  else do
    let value ← e.absolute t line token
    line.orFail (.badRegister token) (Register.ofNumeral value)

/-- The bits of a value operand: a numeral, or an absolute symbol. -/
def value (t : Layout) (e : Emitter) (line : Line) (token : String) (field : Field) :
    Except Failure UInt16 := do
  let value ←
    if isNumeric token then line.orFail (.badValue token field) (Numeral.parse token)
    else e.absolute t line token
  line.orFail (.badValue token field) (value.fit field)

/-- An address operand: a numeral, an external name, or a symbol; a symbol that
stands for an external name refers to that name. -/
def resolve (t : Layout) (e : Emitter) (line : Line) (token : String) : Except Failure Target :=
  if isNumeric token then do
    let value ← line.orFail (.badValue token .address) (Numeral.parse token)
    return .absolute value
  else if token ∈ e.externals then .ok (.external token)
  else
    match t.symbols.get? token with
    | none => line.fail (.undefinedSymbol token)
    | some (.external name) =>
      if name ∈ e.externals then .ok (.external name)
      else line.fail (.danglingAlias token name)
    | some (.absolute value) => .ok (.absolute value)
    | some (.relative address) => .ok (.relative address)

/-- The word that holds a literal. -/
def literalWord (line : Line) (token : String) : Except Failure UInt16 :=
  line.orFail (.badValue token .word) do
    let value ← Numeral.parse token
    value.fit .word

/-- The place of a literal in the pool. -/
def literal (t : Layout) (line : Line) (token : String) : Except Failure Target := do
  let _ ← literalWord line token
  match t.literals.get? token with
  | some address => return .relative address
  | none => line.fail (.unknownLiteral token)

/-- The offset in the page of what an address operand refers to. -/
def pageOffset (e : Emitter) (line : Line) (token : String) (target : Target) :
    Except Failure UInt16 := do
  let address ← target.address line token
  line.orFail .pageRange (Page.offset e.location address)

/-- The patch for a word that refers to a target.  Segments with a load address
are never patched. -/
def patch? (e : Emitter) (width : PatchWidth) (target : Target) : Option Patch :=
  if e.relocatable then
    match target with
    | .absolute _ => none
    | .relative _ => some ⟨width, e.segment⟩
    | .external name => some ⟨width, name⟩
  else none

/-! ## instructions -/

/-- Read the operands of an instruction, from left to right.  Instructions that
refer to an address come with what it refers to. -/
def instruction (t : Layout) (e : Emitter) (line : Line) (op : Opcode) :
    Except Failure (Instruction × Option Target) :=
  match op, line.operandList with
  | .arith op, [dr, sr, source] => do
    let dr ← e.register t line dr
    let sr ← e.register t line sr
    if Register.isToken source then
      let r ← e.register t line source
      return (.arith op dr sr (.register r), none)
    else
      let bits ← e.value t line source .imm5
      return (.arith op dr sr (.immediate bits), none)
  | .complement, [dr, sr] => do
    let dr ← e.register t line dr
    let sr ← e.register t line sr
    return (.complement dr sr, none)
  | .branch condition, [token] => do
    let target ← e.resolve t line token
    let offset ← e.pageOffset line token target
    return (.branch condition offset, some target)
  | .jump link, [token] => do
    let target ← e.resolve t line token
    let offset ← e.pageOffset line token target
    return (.jump link offset, some target)
  | .jumpVia link, [base, index] => do
    let base ← e.register t line base
    let index ← e.value t line index .index6
    return (.jumpVia link base index, none)
  | .transfer op, [reg, token] => do
    let reg ← e.register t line reg
    let target ← if isLiteral token then literal t line token else e.resolve t line token
    let offset ← e.pageOffset line token target
    return (.transfer op reg offset, some target)
  | .indexed op, [reg, base, index] => do
    let reg ← e.register t line reg
    let base ← e.register t line base
    let index ← e.value t line index .index6
    return (.indexed op reg base index, none)
  | .ret, [] => return (.ret, none)
  | .debug, [] => return (.debug, none)
  | .trap, [vector] => do
    let vector ← e.value t line vector .trap8
    return (.trap vector, none)
  | op, operands => line.fail (.operandCount line.mnemonic op.arity operands.length)

/-! ## output of a line -/

/-- The output of a line that takes up one word. -/
def wordOutput (e : Emitter) (line : Line) (word : UInt16) (patch : Option Patch) : Emission :=
  ⟨[.text e.location word patch], [.word e.location word line.columns]⟩

/-- The output of a line that takes up no memory. -/
def bareOutput (line : Line) (records : List Record) : Emission :=
  ⟨records, [.bare line.columns]⟩

def advance (e : Emitter) (words : UInt16) : Emitter :=
  { e with location := e.location + words }

def emitInstruction (t : Layout) (e : Emitter) (line : Line) (op : Opcode) :
    Except Failure (Emission × Emitter) := do
  let (instruction, target?) ← e.instruction t line op
  match instruction.word? with
  | none => .error (.fault .wordWidth)
  | some word =>
    let patch := target?.bind (e.patch? .nine)
    return (e.wordOutput line word patch, e.advance 1)

/-- Open a segment.  It has to fit in memory, and in one page if it has no load
address. -/
def emitOrig (t : Layout) (e : Emitter) (line : Line) : Except Failure Emission × Emitter :=
  match line.origin with
  | .error f => (.error f, e)
  | .ok origin =>
    let e := { e with
      location := origin
      origin := origin
      segment := Text.alignLeft 6 line.label
      relocatable := origin == 0 }
    if t.length > 0xFFFF then (line.fail (.segmentSize t.length false), e)
    else if e.relocatable && decide (t.length > Page.size) then
      (line.fail (.segmentSize t.length true), e)
    else (.ok (bareOutput line [.header e.segment origin (UInt16.ofNat t.length)]), e)

def emitEnd (t : Layout) (e : Emitter) (line : Line) : Except Failure Emission := do
  let address ←
    if line.operands = "" then .ok e.origin
    else do
      let target ← e.resolve t line line.operands
      target.address line line.operands
  return bareOutput line [.end address]

/-- The offset of an entry point, which is an address in this segment. -/
def entryPoint (t : Layout) (e : Emitter) (line : Line) (name : String) :
    Except Failure UInt16 :=
  if name ∈ e.externals then line.fail (.notRelative name)
  else
    match t.symbols.get? name with
    | none => line.fail (.undefinedSymbol name)
    | some (.relative address) => .ok address
    | some _ => line.fail (.notRelative name)

def entryRecords (t : Layout) (e : Emitter) (line : Line) :
    List String → Except Failure (List Record)
  | [] => .ok []
  | name :: names => do
    let offset ← e.entryPoint t line name
    let records ← e.entryRecords t line names
    return .entry name offset :: records

def emitEnt (t : Layout) (e : Emitter) (line : Line) : Except Failure Emission :=
  let names := line.operandList
  if names.length > maxNames then line.fail (.tooManyNames .ent names.length)
  else do
    let records ← e.entryRecords t line names
    return bareOutput line records

/-- Declare names until one is a symbol of the segment. -/
def declareNames (t : Layout) (line : Line) : Emitter → List String → Except Failure Unit × Emitter
  | e, [] => (.ok (), e)
  | e, name :: names =>
    if t.symbols.contains name then (line.fail (.nameCollision name), e)
    else declareNames t line { e with externals := Names.declare e.externals name } names

def emitExt (t : Layout) (e : Emitter) (line : Line) : Except Failure Emission × Emitter :=
  let names := line.operandList
  if names.length > maxNames then (line.fail (.tooManyNames .ext names.length), e)
  else
    match declareNames t line e names with
    | (.error f, e) => (.error f, e)
    | (.ok _, e) => (.ok (bareOutput line []), e)

/-- The value was taken when the segment was laid out; it is only checked. -/
def emitEqu (t : Layout) (e : Emitter) (line : Line) : Except Failure Emission := do
  if isNumeric line.operands then
    let _ ← line.orFail (.badValue line.operands .word) (Numeral.parse line.operands)
  else
    let _ ← e.resolve t line line.operands
  return bareOutput line []

def emitFill (t : Layout) (e : Emitter) (line : Line) : Except Failure (Emission × Emitter) :=
  if isNumeric line.operands then do
    let word ← literalWord line line.operands
    return (e.wordOutput line word none, e.advance 1)
  else do
    let target ← e.resolve t line line.operands
    let word ← target.word line line.operands
    return (e.wordOutput line word (e.patch? .sixteen target), e.advance 1)

def emitBlkw (t : Layout) (e : Emitter) (line : Line) : Except Failure (Emission × Emitter) := do
  let value ←
    if isNumeric line.operands then
      line.orFail (fun _ => .blockLength line.operands) (Numeral.parse line.operands)
    else e.absolute t line line.operands
  let count ← line.blockCount value
  return (⟨[], [.block e.location line.columns]⟩, e.advance count)

/-- The words of a string: one a character, and a zero. -/
def stringWords (s : String) : List UInt16 :=
  s.toList.map (fun c => UInt16.ofNat (c.toNat % 65536)) ++ [0]

/-- Words at consecutive addresses. -/
def place (address : UInt16) (words : List UInt16) : List (UInt16 × UInt16) :=
  words.zipIdx.map fun (word, i) => (address + UInt16.ofNat i, word)

/-- The first word carries the source line, with the quotes put back. -/
def stringRows (line : Line) : List (UInt16 × UInt16) → List Row
  | [] => []
  | (address, word) :: rest =>
    .word address word { line.columns with operands := "\"" ++ line.operands ++ "\"" }
      :: rest.map fun (address, word) => .continuation address word line.number

def emitStrz (e : Emitter) (line : Line) : Emission × Emitter :=
  let placed := place e.location (stringWords line.operands)
  (⟨placed.map fun (address, word) => .text address word none, stringRows line placed⟩,
    e.advance (UInt16.ofNat placed.length))

/-! ## steps -/

/-- Take the new state of a line that succeeds. -/
def commit (e : Emitter) :
    Except Failure (Emission × Emitter) → Except Failure Emission × Emitter
  | .ok (out, e) => (.ok out, e)
  | .error f => (.error f, e)

/-- Emit one line. -/
def step (t : Layout) (e : Emitter) (line : Line) : Except Failure Emission × Emitter :=
  match line.operation? with
  | none => (line.fail (.unknownOperation line.mnemonic), e)
  | some (.instruction op) => e.commit (e.emitInstruction t line op)
  | some (.directive .orig) => e.emitOrig t line
  | some (.directive .end) => (e.emitEnd t line, e)
  | some (.directive .ent) => (e.emitEnt t line, e)
  | some (.directive .ext) => e.emitExt t line
  | some (.directive .equ) => (e.emitEqu t line, e)
  | some (.directive .fill) => e.commit (e.emitFill t line)
  | some (.directive .blkw) => e.commit (e.emitBlkw t line)
  | some (.directive .strz) => e.commit (.ok (e.emitStrz line))

end Emitter

/-! ## the literal pool -/

/-- The words of the pool in order of their addresses. -/
def poolWords (line : Line) : List (String × UInt16) → Except Failure (List (UInt16 × UInt16))
  | [] => .ok []
  | (token, address) :: rest => do
    let word ← Emitter.literalWord line token
    let words ← poolWords line rest
    return (address, word) :: words

/-- The output for the literal pool; `line` is where a bad literal is reported. -/
def Layout.pool (t : Layout) (line : Line) : Except Failure Emission := do
  let words ← poolWords line t.literals.entries
  return ⟨words.map fun (address, word) => .text address word none,
    words.map fun (address, word) => .literal address word⟩

end PageAsm
