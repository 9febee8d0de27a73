import PageAsm.Field
import PageAsm.Line
import PageAsm.Output
import PageAsm.Page

/-!
# PageAsm.Diagnostic

What can be wrong with a program.  A `Diagnostic` is a `Cause` with the line
it was found on and the range of source text it points at; code, message, help
and label are read off the cause.

A `Failure` is either a diagnostic, which is the program's fault, or a `Fault`,
a check of the assembler on itself.
-/

namespace PageAsm

/-- What is wrong. -/
inductive Cause where
  /-- Text between the fixed columns. -/
  | misaligned
  | unknownOperation (mnemonic : String)
  | missingOrig
  | missingEnd
  | symbolCapacity
  | literalCapacity
  /-- An alias of a name that is neither defined above nor external. -/
  | forwardReference (name : String)
  /-- A label that would stand for several names. -/
  | ambiguousAlias (label : String)
  | badValue (token : String) (field : Field) (error : NumeralError)
  | badRegister (token : String) (error : NumeralError)
  | blockLength (token : String)
  | operandCount (mnemonic : String) (expected found : Nat)
  | pageRange (error : PageError)
  | undefinedSymbol (name : String)
  | unknownLiteral (token : String)
  /-- An external name where a value is needed. -/
  | externalMisuse (name : String)
  | notAbsolute (name : String)
  | notRelative (name : String)
  /-- An alias whose external name is not declared yet. -/
  | danglingAlias (name target : String)
  | tooManyNames (directive : Directive) (found : Nat)
  | nameCollision (name : String)
  | segmentSize (size : Nat) (relocatable : Bool)
  | unwritable (output : Output) (reason : String)
deriving DecidableEq

namespace Cause

def code : Cause → String
  | misaligned => "source::columns"
  | unknownOperation _ => "source::unknown_op"
  | missingOrig => "source::missing_orig"
  | missingEnd => "source::missing_end"
  | symbolCapacity => "pass1::symbol_capacity"
  | literalCapacity => "pass1::literal_capacity"
  | forwardReference _ => "pass1::forward_reference"
  | ambiguousAlias _ => "pass1::ambiguous_alias"
  | badValue _ _ .malformed => "operand::invalid_value"
  | badValue _ _ .outOfRange => "operand::out_of_range"
  | badRegister _ _ => "operand::register"
  | blockLength _ => "operand::block_length"
  | operandCount _ _ _ => "operand::count"
  | pageRange _ => "pass2::page_range"
  | undefinedSymbol _ => "pass2::undefined_symbol"
  | unknownLiteral _ => "pass2::unknown_literal"
  | externalMisuse _ => "pass2::external_misuse"
  | notAbsolute _ => "pass2::not_absolute"
  | notRelative _ => "pass2::not_relative"
  | danglingAlias _ _ => "pass2::dangling_alias"
  | tooManyNames _ _ => "pass2::too_many_names"
  | nameCollision _ => "pass2::name_collision"
  | segmentSize _ _ => "pass2::segment_size"
  | unwritable _ _ => "io::write"

/-- The message without the line number. -/
def text : Cause → String
  | misaligned => "fields are not in their fixed columns"
  | unknownOperation mnemonic => s!"`{mnemonic}` is not an instruction or pseudo-op"
  | missingOrig => "Segment does not start with .ORIG"
  | missingEnd => "Segment does not finish with .END"
  | symbolCapacity => "too many symbols"
  | literalCapacity => "too many literals"
  | forwardReference name => s!"forward referencing error, `{name}` is not defined"
  | ambiguousAlias label => s!"label `{label}` cannot stand for more than one name"
  | badValue token _ error => s!"`{token}`: {error.message}"
  | badRegister token error => s!"`{token}` is not a register: {error.message}"
  | blockLength token => s!"`{token}` is not a valid block length"
  | operandCount mnemonic expected found =>
    s!"`{mnemonic}` expects {expected} operand(s), found {found}"
  | pageRange error => error.message
  | undefinedSymbol name => s!"symbol `{name}` is not found in the symbol table"
  | unknownLiteral token => s!"literal `{token}` is not found in the literal table"
  | externalMisuse name => s!"external symbol `{name}` cannot be used as an absolute symbol"
  | notAbsolute name => s!"symbol `{name}` is not an absolute symbol"
  | notRelative name => s!"symbol `{name}` is not a relative symbol"
  | danglingAlias name target =>
    s!"`{name}` refers to `{target}`, which is not an external symbol"
  | tooManyNames directive found =>
    s!"{directive.mnemonic} lists {found} symbols, at most 5 are allowed"
  | nameCollision name => s!"symbol `{name}` is already defined in the symbol table"
  | segmentSize size true =>
    s!"segment size x{Text.hex size} is greater than a page length"
  | segmentSize size false =>
    s!"segment size x{Text.hex size} is greater than xFFFF words"
  | unwritable .object reason => s!"unable to write to the object file: {reason}"
  | unwritable .listing reason => s!"unable to write to the listing file: {reason}"

/-- How to mend it. -/
def help : Cause → String
  | misaligned => "labels go in columns 1-6, operations in 10-14 and operands from column 18"
  | unknownOperation _ => "check the list of machine instructions and pseudo-ops"
  | missingOrig => "the first line of a segment must be `.ORIG`"
  | missingEnd => "the last line of a segment must be `.END`"
  | symbolCapacity => "a segment may define at most 100 symbols"
  | literalCapacity => "a segment may use at most 50 distinct literals"
  | forwardReference _ =>
    ".EQU may only refer to symbols defined above it or declared with .EXT"
  | ambiguousAlias _ =>
    "a labelled .EXT declares exactly one name, which the label stands for"
  | badValue _ field _ => s!"expected {field.describe}"
  | badRegister _ _ => "registers are R0 to R7, or an absolute symbol holding 0 to 7"
  | blockLength _ => ".BLKW reserves between #1 and #65535 (x1 and xFFFF) words"
  | operandCount _ _ _ => "check the operands for this instruction"
  | pageRange _ =>
    "PC-relative targets must be on the same 512-word page as the next instruction"
  | undefinedSymbol _ => "define the symbol with a label or declare it with .EXT"
  | unknownLiteral _ =>
    "literals are collected by the first pass, this indicates mismatched input"
  | externalMisuse _ => "external symbols have no value until link time"
  | notAbsolute _ =>
    "registers, immediates, indices and trap vectors need a symbol defined with .EQU"
  | notRelative _ => "only labels defined within this segment can be entry points"
  | danglingAlias _ _ => "a symbol may only stand for a name declared with .EXT"
  | tooManyNames _ _ => "split the names over several lines"
  | nameCollision _ => "a name cannot be both defined in this segment and external"
  | segmentSize _ true => "relocatable segments must fit in one page"
  | segmentSize _ false => "segments cannot exceed the address space"
  | unwritable _ _ => "check that the output location is writable"

/-- What the marked text is; failures to write mark no text. -/
def label? : Cause → Option String
  | misaligned => some "misaligned field"
  | unknownOperation _ => some "unknown operation"
  | missingOrig => some "expected .ORIG"
  | missingEnd => some "expected .END"
  | symbolCapacity => some "one symbol too many"
  | literalCapacity => some "one literal too many"
  | forwardReference _ => some "not defined yet"
  | ambiguousAlias _ => some "several names"
  | badValue _ _ .malformed => some "invalid value"
  | badValue _ _ .outOfRange => some "value out of range"
  | badRegister _ _ => some "invalid register"
  | blockLength _ => some "invalid block length"
  | operandCount _ _ _ => some "wrong number of operands"
  | pageRange _ => some "target off page"
  | undefinedSymbol _ => some "undefined symbol"
  | unknownLiteral _ => some "unknown literal"
  | externalMisuse _ => some "external symbol"
  | notAbsolute _ => some "relative symbol"
  | notRelative _ => some "not relative"
  | danglingAlias _ _ => some "unresolved alias"
  | tooManyNames _ _ => some "more than 5 names"
  | nameCollision _ => some "already defined"
  | segmentSize _ _ => some "segment too large"
  | unwritable _ _ => none

end Cause

/-! ## diagnostics -/

/-- A cause and where it was found; the frame of a segment has no line. -/
structure Diagnostic where
  cause : Cause
  number : Option Nat
  span : Span
deriving DecidableEq

namespace Diagnostic

def code (d : Diagnostic) : String := d.cause.code

def message (d : Diagnostic) : String :=
  match d.number with
  | some number => s!"Line {number}: " ++ d.cause.text
  | none => d.cause.text

def help (d : Diagnostic) : String := d.cause.help

/-- The marked ranges of source text. -/
def labels (d : Diagnostic) : List (Span × String) :=
  d.cause.label?.toList.map fun label => (d.span, label)

end Diagnostic

/-- A diagnostic about a line. -/
def Line.diagnostic (line : Line) (cause : Cause) : Diagnostic :=
  ⟨cause, some line.number, line.span⟩

/-! ## failures -/

/-- A check of the assembler on itself that does not hold. -/
inductive Fault where
  /-- The fields of an instruction do not fill a word. -/
  | wordWidth
  /-- A count of words does not fit in 32 bits. -/
  | countOverflow
  /-- Emission ended at another location than the layout. -/
  | locationMismatch
deriving DecidableEq

/-- Why there is no result. -/
inductive Failure where
  | diagnostic (d : Diagnostic)
  | fault (f : Fault)
deriving DecidableEq

/-- Fail with a diagnostic about a line. -/
def Line.fail {α : Type} (line : Line) (cause : Cause) : Except Failure α :=
  .error (.diagnostic (line.diagnostic cause))

/-- The value, or a diagnostic that depends on the error. -/
def Line.orFail {ε α : Type} (line : Line) (cause : ε → Cause) :
    Except ε α → Except Failure α
  | .ok a => .ok a
  | .error e => line.fail (cause e)

end PageAsm
