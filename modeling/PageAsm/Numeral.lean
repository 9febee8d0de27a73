import PageAsm.Text.Digits

/-!
# PageAsm.Numeral

Numbers as they are written in operands:

```
numeral ::= '='? ( 'x' sign? hexdigit+ | '#' sign? digit+ )
sign    ::= '+' | '-'
```

A leading `=` marks a literal, a number that is to be kept in the pool behind
the code.  The value has to be a 32-bit signed integer to be a numeral at all;
of these, hexadecimal numerals admit `0` to `65535` and decimal ones `-32768`
to `65535`.
-/

namespace PageAsm

/-- The base a numeral is written in. -/
inductive Radix where
  | hex
  | dec
deriving DecidableEq

/-- Why a token does not give the value that was asked for. -/
inductive NumeralError where
  /-- The token is not of the form of a value. -/
  | malformed
  /-- The value is outside the admitted range. -/
  | outOfRange
deriving DecidableEq

/-- The wording of a numeral error. -/
def NumeralError.message : NumeralError → String
  | .malformed => "not a decimal (#) or hex (x) value"
  | .outOfRange => "value out of range"

/-- A number together with the base it is written in. -/
inductive Numeral where
  /-- Hexadecimal numerals are never negative. -/
  | hex (word : UInt16)
  | dec (value : Int)
deriving DecidableEq

namespace Numeral

/-- The number. -/
def value : Numeral → Int
  | hex word => word.toNat
  | dec value => value

/-- The base the number is written in. -/
def radix : Numeral → Radix
  | hex _ => .hex
  | dec _ => .dec

/-- The value modulo the word size. -/
def word (n : Numeral) : UInt16 := UInt16.ofNat (n.value % 65536).toNat

/-- Source text of a numeral: four hexadecimal digits, or plain decimal. -/
def render : Numeral → String
  | hex word => String.ofList ('x' :: Text.fixedDigits 16 4 word.toNat)
  | dec value => "#" ++ Text.decimal value

/-! ## reading -/

/-- The value of a signed digit string, if a 32-bit signed integer holds it. -/
def int32? (base : Nat) (cs : List Char) : Option Int :=
  (Text.ofSignedDigits? base cs).filter fun v => decide (-2147483648 ≤ v ∧ v ≤ 2147483647)

/-- Read a numeral without its literal mark. -/
def parseChars : List Char → Except NumeralError Numeral
  | 'x' :: digits =>
    match int32? 16 digits with
    | none => .error .malformed
    | some v =>
      if 0 ≤ v ∧ v ≤ 65535 then .ok (.hex (UInt16.ofNat v.toNat)) else .error .outOfRange
  | '#' :: digits =>
    match int32? 10 digits with
    | none => .error .malformed
    | some v => if -32768 ≤ v ∧ v ≤ 65535 then .ok (.dec v) else .error .outOfRange
  | _ => .error .malformed

/-- Read a numeral, with or without a literal mark. -/
def parse (token : String) : Except NumeralError Numeral :=
  match token.toList with
  | '=' :: body => parseChars body
  | body => parseChars body

end Numeral

/-! ## classes of tokens -/

/-- The token is to be read as a plain numeral. -/
def isNumeric (token : String) : Bool :=
  match token.toList with
  | c :: _ => c == '#' || c == 'x'
  | [] => false

/-- The token is to be read as a literal. -/
def isLiteral (token : String) : Bool :=
  match token.toList with
  | c :: _ => c == '='
  | [] => false

end PageAsm
