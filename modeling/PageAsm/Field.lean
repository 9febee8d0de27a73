import PageAsm.Numeral

/-!
# PageAsm.Field

Operand fields.  A field has a width in bits and two ranges of admitted
values, one for hexadecimal and one for decimal numerals:

```
imm5     5 bits   x0 - x1F     #-16 - #15
index6   6 bits   x0 - x3F     #0 - #63
trap8    8 bits   x0 - xFF     #0 - #255
address 16 bits   x0 - xFFFF   #0 - #65535
word    16 bits   x0 - xFFFF   #-32768 - #32767
```

`Numeral.fit` puts a numeral into a field and `Numeral.decode` reads it back.
-/

namespace PageAsm

/-- The kinds of fields that hold a value. -/
inductive Field where
  | imm5
  | index6
  | trap8
  | address
  /-- Full words: `.FILL` values and literals. -/
  | word
deriving DecidableEq

namespace Field

/-- Bits of the field. -/
def width : Field → Nat
  | imm5 => 5
  | index6 => 6
  | trap8 => 8
  | address => 16
  | word => 16

/-- The number of values that the bits of the field can hold. -/
def modulus : Field → Nat
  | imm5 => 32
  | index6 => 64
  | trap8 => 256
  | address => 65536
  | word => 65536

theorem modulus_eq (f : Field) : f.modulus = 1 <<< f.width := by
  cases f <;> rfl

/-- The largest hexadecimal value; the smallest is zero. -/
def hexMax : Field → Int
  | imm5 => 31
  | index6 => 63
  | trap8 => 255
  | address => 65535
  | word => 65535

/-- The smallest decimal value. -/
def decMin : Field → Int
  | imm5 => -16
  | index6 => 0
  | trap8 => 0
  | address => 0
  | word => -32768

/-- The largest decimal value. -/
def decMax : Field → Int
  | imm5 => 15
  | index6 => 63
  | trap8 => 255
  | address => 65535
  | word => 32767

/-- Decimal numerals in the field are in two's complement. -/
def isSigned (f : Field) : Bool := decide (f.decMin < 0)

/-- The numeral is in the range for its base. -/
def accepts (f : Field) : Numeral → Bool
  | .hex w => decide ((w.toNat : Int) ≤ f.hexMax)
  | .dec v => decide (f.decMin ≤ v ∧ v ≤ f.decMax)

/-- The name of the field in diagnostics. -/
def name : Field → String
  | imm5 => "imm5"
  | index6 => "index6"
  | trap8 => "trapvect8"
  | address => "address"
  | word => "word"

/-- Name and ranges of the field, as shown in diagnostics. -/
def describe (f : Field) : String :=
  f.name ++ " [#" ++ Text.decimal f.decMin ++ " - #" ++ Text.decimal f.decMax ++ "] or [x0 - x"
    ++ Text.hex f.hexMax.toNat ++ "]"

end Field

namespace Numeral

/-- The bits of the numeral in a field that accepts it. -/
def fit (n : Numeral) (f : Field) : Except NumeralError UInt16 :=
  if f.accepts n then .ok (UInt16.ofNat (n.value % f.modulus).toNat) else .error .outOfRange

/-- The number that the low bits of a field stand for in two's complement. -/
def signExtend (f : Field) (low : Nat) : Int :=
  if low < f.modulus / 2 then low else (low : Int) - f.modulus

/-- The numeral held by the low bits of a field: decimal numerals in signed
fields are in two's complement. -/
def decode (bits : UInt16) (f : Field) : Radix → Numeral
  | .hex => .hex (UInt16.ofNat (bits.toNat % f.modulus))
  | .dec =>
    let low := bits.toNat % f.modulus
    .dec (if f.isSigned then signExtend f low else low)

end Numeral

end PageAsm
