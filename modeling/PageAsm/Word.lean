import PageAsm.Text.Bytes
import PageAsm.Text.Digits

/-!
# PageAsm.Word

Words of sixteen bits: building one from bit fields, most significant first,
and its binary and hexadecimal text.
-/

namespace PageAsm

/-! ## bit fields -/

/-- A value of which the low `width` bits count. -/
structure BitField where
  value : UInt16
  width : Nat
deriving DecidableEq

/-- The leading bits of a word under construction. -/
structure Bits where
  value : Nat
  width : Nat
deriving DecidableEq

namespace Bits

/-- No bits yet. -/
def empty : Bits := ⟨0, 0⟩

/-- Append a field; a word has no room for more than sixteen bits. -/
def append? (bits : Bits) (field : BitField) : Option Bits :=
  if bits.width + field.width ≤ 16 then
    some ⟨(bits.value <<< field.width) + field.value.toNat % (1 <<< field.width),
      bits.width + field.width⟩
  else none

/-- The finished word, which has exactly sixteen bits. -/
def word? (bits : Bits) : Option UInt16 :=
  if bits.width = 16 then some (UInt16.ofNat bits.value) else none

/-- Append several fields in order. -/
def appendAll? : Bits → List BitField → Option Bits
  | bits, [] => some bits
  | bits, field :: fields => (bits.append? field).bind fun bits => bits.appendAll? fields

end Bits

namespace Word

/-- The word made of the given fields, if they fill it exactly. -/
def ofFields? (fields : List BitField) : Option UInt16 :=
  (Bits.empty.appendAll? fields).bind Bits.word?

/-! ## text -/

/-- The low `width` bits in binary, in that many places; a single `0` if there
are none. -/
def binary (value : UInt16) (width : Nat) : String :=
  String.ofList (Text.fixedDigits 2 (max width 1) (value.toNat % (1 <<< width)))

/-- Four hexadecimal digits. -/
def hexChars (value : UInt16) : List Char := Text.fixedDigits 16 4 value.toNat

/-- Four hexadecimal digits. -/
def hex (value : UInt16) : String := String.ofList (hexChars value)

/-- Read up to sixteen bytes of binary digits, after at most one `+`; the number has to be
a word. -/
def ofBinary? (bits : String) : Option UInt16 :=
  let cs := bits.toList
  if Text.byteSize cs > 16 then none
  else
    let digits :=
      match cs with
      | '+' :: digits => digits
      | digits => digits
    ((Text.ofDigits? 2 digits).filter (· < 65536)).map UInt16.ofNat

end Word

end PageAsm
