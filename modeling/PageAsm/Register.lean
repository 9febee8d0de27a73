import PageAsm.Numeral

/-!
# PageAsm.Register

The eight registers and their tokens: `R` followed by decimal digits.
-/

namespace PageAsm

/-- A register number. -/
abbrev Register := Fin 8

namespace Register

/-- The register with the given number. -/
def ofInt? (n : Int) : Option Register :=
  if h : 0 ≤ n ∧ n < 8 then some ⟨n.toNat, by omega⟩ else none

/-- The token is `R` followed by one or more digits. -/
def isToken (token : String) : Bool :=
  match token.toList with
  | 'R' :: digits => !digits.isEmpty && digits.all Char.isDigit
  | _ => false

/-- Read a register token.  Its digits are read as a 32-bit integer; if they are none, the
number is out of range as well. -/
def parse (token : String) : Except NumeralError Register :=
  match token.toList with
  | 'R' :: digits =>
    if digits.isEmpty || !digits.all Char.isDigit then .error .malformed
    else
      match (Numeral.int32? 10 digits).bind ofInt? with
      | some r => .ok r
      | none => .error .outOfRange
  | _ => .error .malformed

/-- The register whose number is held by a symbol. -/
def ofNumeral (n : Numeral) : Except NumeralError Register :=
  match ofInt? n.value with
  | some r => .ok r
  | none => .error .outOfRange

end Register

end PageAsm
