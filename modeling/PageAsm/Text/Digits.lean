/-!
# PageAsm.Text.Digits

Digits of a number in a base up to sixteen: reading them (either case), and
writing them in upper case, in as few places as needed or in a fixed number of
places.  Also padding to a column width, which counts characters.
-/

namespace PageAsm.Text

/-! ## reading -/

/-- Value of an ASCII digit below `base`; letters count from ten, in either
case. -/
def digit? (base : Nat) (c : Char) : Option Nat :=
  let n := c.toNat
  let value? :=
    if '0'.toNat ≤ n ∧ n ≤ '9'.toNat then some (n - '0'.toNat)
    else if 'A'.toNat ≤ n ∧ n ≤ 'F'.toNat then some (n - 'A'.toNat + 10)
    else if 'a'.toNat ≤ n ∧ n ≤ 'f'.toNat then some (n - 'a'.toNat + 10)
    else none
  value?.filter (· < base)

/-- Value of a string of digits, most significant first; `acc` is the value
of the digits already read. -/
def foldDigits? (base : Nat) : Nat → List Char → Option Nat
  | acc, [] => some acc
  | acc, c :: cs => (digit? base c).bind fun d => foldDigits? base (acc * base + d) cs

/-- Value of a non-empty string of digits. -/
def ofDigits? (base : Nat) : List Char → Option Nat
  | [] => none
  | cs => foldDigits? base 0 cs

/-- Value of a non-empty string of digits after at most one sign. -/
def ofSignedDigits? (base : Nat) : List Char → Option Int
  | '+' :: cs => (ofDigits? base cs).map Int.ofNat
  | '-' :: cs => (ofDigits? base cs).map fun n => -Int.ofNat n
  | cs => (ofDigits? base cs).map Int.ofNat

/-! ## writing -/

/-- The digit of value `d` below sixteen, in upper case. -/
def digitChar (d : Nat) : Char :=
  if d < 10 then Char.ofNat ('0'.toNat + d) else Char.ofNat ('A'.toNat + (d - 10))

/-- The low `width` digits of `n`, most significant first. -/
def fixedDigits (base : Nat) : Nat → Nat → List Char
  | 0, _ => []
  | width + 1, n => fixedDigits base width (n / base) ++ [digitChar (n % base)]

@[simp] theorem length_fixedDigits (base width n : Nat) :
    (fixedDigits base width n).length = width := by
  induction width generalizing n with
  | zero => rfl
  | succ width ih => simp [fixedDigits, ih]

/-- The hexadecimal digits of `n`, as few as needed. -/
def hexDigits (n : Nat) : List Char := (Nat.toDigits 16 n).map Char.toUpper

/-! ## padding -/

/-- At least `width` characters, filled up in front. -/
def padStart (width : Nat) (fill : Char) (cs : List Char) : List Char :=
  List.replicate (width - cs.length) fill ++ cs

/-- At least `width` characters, filled up with spaces at the end. -/
def padEnd (width : Nat) (cs : List Char) : List Char :=
  cs ++ List.replicate (width - cs.length) ' '

@[simp] theorem length_padStart (width : Nat) (fill : Char) (cs : List Char) :
    (padStart width fill cs).length = max width cs.length := by
  simp [padStart]; omega

@[simp] theorem length_padEnd (width : Nat) (cs : List Char) :
    (padEnd width cs).length = max width cs.length := by
  simp [padEnd]; omega

/-! ## rendering into strings -/

/-- Decimal text of an integer. -/
def decimal : Int → String
  | .ofNat n => toString n
  | .negSucc n => "-" ++ toString (n + 1)

/-- Hexadecimal text of `n` in as few upper-case digits as needed. -/
def hex (n : Nat) : String := String.ofList (hexDigits n)

/-- A string padded with spaces to at least `width` characters. -/
def alignLeft (width : Nat) (s : String) : String := String.ofList (padEnd width s.toList)

/-- A string padded with spaces in front to at least `width` characters. -/
def alignRight (width : Nat) (s : String) : String := String.ofList (padStart width ' ' s.toList)

end PageAsm.Text
