/-!
# PageAsm.Text.Blank

Blanks are the characters with the Unicode property `White_Space`.  Fields of
a source line, whole lines and listing rows are trimmed of them.

Text is handled as `List Char` here and in the other modules below
`PageAsm.Text`; `String` is used for the fields of the data types.
-/

namespace PageAsm.Text

/-- The code point ranges of the Unicode property `White_Space`, ends
included, in increasing order. -/
def blankRanges : List (Nat × Nat) :=
  [(0x09, 0x0D), (0x20, 0x20), (0x85, 0x85), (0xA0, 0xA0), (0x1680, 0x1680),
   (0x2000, 0x200A), (0x2028, 0x2029), (0x202F, 0x202F), (0x205F, 0x205F),
   (0x3000, 0x3000)]

/-- The character has the property `White_Space`. -/
def isBlank (c : Char) : Bool :=
  blankRanges.any fun (lo, hi) => decide (lo ≤ c.toNat) && decide (c.toNat ≤ hi)

/-- Drop the characters that satisfy `p` from the end. -/
def dropEndWhile (p : Char → Bool) (cs : List Char) : List Char :=
  (cs.reverse.dropWhile p).reverse

/-- Drop leading blanks. -/
def trimStart (cs : List Char) : List Char := cs.dropWhile isBlank

/-- Drop trailing blanks. -/
def trimEnd (cs : List Char) : List Char := dropEndWhile isBlank cs

/-- Drop leading and trailing blanks. -/
def trim (cs : List Char) : List Char := trimEnd (trimStart cs)

@[simp] theorem dropEndWhile_nil (p : Char → Bool) : dropEndWhile p [] = [] := rfl

theorem dropEndWhile_concat (p : Char → Bool) (cs : List Char) (c : Char) :
    dropEndWhile p (cs ++ [c]) = if p c then dropEndWhile p cs else cs ++ [c] := by
  by_cases h : p c <;> simp [dropEndWhile, h]

/-- What `dropEndWhile` keeps is an initial part of the text. -/
theorem dropEndWhile_isPrefix (p : Char → Bool) (cs : List Char) :
    dropEndWhile p cs <+: cs := by
  have h : (cs.reverse.dropWhile p) <:+ cs.reverse := List.dropWhile_suffix p
  simpa [dropEndWhile] using List.reverse_prefix.mpr h

end PageAsm.Text
