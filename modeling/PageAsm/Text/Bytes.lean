/-!
# PageAsm.Text.Bytes

Positions in source text are counted in UTF-8 bytes.  A column of a line is
therefore a range of bytes, and it can be cut out only where both ends fall
between two characters.
-/

namespace PageAsm.Text

/-- Number of bytes of the UTF-8 form. -/
def byteSize (cs : List Char) : Nat := cs.foldr (fun c n => c.utf8Size + n) 0

@[simp] theorem byteSize_nil : byteSize [] = 0 := rfl

@[simp] theorem byteSize_cons (c : Char) (cs : List Char) :
    byteSize (c :: cs) = c.utf8Size + byteSize cs := rfl

@[simp] theorem byteSize_append (xs ys : List Char) :
    byteSize (xs ++ ys) = byteSize xs + byteSize ys := by
  induction xs with
  | nil => simp
  | cons c cs ih => simp [ih, Nat.add_assoc]

theorem utf8ByteSize_ofList (cs : List Char) : (String.ofList cs).utf8ByteSize = byteSize cs := by
  induction cs with
  | nil => rfl
  | cons c cs ih =>
    rw [String.ofList_cons, String.utf8ByteSize_append, String.utf8ByteSize_singleton, ih,
      byteSize_cons]

theorem utf8ByteSize_eq (s : String) : s.utf8ByteSize = byteSize s.toList := by
  rw [← utf8ByteSize_ofList, String.ofList_toList]

theorem byteSize_of_ascii {cs : List Char} (h : ∀ c ∈ cs, c.toNat < 128) :
    byteSize cs = cs.length := by
  induction cs with
  | nil => rfl
  | cons c cs ih =>
    have hc : c.utf8Size = 1 := by
      rw [Char.utf8Size_eq_one_iff, UInt32.le_iff_toNat_le]
      exact Nat.le_of_lt_succ (h c List.mem_cons_self)
    rw [byteSize_cons, hc, ih fun d hd => h d (List.mem_cons_of_mem _ hd), List.length_cons,
      Nat.add_comm]

/-- The text after its first `n` bytes, if a character ends there. -/
def dropBytes? : List Char → Nat → Option (List Char)
  | cs, 0 => some cs
  | [], _ + 1 => none
  | c :: cs, n + 1 => if c.utf8Size ≤ n + 1 then dropBytes? cs (n + 1 - c.utf8Size) else none

/-- The first `n` bytes of the text, if a character ends there. -/
def takeBytes? : List Char → Nat → Option (List Char)
  | _, 0 => some []
  | [], _ + 1 => none
  | c :: cs, n + 1 =>
    if c.utf8Size ≤ n + 1 then (takeBytes? cs (n + 1 - c.utf8Size)).map (c :: ·) else none

@[simp] theorem dropBytes?_zero (cs : List Char) : dropBytes? cs 0 = some cs := by
  cases cs <;> rfl

@[simp] theorem takeBytes?_zero (cs : List Char) : takeBytes? cs 0 = some [] := by
  cases cs <;> rfl

/-- A cut that succeeds splits off exactly `n` bytes. -/
theorem takeBytes?_eq_some_iff {cs xs : List Char} {n : Nat} :
    takeBytes? cs n = some xs ↔ xs <+: cs ∧ byteSize xs = n := by
  induction cs generalizing n xs with
  | nil =>
    cases n with
    | zero => cases xs <;> simp
    | succ n => cases xs <;> simp [takeBytes?]
  | cons c cs ih =>
    cases n with
    | zero =>
      cases xs with
      | nil => simp
      | cons x xs => have := Char.utf8Size_pos x; simp; omega
    | succ n =>
      cases xs with
      | nil => by_cases h : c.utf8Size ≤ n + 1 <;> simp [takeBytes?, h]
      | cons x xs =>
        by_cases h : c.utf8Size ≤ n + 1
        · simp only [takeBytes?, h, if_true, Option.map_eq_some_iff, List.cons.injEq,
            exists_eq_right_right, ih, List.cons_prefix_cons, byteSize_cons]
          constructor
          · rintro ⟨⟨hp, hs⟩, rfl⟩
            exact ⟨⟨rfl, hp⟩, by omega⟩
          · rintro ⟨⟨rfl, hp⟩, hs⟩
            exact ⟨⟨hp, by omega⟩, rfl⟩
        · simp only [takeBytes?, h, if_false, reduceCtorEq, List.cons_prefix_cons, byteSize_cons,
            false_iff]
          rintro ⟨⟨rfl, -⟩, hs⟩
          omega

/-- The bytes from `start` to `stop`, if both are ends of characters. -/
def slice? (cs : List Char) (start stop : Nat) : Option (List Char) :=
  (dropBytes? cs start).bind fun rest => takeBytes? rest (stop - start)

/-- The column of a line that covers the bytes from `start` to `stop`: empty
where the line is shorter, and empty if an end falls inside a character. -/
def column (cs : List Char) (start stop : Nat) : List Char :=
  let stop := min stop (byteSize cs)
  (slice? cs (min start stop) stop).getD []

end PageAsm.Text
