/-!
# PageAsm.Text.Split

Cutting text into pieces: at every separator, which is dropped, and into
lines, which keep their newline.
-/

namespace PageAsm.Text

/-- Put a character in front of the first piece. -/
def consFirst (c : Char) : List (List Char) → List (List Char)
  | [] => [[c]]
  | piece :: pieces => (c :: piece) :: pieces

/-- The pieces between separators; there is one more than separators. -/
def splitOn (separator : Char) (cs : List Char) : List (List Char) :=
  cs.foldr (fun c pieces => if c = separator then [] :: pieces else consFirst c pieces) [[]]

/-- The lines of a text, each with its newline; a last line without a newline
counts if it is not empty. -/
def lines (cs : List Char) : List (List Char) :=
  cs.foldr (fun c pieces => if c = '\n' then [c] :: pieces else consFirst c pieces) []

@[simp] theorem flatten_consFirst (c : Char) (pieces : List (List Char)) :
    (consFirst c pieces).flatten = c :: pieces.flatten := by
  cases pieces <;> rfl

/-- Nothing of the text is lost. -/
theorem flatten_lines (cs : List Char) : (lines cs).flatten = cs := by
  induction cs with
  | nil => rfl
  | cons c cs ih =>
    rw [show lines (c :: cs) = if c = '\n' then [c] :: lines cs else consFirst c (lines cs) from rfl]
    split <;> simp [ih]

theorem splitOn_cons (separator c : Char) (cs : List Char) :
    splitOn separator (c :: cs) =
      if c = separator then [] :: splitOn separator cs
      else consFirst c (splitOn separator cs) := rfl

theorem splitOn_ne_nil (separator : Char) (cs : List Char) : splitOn separator cs ≠ [] := by
  cases cs with
  | nil => simp [splitOn]
  | cons c cs =>
    simp only [splitOn, List.foldr_cons]
    split
    · simp
    · simp only [consFirst]
      split <;> simp

theorem splitOn_of_not_mem {separator : Char} {xs : List Char} (h : separator ∉ xs) :
    splitOn separator xs = [xs] := by
  induction xs with
  | nil => rfl
  | cons x xs ih =>
      have hx : separator ≠ x := List.ne_of_not_mem_cons h
      rw [splitOn_cons, if_neg (Ne.symm hx), ih (List.not_mem_of_not_mem_cons h)]
      rfl

theorem splitOn_append (separator : Char) (xs ys : List Char) :
    splitOn separator (xs ++ separator :: ys) = splitOn separator xs ++ splitOn separator ys := by
  induction xs with
  | nil => simp [splitOn]
  | cons x xs ih =>
      rw [List.cons_append, splitOn_cons, splitOn_cons, ih]
      obtain ⟨piece, pieces, hpieces⟩ := List.exists_cons_of_ne_nil (splitOn_ne_nil separator xs)
      split
      · rfl
      · rw [hpieces, List.cons_append, consFirst, consFirst, List.cons_append]

/-- Pieces are cut as the library cuts lists. -/
theorem splitOn_eq (separator : Char) (cs : List Char) :
    splitOn separator cs = List.splitOn separator cs := by
  induction cs with
  | nil => rfl
  | cons c cs ih =>
    obtain ⟨piece, pieces, hpieces⟩ := List.exists_cons_of_ne_nil (splitOn_ne_nil separator cs)
    rw [splitOn_cons, List.splitOn_cons_eq_if_modifyHead, ← ih, hpieces]
    simp only [beq_iff_eq, consFirst, List.modifyHead_cons]

/-- No piece has a separator in it. -/
theorem not_mem_of_mem_splitOn {separator : Char} {cs piece : List Char}
    (h : piece ∈ splitOn separator cs) : separator ∉ piece := by
  induction cs generalizing piece with
  | nil =>
    rw [List.mem_singleton.mp h]
    exact List.not_mem_nil
  | cons c cs ih =>
    rw [splitOn_cons] at h
    split at h
    · cases h with
      | head => exact List.not_mem_nil
      | tail _ h => exact ih h
    · next hne =>
      obtain ⟨first, pieces, hpieces⟩ := List.exists_cons_of_ne_nil (splitOn_ne_nil separator cs)
      rw [hpieces] at h ih
      cases h with
      | head => exact List.not_mem_cons_of_ne_of_not_mem (Ne.symm hne) (ih List.mem_cons_self)
      | tail _ h => exact ih (List.mem_cons_of_mem _ h)

end PageAsm.Text
