import PageAsm.Pieces

/-!
# PageAsm.Buffer

A file is written through a buffer of limited size.  A piece that does not fit
behind the text in the buffer has that written out first; a piece as large as
the buffer is written out itself.  Nothing is lost and the order is kept
(`join_pushAll`).
-/

namespace PageAsm

/-- Text that waits to be written. -/
structure Buffer where
  pending : String
deriving DecidableEq

namespace Buffer

/-- The most bytes that wait. -/
def capacity : Nat := 8192

def empty : Buffer := ⟨""⟩

/-- The text that waits, unless there is none. -/
def flush (b : Buffer) : List String := if b.pending = "" then [] else [b.pending]

/-- Take a piece: the texts that are written out now, and the buffer after it. -/
def push (b : Buffer) (piece : String) : List String × Buffer :=
  if capacity ≤ piece.utf8ByteSize then (b.flush ++ [piece], empty)
  else if capacity < b.pending.utf8ByteSize + piece.utf8ByteSize then (b.flush, ⟨piece⟩)
  else ([], ⟨b.pending ++ piece⟩)

/-- Take several pieces in order. -/
def pushAll : Buffer → List String → List String × Buffer
  | b, [] => ([], b)
  | b, piece :: pieces =>
    let (texts, b) := b.push piece
    let (more, b) := b.pushAll pieces
    (texts ++ more, b)

@[simp] theorem join_flush (b : Buffer) : String.join b.flush = b.pending := by
  unfold flush
  split <;> simp_all

theorem join_push (b : Buffer) (piece : String) :
    String.join (b.push piece).1 ++ (b.push piece).2.pending = b.pending ++ piece := by
  unfold push
  split
  · simp [empty]
  · split <;> simp

/-- What is written out, and then what waits, is what waited before and the
pieces. -/
theorem join_pushAll (b : Buffer) (pieces : List String) :
    String.join (b.pushAll pieces).1 ++ (b.pushAll pieces).2.pending
      = b.pending ++ String.join pieces := by
  induction pieces generalizing b with
  | nil => simp [pushAll]
  | cons piece pieces ih =>
    simp only [pushAll, String.join_append, String.append_assoc, ih, String.join_cons]
    rw [← String.append_assoc, join_push, String.append_assoc]

end Buffer

end PageAsm
