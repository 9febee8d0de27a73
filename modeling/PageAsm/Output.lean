/-!
# PageAsm.Output

The two files that assembling writes, and pairs of things that are kept one
for each of them.
-/

namespace PageAsm

/-- The two files that are written. -/
inductive Output where
  | object
  | listing
deriving DecidableEq

/-- One value for each of the two files. -/
structure Outputs (α : Type) where
  object : α
  listing : α
deriving DecidableEq

namespace Outputs

variable {α : Type}

/-- The same value for both files. -/
def both (a : α) : Outputs α := ⟨a, a⟩

def get (s : Outputs α) : Output → α
  | .object => s.object
  | .listing => s.listing

def set (s : Outputs α) : Output → α → Outputs α
  | .object, a => { s with object := a }
  | .listing, a => { s with listing := a }

theorem get_set (s : Outputs α) (o o' : Output) (a : α) :
    (s.set o a).get o' = if o' = o then a else s.get o' := by
  cases o <;> cases o' <;> rfl

end Outputs

end PageAsm
