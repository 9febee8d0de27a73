/-!
# PageAsm.Table

Tables from names to values that keep the order of first insertion: an entry,
once made, keeps its value and its place.  Also lists of names without
repetition, in the order of declaration.
-/

namespace PageAsm

/-- A table in order of insertion. -/
structure Table (α : Type) where
  entries : List (String × α)
deriving DecidableEq

namespace Table

variable {α : Type}

def empty : Table α := ⟨[]⟩

def keys (t : Table α) : List String := t.entries.map Prod.fst

def get? (t : Table α) (name : String) : Option α := t.entries.lookup name

def contains (t : Table α) (name : String) : Bool := (t.get? name).isSome

def size (t : Table α) : Nat := t.entries.length

/-- Add an entry unless the name has one: the first definition wins. -/
def insert (t : Table α) (name : String) (a : α) : Table α :=
  if t.contains name then t else ⟨t.entries ++ [(name, a)]⟩

/-- The same, and whether the entry was added. -/
def define (t : Table α) (name : String) (a : α) : Table α × Bool :=
  match t.get? name with
  | some _ => (t, false)
  | none => (⟨t.entries ++ [(name, a)]⟩, true)

theorem define_fst (t : Table α) (name : String) (a : α) :
    (t.define name a).1 = t.insert name a := by
  unfold define insert contains
  split
  · next b hget => rw [hget, if_pos Option.isSome_some]
  · next hget => rw [hget, if_neg (by simp)]

theorem define_snd (t : Table α) (name : String) (a : α) :
    (t.define name a).2 = !t.contains name := by
  unfold define contains
  split
  · next b hget => rw [hget]; rfl
  · next hget => rw [hget]; rfl

theorem get?_insert (t : Table α) (name other : String) (a : α) :
    (t.insert name a).get? other =
      if other = name then (t.get? name).or (some a) else t.get? other := by
  unfold insert
  split
  · next h =>
    obtain ⟨b, hb⟩ := Option.isSome_iff_exists.mp h
    split
    · next he => rw [he, hb]; rfl
    · rfl
  · next h =>
    have hn : t.get? name = none := by simpa [contains] using h
    rw [get?, List.lookup_append]
    split
    · next he =>
      rw [he, hn]
      simp only [get?] at hn
      rw [hn]
      simp
    · next he =>
      have hb : (other == name) = false := by simpa using he
      simp [get?, List.lookup_cons, hb]

theorem mem_entries_of_get? {t : Table α} {name : String} {a : α} (h : t.get? name = some a) :
    (name, a) ∈ t.entries := by
  obtain ⟨before, after, hentries, -⟩ := List.lookup_eq_some_iff.mp h
  rw [hentries]
  exact List.mem_append_right _ List.mem_cons_self

theorem contains_iff_mem_keys {t : Table α} {name : String} :
    t.contains name = true ↔ name ∈ t.keys := by
  simp [contains, get?, keys, List.lookup_isSome_iff]

/-- The only entry that an insertion can add is its own. -/
theorem mem_entries_insert {t : Table α} {name : String} {a : α} {entry : String × α}
    (h : entry ∈ (t.insert name a).entries) : entry ∈ t.entries ∨ entry = (name, a) := by
  unfold insert at h
  split at h
  · exact .inl h
  · simpa using h

theorem keys_insert (t : Table α) (name : String) (a : α) :
    (t.insert name a).keys = if t.contains name then t.keys else t.keys ++ [name] := by
  unfold insert
  split <;> simp [keys]

end Table

namespace Names

/-- Add a name unless it is in the list. -/
def declare (names : List String) (name : String) : List String :=
  if name ∈ names then names else names ++ [name]

theorem mem_declare {names : List String} {name other : String} :
    other ∈ declare names name ↔ other ∈ names ∨ other = name := by
  unfold declare
  split <;> grind

theorem nodup_declare {names : List String} {name : String} (h : names.Nodup) :
    (declare names name).Nodup := by
  unfold declare
  split <;> grind

/-- Add several names in order. -/
def declareAll (names : List String) (more : List String) : List String :=
  more.foldl declare names

@[simp] theorem declareAll_nil (names : List String) : declareAll names [] = names := rfl

@[simp] theorem declareAll_cons (names : List String) (name : String) (more : List String) :
    declareAll names (name :: more) = declareAll (declare names name) more := rfl

theorem mem_declareAll {names more : List String} {other : String} :
    other ∈ declareAll names more ↔ other ∈ names ∨ other ∈ more := by
  induction more generalizing names with
  | nil => simp
  | cons name more ih => rw [declareAll_cons, ih, mem_declare, List.mem_cons, or_assoc]

end Names

end PageAsm
