import Mathlib.Data.Finset.Card
import PageAsm.Proofs.LiteralPool
import PageAsm.Tables

/-!
# PageAsm.Proofs.TableHistory

What the tables hold after any changes.  They only grow at the end:

```
change                     symbols            literals
define A 1                 A 1
define B 2                 A 1, B 2
define A 3                 A 1, B 2
allocate x10 [p, q, p]     A 1, B 2           p x10, q x11
allocate x80 [q, r]        A 1, B 2           p x10, q x11, r x80
```

A change adds new entries behind those that are there (`Tables.extends_apply`), and
so do all changes that follow (`Tables.extends_applyAll`).  The names in a table are
those of the changes, each at the place of its first mention
(`Tables.keys_applyAll`).  One equation says what an allocation makes of a table
(`LiteralTable.allocate_eq`).
-/

namespace PageAsm

/-! ## one table -/

/-- A list that grows at the end keeps its elements where they are. -/
theorem getElem?_of_prefix {α : Type} {xs ys : List α} {i : Nat} {x : α} (h : xs <+: ys)
    (hx : xs[i]? = some x) : ys[i]? = some x := by
  obtain ⟨hi, rfl⟩ := List.getElem?_eq_some_iff.mp hx
  exact List.prefix_iff_getElem?.mp h i hi

namespace Names

theorem prefix_declare (names : List String) (name : String) : names <+: declare names name := by
  unfold declare
  split
  · exact List.prefix_rfl
  · exact List.prefix_append _ _

theorem eraseDups_eq (names : List String) : names.eraseDups = declareAll [] names :=
  (declareAll_eraseDups [] names).symm

/-- Without repetitions there are as many names as there are different ones. -/
theorem length_eraseDups (names : List String) :
    names.eraseDups.length = names.toFinset.card := by
  have hnodup : names.eraseDups.Nodup := by
    rw [eraseDups_eq]
    exact nodup_declareAll List.nodup_nil
  rw [← List.toFinset_card_of_nodup hnodup]
  congr 1
  ext name
  rw [List.mem_toFinset, List.mem_toFinset, List.mem_eraseDups]

end Names

namespace Table

variable {α : Type} {t t' : Table α} {names : List String}

/-- What is in the first table is in the second, with the same value and at the same place. -/
structure Keeps (t t' : Table α) : Prop where
  value : t.Le t'
  place : ∀ (i : Nat) entry, t.entries[i]? = some entry → t'.entries[i]? = some entry

/-- The table has an entry for each of the names and for no others, in order of their first
mention, and finds the entries that it has. -/
structure Lists (t : Table α) (names : List String) : Prop where
  keys : t.keys = names.eraseDups
  size : t.size = names.toFinset.card
  get?_iff : ∀ name a, t.get? name = some a ↔ (name, a) ∈ t.entries

theorem keeps_of_prefix (h : t.entries <+: t'.entries) : t.Keeps t' where
  value name a hget := by
    obtain ⟨rest, hrest⟩ := h
    rw [get?] at hget ⊢
    rw [← hrest, List.lookup_append, hget]
    rfl
  place _ _ := getElem?_of_prefix h

theorem get?_of_mem_entries (hnodup : t.keys.Nodup) {name : String} {a : α}
    (h : (name, a) ∈ t.entries) : t.get? name = some a := by
  obtain ⟨before, after, hentries⟩ := List.append_of_mem h
  rw [keys, hentries, List.map_append, List.map_cons] at hnodup
  refine List.lookup_eq_some_iff.mpr ⟨before, after, hentries, fun entry hentry => ?_⟩
  have hne := (List.nodup_append.mp hnodup).2.2 entry.1 (List.mem_map_of_mem hentry) name
    List.mem_cons_self
  exact bne_iff_ne.mpr hne.symm

theorem lists_of_keys (h : t.keys = Names.declareAll [] names) : t.Lists names where
  keys := h.trans (Names.eraseDups_eq names).symm
  size := by
    rw [← Names.length_eraseDups, Names.eraseDups_eq, ← h, keys, List.length_map]
    rfl
  get?_iff name a := by
    refine ⟨mem_entries_of_get?, get?_of_mem_entries ?_⟩
    rw [h]
    exact Names.nodup_declareAll List.nodup_nil

theorem keys_define (t : Table α) (name : String) (a : α) :
    (t.define name a).1.keys = Names.declare t.keys name := by
  rw [define_fst, keys_insert, Names.declare]
  simp only [contains_iff_mem_keys]

theorem entries_define (t : Table α) (name : String) (a : α) :
    (t.define name a).1.entries = t.entries ++ if name ∈ t.keys then [] else [(name, a)] := by
  rw [define_fst, insert]
  simp only [contains_iff_mem_keys]
  split <;> simp

theorem define_eq_true_iff (t : Table α) (name : String) (a : α) :
    (t.define name a).2 = true ↔ name ∉ t.keys := by
  rw [define_snd, Bool.not_eq_true', ← contains_iff_mem_keys, Bool.not_eq_true]

end Table

/-! ## all tables -/

namespace Tables

variable {t t' t'' : Tables} {change : Change} {changes : List Change}

namespace Change

/-- The name that a change gives a symbol. -/
def defined : Change → List String
  | define name _ => [name]
  | _ => []

/-- The name that a change declares external. -/
def declared : Change → List String
  | declare name => [name]
  | _ => []

/-- The tokens that a change gives addresses. -/
def allocated : Change → List String
  | allocate _ tokens => tokens
  | _ => []

end Change

/-- The first tables are the beginnings of the second. -/
structure Extends (t t' : Tables) : Prop where
  symbols : t.symbols.entries <+: t'.symbols.entries
  externals : t.externals <+: t'.externals
  literals : t.literals.entries <+: t'.literals.entries

theorem Extends.refl (t : Tables) : t.Extends t :=
  ⟨List.prefix_rfl, List.prefix_rfl, List.prefix_rfl⟩

theorem Extends.trans (h : t.Extends t') (h' : t'.Extends t'') : t.Extends t'' :=
  ⟨h.symbols.trans h'.symbols, h.externals.trans h'.externals, h.literals.trans h'.literals⟩

/-- A change adds entries at the end. -/
theorem extends_apply (t : Tables) (change : Change) : t.Extends (t.apply change) := by
  cases change with
  | define name symbol =>
      refine ⟨?_, List.prefix_rfl, List.prefix_rfl⟩
      rw [apply, Table.entries_define]
      exact List.prefix_append _ _
  | declare name => exact ⟨List.prefix_rfl, Names.prefix_declare _ _, List.prefix_rfl⟩
  | allocate base tokens =>
      refine ⟨List.prefix_rfl, List.prefix_rfl, ?_⟩
      rw [apply, LiteralTable.allocate_eq]
      exact List.prefix_append _ _

theorem extends_applyAll (t : Tables) (changes : List Change) :
    t.Extends (t.applyAll changes) := by
  induction changes generalizing t with
  | nil => exact .refl t
  | cons change rest ih => exact (extends_apply t change).trans (ih (t.apply change))

/-- A change adds the names that it mentions, unless they are there. -/
theorem keys_apply (t : Tables) (change : Change) :
    (t.apply change).symbols.keys = Names.declareAll t.symbols.keys change.defined ∧
      (t.apply change).externals = Names.declareAll t.externals change.declared ∧
      (t.apply change).literals.keys = Names.declareAll t.literals.keys change.allocated := by
  cases change with
  | define name symbol => exact ⟨Table.keys_define _ _ _, rfl, rfl⟩
  | declare name => exact ⟨rfl, rfl, rfl⟩
  | allocate base tokens => exact ⟨rfl, rfl, LiteralTable.keys_allocate _ _ _⟩

/-- So do several changes, in order. -/
theorem keys_applyAll (t : Tables) (changes : List Change) :
    (t.applyAll changes).symbols.keys =
        Names.declareAll t.symbols.keys (changes.flatMap Change.defined) ∧
      (t.applyAll changes).externals =
        Names.declareAll t.externals (changes.flatMap Change.declared) ∧
      (t.applyAll changes).literals.keys =
        Names.declareAll t.literals.keys (changes.flatMap Change.allocated) := by
  induction changes generalizing t with
  | nil => exact ⟨rfl, rfl, rfl⟩
  | cons change rest ih =>
      obtain ⟨hsymbols, hexternals, hliterals⟩ := keys_apply t change
      obtain ⟨hsymbols', hexternals', hliterals'⟩ := ih (t.apply change)
      simp only [List.flatMap_cons, Names.declareAll_append, ← hsymbols, ← hexternals, ← hliterals]
      exact ⟨hsymbols', hexternals', hliterals'⟩

theorem ofChanges_append (changes more : List Change) :
    ofChanges (changes ++ more) = (ofChanges changes).applyAll more :=
  List.foldl_append

/-- The tables after some changes list what these mention, in order of the first mention. -/
theorem lists_ofChanges (changes : List Change) :
    (ofChanges changes).symbols.Lists (changes.flatMap Change.defined) ∧
      (ofChanges changes).literals.Lists (changes.flatMap Change.allocated) ∧
      (ofChanges changes).externals = (changes.flatMap Change.declared).eraseDups := by
  obtain ⟨hsymbols, hexternals, hliterals⟩ := keys_applyAll empty changes
  refine ⟨Table.lists_of_keys hsymbols, Table.lists_of_keys hliterals, ?_⟩
  rw [Names.eraseDups_eq]
  exact hexternals

/-- Changes to empty tables only add to them.  What is in a table keeps its entry and its place
whatever changes follow.  A table lists the names or tokens of its changes, each once and in
order of the first mention, and its size is the number of different ones.  A definition
reports that it was made, and adds its symbol at the end, exactly if the name was absent.  An
allocation gives the tokens that are absent consecutive addresses, in order of their first
mention and around the end of memory, ends behind the last of them, and leaves the other
tokens as they are. -/
theorem tables_are_append_only (changes : List Change) :
    let t := ofChanges changes
    (∀ more,
      t.symbols.Keeps (ofChanges (changes ++ more)).symbols ∧
      t.literals.Keeps (ofChanges (changes ++ more)).literals ∧
      ∀ (i : Nat) name, t.externals[i]? = some name →
        (ofChanges (changes ++ more)).externals[i]? = some name) ∧
    t.symbols.Lists (changes.flatMap Change.defined) ∧
    t.literals.Lists (changes.flatMap Change.allocated) ∧
    (t.externals = (changes.flatMap Change.declared).eraseDups ∧
      t.externals.length = (changes.flatMap Change.declared).toFinset.card) ∧
    (∀ name symbol,
      ((t.symbols.define name symbol).2 = true ↔ name ∉ changes.flatMap Change.defined) ∧
      (t.symbols.define name symbol).1.entries =
        t.symbols.entries ++ if name ∈ t.symbols.keys then [] else [(name, symbol)]) ∧
    ∀ base tokens,
      (LiteralTable.allocate t.literals base tokens).1.entries =
        t.literals.entries ++ (LiteralTable.fresh t.literals tokens).mapIdx
          (fun i token => (token, base + UInt16.ofNat i)) ∧
      (LiteralTable.allocate t.literals base tokens).2 =
        base + UInt16.ofNat (LiteralTable.fresh t.literals tokens).length := by
  intro t
  obtain ⟨hsymbols, hliterals, hexternals⟩ := lists_ofChanges changes
  refine ⟨fun more => ?_, hsymbols, hliterals, ⟨hexternals, ?_⟩, fun name symbol => ⟨?_, ?_⟩,
    fun base tokens => ?_⟩
  · have hextends : t.Extends (ofChanges (changes ++ more)) := by
      rw [ofChanges_append]
      exact extends_applyAll t more
    exact ⟨Table.keeps_of_prefix hextends.symbols, Table.keeps_of_prefix hextends.literals,
      fun _ _ => getElem?_of_prefix hextends.externals⟩
  · rw [hexternals, Names.length_eraseDups]
  · rw [Table.define_eq_true_iff, hsymbols.keys, List.mem_eraseDups]
  · exact Table.entries_define _ _ _
  · rw [LiteralTable.allocate_eq]
    exact ⟨rfl, rfl⟩

/-- Changes that mention a symbol, a literal and an external name twice each, with a pool that
goes on at the start of memory. -/
def repeatedChanges : List Change :=
  [.define "A" (.relative 0x3000), .allocate 0xFFFF ["=#1", "=x2", "=#1"], .declare "X",
   .define "A" (.absolute (.dec 5)), .allocate 0x10 ["=x2", "=#3"], .declare "X"]

theorem tables_are_append_only_repeatedChanges :
    let t := ofChanges (repeatedChanges.take 3)
    t.symbols.get? "A" = some (.relative 0x3000) ∧ t.literals.entries[1]? = some ("=x2", 0) ∧
      (ofChanges repeatedChanges).symbols.get? "A" = some (.relative 0x3000) ∧
      (ofChanges repeatedChanges).literals.entries[1]? = some ("=x2", 0) ∧
      (ofChanges repeatedChanges).literals.size = 3 := by
  obtain ⟨hkeeps, -⟩ := tables_are_append_only (repeatedChanges.take 3)
  obtain ⟨hsymbols, hliterals, -⟩ := hkeeps (repeatedChanges.drop 3)
  obtain ⟨-, -, hlists, -⟩ := tables_are_append_only repeatedChanges
  exact ⟨rfl, rfl, hsymbols.value _ _ rfl, hliterals.place 1 _ rfl, hlists.size.trans (by decide)⟩

end Tables

end PageAsm
