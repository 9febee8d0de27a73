import PageAsm.Proofs.Segment

/-!
# PageAsm.Proofs.Shift

Laying the same lines out from another origin.  Every address of the segment
moves by the distance between the origins, and nothing else changes:

```
symbols      addresses move, numbers and external names stay
literals     addresses move
location     moves
length       stays
```

Each step of a scan commutes with this shift, `Scan.lines_shift` puts the steps
together, and `Layout.ofScan_shift` adds the literal pool.  Lines that fit in
memory can be laid out from every origin (`Scan.lines_shift_of_length_le`).
-/

namespace PageAsm

open Outcome

/-! ## tables -/

namespace Table

variable {α β : Type}

/-- The table with every value changed. -/
def map (f : α → β) (t : Table α) : Table β := ⟨t.entries.map fun entry => (entry.1, f entry.2)⟩

@[simp] theorem get?_map (f : α → β) (t : Table α) (name : String) :
    (t.map f).get? name = (t.get? name).map f := by
  obtain ⟨entries⟩ := t
  simp only [get?, map]
  induction entries with
  | nil => rfl
  | cons entry entries ih =>
      obtain ⟨key, a⟩ := entry
      simp only [List.map_cons, List.lookup_cons]
      split
      · rfl
      · exact ih

@[simp] theorem contains_map (f : α → β) (t : Table α) (name : String) :
    (t.map f).contains name = t.contains name := by
  simp [contains]

@[simp] theorem size_map (f : α → β) (t : Table α) : (t.map f).size = t.size := by
  simp [size, map]

theorem insert_map (f : α → β) (t : Table α) (name : String) (a : α) :
    (t.map f).insert name (f a) = (t.insert name a).map f := by
  unfold insert
  rw [contains_map]
  split
  · rfl
  · simp [map]

end Table

/-! ## symbols and scans -/

/-- What a symbol stands for when its segment is moved. -/
def Symbol.shift (base : UInt16) : Symbol → Symbol
  | relative address => .relative (address + base)
  | other => other

namespace Scan

/-- The same scan from an origin that lies `base` words further on. -/
def shift (base : UInt16) (s : Scan) : Scan :=
  { s with location := s.location + base, symbols := s.symbols.map (Symbol.shift base) }

variable {base : UInt16} {s s₁ s₂ : Scan} {line : Line} {operation : Operation}

theorem declare_shift :
    (s.shift base).declare line operation = (s.declare line operation).shift base := by
  unfold declare
  split <;> rfl

theorem aliased_shift :
    (s.shift base).aliased line = (s.aliased line).map (Symbol.shift base) := by
  unfold aliased
  split
  · cases Numeral.parse line.operands <;> rfl
  · simp only [shift, Table.get?_map]
    cases s.symbols.get? line.operands with
    | some symbol => rfl
    | none =>
        by_cases hext : line.operands ∈ s.externals
        · simp [hext, Except.map, Symbol.shift]
        · by_cases hmany : line.operandList.length > 1
          · simp [hext, hmany, Line.fail, Except.map]
          · simp [hext, hmany, Line.fail, Except.map]

theorem labelled_shift :
    (s.shift base).labelled line operation =
      (s.labelled line operation).map (Symbol.shift base) := by
  unfold labelled
  split
  · exact aliased_shift
  · exact aliased_shift
  · rfl

theorem define_shift :
    (s.shift base).define line operation = (s.define line operation).map (shift base) := by
  unfold define
  have hsymbols : (s.shift base).symbols = s.symbols.map (Symbol.shift base) := rfl
  rw [hsymbols, Table.contains_map, labelled_shift]
  split
  · rfl
  · cases hl : s.labelled line operation with
    | error f => rfl
    | ok symbol =>
        simp only [Except.map, bind, Except.bind, Table.insert_map, Table.size_map]
        split <;> rfl

theorem collect_shift :
    (s.shift base).collect line operation = (s.collect line operation).map (shift base) := by
  unfold collect
  split
  · rfl
  · cases line.literal? with
    | none => rfl
    | some token =>
        simp only [show (s.shift base).literals = s.literals from rfl]
        split <;> rfl

theorem blockValue_shift : (s.shift base).blockValue line = s.blockValue line := by
  unfold blockValue
  simp only [shift, Table.get?_map]
  split
  · rfl
  · split
    · rfl
    · rcases s.symbols.get? line.operands with _ | ⟨value | address | name⟩ <;> rfl

theorem words_shift : (s.shift base).words line operation = s.words line operation := by
  unfold words
  split <;> simp only [blockValue_shift]

/-- Scanning a line commutes with the shift, if the location counter has room. -/
theorem line_shift_iff (h : s.line line = .ok s₁) :
    (s.shift base).line line = .ok s₂ ↔
      (s.location + base).toNat + (s₁.length - s.length) < 4294967296 ∧ s₂ = s₁.shift base := by
  obtain ⟨operation, a, b, n, hop, hdef, hcol, hwords, hadv⟩ := line_eq_ok.mp h
  obtain ⟨hlen, -, rfl⟩ := advance_eq_ok.mp hadv
  have hcounters := counters_eq hdef hcol
  have hline : (s.shift base).line line = (b.shift base).advance n := by
    simp only [Scan.line, hop, declare_shift, define_shift, hdef, bind, Except.bind, Except.map,
      collect_shift, hcol, words_shift, hwords]
  have hloc : s.location + base + UInt16.ofNat n = s.location + UInt16.ofNat n + base := by
    ac_rfl
  have hcount : s.length + n - s.length = n := Nat.add_sub_cancel_left s.length n
  rw [hcounters.2] at hlen
  rw [hline, advance_eq_ok]
  simp only [shift, hcounters, hlen, hloc, hcount, true_and]

/-- Scanning a line commutes with the shift, where both scans succeed. -/
theorem line_shift (h : s.line line = .ok s₁) (h' : (s.shift base).line line = .ok s₂) :
    s₂ = s₁.shift base :=
  ((line_shift_iff h).mp h').2

theorem lines_shift {lines : List Line} (h : s.lines lines = .ok s₁)
    (h' : (s.shift base).lines lines = .ok s₂) : s₂ = s₁.shift base := by
  induction lines generalizing s with
  | nil =>
      cases h
      cases h'
      rfl
  | cons line rest ih =>
      obtain ⟨a, hline, hrest⟩ := lines_cons_eq_ok.mp h
      obtain ⟨a', hline', hrest'⟩ := lines_cons_eq_ok.mp h'
      rw [line_shift hline hline'] at hrest'
      exact ih hrest hrest'

theorem length_le_of_line (h : s.line line = .ok s₁) : s.length ≤ s₁.length := by
  obtain ⟨operation, a, b, n, -, hdef, hcol, -, hadv⟩ := line_eq_ok.mp h
  obtain ⟨-, -, rfl⟩ := advance_eq_ok.mp hadv
  simp only [counters_eq hdef hcol, Nat.le_add_right]

theorem length_le_of_lines {lines : List Line} (h : s.lines lines = .ok s₁) :
    s.length ≤ s₁.length := by
  induction lines generalizing s with
  | nil =>
      cases h
      exact Nat.le_refl _
  | cons line rest ih =>
      obtain ⟨a, hline, hrest⟩ := lines_cons_eq_ok.mp h
      exact Nat.le_trans (length_le_of_line hline) (ih hrest)

/-- Lines that fit in memory can be scanned from every origin. -/
theorem lines_shift_of_length_le {lines : List Line} (h : s.lines lines = .ok s₁)
    (hlen : s₁.length ≤ 65535) : (s.shift base).lines lines = .ok (s₁.shift base) := by
  induction lines generalizing s with
  | nil =>
      cases h
      rfl
  | cons line rest ih =>
      obtain ⟨a, hline, hrest⟩ := lines_cons_eq_ok.mp h
      have hle := length_le_of_lines hrest
      have hloc := (s.location + base).toNat_lt
      have hroom : (s.location + base).toNat + (a.length - s.length) < 4294967296 := by omega
      exact lines_cons_eq_ok.mpr ⟨_, (line_shift_iff hline).mpr ⟨hroom, rfl⟩, ih hrest⟩

end Scan

/-! ## layouts -/

theorem LiteralTable.allocate_shift (offset : UInt16) (t : LiteralTable) (base : UInt16)
    (tokens : List String) :
    allocate (t.map (· + offset)) (base + offset) tokens =
      ((allocate t base tokens).1.map (· + offset), (allocate t base tokens).2 + offset) := by
  induction tokens generalizing t base with
  | nil => rfl
  | cons token tokens ih =>
      simp only [allocate, Table.contains_map]
      split
      · exact ih t base
      · have hnext : base + offset + 1 = base + 1 + offset := by ac_rfl
        rw [Table.insert_map, hnext]
        exact ih _ _

namespace Layout

/-- The layout of the same lines from an origin that lies `base` words further on. -/
def shift (base : UInt16) (t : Layout) : Layout :=
  { t with
    symbols := t.symbols.map (Symbol.shift base)
    literals := t.literals.map (· + base)
    origin := t.origin + base
    codeEnd := t.codeEnd + base
    poolEnd := t.poolEnd + base }

theorem ofScan_shift {base origin : UInt16} {s : Scan} {t : Layout}
    (h : ofScan origin s = .ok t) : ofScan (origin + base) (s.shift base) = .ok (t.shift base) := by
  obtain ⟨hlt, rfl⟩ := ofScan_eq_ok.mp h
  have hpool : LiteralTable.allocate .empty (s.location + base) s.literals = _ :=
    LiteralTable.allocate_shift base .empty s.location s.literals
  rw [ofScan_eq_ok]
  constructor
  · simp only [Scan.shift, hpool, Table.size_map]
    exact hlt
  · simp only [Scan.shift, shift, hpool, Table.size_map]

/-- Two layouts of the same lines differ by the distance between their origins. -/
theorem eq_shift {lines : List Line} {s s' : Scan} {t t' : Layout} {base : UInt16}
    (hscan : (Scan.start t.origin).lines lines = .ok s) (hplace : ofScan t.origin s = .ok t)
    (hscan' : (Scan.start t'.origin).lines lines = .ok s') (hplace' : ofScan t'.origin s' = .ok t')
    (horigin : t'.origin = t.origin + base) : t' = t.shift base := by
  rw [horigin] at hscan' hplace'
  rw [Scan.lines_shift hscan hscan', ofScan_shift hplace] at hplace'
  exact (Except.ok.inj hplace').symm

end Layout

end PageAsm
