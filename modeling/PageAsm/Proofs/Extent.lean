import PageAsm.Layout
import PageAsm.Proofs.Outcome

/-!
# PageAsm.Proofs.Extent

How much memory lines take up, stated of a finished layout:

```
instruction, .FILL    1            stored
.STRZ                 chars + 1    stored
.BLKW                 the operand  reserved
everything else       0
```

A scan finds these counts one line at a time, from the symbols it knows so
far.  Symbols keep their first value (`Table.Le`), so what a scan has looked up
is what the finished layout says: `Scan.lines_location` for the address behind
some lines, which wraps, and `Scan.lines_length` for the count, which does not.
-/

namespace PageAsm

open Outcome

/-! ## sizes -/

/-- Words of memory that a line fills. -/
def Line.stored (line : Line) : Nat :=
  match line.operation? with
  | some (.instruction _) => 1
  | some (.directive .fill) => 1
  | some (.directive .strz) => line.operands.length + 1
  | _ => 0

namespace Layout

/-- The value of a `.BLKW` operand. -/
def blockValue? (t : Layout) (line : Line) : Option Numeral :=
  if isNumeric line.operands then (Numeral.parse line.operands).toOption
  else
    match t.symbols.get? line.operands with
    | some (.absolute value) => some value
    | _ => none

/-- Words of memory that a line reserves and leaves empty. -/
def reserved (t : Layout) (line : Line) : Nat :=
  match line.operation? with
  | some (.directive .blkw) =>
    match t.blockValue? line with
    | some value => value.value.toNat
    | none => 0
  | _ => 0

/-- Words of memory that a line takes up. -/
def size (t : Layout) (line : Line) : Nat := line.stored + t.reserved line

section

variable {t : Layout} {line : Line}

theorem size_of_instruction {op : Opcode} (h : line.operation? = some (.instruction op)) :
    t.size line = 1 := by
  simp [size, Line.stored, reserved, h]

theorem size_of_fill (h : line.operation? = some (.directive .fill)) : t.size line = 1 := by
  simp [size, Line.stored, reserved, h]

theorem size_of_strz (h : line.operation? = some (.directive .strz)) :
    t.size line = line.operands.length + 1 := by
  simp [size, Line.stored, reserved, h]

theorem size_of_blkw {value : Numeral} (h : line.operation? = some (.directive .blkw))
    (hv : t.blockValue? line = some value) : t.size line = value.value.toNat := by
  simp [size, Line.stored, reserved, h, hv]

theorem size_of_control {d : Directive} (h : line.operation? = some (.directive d))
    (hd : d.isStorage = false) : t.size line = 0 := by
  cases d <;> simp_all [size, Line.stored, reserved, Directive.isStorage, Directive.isVariable,
    Directive.fixedWords]

end

/-- Words of memory that several lines take up. -/
def extent (t : Layout) : List Line → Nat
  | [] => 0
  | line :: rest => t.size line + t.extent rest

/-- Words of memory that several lines reserve. -/
def totalReserved (t : Layout) : List Line → Nat
  | [] => 0
  | line :: rest => t.reserved line + t.totalReserved rest

theorem extent_append (t : Layout) (xs ys : List Line) :
    t.extent (xs ++ ys) = t.extent xs + t.extent ys := by
  induction xs with
  | nil => simp [extent]
  | cons x xs ih => simp only [List.cons_append, extent, ih, Nat.add_assoc]

end Layout

/-- The characters of a string can be counted in 32 bits.  A scan counts those of a
longer string modulo `2 ^ 32`, and so less than are stored. -/
def Line.IsCountable (line : Line) : Prop :=
  line.operation? = some (.directive .strz) → line.operands.length < 4294967296

instance (line : Line) : Decidable line.IsCountable :=
  inferInstanceAs (Decidable (_ → _))

theorem Line.IsCountable.of_ne {line : Line} (h : line.operation? ≠ some (.directive .strz)) :
    line.IsCountable :=
  fun hop => absurd hop h

/-! ## counts -/

theorem addCounts_eq_ok {a b n : Nat} :
    addCounts a b = .ok n ↔ a + b < 4294967296 ∧ n = a + b := by
  unfold addCounts
  split
  · next h => simp [h, eq_comm]
  · next h => simp [h]

/-- A numeral that fits an address is that address. -/
theorem Numeral.toNat_of_fit_address {n : Numeral} {w : UInt16} (h : n.fit .address = .ok w) :
    w.toNat = n.value.toNat := by
  unfold Numeral.fit at h
  split at h
  · next ha =>
    have hw : UInt16.ofNat (n.value % (65536 : Nat)).toNat = w := Except.ok.inj h
    rw [← hw, UInt16.toNat_ofNat']
    cases n with
    | hex v =>
        have hv := v.toNat_lt
        simp only [Numeral.value]
        omega
    | dec v =>
        have hrange : 0 ≤ v ∧ v ≤ 65535 := of_decide_eq_true ha
        simp only [Numeral.value]
        omega
  · cases h

/-- `.BLKW` reserves as many words as its operand says. -/
theorem Line.toNat_of_blockCount {line : Line} {value : Numeral} {count : UInt16}
    (h : line.blockCount value = .ok count) : count.toNat = value.value.toNat := by
  unfold Line.blockCount at h
  split at h
  · next c hc =>
    split at h
    · simp at h
    · rw [← Except.ok.inj h]
      exact Numeral.toNat_of_fit_address hc
  · simp at h

/-! ## tables that grow -/

namespace Table

variable {α : Type} {a b c : Table α}

/-- Every entry of the first table is one of the second. -/
def Le (a b : Table α) : Prop := ∀ name x, a.get? name = some x → b.get? name = some x

theorem Le.refl (a : Table α) : a.Le a := fun _ _ h => h

theorem Le.trans (hab : a.Le b) (hbc : b.Le c) : a.Le c :=
  fun name x h => hbc name x (hab name x h)

theorem le_insert (a : Table α) (name : String) (x : α) : a.Le (a.insert name x) := by
  intro other y hy
  rw [get?_insert]
  split
  · next he =>
    subst he
    rw [hy]
    rfl
  · exact hy

end Table

/-! ## one line of a scan -/

namespace Scan

variable {s s' : Scan} {line : Line} {operation : Operation} {n : Nat}

/-- A line is scanned in four steps. -/
theorem line_eq_ok :
    s.line line = .ok s' ↔ ∃ operation s₁ s₂ n, line.operation? = some operation ∧
      (s.declare line operation).define line operation = .ok s₁ ∧
      s₁.collect line operation = .ok s₂ ∧ s₂.words line operation = .ok n ∧
      s₂.advance n = .ok s' := by
  unfold Scan.line
  cases hop : line.operation? with
  | none => simp
  | some operation =>
      simp only [bind_eq_ok, Option.some.injEq]
      grind

theorem declare_eq (s : Scan) (line : Line) (operation : Operation) :
    s.declare line operation =
      { s with externals := (s.declare line operation).externals } := by
  unfold declare
  split <;> rfl

/-- A label is defined once, and nothing else changes. -/
theorem define_ok (h : s.define line operation = .ok s') :
    s.symbols.Le s'.symbols ∧ s' = { s with symbols := s'.symbols } := by
  unfold define at h
  split at h
  · rw [← Except.ok.inj h]
    exact ⟨.refl _, rfl⟩
  · simp only [bind_eq_ok] at h
    obtain ⟨symbol, -, h⟩ := h
    split at h
    · simp at h
    · rw [pure_eq_ok] at h
      subst h
      exact ⟨Table.le_insert _ _ _, rfl⟩

theorem collect_ok (h : s.collect line operation = .ok s') :
    s' = { s with literals := s'.literals } := by
  unfold collect at h
  split at h
  · rw [← Except.ok.inj h]
  · split at h
    · rw [← Except.ok.inj h]
    · simp only at h
      split at h
      · simp at h
      · rw [← Except.ok.inj h]

/-- Up to its words, a line leaves the counters as they are. -/
theorem counters_eq {s₁ s₂ : Scan}
    (hdef : (s.declare line operation).define line operation = .ok s₁)
    (hcol : s₁.collect line operation = .ok s₂) :
    s₂.location = s.location ∧ s₂.length = s.length := by
  rw [collect_ok hcol, (define_ok hdef).2, declare_eq]
  exact ⟨rfl, rfl⟩

theorem advance_eq_ok :
    s.advance n = .ok s' ↔ s.length + n < 4294967296 ∧ s.location.toNat + n < 4294967296 ∧
      s' = { s with length := s.length + n, location := s.location + UInt16.ofNat n } := by
  have hloc : UInt16.ofNat ((s.location.toNat + n) % 65536) = s.location + UInt16.ofNat n := by
    rw [show (65536 : Nat) = 2 ^ 16 from rfl, UInt16.ofNat_mod_size, UInt16.ofNat_add,
      UInt16.ofNat_toNat]
  unfold advance
  simp only [bind_eq_ok, pure_eq_ok, addCounts_eq_ok]
  constructor
  · intro h
    obtain ⟨_, ⟨hlen, rfl⟩, _, ⟨hlt, rfl⟩, rfl⟩ := h
    rw [hloc]
    exact ⟨hlen, hlt, rfl⟩
  · intro h
    obtain ⟨hlen, hlt, rfl⟩ := h
    exact ⟨_, ⟨hlen, rfl⟩, _, ⟨hlt, rfl⟩, by rw [hloc]⟩

/-! ## words against sizes -/

theorem blockValue_ok {t : Layout} {value : Numeral} (h : s.blockValue line = .ok value)
    (hle : s.symbols.Le t.symbols) : t.blockValue? line = some value := by
  unfold blockValue at h
  unfold Layout.blockValue?
  split at h
  · next hn =>
    rw [if_pos hn, Line.orFail_eq_ok.mp h]
    rfl
  · next hn =>
    rw [if_neg hn]
    split at h
    · simp at h
    · split at h
      · next hv =>
        cases h
        rw [hle _ _ hv]
      · simp at h
      · simp at h

/-- The words that a scan counts for a line, up to the 32 bits it counts in. -/
theorem words_ok {t : Layout} (h : s.words line operation = .ok n)
    (hop : line.operation? = some operation) (hle : s.symbols.Le t.symbols) :
    n % 4294967296 = t.size line % 4294967296 ∧ (line.IsCountable → n = t.size line) := by
  cases operation with
  | instruction op =>
      have hn : n = 1 := (Except.ok.inj h).symm
      rw [hn, Layout.size_of_instruction hop]
      exact ⟨rfl, fun _ => rfl⟩
  | directive d =>
      cases d with
      | fill =>
          have hn : n = 1 := (Except.ok.inj h).symm
          rw [hn, Layout.size_of_fill hop]
          exact ⟨rfl, fun _ => rfl⟩
      | strz =>
          rw [words, addCounts_eq_ok, String.length_toList] at h
          rw [Layout.size_of_strz hop]
          constructor
          · omega
          · intro hcount
            have := hcount hop
            omega
      | blkw =>
          simp only [words, bind_eq_ok, pure_eq_ok] at h
          obtain ⟨value, hv, count, hc, rfl⟩ := h
          rw [Layout.size_of_blkw hop (blockValue_ok hv hle), Line.toNat_of_blockCount hc]
          exact ⟨rfl, fun _ => rfl⟩
      | orig | equ | «end» | ent | ext =>
          have hn : n = 0 := (Except.ok.inj h).symm
          rw [hn, Layout.size_of_control hop rfl]
          exact ⟨rfl, fun _ => rfl⟩

/-- What one scanned line does to the symbols and the counters. -/
theorem line_ok (h : s.line line = .ok s') :
    s.symbols.Le s'.symbols ∧
      ∀ t : Layout, s'.symbols.Le t.symbols →
        s'.location = s.location + UInt16.ofNat (t.size line) ∧
        (line.IsCountable → s'.length = s.length + t.size line) := by
  obtain ⟨operation, s₁, s₂, n, hop, hdef, hcol, hwords, hadv⟩ := line_eq_ok.mp h
  obtain ⟨hle, hdef⟩ := define_ok hdef
  have hcol := collect_ok hcol
  obtain ⟨-, -, rfl⟩ := advance_eq_ok.mp hadv
  rw [declare_eq] at hle hdef
  rw [hdef] at hcol
  rw [hcol] at hwords ⊢
  refine ⟨hle, fun t ht => ?_⟩
  obtain ⟨hmod, hcount⟩ := words_ok hwords hop ht
  constructor
  · have hn : UInt16.ofNat n = UInt16.ofNat (t.size line) := by
      rw [UInt16.ofNat_eq_iff_mod_eq_toNat, UInt16.toNat_ofNat']
      omega
    rw [hn]
  · intro hc
    rw [← hcount hc]

/-! ## several lines of a scan -/

theorem lines_cons_eq_ok {rest : List Line} :
    s.lines (line :: rest) = .ok s' ↔ ∃ s₁, s.line line = .ok s₁ ∧ s₁.lines rest = .ok s' :=
  bind_eq_ok

theorem lines_append (s : Scan) (xs ys : List Line) :
    s.lines (xs ++ ys) = s.lines xs >>= fun s' => s'.lines ys := by
  induction xs generalizing s with
  | nil => rfl
  | cons x xs ih => simp only [List.cons_append, lines, ih, bind_assoc]

theorem lines_append_eq_ok {xs ys : List Line} :
    s.lines (xs ++ ys) = .ok s' ↔ ∃ s₁, s.lines xs = .ok s₁ ∧ s₁.lines ys = .ok s' := by
  rw [lines_append, bind_eq_ok]

variable {lines : List Line}

theorem symbols_le_of_lines (h : s.lines lines = .ok s') : s.symbols.Le s'.symbols := by
  induction lines generalizing s with
  | nil =>
      cases h
      exact .refl _
  | cons line rest ih =>
      obtain ⟨s₁, hline, hrest⟩ := lines_cons_eq_ok.mp h
      exact (line_ok hline).1.trans (ih hrest)

/-- The location behind scanned lines is that many words further on. -/
theorem lines_location {t : Layout} (h : s.lines lines = .ok s') (ht : s'.symbols.Le t.symbols) :
    s'.location = s.location + UInt16.ofNat (t.extent lines) := by
  induction lines generalizing s with
  | nil =>
      cases h
      simp [Layout.extent]
  | cons line rest ih =>
      obtain ⟨s₁, hline, hrest⟩ := lines_cons_eq_ok.mp h
      have hle := (symbols_le_of_lines hrest).trans ht
      rw [ih hrest, ((line_ok hline).2 t hle).1, Layout.extent, UInt16.ofNat_add,
        UInt16.add_assoc]

/-- The count behind scanned lines has grown by their words. -/
theorem lines_length {t : Layout} (h : s.lines lines = .ok s') (ht : s'.symbols.Le t.symbols)
    (hcount : ∀ line ∈ lines, line.IsCountable) :
    s'.length = s.length + t.extent lines := by
  induction lines generalizing s with
  | nil =>
      cases h
      simp [Layout.extent]
  | cons line rest ih =>
      obtain ⟨s₁, hline, hrest⟩ := lines_cons_eq_ok.mp h
      have hle := (symbols_le_of_lines hrest).trans ht
      have hfirst := ((line_ok hline).2 t hle).2 (hcount line List.mem_cons_self)
      have hothers := ih hrest fun other hmem => hcount other (List.mem_cons_of_mem _ hmem)
      rw [hothers, hfirst, Layout.extent, Nat.add_assoc]

end Scan

end PageAsm
