import PageAsm.Proofs.Patching

/-!
# PageAsm.Proofs.LabelTable

The symbols of a layout, read off the lines:

```
first line with the label       what the label stands for
neither .EQU nor .EXT           the address of the line
operand is a numeral            the number
operand labels a line above     what that label stands for
any other operand               the external name, declared so far
```

A scan decides on each label when it comes to it, from the table as it is then.
Its table only grows at the end (`Scan.lines_symbols`), so what was found then is
what the finished table says, and lines that repeat a label add nothing.
-/

namespace PageAsm

open Outcome

/-- The labels of lines, in order, with repetitions. -/
def labels (lines : List Line) : List String := (lines.map Line.label).filter (· ≠ "")

/-- The label of the line stands for the operand. -/
def Line.IsAlias (line : Line) : Prop :=
  line.operation? = some (.directive .equ) ∨ line.operation? = some (.directive .ext)

/-- What a label stands for, where `line` is the first line with this label and `before` are
the lines in front of it. -/
inductive Defines (t : Layout) (before : List Line) (line : Line) : Symbol → Prop where
  | place {address : UInt16} (plain : ¬ line.IsAlias)
      (location : address.toNat = (t.origin.toNat + t.extent before) % 65536) :
      Defines t before line (.relative address)
  | number {n : Numeral} (renames : line.IsAlias) (numeric : isNumeric line.operands = true)
      (parsed : Numeral.parse line.operands = .ok n) : Defines t before line (.absolute n)
  | copy {symbol : Symbol} (renames : line.IsAlias) (numeric : isNumeric line.operands = false)
      (above : line.operands ∈ labels before)
      (entry : t.symbols.get? line.operands = some symbol) : Defines t before line symbol
  | external (renames : line.IsAlias) (numeric : isNumeric line.operands = false)
      (above : line.operands ∉ labels before)
      (declared : line.operands ∈ declaredNames (before ++ [line])) :
      Defines t before line (.external line.operands)

theorem mem_labels {lines : List Line} {line : Line} (h : line ∈ lines) (hname : line.label ≠ "") :
    line.label ∈ labels lines := by
  rw [labels, List.mem_filter]
  exact ⟨List.mem_map_of_mem h, decide_eq_true hname⟩

theorem labels_append (xs ys : List Line) : labels (xs ++ ys) = labels xs ++ labels ys := by
  rw [labels, List.map_append, List.filter_append]
  rfl

theorem mem_labels_cons {line : Line} {lines : List Line} {name : String} :
    name ∈ labels (line :: lines) ↔ (name = line.label ∧ name ≠ "") ∨ name ∈ labels lines := by
  simp only [labels, List.map_cons, List.mem_filter, List.mem_cons, decide_eq_true_eq, or_and_right]

/-! ## the table while it grows -/

namespace Scan

variable {s s' : Scan} {line : Line} {operation : Operation} {lines : List Line}

/-- A line adds its label at the end of the table, if it has one that is new. -/
theorem line_symbols (h : s.line line = .ok s') :
    s'.symbols.keys = Names.declareAll s.symbols.keys (labels [line]) ∧
      s.symbols.entries <+: s'.symbols.entries ∧
      (s.symbols.size ≤ SymbolTable.capacity → s'.symbols.size ≤ SymbolTable.capacity) := by
  obtain ⟨operation, s₁, -, hdef, hsymbols⟩ := exists_define_of_line h
  have hdeclare : (s.declare line operation).symbols = s.symbols := by rw [declare_eq]
  rw [define, hdeclare] at hdef
  rw [hsymbols]
  by_cases hname : line.label = ""
  · have hnone : labels [line] = [] := by simp [labels, hname]
    simp only [hname, decide_true, Bool.true_or, if_true] at hdef
    rw [← Except.ok.inj hdef, hdeclare, hnone]
    exact ⟨rfl, List.prefix_rfl, id⟩
  · have hone : labels [line] = [line.label] := by simp [labels, hname]
    rw [hone, Names.declareAll_cons, Names.declareAll_nil, Names.declare]
    by_cases hold : s.symbols.contains line.label = true
    · simp only [hold, Bool.or_true, if_true] at hdef
      rw [← Except.ok.inj hdef, hdeclare, if_pos (Table.contains_iff_mem_keys.mp hold)]
      exact ⟨rfl, List.prefix_rfl, id⟩
    · simp only [hname, hold, decide_false, Bool.or_self, Bool.false_eq_true, if_false,
        bind_eq_ok] at hdef
      obtain ⟨symbol, -, hdef⟩ := hdef
      split at hdef
      · simp at hdef
      · next hsize =>
        rw [pure_eq_ok] at hdef
        subst hdef
        refine ⟨?_, ?_, fun _ => Nat.le_of_not_gt hsize⟩
        · rw [Table.keys_insert, if_neg hold, if_neg (mt Table.contains_iff_mem_keys.mpr hold)]
        · rw [Table.insert, if_neg hold]
          exact List.prefix_append _ _

/-- The labels of scanned lines are added to the table in order, behind the entries that it
has and within its capacity. -/
theorem lines_symbols (h : s.lines lines = .ok s') :
    s'.symbols.keys = Names.declareAll s.symbols.keys (labels lines) ∧
      s.symbols.entries <+: s'.symbols.entries ∧
      (s.symbols.size ≤ SymbolTable.capacity → s'.symbols.size ≤ SymbolTable.capacity) := by
  induction lines generalizing s with
  | nil =>
      cases h
      exact ⟨rfl, List.prefix_rfl, id⟩
  | cons line rest ih =>
      obtain ⟨s₁, hline, hrest⟩ := lines_cons_eq_ok.mp h
      obtain ⟨hkeys₁, hprefix₁, hsize₁⟩ := line_symbols hline
      obtain ⟨hkeys, hprefix, hsize⟩ := ih hrest
      refine ⟨?_, hprefix₁.trans hprefix, fun hs => hsize (hsize₁ hs)⟩
      rw [hkeys, hkeys₁, ← Names.declareAll_append, ← labels_append, List.singleton_append]

/-- The symbols behind scanned lines are the labels of these. -/
theorem mem_labels_iff {origin : UInt16} {name : String} (h : (start origin).lines lines = .ok s) :
    name ∈ labels lines ↔ ∃ symbol, s.symbols.get? name = some symbol := by
  have hempty : name ∉ (start origin).symbols.keys := List.not_mem_nil
  rw [← Option.isSome_iff_exists, ← Table.contains, Table.contains_iff_mem_keys,
    (lines_symbols h).1, Names.mem_declareAll, or_iff_right hempty]

/-- The location behind scanned lines, modulo the size of memory. -/
theorem toNat_location {t : Layout} (h : (start t.origin).lines lines = .ok s)
    (hle : s.symbols.Le t.symbols) :
    s.location.toNat = (t.origin.toNat + t.extent lines) % 65536 := by
  rw [lines_location h hle, UInt16.toNat_add, UInt16.toNat_ofNat']
  show (t.origin.toNat + t.extent lines % 2 ^ 16) % 2 ^ 16 = _
  omega

theorem aliased_of_numeric {symbol : Symbol} (h : s.aliased line = .ok symbol)
    (hnumeric : isNumeric line.operands = true) :
    ∃ n, Numeral.parse line.operands = .ok n ∧ symbol = .absolute n := by
  rw [aliased, if_pos hnumeric] at h
  simp only [bind_eq_ok, Line.orFail_eq_ok, pure_eq_ok] at h
  obtain ⟨n, hparse, rfl⟩ := h
  exact ⟨n, hparse, rfl⟩

end Scan

/-! ## one entry -/

namespace Defines

variable {t : Layout} {s : Scan} {before : List Line} {line : Line} {operation : Operation}
  {symbol : Symbol}

theorem of_aliased (hscan : (Scan.start t.origin).lines before = .ok s)
    (hle : s.symbols.Le t.symbols) (hop : line.operation? = some operation)
    (halias : line.IsAlias) (h : (s.declare line operation).aliased line = .ok symbol) :
    Defines t before line symbol := by
  by_cases hnumeric : isNumeric line.operands = true
  · obtain ⟨n, hparse, rfl⟩ := Scan.aliased_of_numeric h hnumeric
    exact .number halias hnumeric hparse
  · have hsymbols : (s.declare line operation).symbols = s.symbols := by rw [Scan.declare_eq]
    obtain ⟨hyes, -⟩ | ⟨hno, hlook⟩ := Scan.aliased_ok h
    · exact absurd hyes hnumeric
    · rw [hsymbols] at hlook
      obtain hget | ⟨hget, hmem, rfl⟩ := hlook
      · exact .copy halias hno ((Scan.mem_labels_iff hscan).mpr ⟨_, hget⟩) (hle _ _ hget)
      · have habove : line.operands ∉ labels before := by
          rw [Scan.mem_labels_iff hscan, hget]
          simp
        exact .external halias hno habove (Scan.mem_declaredNames hscan hop hmem [])

/-- What the scan finds for a label is what its line says, in terms of the finished table. -/
theorem of_labelled (hscan : (Scan.start t.origin).lines before = .ok s)
    (hle : s.symbols.Le t.symbols) (hop : line.operation? = some operation)
    (h : (s.declare line operation).labelled line operation = .ok symbol) :
    Defines t before line symbol := by
  unfold Scan.labelled at h
  split at h
  · exact of_aliased hscan hle hop (.inl hop) h
  · exact of_aliased hscan hle hop (.inr hop) h
  · next hequ hext =>
    have hplain : ¬ line.IsAlias := by
      rintro (hdir | hdir)
      · exact hequ (Option.some.inj (hop.symm.trans hdir))
      · exact hext (Option.some.inj (hop.symm.trans hdir))
    have hlocation : (s.declare line operation).location = s.location := by rw [Scan.declare_eq]
    rw [hlocation] at h
    cases h
    exact .place hplain (Scan.toNat_location hscan hle)

end Defines

/-- The symbols of a layout are the labels of its lines, in order of their first mention, and
each stands for what the first line with this label says.  What a scan has in its table
behind any of the lines stays there. -/
theorem symbols_of_ofLines {lines : List Line} {t : Layout} (laid : Layout.ofLines lines = .ok t) :
    t.symbols.keys = (labels (Layout.inner lines)).eraseDups ∧
    t.symbols.size ≤ 100 ∧
    (∀ before line after, Layout.inner lines = before ++ line :: after → line.label ≠ "" →
      line.label ∉ labels before →
      ∃ symbol, t.symbols.get? line.label = some symbol ∧ Defines t before line symbol) ∧
    ∀ before after, Layout.inner lines = before ++ after →
      ∃ s, (Scan.start t.origin).lines before = .ok s ∧
        s.symbols.entries <+: t.symbols.entries := by
  obtain ⟨s, hscan, hplace⟩ := Layout.exists_scan_of_ofLines laid
  have hsymbols : t.symbols = s.symbols := by rw [(Layout.ofScan_eq_ok.mp hplace).2]
  obtain ⟨hkeys, -, hsize⟩ := Scan.lines_symbols hscan
  rw [hsymbols]
  refine ⟨?_, hsize (Nat.zero_le _), ?_, ?_⟩
  · have hempty : (Scan.start t.origin).symbols.keys = ([] : List String).eraseDups := rfl
    rw [hkeys, hempty, Names.declareAll_eraseDups, List.nil_append]
  · intro before line after hinner hname hfirst
    rw [hinner] at hscan
    have hbefore : ∀ other ∈ before, other.label ≠ line.label := by
      intro other hmem heq
      rw [← heq] at hname hfirst
      exact hfirst (mem_labels hmem hname)
    obtain ⟨s₁, operation, symbol, hscan₁, hop, hlabelled, hget⟩ :=
      Scan.defined_of_first hscan hbefore hname
    obtain ⟨s₂, hscan₂, hrest⟩ := Scan.lines_append_eq_ok.mp hscan
    rw [hscan₁] at hscan₂
    cases hscan₂
    -- the table in front of the line is part of the finished one
    refine ⟨symbol, hget, .of_labelled hscan₁ ?_ hop hlabelled⟩
    rw [hsymbols]
    exact Scan.symbols_le_of_lines hrest
  · intro before after hinner
    rw [hinner] at hscan
    obtain ⟨s₁, hscan₁, hrest⟩ := Scan.lines_append_eq_ok.mp hscan
    exact ⟨s₁, hscan₁, (Scan.lines_symbols hrest).2.1⟩

/-- A segment across the end of memory, with an alias of an alias, a name that is declared
and given a label on one line, and a label that is repeated. -/
def aliasesAndRepeats : List Line :=
  [⟨"PROG", ".ORIG", "xFFFF", 1, .nowhere⟩,
   ⟨"OUT", ".EXT", "PUTS", 2, .nowhere⟩,
   ⟨"TWO", ".EQU", "#2", 3, .nowhere⟩,
   ⟨"BUF", ".BLKW", "TWO", 4, .nowhere⟩,
   ⟨"TWO", ".FILL", "BUF", 5, .nowhere⟩,
   ⟨"PRINT", ".EQU", "OUT", 6, .nowhere⟩,
   ⟨"LAST", "JMP", "PRINT", 7, .nowhere⟩,
   ⟨"", ".END", "", 8, .nowhere⟩]

theorem symbols_of_ofLines_aliasesAndRepeats :
    ∃ t, Layout.ofLines aliasesAndRepeats = .ok t ∧
      t.symbols.keys = ["OUT", "TWO", "BUF", "PRINT", "LAST"] ∧
      ∃ symbol, t.symbols.get? "LAST" = some symbol ∧
        Defines t (aliasesAndRepeats.tail.take 5) ⟨"LAST", "JMP", "PRINT", 7, .nowhere⟩ symbol := by
  obtain ⟨t, laid⟩ : ∃ t, Layout.ofLines aliasesAndRepeats = .ok t := ⟨_, rfl⟩
  obtain ⟨hkeys, -, hentries, -⟩ := symbols_of_ofLines laid
  have hlast := hentries (aliasesAndRepeats.tail.take 5) ⟨"LAST", "JMP", "PRINT", 7, .nowhere⟩ []
    rfl (by decide) (by decide)
  exact ⟨t, laid, hkeys, hlast⟩

end PageAsm
