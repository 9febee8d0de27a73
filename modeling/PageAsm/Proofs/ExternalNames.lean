import PageAsm.Proofs.Framing
import PageAsm.Proofs.SymbolReference

/-!
# PageAsm.Proofs.ExternalNames

External names in the scan and in the emission of the same lines.  Both collect
the names of the `.EXT` lines that they have come to, in order and without
repetition:

```
scan       s.lines lines          declaredNames lines    (Scan.lines_externals)
emission   Steps t e lines _ e'   declaredNames lines    (Emitter.Steps.externals)
```

The scan takes any name.  Emission checks each of them against the finished
table of symbols, so a name that is declared and defined as well stops it, in
whichever order the two lines stand; behind an emission that succeeds, no name
is both.
-/

namespace PageAsm

open Outcome

/-! ## names that lines declare -/

/-- The external names that a line declares. -/
def Line.declared (line : Line) : List String :=
  if line.operation? = some (.directive .ext) then line.operandList else []

/-- The external names that lines declare, in order, with repetitions. -/
def declaredNames (lines : List Line) : List String := lines.flatMap Line.declared

theorem Line.declared_of_ext {line : Line} (h : line.operation? = some (.directive .ext)) :
    line.declared = line.operandList :=
  if_pos h

theorem Line.declared_of_ne {line : Line} (h : line.operation? ≠ some (.directive .ext)) :
    line.declared = [] :=
  if_neg h

/-- Only the lines in between declare names. -/
theorem declaredNames_framed {first : Line} {body : List Line} {last : Line}
    (orig : first.operation? = some (.directive .orig))
    (close : last.operation? = some (.directive .end)) :
    declaredNames (first :: (body ++ [last])) = declaredNames body := by
  have hfirst : first.declared = [] := Line.declared_of_ne (by simp [orig])
  have hlast : last.declared = [] := Line.declared_of_ne (by simp [close])
  simp [declaredNames, hfirst, hlast]

namespace Names

theorem declare_eraseDups (names : List String) (name : String) :
    declare names.eraseDups name = (names ++ [name]).eraseDups := by
  rw [declare, List.eraseDups_append]
  by_cases h : name ∈ names
  · simp [List.removeAll, List.mem_eraseDups, h]
  · simp [List.removeAll, List.mem_eraseDups, List.eraseDups_cons, h]

/-- Names are declared in order of their first mention. -/
theorem declareAll_eraseDups (names more : List String) :
    declareAll names.eraseDups more = (names ++ more).eraseDups := by
  induction more generalizing names with
  | nil => rw [declareAll_nil, List.append_nil]
  | cons name more ih =>
      rw [declareAll_cons, declare_eraseDups, ih, List.append_assoc, List.singleton_append]

theorem declareAll_append (names xs ys : List String) :
    declareAll names (xs ++ ys) = declareAll (declareAll names xs) ys :=
  List.foldl_append

end Names

/-! ## the scan -/

namespace Scan

variable {s s' : Scan} {line : Line} {lines : List Line}

theorem line_externals (h : s.line line = .ok s') :
    s'.externals = Names.declareAll s.externals line.declared := by
  obtain ⟨operation, s₁, s₂, n, hop, hdef, hcol, -, hadv⟩ := line_eq_ok.mp h
  obtain ⟨-, -, rfl⟩ := advance_eq_ok.mp hadv
  rw [collect_ok hcol, (define_ok hdef).2, declare, Line.declared, hop]
  simp only [Option.some.injEq]
  split <;> rfl

theorem lines_externals (h : s.lines lines = .ok s') :
    s'.externals = Names.declareAll s.externals (declaredNames lines) := by
  induction lines generalizing s with
  | nil =>
      cases h
      rfl
  | cons line rest ih =>
      obtain ⟨s₁, hline, hrest⟩ := lines_cons_eq_ok.mp h
      rw [ih hrest, line_externals hline, ← Names.declareAll_append]
      rfl

/-- Behind the first lines, the external names are those that they declare. -/
theorem mem_externals_iff {origin : UInt16} {name : String}
    (h : (start origin).lines lines = .ok s) : name ∈ s.externals ↔ name ∈ declaredNames lines := by
  rw [lines_externals h, Names.mem_declareAll]
  exact or_iff_right List.not_mem_nil

/-- What an alias stands for: a number, what its operand stands for, or its operand. -/
theorem aliased_ok {symbol : Symbol} (h : s.aliased line = .ok symbol) :
    (isNumeric line.operands = true ∧ ∃ value, symbol = .absolute value) ∨
      isNumeric line.operands = false ∧
        (s.symbols.get? line.operands = some symbol ∨
          s.symbols.get? line.operands = none ∧ line.operands ∈ s.externals ∧
            symbol = .external line.operands) := by
  unfold aliased at h
  split at h
  · next hn =>
    simp only [bind_eq_ok, pure_eq_ok] at h
    obtain ⟨value, -, rfl⟩ := h
    exact .inl ⟨hn, value, rfl⟩
  · next hn =>
    refine .inr ⟨Bool.eq_false_iff.mpr hn, ?_⟩
    split at h
    · next hget =>
      cases h
      exact .inl hget
    · next hget =>
      split at h
      · next hmem =>
        cases h
        exact .inr ⟨hget, hmem, rfl⟩
      · split at h <;> simp at h

/-- Every symbol that stands for an external name stands for one that is declared. -/
def AliasesDeclared (s : Scan) : Prop :=
  ∀ name target, (name, .external target) ∈ s.symbols.entries → target ∈ s.externals

theorem AliasesDeclared.of_aliased {target : String} (hs : s.AliasesDeclared)
    (h : s.aliased line = .ok (.external target)) : target ∈ s.externals := by
  obtain ⟨-, value, hvalue⟩ | ⟨-, hget | ⟨-, hmem, htarget⟩⟩ := aliased_ok h
  · cases hvalue
  · exact hs _ _ (Table.mem_entries_of_get? hget)
  · cases htarget
    exact hmem

theorem AliasesDeclared.define {operation : Operation} (hs : s.AliasesDeclared)
    (h : s.define line operation = .ok s') : s'.AliasesDeclared := by
  unfold Scan.define at h
  split at h
  · rw [← Except.ok.inj h]
    exact hs
  · simp only [bind_eq_ok] at h
    obtain ⟨symbol, hsymbol, h⟩ := h
    split at h
    · simp at h
    · rw [pure_eq_ok] at h
      subst h
      intro name target hmem
      cases Table.mem_entries_insert hmem with
      | inl hold => exact hs name target hold
      | inr hnew =>
          cases hnew
          unfold labelled at hsymbol
          split at hsymbol
          · exact hs.of_aliased hsymbol
          · exact hs.of_aliased hsymbol
          · cases hsymbol

theorem AliasesDeclared.scan_line (hs : s.AliasesDeclared) (h : s.line line = .ok s') :
    s'.AliasesDeclared := by
  obtain ⟨operation, s₁, s₂, n, -, hdef, hcol, -, hadv⟩ := line_eq_ok.mp h
  have hdeclare : (s.declare line operation).AliasesDeclared := by
    unfold declare
    split
    · exact fun name target hmem => Names.mem_declareAll.mpr (.inl (hs name target hmem))
    · exact hs
  have hs₁ := hdeclare.define hdef
  obtain ⟨-, -, rfl⟩ := advance_eq_ok.mp hadv
  rw [collect_ok hcol]
  exact hs₁

theorem AliasesDeclared.scan_lines (hs : s.AliasesDeclared) (h : s.lines lines = .ok s') :
    s'.AliasesDeclared := by
  induction lines generalizing s with
  | nil =>
      cases h
      exact hs
  | cons line rest ih =>
      obtain ⟨s₁, hline, hrest⟩ := lines_cons_eq_ok.mp h
      exact ih (hs.scan_line hline) hrest

theorem aliasesDeclared_start (origin : UInt16) : (start origin).AliasesDeclared :=
  fun _ _ hmem => absurd hmem List.not_mem_nil

end Scan

/-! ## emission -/

namespace Emitter

variable {t : Layout} {e e' : Emitter} {line : Line} {out : Emission} {lines : List Line}
  {outs : List Emission}

theorem Step.externals (h : Step t e line out e') :
    e'.externals = Names.declareAll e.externals line.declared := by
  cases h with
  | ext operation few fresh => rw [Line.declared_of_ext operation]
  | instruction operation | orig operation | «end» operation | ent operation | equ operation
  | fillNumber operation | fillTarget operation | blkw operation | strz operation =>
      rw [Line.declared_of_ne (by simp [operation])]
      rfl

theorem Steps.externals (h : Steps t e lines outs e') :
    e'.externals = Names.declareAll e.externals (declaredNames lines) := by
  induction h with
  | nil => rfl
  | cons head tail ih =>
      rw [ih, head.externals, ← Names.declareAll_append]
      rfl

theorem Steps.foreign (h : Steps t e lines outs e') (hforeign : e.IsForeign t) :
    e'.IsForeign t := by
  induction h with
  | nil => exact hforeign
  | cons head tail ih => exact ih (head.foreign hforeign)

theorem foreign_start (t : Layout) : (start t).IsForeign t :=
  fun _ hmem => absurd hmem List.not_mem_nil

/-- Behind the first lines of a segment, the external names are those that they declare. -/
theorem Steps.externals_of_start (h : Steps t (start t) lines outs e) :
    e.externals = (declaredNames lines).eraseDups := by
  have hempty : (start t).externals = ([] : List String).eraseDups := rfl
  rw [h.externals, hempty, Names.declareAll_eraseDups, List.nil_append]

/-- The same behind `.ORIG` and the first lines of the body. -/
theorem Steps.mem_externals_iff {first : Line} {name : String}
    (h : Steps t (start t) (first :: lines) outs e)
    (orig : first.operation? = some (.directive .orig)) :
    name ∈ e.externals ↔ name ∈ declaredNames lines := by
  have hfirst : first.declared = [] := Line.declared_of_ne (by simp [orig])
  rw [h.externals_of_start, List.mem_eraseDups]
  simp [declaredNames, hfirst]

end Emitter

/-! ## both together -/

namespace Layout

variable {first : Line} {body : List Line} {last : Line} {t : Layout}

/-- A layout has the external names that the body declares. -/
theorem externals_eq (h : ofLines (first :: (body ++ [last])) = .ok t) :
    t.externals = (declaredNames body).eraseDups := by
  obtain ⟨s, -, hscan, hplace⟩ := ofLines_ok h
  have hs : t.externals = s.externals := by rw [(ofScan_eq_ok.mp hplace).2]
  have hempty : (Scan.start t.origin).externals = ([] : List String).eraseDups := rfl
  rw [hs, Scan.lines_externals hscan, hempty, Names.declareAll_eraseDups, List.nil_append]

theorem aliasesDeclared (h : ofLines (first :: (body ++ [last])) = .ok t) {name target : String}
    (hmem : (name, .external target) ∈ t.symbols.entries) : target ∈ t.externals := by
  obtain ⟨s, -, hscan, hplace⟩ := ofLines_ok h
  have hs := (Scan.aliasesDeclared_start t.origin).scan_lines hscan
  rw [(ofScan_eq_ok.mp hplace).2] at hmem ⊢
  exact hs name target hmem

end Layout

/-- In lines that are laid out and emitted, no name is both a symbol and external, and a
symbol that stands for an external name stands for a declared one.  Emission ends with the
external names of the layout, in the same order, and behind any of its lines it has the
names that `.EXT` lines have declared up to there, each once. -/
theorem externals_agree {lines : List Line} {t : Layout} {c : UInt16} (framed : IsFramed lines)
    (laid : Layout.ofLines lines = .ok t) (ran : (Run.ofLines t lines).outcome = .ok c) :
    (∀ name ∈ t.symbols.keys, name ∉ t.externals) ∧
    (∀ name target, (name, .external target) ∈ t.symbols.entries → target ∈ t.externals) ∧
    (∃ outs e, Emitter.emitLines t (Emitter.start t) lines = .ok (outs, e) ∧
      e.externals = t.externals) ∧
    ∀ k ≤ lines.length, ∃ outs e,
      Emitter.emitLines t (Emitter.start t) (lines.take k) = .ok (outs, e) ∧
        e.externals = (declaredNames (lines.take k)).eraseDups := by
  obtain ⟨first, body, last, orig, close⟩ := framed
  obtain ⟨outs, e, hsteps⟩ := Run.steps_of_ok ran
  have hend : e.externals = t.externals := by
    rw [hsteps.externals_of_start, declaredNames_framed orig close, Layout.externals_eq laid]
  refine ⟨?_, fun name target => Layout.aliasesDeclared laid, ?_, ?_⟩
  · intro name hkey hext
    have hfresh := hsteps.foreign (Emitter.foreign_start t) name (hend ▸ hext)
    rw [Table.contains_iff_mem_keys.mpr hkey] at hfresh
    cases hfresh
  · exact ⟨outs, e, Emitter.emitLines_ok_iff.mpr hsteps, hend⟩
  · intro k hk
    rw [← List.take_append_drop k (first :: (body ++ [last]))] at hsteps
    obtain ⟨e₁, outs₁, outs₂, -, htake, -⟩ := hsteps.of_append
    exact ⟨outs₁, e₁, Emitter.emitLines_ok_iff.mpr htake, htake.externals_of_start⟩

/-- A segment with a name that is declared twice and has two aliases, one on the line of
its declaration and one behind a second `.ORIG`. -/
def declaredTwice : List Line :=
  [⟨"PROG", ".ORIG", "", 1, .nowhere⟩,
   ⟨"OUT", ".EXT", "PUTS", 2, .nowhere⟩,
   ⟨"", ".EXT", "GETC,PUTS", 3, .nowhere⟩,
   ⟨"", ".ORIG", "x3000", 4, .nowhere⟩,
   ⟨"ALIAS", ".EQU", "OUT", 5, .nowhere⟩,
   ⟨"", ".FILL", "ALIAS", 6, .nowhere⟩,
   ⟨"", ".END", "", 7, .nowhere⟩]

theorem externals_agree_declaredTwice :
    ∃ t c, Layout.ofLines declaredTwice = .ok t ∧
      (Run.ofLines t declaredTwice).outcome = .ok c ∧
      t.symbols.keys = ["OUT", "ALIAS"] ∧ t.externals = ["PUTS", "GETC"] ∧
      (∀ name ∈ t.symbols.keys, name ∉ t.externals) ∧
      ∃ outs e, Emitter.emitLines t (Emitter.start t) (declaredTwice.take 2) = .ok (outs, e) ∧
        e.externals = ["PUTS"] := by
  have framed : IsFramed declaredTwice := .intro _ [_, _, _, _, _] _ rfl rfl
  obtain ⟨t, c, laid, ran, hkeys, hexternals⟩ : ∃ t c, Layout.ofLines declaredTwice = .ok t ∧
      (Run.ofLines t declaredTwice).outcome = .ok c ∧ t.symbols.keys = ["OUT", "ALIAS"] ∧
      t.externals = ["PUTS", "GETC"] := ⟨_, _, rfl, rfl, rfl, rfl⟩
  obtain ⟨hdisjoint, -, -, hpoints⟩ := externals_agree framed laid ran
  obtain ⟨outs, e, hemit, hdeclared⟩ := hpoints 2 (by decide)
  exact ⟨t, c, laid, ran, hkeys, hexternals, hdisjoint, outs, e, hemit, hdeclared⟩

end PageAsm
