import PageAsm.Proofs.Failure
import PageAsm.Proofs.Framing
import PageAsm.Proofs.LocationCounter

/-!
# PageAsm.Proofs.Fault

When a check of the assembler on itself fails.  There are three of them:

```
wordWidth          the fields of an instruction do not fill a word    never
countOverflow      a count of words does not fit in 32 bits           large programs
locationMismatch   emission ends at another location than the layout  `.ORIG` in between
```

Emission alone only ever reports diagnostics (`Run.reports_resume`), and so
does a scan whose lines are few and short enough (`Scan.reports_lines`).  The
last check fails for one reason: the layout counts on over an `.ORIG` between
the first line and the last, while emission starts again at its operand.
-/

namespace PageAsm

namespace Outcome

variable {α β : Type}

/-- The computation does not end in a fault: it succeeds or has a diagnostic. -/
def Reports (x : Except Failure α) : Prop := ∀ f, x ≠ .error (.fault f)

@[simp] theorem reports_ok (a : α) : Reports (.ok a) := fun _ h => nomatch h

@[simp] theorem reports_pure (a : α) : Reports (pure a) := reports_ok a

@[simp] theorem reports_bind {x : Except Failure α} {f : α → Except Failure β} :
    Reports (x >>= f) ↔ Reports x ∧ ∀ a, x = .ok a → Reports (f a) := by
  cases x with
  | error e => simp [Reports, bind, Except.bind]
  | ok a => simp [Reports, bind, Except.bind]

/-- A diagnostic about a line is not a fault. -/
theorem reports_of_blamed {x : Except Failure α} {line : Line} (h : FailsOnly line.IsBlamed x) :
    Reports x := by
  intro f hf
  obtain ⟨cause, hcause⟩ := h _ hf
  cases hcause

end Outcome

open Outcome

/-- A run over lines gets to the end or has a diagnostic. -/
theorem Run.reports_resume (t : Layout) (e : Emitter) (lines : List Line) :
    Reports (resume t e lines).outcome := by
  intro f hf
  obtain ⟨line, -, cause, hcause⟩ := failsOnly_resume t e lines _ hf
  cases hcause

/-! ## counting in 32 bits -/

/-- More words than a line can take up. -/
def Line.bulk (line : Line) : Nat := line.operands.length + 65536

/-- More words than lines can take up, as far as their number and the length of their
operands tell. -/
def bulk : List Line → Nat
  | [] => 0
  | line :: rest => line.bulk + bulk rest

theorem bulk_append (xs ys : List Line) : bulk (xs ++ ys) = bulk xs + bulk ys := by
  induction xs with
  | nil => simp [bulk]
  | cons x xs ih => simp only [List.cons_append, bulk, ih, Nat.add_assoc]

theorem reports_addCounts {a b : Nat} : Reports (addCounts a b) ↔ a + b < 4294967296 := by
  unfold addCounts
  split <;> simp_all [Reports]

namespace Scan

variable {s s' : Scan} {line : Line} {operation : Operation} {n : Nat}

theorem reports_words (s : Scan) (operation : Operation)
    (h : line.operands.length + 1 < 4294967296) : Reports (s.words line operation) := by
  have hblock : FailsOnly line.IsBlamed (s.words line (.directive .blkw)) := by
    simp [words]
  unfold words
  split
  · simp
  · rw [reports_addCounts, String.length_toList]
    omega
  · exact reports_of_blamed hblock
  · simp

theorem words_lt_bulk (h : s.words line operation = .ok n) : n + 1 ≤ line.bulk := by
  unfold words at h
  split at h
  · rw [← Except.ok.inj h, Opcode.words, Line.bulk]
    omega
  · rw [addCounts_eq_ok, String.length_toList] at h
    rw [Line.bulk]
    omega
  · simp only [bind_eq_ok, pure_eq_ok] at h
    obtain ⟨value, -, count, -, rfl⟩ := h
    have := count.toNat_lt
    rw [Line.bulk]
    omega
  · next d _ _ =>
    rw [← Except.ok.inj h, Line.bulk]
    cases d <;> simp [Directive.fixedWords]

/-- A line adds at most one literal. -/
theorem length_literals_of_collect (h : s.collect line operation = .ok s') :
    s'.literals.length ≤ s.literals.length + 1 := by
  unfold collect at h
  split at h
  · cases h
    omega
  · split at h
    · cases h
      omega
    · next token _ =>
      simp only at h
      split at h
      · simp at h
      · cases h
        unfold Names.declare
        split <;> simp

/-- A scan of a line that its counters have room for. -/
theorem reports_line (s : Scan) (line : Line)
    (h : s.length + line.bulk + 65536 ≤ 4294967296) : Reports (s.line line) := by
  unfold Scan.line
  split
  · exact reports_of_blamed (line.failsOnly_fail _)
  · next operation hop =>
    rw [reports_bind]
    refine ⟨reports_of_blamed (failsOnly_define _ line operation), fun s₁ hdef => ?_⟩
    rw [reports_bind]
    refine ⟨reports_of_blamed (failsOnly_collect s₁ line operation), fun s₂ hcol => ?_⟩
    rw [reports_bind]
    have hlength : s₂.length = s.length := (counters_eq hdef hcol).2
    refine ⟨reports_words s₂ operation ?_, fun n hwords => ?_⟩
    · rw [Line.bulk] at h
      omega
    · have hn := words_lt_bulk hwords
      have hlocation := s₂.location.toNat_lt
      simp only [advance, reports_bind, reports_addCounts, addCounts_eq_ok, reports_pure,
        implies_true, and_true]
      refine ⟨?_, fun _ _ => ?_⟩
      · omega
      · omega

/-- Words and literals together take up no more than the bulk of the line. -/
theorem line_bulk (h : s.line line = .ok s') :
    s'.length + s'.literals.length ≤ s.length + s.literals.length + line.bulk := by
  obtain ⟨operation, s₁, s₂, n, -, hdef, hcol, hwords, hadv⟩ := line_eq_ok.mp h
  have hn := words_lt_bulk hwords
  have hliterals := length_literals_of_collect hcol
  have hs₁ := (define_ok hdef).2
  rw [declare_eq] at hs₁
  have hs₂ := collect_ok hcol
  obtain ⟨-, -, rfl⟩ := advance_eq_ok.mp hadv
  rw [hs₂]
  rw [hs₁] at hliterals ⊢
  simp only at hliterals ⊢
  omega

theorem lines_bulk {lines : List Line} (h : s.lines lines = .ok s') :
    s'.length + s'.literals.length ≤ s.length + s.literals.length + bulk lines := by
  induction lines generalizing s with
  | nil =>
      cases h
      simp [bulk]
  | cons line rest ih =>
      obtain ⟨s₁, hline, hrest⟩ := lines_cons_eq_ok.mp h
      have hfirst := line_bulk hline
      have hothers := ih hrest
      rw [bulk]
      omega

/-- A scan of lines that its counters have room for. -/
theorem reports_lines (s : Scan) (lines : List Line)
    (h : s.length + s.literals.length + bulk lines + 65536 ≤ 4294967296) :
    Reports (s.lines lines) := by
  induction lines generalizing s with
  | nil => simp [Scan.lines]
  | cons line rest ih =>
      rw [bulk] at h
      simp only [Scan.lines, reports_bind]
      refine ⟨reports_line s line (by omega), fun s₁ hline => ih s₁ ?_⟩
      have := line_bulk hline
      omega

end Scan

theorem LiteralTable.size_allocate_le (t : LiteralTable) (base : UInt16) (tokens : List String) :
    (allocate t base tokens).1.size ≤ t.size + tokens.length := by
  induction tokens generalizing t base with
  | nil => simp [allocate]
  | cons token tokens ih =>
      rw [allocate, List.length_cons]
      split
      · have := ih t base
        omega
      · next hnew =>
        have hrest := ih (t.insert token base) (base + 1)
        have hsize : (t.insert token base).size = t.size + 1 := by
          simp [Table.insert, Table.size, hnew]
        omega

/-- The layout of lines that its counters have room for. -/
theorem Layout.reports_ofLines {first : Line} {body : List Line} {last : Line}
    (h : bulk (first :: (body ++ [last])) < 4294967296) :
    Reports (ofLines (first :: (body ++ [last]))) := by
  have hbulk : bulk body + 65536 ≤ 4294967296 := by
    simp only [bulk, bulk_append, Line.bulk, Nat.add_zero] at h
    omega
  have horigin := reports_of_blamed (Emitter.failsOnly_origin first.admits_isBlamed)
  simp only [ofLines, List.head?_cons, inner_segment, reports_bind, horigin, true_and]
  intro origin _
  refine ⟨Scan.reports_lines _ body ?_, fun s hscan => ?_⟩
  · simp only [Scan.start, List.length_nil]
    omega
  · have hcount := Scan.lines_bulk hscan
    have hpool := LiteralTable.size_allocate_le .empty s.location s.literals
    have hempty : (Table.empty : LiteralTable).size = 0 := rfl
    rw [hempty] at hpool
    simp only [Scan.start, List.length_nil] at hcount
    simp only [ofScan, reports_bind, reports_addCounts, reports_pure, implies_true, and_true]
    omega

/-! ## where emission ends -/

/-- The last `.ORIG` among some lines. -/
theorem exists_last_orig {lines : List Line}
    (h : ∃ line ∈ lines, line.operation? = some (.directive .orig)) :
    ∃ before line after, lines = before ++ line :: after ∧
      line.operation? = some (.directive .orig) ∧
      ∀ other ∈ after, other.operation? ≠ some (.directive .orig) := by
  induction lines with
  | nil => simp at h
  | cons first rest ih =>
      by_cases hrest : ∃ line ∈ rest, line.operation? = some (.directive .orig)
      · obtain ⟨before, line, after, rfl, hline, hafter⟩ := ih hrest
        exact ⟨first :: before, line, after, rfl, hline, hafter⟩
      · refine ⟨[], first, rest, rfl, ?_, fun other hmem hop => hrest ⟨other, hmem, hop⟩⟩
        obtain ⟨line, hmem, hop⟩ := h
        cases hmem with
        | head => exact hop
        | tail _ hmem => exact absurd ⟨line, hmem, hop⟩ hrest

namespace Layout

/-- The last `.ORIG` in the body gives another address than the one that the layout has
reached in front of it. -/
def IsDisplaced (t : Layout) (body : List Line) : Prop :=
  ∃ before line after, body = before ++ line :: after ∧
    line.operation? = some (.directive .orig) ∧
    (∀ other ∈ after, other.operation? ≠ some (.directive .orig)) ∧
    line.origin ≠ .ok (t.origin + UInt16.ofNat (t.extent before))

variable {t : Layout} {first last : Line} {body : List Line} {c : UInt16}

/-- A run ends where the code does exactly if the last `.ORIG` in the body gives the
address that the layout has reached there: both count on in the same way behind it. -/
theorem codeEnd_iff_of_last_orig {before after : List Line} {line : Line}
    (laid : ofLines (first :: (before ++ line :: after ++ [last])) = .ok t)
    (ran : (Run.ofLines t (first :: (before ++ line :: after ++ [last]))).outcome = .ok c)
    (orig : line.operation? = some (.directive .orig))
    (inner : ∀ other ∈ after, other.operation? ≠ some (.directive .orig)) :
    c = t.codeEnd ↔ line.origin = .ok (t.origin + UInt16.ofNat (t.extent before)) := by
  rw [Run.ofLines, ← List.cons_append, ← List.cons_append] at ran
  obtain ⟨outs, e, pool, out, e', hsteps, -, -, rfl, -⟩ := Run.resume_ok ran
  obtain ⟨e₁, outs₁, outs₂, -, -, hrest⟩ := hsteps.of_append
  cases hrest with
  | cons head tail =>
      obtain ⟨origin, horigin, -, -, rfl, -⟩ := head.of_orig orig
      have hend : e.location = origin + UInt16.ofNat (t.extent after) := tail.location inner
      have hsize : t.size line = 0 := size_of_control orig rfl
      rw [hend, codeEnd_eq laid, extent_append, extent, hsize, Nat.zero_add, UInt16.ofNat_add,
        ← UInt16.add_assoc, UInt16.add_left_inj, horigin, Except.ok.injEq]

/-- A run ends somewhere else than the code exactly if the body is displaced. -/
theorem ne_codeEnd_iff (orig : first.operation? = some (.directive .orig))
    (laid : ofLines (first :: (body ++ [last])) = .ok t)
    (ran : (Run.ofLines t (first :: (body ++ [last]))).outcome = .ok c) :
    c ≠ t.codeEnd ↔ t.IsDisplaced body := by
  constructor
  · intro hne
    by_cases hinner : ∃ line ∈ body, line.operation? = some (.directive .orig)
    · obtain ⟨before, line, after, rfl, hline, hafter⟩ := exists_last_orig hinner
      refine ⟨before, line, after, rfl, hline, hafter, fun horigin => hne ?_⟩
      exact (codeEnd_iff_of_last_orig laid ran hline hafter).mpr horigin
    · -- the first line is the only `.ORIG`, and the layout starts at its operand
      exfalso
      apply hne
      rw [Run.ofLines, ← List.cons_append] at ran
      obtain ⟨outs, e, pool, out, e', hsteps, -, -, rfl, -⟩ := Run.resume_ok ran
      obtain ⟨-, operand, -, -⟩ := ofLines_ok laid
      rw [codeEnd_eq laid]
      exact hsteps.location_of_orig orig (fun line hmem hop => hinner ⟨line, hmem, hop⟩) operand
  · intro h
    obtain ⟨before, line, after, rfl, hline, hafter, hdisplaced⟩ := h
    intro heq
    exact hdisplaced ((codeEnd_iff_of_last_orig laid ran hline hafter).mp heq)

end Layout

/-! ## faults -/

/-- An assembly ends in a fault if its layout does, or if emission ends at another
location. -/
theorem attempt_eq_fault {lines : List Line} {f : Fault} :
    (attempt lines).outcome = .error (.fault f) ↔
      Layout.ofLines lines = .error (.fault f) ∨
        ∃ t c, Layout.ofLines lines = .ok t ∧ (Run.ofLines t lines).outcome = .ok c ∧
          c ≠ t.codeEnd ∧ f = .locationMismatch := by
  unfold attempt
  cases hl : Layout.ofLines lines with
  | error e => simp [Run.stop]
  | ok t =>
      have hreports := Run.reports_resume t (Emitter.start t) lines
      cases hr : (Run.ofLines t lines).outcome with
      | error e =>
          rw [Run.ofLines] at hr
          rw [hr] at hreports
          have hne : e ≠ .fault f := fun he => hreports f (he ▸ rfl)
          simp [Run.check, Run.ofLines, hr, Except.bind, hne]
      | ok c =>
          by_cases hc : c = t.codeEnd
          · simp [Run.check, hr, Except.bind, Layout.confirm, hc]
          · simp [Run.check, hr, Except.bind, Layout.confirm, hc, eq_comm]

/-- Source text whose lines are few and short enough to be counted in 32 bits ends in a
fault exactly if nothing else is wrong with it and the last `.ORIG` between its first line
and its last gives another address than the one that the layout has reached there. -/
theorem fault_iff_displaced_orig {source : String}
    (small : ∀ lines, SourceText.read source = .ok lines → bulk lines < 4294967296) (f : Fault) :
    assembleSource source = .error (.fault f) ↔
      f = .locationMismatch ∧ ∃ lines t c, SourceText.read source = .ok lines ∧
        Layout.ofLines lines = .ok t ∧ (Run.ofLines t lines).outcome = .ok c ∧
        t.IsDisplaced (Layout.inner lines) := by
  cases hread : SourceText.read source with
  | error d =>
      rw [assembleSource, hread]
      constructor
      · intro h
        cases h
      · intro h
        obtain ⟨-, lines, t, c, hlines, -⟩ := h
        cases hlines
  | ok lines =>
      obtain ⟨first, body, last, orig, close⟩ := SourceText.isFramed_of_read hread
      have hlayout := Layout.reports_ofLines (small _ hread)
      have hfault : assembleSource source = .error (.fault f) ↔
          (attempt (first :: (body ++ [last]))).outcome = .error (.fault f) := by
        rw [assembleSource_of_read hread]
        cases (attempt (first :: (body ++ [last]))).outcome <;> simp [Except.map]
      rw [hfault, attempt_eq_fault]
      constructor
      · intro h
        obtain h | ⟨t, c, laid, ran, hne, rfl⟩ := h
        · exact absurd h (hlayout f)
        · refine ⟨rfl, _, t, c, rfl, laid, ran, ?_⟩
          rw [Layout.inner_segment]
          exact (Layout.ne_codeEnd_iff orig laid ran).mp hne
      · intro h
        obtain ⟨rfl, lines, t, c, hlines, laid, ran, hdisplaced⟩ := h
        cases hlines
        rw [Layout.inner_segment] at hdisplaced
        exact .inr ⟨t, c, laid, ran, (Layout.ne_codeEnd_iff orig laid ran).mpr hdisplaced, rfl⟩

/-- Source text with an `.ORIG` in between, for an address that no word has led up to. -/
def displacedOrig : String := "P        .ORIG    x3000\n         .ORIG    x4000\n         .END\n"

/-- It is read, its layout and its emission succeed, and then these do not agree. -/
theorem locationMismatch_of_displacedOrig :
    assembleSource displacedOrig = .error (.fault .locationMismatch) := by
  rfl

theorem fault_iff_displaced_orig_displacedOrig :
    ∃ lines t c, SourceText.read displacedOrig = .ok lines ∧ Layout.ofLines lines = .ok t ∧
      (Run.ofLines t lines).outcome = .ok c ∧ t.IsDisplaced (Layout.inner lines) := by
  have small : ∀ lines, SourceText.read displacedOrig = .ok lines → bulk lines < 4294967296 := by
    intro lines hread
    cases hread
    decide
  exact ((fault_iff_displaced_orig small .locationMismatch).mp rfl).2

end PageAsm
