import PageAsm.Proofs.Fault

/-!
# PageAsm.Proofs.WordCount

When the layout cannot count the words of a segment.  The count has 32 bits,
and nothing limits it before the first line is emitted:

```
lines in between        words at most      counted
up to 65535             2 ^ 32 - 1         always, and too many are reported
65537 largest blocks    2 ^ 32 - 1         so are these
65538 largest blocks    2 ^ 32 + 65534     no: a fault
```

where no operand field is longer than memory.  `Scan.tally` scans with a count
that has no limit; the scan of the layout is the same until that count leaves
32 bits, and ends in a fault there (`Scan.lines_of_tally`).  Neither the
location, which wraps around memory before it can, nor the length of a string
ever overflows.
-/

namespace PageAsm

open Outcome

/-- The operands of the line have fewer characters than memory has words. -/
def Line.IsShort (line : Line) : Prop := line.operands.length < 65536

instance (line : Line) : Decidable line.IsShort := inferInstanceAs (Decidable (_ < _))

namespace Scan

/-! ## counting without a limit -/

/-- What a line does to the names and literals, and the words it takes up. -/
def measure (s : Scan) (line : Line) : Except Failure (Scan × Nat) :=
  match line.operation? with
  | none => line.fail (.unknownOperation line.mnemonic)
  | some operation => do
    let s ← (s.declare line operation).define line operation
    let s ← s.collect line operation
    let words ← s.words line operation
    return (s, words)

/-- The scan some words further on, with a count that has no limit. -/
def leap (s : Scan) (words : Nat) : Scan :=
  { s with length := s.length + words, location := s.location + UInt16.ofNat words }

/-- Scan several lines in order, with a count that has no limit. -/
def tally : Scan → List Line → Except Failure Scan
  | s, [] => .ok s
  | s, line :: rest => do
    let (s, words) ← s.measure line
    (s.leap words).tally rest

variable {s s' : Scan} {line : Line} {operation : Operation} {lines : List Line} {n : Nat}

@[simp] theorem length_leap (s : Scan) (n : Nat) : (s.leap n).length = s.length + n := rfl

@[simp] theorem literals_leap (s : Scan) (n : Nat) : (s.leap n).literals = s.literals := rfl

theorem line_eq (s : Scan) (line : Line) :
    s.line line = s.measure line >>= fun m => m.1.advance m.2 := by
  unfold Scan.line measure
  cases line.operation? with
  | none => rfl
  | some operation => simp only [bind_assoc, pure_bind]

theorem advance_eq (h : s.location.toNat + n < 4294967296) :
    s.advance n =
      if s.length + n < 4294967296 then .ok (s.leap n) else .error (.fault .countOverflow) := by
  split
  · next hlength => exact advance_eq_ok.mpr ⟨hlength, h, rfl⟩
  · next hlength =>
    rw [advance, addCounts, if_neg hlength]
    rfl

/-! ## one line -/

theorem words_le (short : line.IsShort) (h : s.words line operation = .ok n) : n ≤ 65536 := by
  unfold Line.IsShort at short
  unfold words at h
  split at h
  · rw [← Except.ok.inj h, Opcode.words]
    decide
  · rw [addCounts_eq_ok, String.length_toList] at h
    omega
  · simp only [bind_eq_ok, pure_eq_ok] at h
    obtain ⟨value, -, count, -, rfl⟩ := h
    exact Nat.le_of_lt count.toNat_lt
  · next d _ _ =>
    rw [← Except.ok.inj h]
    cases d <;> decide

/-- Measuring a line moves no counter. -/
theorem measure_ok (short : line.IsShort) (h : s.measure line = .ok (s', n)) :
    s'.location = s.location ∧ s'.length = s.length ∧
      s'.literals.length ≤ s.literals.length + 1 ∧ n ≤ 65536 := by
  unfold measure at h
  split at h
  · cases h
  · next operation hop =>
    simp only [bind_eq_ok, pure_eq_ok, Prod.mk.injEq] at h
    obtain ⟨s₁, hdef, s₂, hcol, words, hwords, rfl, rfl⟩ := h
    obtain ⟨hlocation, hlength⟩ := counters_eq hdef hcol
    have hliterals : s₁.literals = s.literals := by
      rw [(define_ok hdef).2, declare_eq]
    have hcollect := length_literals_of_collect hcol
    rw [hliterals] at hcollect
    exact ⟨hlocation, hlength, hcollect, words_le short hwords⟩

/-- Measuring a line never ends in a fault. -/
theorem reports_measure (s : Scan) (short : line.IsShort) : Reports (s.measure line) := by
  unfold measure
  split
  · exact reports_of_blamed (line.failsOnly_fail _)
  · next operation hop =>
    simp only [reports_bind, reports_pure, implies_true, and_true]
    refine ⟨reports_of_blamed (failsOnly_define _ line operation), fun s₁ _ => ?_⟩
    refine ⟨reports_of_blamed (failsOnly_collect s₁ line operation), fun s₂ _ => ?_⟩
    unfold Line.IsShort at short
    exact reports_words s₂ operation (by omega)

/-- The limit is all that a scan adds to the measure of a line. -/
theorem line_of_measure (short : line.IsShort) (h : s.measure line = .ok (s', n)) :
    s.line line =
      if s.length + n < 4294967296 then .ok (s'.leap n) else .error (.fault .countOverflow) := by
  obtain ⟨-, hlength, -, hn⟩ := measure_ok short h
  have hlocation := s'.location.toNat_lt
  have hadvance : s.line line = s'.advance n := by
    rw [line_eq, h]
    rfl
  rw [hadvance, advance_eq (by omega), hlength]

/-! ## several lines -/

theorem tally_cons_eq_ok {rest : List Line} :
    s.tally (line :: rest) = .ok s' ↔
      ∃ s₁ n, s.measure line = .ok (s₁, n) ∧ (s₁.leap n).tally rest = .ok s' := by
  simp only [tally, bind_eq_ok, Prod.exists]

/-- The count without a limit only grows, and by no more than a line and a literal can take up. -/
theorem tally_bounds (short : ∀ line ∈ lines, line.IsShort) (h : s.tally lines = .ok s') :
    s.length ≤ s'.length ∧
      s'.length + s'.literals.length ≤ s.length + s.literals.length + 65537 * lines.length := by
  induction lines generalizing s with
  | nil =>
      cases h
      simp
  | cons line rest ih =>
      obtain ⟨hshort, hothers⟩ := List.forall_mem_cons.mp short
      obtain ⟨s₁, n, hmeasure, hrest⟩ := tally_cons_eq_ok.mp h
      obtain ⟨-, hlength, hliterals, hn⟩ := measure_ok hshort hmeasure
      obtain ⟨hlow, hhigh⟩ := ih hothers hrest
      simp only [length_leap, literals_leap, List.length_cons] at hlow hhigh ⊢
      omega

/-- Where the count without a limit is in 32 bits at the end, it has been all the way. -/
theorem lines_of_tally (short : ∀ line ∈ lines, line.IsShort) (h : s.tally lines = .ok s')
    (hs : s.length < 4294967296) :
    s.lines lines =
      if s'.length < 4294967296 then .ok s' else .error (.fault .countOverflow) := by
  induction lines generalizing s with
  | nil =>
      cases h
      rw [if_pos hs]
      rfl
  | cons line rest ih =>
      obtain ⟨hshort, hothers⟩ := List.forall_mem_cons.mp short
      obtain ⟨s₁, n, hmeasure, hrest⟩ := tally_cons_eq_ok.mp h
      have hlength : (s₁.leap n).length = s.length + n := by
        rw [length_leap, (measure_ok hshort hmeasure).2.1]
      rw [Scan.lines, line_of_measure hshort hmeasure]
      split
      · next hfits => exact ih hothers hrest (by rw [hlength]; exact hfits)
      · next hover =>
        have hgrows := (tally_bounds hothers hrest).1
        rw [if_neg (by omega)]
        rfl

/-- A scan without a fault is the same without a limit. -/
theorem tally_of_lines (short : ∀ line ∈ lines, line.IsShort) (h : s.lines lines = .ok s') :
    s.tally lines = .ok s' := by
  induction lines generalizing s with
  | nil => exact h
  | cons line rest ih =>
      obtain ⟨hshort, hothers⟩ := List.forall_mem_cons.mp short
      obtain ⟨s₁, hline, hrest⟩ := lines_cons_eq_ok.mp h
      rw [line_eq] at hline
      obtain ⟨⟨s₂, n⟩, hmeasure, -⟩ := bind_eq_ok.mp hline
      rw [← line_eq, line_of_measure hshort hmeasure] at hline
      split at hline
      · cases hline
        exact tally_cons_eq_ok.mpr ⟨s₂, n, hmeasure, ih hothers hrest⟩
      · cases hline

/-- A count that passes 32 bits anywhere ends the scan in a fault. -/
theorem lines_overflow {before : List Line} (short : ∀ line ∈ lines, line.IsShort)
    (hs : s.length < 4294967296) (hbefore : before <+: lines) (h : s.tally before = .ok s')
    (hover : 4294967296 ≤ s'.length) : s.lines lines = .error (.fault .countOverflow) := by
  obtain ⟨after, rfl⟩ := hbefore
  have hfault := lines_of_tally (fun line hmem => short line (List.mem_append_left _ hmem)) h hs
  rw [if_neg (by omega)] at hfault
  rw [lines_append, hfault]
  rfl

/-- A count that passes 32 bits nowhere lets the scan report. -/
theorem reports_lines_of_fits (short : ∀ line ∈ lines, line.IsShort)
    (h : ∀ before s', before <+: lines → s.tally before = .ok s' → s'.length < 4294967296) :
    Reports (s.lines lines) := by
  induction lines generalizing s with
  | nil => exact reports_ok s
  | cons line rest ih =>
      obtain ⟨hshort, hothers⟩ := List.forall_mem_cons.mp short
      rw [Scan.lines, reports_bind]
      have hreports := reports_measure s hshort
      cases hmeasure : s.measure line with
      | error f =>
          have hline : s.line line = .error f := by
            rw [line_eq, hmeasure]
            rfl
          rw [hline]
          refine ⟨fun g hg => hreports g ?_, fun s₁ hs₁ => ?_⟩
          · cases hg
            exact hmeasure
          · cases hs₁
      | ok m =>
          obtain ⟨s₁, n⟩ := m
          have hline := line_of_measure hshort hmeasure
          have hfits := h [line] (s₁.leap n) ⟨rest, rfl⟩
            (tally_cons_eq_ok.mpr ⟨s₁, n, hmeasure, rfl⟩)
          rw [length_leap, (measure_ok hshort hmeasure).2.1] at hfits
          rw [hline, if_pos hfits]
          refine ⟨reports_ok _, fun s₂ hs₂ => ?_⟩
          cases hs₂
          refine ih hothers fun before s' hbefore htally => ?_
          exact h (line :: before) s' (List.cons_prefix_cons.mpr ⟨rfl, hbefore⟩)
            (tally_cons_eq_ok.mpr ⟨s₁, n, hmeasure, htally⟩)

end Scan

/-! ## the layout -/

namespace Layout

/-- The words of a segment do not fit in 32 bits.  Up to where they pass these, nothing is
wrong with its lines. -/
inductive Overflows (lines : List Line) : Prop where
  /-- The words of the first lines do not fit. -/
  | code {origin : UInt16} {before : List Line} {s : Scan}
      (load : ∀ first ∈ lines.head?, first.origin = .ok origin)
      (earlier : before <+: inner lines)
      (counted : (Scan.start origin).tally before = .ok s)
      (exceeds : 4294967296 ≤ s.length)
  /-- The words of all lines and the literals do not fit. -/
  | pool {origin : UInt16} {s : Scan}
      (load : ∀ first ∈ lines.head?, first.origin = .ok origin)
      (counted : (Scan.start origin).tally (inner lines) = .ok s)
      (exceeds : 4294967296 ≤
        s.length + (LiteralTable.allocate .empty s.location s.literals).1.size)

variable {lines rest : List Line} {first : Line} {origin : UInt16} {s : Scan} {t : Layout}

theorem isShort_of_mem_inner (short : ∀ line ∈ lines, line.IsShort) :
    ∀ line ∈ inner lines, line.IsShort :=
  fun line hmem => short line (mem_of_mem_inner hmem)

theorem start_fits (origin : UInt16) : (Scan.start origin).length < 4294967296 :=
  Nat.zero_lt_succ _

theorem ofLines_of_origin (load : first.origin = .ok origin) :
    ofLines (first :: rest) =
      (Scan.start origin).lines (inner (first :: rest)) >>= ofScan origin := by
  simp only [ofLines, List.head?_cons, load]
  rfl

theorem ofScan_overflow
    (h : 4294967296 ≤ s.length + (LiteralTable.allocate .empty s.location s.literals).1.size) :
    ofScan origin s = .error (.fault .countOverflow) := by
  simp only [ofScan, addCounts, if_neg (Nat.not_lt.mpr h)]
  rfl

/-- Fewer lines than memory has words never take up too many. -/
theorem not_overflows_of_length (short : ∀ line ∈ lines, line.IsShort)
    (h : (inner lines).length < 65536) : ¬ Overflows lines := by
  have hinner := isShort_of_mem_inner short
  rintro (⟨-, earlier, counted, exceeds⟩ | ⟨-, counted, exceeds⟩)
  · have hbefore := fun line hmem => hinner line (earlier.subset hmem)
    have hbounds := (Scan.tally_bounds hbefore counted).2
    have hlength := earlier.length_le
    simp only [Scan.start, List.length_nil] at hbounds
    omega
  · next origin s =>
    have hbounds := (Scan.tally_bounds hinner counted).2
    have hpool := LiteralTable.size_allocate_le .empty s.location s.literals
    have hempty : (Table.empty : LiteralTable).size = 0 := rfl
    simp only [Scan.start, List.length_nil] at hbounds
    omega

theorem ofLines_of_overflows (short : ∀ line ∈ lines, line.IsShort) (h : Overflows lines) :
    ofLines lines = .error (.fault .countOverflow) := by
  cases lines with
  | nil => exact absurd h (not_overflows_of_length short (by decide))
  | cons first rest =>
      have hinner := isShort_of_mem_inner short
      cases h with
      | code load earlier counted exceeds =>
          rw [ofLines_of_origin (load first rfl),
            Scan.lines_overflow hinner (start_fits _) earlier counted exceeds]
          rfl
      | @pool origin s load counted exceeds =>
          rw [ofLines_of_origin (load first rfl), Scan.lines_of_tally hinner counted (start_fits _)]
          split
          · exact ofScan_overflow exceeds
          · rfl

theorem reports_of_not_overflows (short : ∀ line ∈ lines, line.IsShort) (h : ¬ Overflows lines) :
    Reports (ofLines lines) := by
  cases lines with
  | nil => exact reports_ok _
  | cons first rest =>
      have hinner := isShort_of_mem_inner short
      have hreports := reports_of_blamed (Emitter.failsOnly_origin first.admits_isBlamed)
      simp only [ofLines, List.head?_cons, reports_bind]
      refine ⟨hreports, fun origin load => ⟨?_, fun s hscan => ?_⟩⟩
      all_goals
        have hload : ∀ line ∈ (first :: rest).head?, line.origin = .ok origin := by
          rintro line ⟨⟩
          exact load
      · refine Scan.reports_lines_of_fits hinner fun before s earlier counted => ?_
        exact Nat.not_le.mp fun exceeds => h (.code hload earlier counted exceeds)
      · simp only [ofScan, reports_bind, reports_addCounts, reports_pure, implies_true, and_true]
        have counted := Scan.tally_of_lines hinner hscan
        exact Nat.not_le.mp fun exceeds => h (.pool hload counted exceeds)

/-- The number of words in a layout is exact. -/
theorem length_eq (short : ∀ line ∈ lines, line.IsShort) (laid : ofLines lines = .ok t) :
    t.length = t.extent (inner lines) + t.literals.size := by
  obtain ⟨s, hscan, hplace⟩ := exists_scan_of_ofLines laid
  have hcode : s.length = t.extent (inner lines) := by
    rw [Scan.lines_length hscan (symbols_le_of_ofScan hplace)]
    · exact Nat.zero_add _
    · intro line hmem _
      exact Nat.lt_trans (isShort_of_mem_inner short line hmem) (by decide)
  rw [← hcode, (ofScan_eq_ok.mp hplace).2]

/-- A segment without lines in between is empty, and so never too large. -/
theorem rest_ne_nil (short : ∀ line ∈ first :: rest, line.IsShort)
    (laid : ofLines (first :: rest) = .ok t) (h : 0 < t.length) : rest ≠ [] := by
  rintro rfl
  obtain ⟨s, hscan, hplace⟩ := exists_scan_of_ofLines laid
  cases hscan
  rw [(ofScan_eq_ok.mp hplace).2] at h
  cases h

/-- The first line of a segment that is larger than memory is where this is reported. -/
theorem outcome_of_oversized (short : ∀ line ∈ first :: rest, line.IsShort)
    (orig : first.operation? = some (.directive .orig))
    (laid : ofLines (first :: rest) = .ok t) (h : 65535 < t.length) :
    (attempt (first :: rest)).outcome = first.fail (.segmentSize t.length false) := by
  obtain ⟨origin, load⟩ : ∃ origin, first.origin = .ok origin := by
    simp only [ofLines, List.head?_cons, bind_eq_ok] at laid
    obtain ⟨origin, load, -⟩ := laid
    exact ⟨origin, load⟩
  obtain ⟨second, others, rfl⟩ := List.exists_cons_of_ne_nil (rest_ne_nil short laid (by omega))
  have hstep : ∃ e', (Emitter.start t).step t first =
      (first.fail (.segmentSize t.length false), e') := by
    simp only [Emitter.step, orig, Emitter.emitOrig, load, if_pos h]
    exact ⟨_, rfl⟩
  obtain ⟨e', hstep⟩ := hstep
  simp only [attempt, laid, Run.ofLines, Run.resume, hstep]
  rfl

/-! ## blocks -/

/-- As many words as a block can have. -/
def block : Line := ⟨"", ".BLKW", "xFFFF", 2, .nowhere⟩

/-- A segment of the largest blocks. -/
def blocks (n : Nat) : List Line :=
  ⟨"P", ".ORIG", "x3000", 1, .nowhere⟩ ::
    (List.replicate n block ++ [⟨"", ".END", "", 3, .nowhere⟩])

theorem inner_blocks (n : Nat) : inner (blocks n) = List.replicate n block :=
  List.dropLast_concat

theorem isShort_of_mem_blocks (n : Nat) : ∀ line ∈ blocks n, line.IsShort := by
  intro line hmem
  simp only [blocks, List.mem_cons, List.mem_append, List.not_mem_nil, or_false] at hmem
  obtain rfl | hblock | rfl := hmem
  · decide
  · rw [List.eq_of_mem_replicate hblock]
    decide
  · decide

theorem measure_block (s : Scan) : s.measure block = .ok (s, 65535) := by
  rfl

theorem tally_blocks (s : Scan) (n : Nat) :
    ∃ s', s.tally (List.replicate n block) = .ok s' ∧ s'.length = s.length + 65535 * n ∧
      s'.literals = s.literals := by
  induction n generalizing s with
  | zero => exact ⟨s, rfl, rfl, rfl⟩
  | succ n ih =>
      obtain ⟨s', hrest, hlength, hliterals⟩ := ih (s.leap 65535)
      rw [List.replicate_succ]
      refine ⟨s', Scan.tally_cons_eq_ok.mpr ⟨s, 65535, measure_block s, hrest⟩, ?_, ?_⟩
      · rw [hlength, Scan.length_leap]
        omega
      · rw [hliterals, Scan.literals_leap]

theorem origin_of_mem_head? (n : Nat) :
    ∀ first ∈ (blocks n).head?, first.origin = .ok 0x3000 := by
  rintro first ⟨⟩
  rfl

/-- Blocks whose words fit in 32 bits are laid out. -/
theorem ofLines_blocks (n : Nat) (h : 65535 * n < 4294967296) :
    ∃ t, ofLines (blocks n) = .ok t ∧ t.length = 65535 * n := by
  obtain ⟨s, htally, hlength, hliterals⟩ := tally_blocks (Scan.start 0x3000) n
  have hcount : s.length = 65535 * n := by
    rw [hlength, Scan.start, Nat.zero_add]
  have hpool : (LiteralTable.allocate .empty s.location s.literals).1.size = 0 := by
    rw [hliterals]
    rfl
  have hscan : (Scan.start 0x3000).lines (inner (blocks n)) = .ok s := by
    rw [← inner_blocks] at htally
    rw [Scan.lines_of_tally (isShort_of_mem_inner (isShort_of_mem_blocks n)) htally (start_fits _),
      if_pos (by omega)]
  have hlaid : ofLines (blocks n) = ofScan 0x3000 s := by
    rw [blocks, ofLines_of_origin (origin_of_mem_head? n _ rfl), ← blocks, hscan]
    rfl
  refine ⟨_, hlaid.trans (ofScan_eq_ok.mpr ⟨by omega, rfl⟩), ?_⟩
  rw [hpool, hcount]
  rfl

/-- Blocks whose words do not fit in 32 bits overflow. -/
theorem overflows_blocks (n : Nat) (h : 4294967296 ≤ 65535 * n) : Overflows (blocks n) := by
  obtain ⟨s, htally, hlength, -⟩ := tally_blocks (Scan.start 0x3000) n
  have hcount : s.length = 65535 * n := by
    rw [hlength, Scan.start, Nat.zero_add]
  rw [← inner_blocks] at htally
  exact .code (origin_of_mem_head? n) (List.prefix_refl _) htally (by omega)

/-! ## the count -/

/-- The layout of lines whose operand fields are shorter than memory ends in a fault exactly
if their words overflow, which takes at least as many lines as memory has words.  Otherwise
the number of words is exact, and a segment that is larger than memory is reported. -/
theorem reports_unless_overflows (short : ∀ line ∈ lines, line.IsShort) :
    (ofLines lines = .error (.fault .countOverflow) ↔ Overflows lines) ∧
      (¬ Overflows lines → Reports (ofLines lines)) ∧
      ((inner lines).length < 65536 → ¬ Overflows lines) ∧
      ∀ t, ofLines lines = .ok t →
        t.length = t.extent (inner lines) + t.literals.size ∧
          ∀ first ∈ lines.head?, first.operation? = some (.directive .orig) →
            65535 < t.length →
              (attempt lines).outcome = first.fail (.segmentSize t.length false) := by
  refine ⟨⟨fun h => ?_, ofLines_of_overflows short⟩, reports_of_not_overflows short,
    not_overflows_of_length short, fun t laid => ⟨length_eq short laid, ?_⟩⟩
  · by_cases hover : Overflows lines
    · exact hover
    · exact absurd h (reports_of_not_overflows short hover .countOverflow)
  · intro first hfirst orig exceeds
    cases lines with
    | nil => cases hfirst
    | cons line rest =>
        cases hfirst
        exact outcome_of_oversized short orig laid exceeds

/-- The words of this many blocks just fit. -/
theorem reports_unless_overflows_blocks :
    (∀ line ∈ blocks 65537, line.IsShort) ∧
      ∃ t, ofLines (blocks 65537) = .ok t ∧ t.length = 4294967295 ∧
        (attempt (blocks 65537)).outcome = .error (.diagnostic
          (Line.diagnostic ⟨"P", ".ORIG", "x3000", 1, .nowhere⟩
            (.segmentSize 4294967295 false))) := by
  obtain ⟨t, laid, hlength⟩ := ofLines_blocks 65537 (by decide)
  refine ⟨isShort_of_mem_blocks _, t, laid, hlength, ?_⟩
  obtain ⟨-, -, -, hreported⟩ := reports_unless_overflows (isShort_of_mem_blocks 65537)
  rw [(hreported t laid).2 _ rfl (by decide) (by omega), hlength]
  rfl

/-- One block more overflows, and the segment is not reported. -/
theorem countOverflow_of_blocks :
    (∀ line ∈ blocks 65538, line.IsShort) ∧
      ofLines (blocks 65538) = .error (.fault .countOverflow) :=
  ⟨isShort_of_mem_blocks _,
    ofLines_of_overflows (isShort_of_mem_blocks _) (overflows_blocks _ (by decide))⟩

end Layout

end PageAsm
