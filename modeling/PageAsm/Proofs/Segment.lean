import PageAsm.Assembly
import PageAsm.Proofs.Extent
import PageAsm.Proofs.Step

/-!
# PageAsm.Proofs.Segment

Segments, and a successful assembly of one taken apart.  A segment is a list

```
first :: (body ++ [last])
```

of `.ORIG`, lines without another `.ORIG`, and `.END`.  When it is assembled

1. `body` is scanned, and the literal pool is placed behind it;
2. `first` opens the segment and writes the header record;
3. the lines of `body` are emitted one after the other (`Emitter.Steps`);
4. the pool and the end record are written for `last`.

`Assembled` collects what each of these steps has found and checked,
`assembled_of_attempt` gets it from the outcome of the whole, and
`assembled_of_parts` puts the steps together again.
-/

namespace PageAsm

open Outcome

/-- The lines of a segment: `.ORIG` first, `.END` last, no `.ORIG` in between. -/
inductive IsSegment : List Line → Prop where
  | intro (first : Line) (body : List Line) (last : Line)
      (orig : first.operation? = some (.directive .orig))
      (inner : ∀ line ∈ body, line.operation? ≠ some (.directive .orig))
      (close : last.operation? = some (.directive .end)) :
      IsSegment (first :: (body ++ [last]))

theorem Layout.inner_segment (first : Line) (body : List Line) (last : Line) :
    Layout.inner (first :: (body ++ [last])) = body := by
  simp [Layout.inner]

theorem getLast?_segment (first : Line) (body : List Line) (last : Line) :
    (first :: (body ++ [last])).getLast? = some last := by
  rw [← List.cons_append, List.getLast?_concat]

/-- Only the lines of the body can hold a string. -/
theorem countable_segment_iff {first : Line} {body : List Line} {last : Line}
    (orig : first.operation? = some (.directive .orig))
    (close : last.operation? = some (.directive .end)) :
    (∀ line ∈ first :: (body ++ [last]), line.IsCountable) ↔
      ∀ line ∈ body, line.IsCountable := by
  have hfirst : first.IsCountable := .of_ne (by simp [orig])
  have hlast : last.IsCountable := .of_ne (by simp [close])
  simp only [List.mem_cons, List.mem_append, List.not_mem_nil, or_false]
  grind

/-! ## emitting several lines -/

namespace Emitter

/-- Emit lines in order, up to the first that fails. -/
def emitLines (t : Layout) : Emitter → List Line → Except Failure (List Emission × Emitter)
  | e, [] => .ok ([], e)
  | e, line :: rest =>
    match e.step t line with
    | (.error f, _) => .error f
    | (.ok out, e) => do
      let (outs, e) ← e.emitLines t rest
      return (out :: outs, e)

/-- Lines that are emitted with success, one after the other. -/
inductive Steps (t : Layout) : Emitter → List Line → List Emission → Emitter → Prop where
  | nil {e : Emitter} : Steps t e [] [] e
  | cons {e e₁ e' : Emitter} {line : Line} {rest : List Line} {out : Emission}
      {outs : List Emission} (head : Step t e line out e₁) (tail : Steps t e₁ rest outs e') :
      Steps t e (line :: rest) (out :: outs) e'

variable {t : Layout} {e e' : Emitter}

theorem emitLines_ok_iff {lines : List Line} {outs : List Emission} :
    e.emitLines t lines = .ok (outs, e') ↔ Steps t e lines outs e' := by
  induction lines generalizing e outs with
  | nil =>
      constructor
      · intro h
        cases h
        exact .nil
      · intro h
        cases h
        rfl
  | cons line rest ih =>
      constructor
      · intro h
        rw [emitLines] at h
        rcases hs : e.step t line with ⟨f | out, e₁⟩
        · rw [hs] at h
          cases h
        · simp only [hs, bind_eq_ok, pure_eq_ok, Prod.mk.injEq] at h
          obtain ⟨⟨outs₁, e₂⟩, hrest, rfl, rfl⟩ := h
          exact .cons (step_ok_iff.mp hs) (ih.mp hrest)
      · intro h
        cases h with
        | cons head tail =>
            have hs := step_ok_iff.mpr head
            have hrest := ih.mpr tail
            simp only [emitLines, hs, hrest]
            rfl

theorem Steps.length_eq {lines : List Line} {outs : List Emission}
    (h : Steps t e lines outs e') : lines.length = outs.length := by
  induction h with
  | nil => rfl
  | cons head tail ih => simp [ih]

theorem Steps.exists_mem_zip {lines : List Line} {outs : List Emission} {line : Line}
    (h : Steps t e lines outs e') (hmem : line ∈ lines) : ∃ out, (line, out) ∈ lines.zip outs := by
  induction h with
  | nil => cases hmem
  | cons head tail ih =>
      cases hmem with
      | head => exact ⟨_, List.mem_cons_self⟩
      | tail _ hmem =>
          obtain ⟨out, hout⟩ := ih hmem
          exact ⟨out, List.mem_cons_of_mem _ hout⟩

/-- Lines that are emitted can be emitted in two parts. -/
theorem Steps.of_append {xs ys : List Line} {outs : List Emission}
    (h : Steps t e (xs ++ ys) outs e') :
    ∃ e₁ outs₁ outs₂, outs = outs₁ ++ outs₂ ∧ Steps t e xs outs₁ e₁ ∧ Steps t e₁ ys outs₂ e' := by
  induction xs generalizing e outs with
  | nil => exact ⟨e, [], outs, rfl, .nil, h⟩
  | cons line xs ih =>
      cases h with
      | cons head tail =>
          obtain ⟨e₁, outs₁, outs₂, rfl, hfirst, hrest⟩ := ih tail
          exact ⟨e₁, _, outs₂, rfl, .cons head hfirst, hrest⟩

theorem Steps.concat {lines : List Line} {outs : List Emission} {line : Line} {out : Emission}
    {e₁ : Emitter} (h : Steps t e lines outs e₁) (last : Step t e₁ line out e') :
    Steps t e (lines ++ [line]) (outs ++ [out]) e' := by
  induction h with
  | nil => exact .cons last .nil
  | cons head tail ih => exact .cons head (ih last)

/-- Every line with its output is one of the steps, taken in a state that has every
invariant of the steps. -/
theorem Steps.step_of_invariant {P : Emitter → Prop} {lines : List Line} {outs : List Emission}
    {line : Line} {out : Emission}
    (preserved : ∀ {e e' line out}, Step t e line out e' → P e → P e')
    (h : Steps t e lines outs e') (initially : P e) (hmem : (line, out) ∈ lines.zip outs) :
    ∃ e₁ e₂, P e₁ ∧ Step t e₁ line out e₂ := by
  induction h with
  | nil => cases hmem
  | cons head tail ih =>
      cases hmem with
      | head => exact ⟨_, _, initially, head⟩
      | tail _ hmem => exact ih (preserved head initially) hmem

/-- Every line with its output is the step behind the lines in front of it. -/
theorem Steps.exists_split {lines : List Line} {outs : List Emission} {line : Line}
    {out : Emission} (h : Steps t e lines outs e') (hmem : (line, out) ∈ lines.zip outs) :
    ∃ before after outs₁ e₁ e₂, lines = before ++ line :: after ∧ Steps t e before outs₁ e₁ ∧
      Step t e₁ line out e₂ := by
  induction h with
  | nil => cases hmem
  | cons head tail ih =>
      cases hmem with
      | head => exact ⟨[], _, [], _, _, rfl, .nil, head⟩
      | tail _ hmem =>
          obtain ⟨before, after, outs₁, e₁, e₂, rfl, hbefore, step⟩ := ih hmem
          exact ⟨_ :: before, after, _, e₁, e₂, rfl, .cons head hbefore, step⟩

/-- Every line with its output is one of the steps. -/
theorem Steps.step_of_mem_zip {lines : List Line} {outs : List Emission} {line : Line}
    {out : Emission} (h : Steps t e lines outs e') (hmem : (line, out) ∈ lines.zip outs) :
    ∃ e₁ e₂, Step t e₁ line out e₂ := by
  obtain ⟨e₁, e₂, -, step⟩ := h.step_of_invariant (P := fun _ => True) (fun _ _ => trivial)
    trivial hmem
  exact ⟨e₁, e₂, step⟩

end Emitter

/-! ## runs -/

namespace Run

variable {t : Layout} {e : Emitter}

/-- What is written for lines with their outputs. -/
def lineWrites : List Line → List Emission → List Write
  | line :: lines, out :: outs =>
    recordWrites line out ++ rowWrites line out ++ lineWrites lines outs
  | _, _ => []

/-- What is written for the last line, together with the literal pool. -/
def lastWrites (line : Line) (pool out : Emission) : List Write :=
  recordWrites line pool ++ (recordWrites line out ++ rowWrites line out ++ rowWrites line pool)

theorem mem_recordWrites {line other : Line} {out : Emission} {r : Record} :
    ⟨line, .record r⟩ ∈ recordWrites other out ↔ line = other ∧ r ∈ out.records := by
  simp only [recordWrites, List.mem_map, Write.mk.injEq, Item.record.injEq]
  grind

theorem not_mem_rowWrites {line other : Line} {out : Emission} {r : Record} :
    ⟨line, .record r⟩ ∉ rowWrites other out := by
  simp [rowWrites]

/-- A record is written for a line if it is in the output of that line. -/
theorem mem_lineWrites {lines : List Line} {outs : List Emission} {line : Line} {r : Record} :
    ⟨line, .record r⟩ ∈ lineWrites lines outs ↔
      ∃ out, (line, out) ∈ lines.zip outs ∧ r ∈ out.records := by
  induction lines generalizing outs with
  | nil => simp [lineWrites]
  | cons first lines ih =>
      cases outs with
      | nil => simp [lineWrites]
      | cons out outs =>
          simp only [lineWrites, List.mem_append, mem_recordWrites, not_mem_rowWrites, or_false,
            ih, List.zip_cons_cons, List.mem_cons, Prod.mk.injEq]
          grind

theorem eq_of_mem_lastWrites {line other : Line} {pool out : Emission} {r : Record}
    (h : ⟨line, .record r⟩ ∈ lastWrites other pool out) : line = other := by
  simp only [lastWrites, List.mem_append, mem_recordWrites, not_mem_rowWrites] at h
  grind

theorem filterMap_recordWrites (line : Line) (out : Emission) :
    (recordWrites line out).filterMap (fun w => w.item.record?) = out.records := by
  rw [recordWrites, List.filterMap_map]
  exact List.filterMap_some

theorem filterMap_rowWrites (line : Line) (out : Emission) :
    (rowWrites line out).filterMap (fun w => w.item.record?) = [] := by
  rw [rowWrites, List.filterMap_map]
  exact List.filterMap_eq_nil_iff.mpr fun _ _ => rfl

theorem filterMap_lineWrites {lines : List Line} {outs : List Emission}
    (h : lines.length = outs.length) :
    (lineWrites lines outs).filterMap (fun w => w.item.record?) =
      outs.flatMap Emission.records := by
  induction lines generalizing outs with
  | nil =>
      cases outs with
      | nil => rfl
      | cons out outs => simp at h
  | cons line lines ih =>
      cases outs with
      | nil => simp at h
      | cons out outs =>
          have hlen : lines.length = outs.length := by simpa using h
          simp only [lineWrites, List.filterMap_append, filterMap_recordWrites,
            filterMap_rowWrites, List.append_nil, ih hlen, List.flatMap_cons]

theorem filterMap_lastWrites (line : Line) (pool out : Emission) :
    (lastWrites line pool out).filterMap (fun w => w.item.record?) =
      pool.records ++ out.records := by
  simp only [lastWrites, List.filterMap_append, filterMap_recordWrites, filterMap_rowWrites,
    List.append_nil]

/-- A run that succeeds over a last line has its pool and its output. -/
theorem last_ok {line : Line} {c : UInt16} (h : (last t e line).outcome = .ok c) :
    ∃ pool out e', t.pool line = .ok pool ∧ Emitter.Step t e line out e' ∧ c = e.location ∧
      (last t e line).writes = lastWrites line pool out := by
  unfold last at h ⊢
  cases hp : t.pool line with
  | error f =>
      rw [hp] at h
      cases h
  | ok pool =>
      rcases hs : e.step t line with ⟨f | out, e'⟩
      · simp only [hp, hs, outcome_after, stop] at h
        cases h
      · simp only [hp, hs, outcome_after, Except.ok.injEq] at h
        exact ⟨pool, out, e', rfl, Emitter.step_ok_iff.mp hs, h.symm, rfl⟩

theorem resume_cons {line : Line} {rest : List Line} (h : rest ≠ []) :
    resume t e (line :: rest) =
      match e.step t line with
      | (.error f, _) => stop f
      | (.ok out, e) => after (recordWrites line out ++ rowWrites line out) (resume t e rest) := by
  cases rest with
  | nil => contradiction
  | cons next rest => rfl

/-- A run that succeeds emits all lines, then the pool and the last line. -/
theorem resume_ok {body : List Line} {line : Line} {c : UInt16}
    (h : (resume t e (body ++ [line])).outcome = .ok c) :
    ∃ outs e' pool out e'', Emitter.Steps t e body outs e' ∧ t.pool line = .ok pool ∧
      Emitter.Step t e' line out e'' ∧ c = e'.location ∧
      (resume t e (body ++ [line])).writes = lineWrites body outs ++ lastWrites line pool out := by
  induction body generalizing e with
  | nil =>
      obtain ⟨pool, out, e', hp, hs, hc, hw⟩ := last_ok h
      exact ⟨[], e, pool, out, e', .nil, hp, hs, hc, hw⟩
  | cons next body ih =>
      have hne : body ++ [line] ≠ [] := by simp
      rw [List.cons_append, resume_cons hne] at h ⊢
      rcases hs : e.step t next with ⟨f | out₁, e₁⟩
      · simp only [hs, stop] at h
        cases h
      · simp only [hs, outcome_after] at h
        obtain ⟨outs, e', pool, out, e'', hsteps, hp, hlast, hc, hw⟩ := ih h
        refine ⟨out₁ :: outs, e', pool, out, e'', ?_, hp, hlast, hc, ?_⟩
        · exact .cons (Emitter.step_ok_iff.mp hs) hsteps
        · simp only [after, hw, lineWrites, List.append_assoc]

/-- A run over lines that are emitted writes their outputs, then the pool and the last
output. -/
theorem resume_of_steps {body : List Line} {line : Line} {outs : List Emission}
    {e' e'' : Emitter} {pool out : Emission} (h : Emitter.Steps t e body outs e')
    (hp : t.pool line = .ok pool) (hs : Emitter.Step t e' line out e'') :
    resume t e (body ++ [line]) =
      ⟨lineWrites body outs ++ lastWrites line pool out, .ok e'.location⟩ := by
  induction h with
  | nil =>
      simp only [List.nil_append, resume, last, hp, Emitter.step_ok_iff.mpr hs]
      rfl
  | cons head tail ih =>
      rw [List.cons_append, resume_cons (by simp)]
      simp only [Emitter.step_ok_iff.mpr head, ih hs, after, lineWrites, List.append_assoc]

/-- A run that succeeds emits all of its lines. -/
theorem steps_of_ok {lines : List Line} {c : UInt16} (h : (ofLines t lines).outcome = .ok c) :
    ∃ outs e, Emitter.Steps t (Emitter.start t) lines outs e := by
  rcases lines.eq_nil_or_concat with rfl | ⟨body, line, rfl⟩
  · exact ⟨[], _, .nil⟩
  · rw [List.concat_eq_append] at h ⊢
    obtain ⟨outs, e', pool, out, e'', hsteps, -, hlast, -, -⟩ := resume_ok h
    exact ⟨_, e'', hsteps.concat hlast⟩

end Run

/-! ## layouts -/

namespace Layout

/-- The layout of a scan, with the pool behind the code. -/
theorem ofScan_eq_ok {origin : UInt16} {s : Scan} {t : Layout} :
    ofScan origin s = .ok t ↔
      s.length + (LiteralTable.allocate .empty s.location s.literals).1.size < 4294967296 ∧
      t = { symbols := s.symbols
            externals := s.externals
            literals := (LiteralTable.allocate .empty s.location s.literals).1
            origin := origin
            codeEnd := s.location
            poolEnd := (LiteralTable.allocate .empty s.location s.literals).2
            length := s.length + (LiteralTable.allocate .empty s.location s.literals).1.size } := by
  unfold ofScan
  simp only [bind_eq_ok, pure_eq_ok, addCounts_eq_ok]
  constructor
  · intro h
    obtain ⟨length, ⟨hlt, rfl⟩, rfl⟩ := h
    exact ⟨hlt, rfl⟩
  · intro h
    obtain ⟨hlt, rfl⟩ := h
    exact ⟨_, ⟨hlt, rfl⟩, rfl⟩

/-- The pool gives each of its words to both files. -/
theorem pool_eq_ok {t : Layout} {line : Line} {pool : Emission} :
    t.pool line = .ok pool ↔ ∃ words, poolWords line t.literals.entries = .ok words ∧
      pool = ⟨words.map fun p => .text p.1 p.2 none, words.map fun p => .literal p.1 p.2⟩ := by
  simp only [Layout.pool, bind_eq_ok, pure_eq_ok]
  grind

/-- A layout has the symbols that its scan has found. -/
theorem symbols_le_of_ofScan {origin : UInt16} {s : Scan} {t : Layout}
    (h : ofScan origin s = .ok t) : s.symbols.Le t.symbols := by
  rw [(ofScan_eq_ok.mp h).2]
  exact .refl _

/-- A layout is that of a scan of the lines between the first and the last. -/
theorem ofLines_ok {first : Line} {body : List Line} {last : Line} {t : Layout}
    (h : ofLines (first :: (body ++ [last])) = .ok t) :
    ∃ s, first.origin = .ok t.origin ∧ (Scan.start t.origin).lines body = .ok s ∧
      ofScan t.origin s = .ok t := by
  unfold ofLines at h
  simp only [List.head?_cons, inner_segment, bind_eq_ok] at h
  obtain ⟨origin, ho, s, hs, ht⟩ := h
  have horigin : t.origin = origin := by rw [(ofScan_eq_ok.mp ht).2]
  rw [horigin]
  exact ⟨s, ho, hs, ht⟩

/-- The same for lines that may lack a first and a last. -/
theorem exists_scan_of_ofLines {lines : List Line} {t : Layout} (h : ofLines lines = .ok t) :
    ∃ s, (Scan.start t.origin).lines (inner lines) = .ok s ∧ ofScan t.origin s = .ok t := by
  obtain ⟨origin, s, hs, ht⟩ : ∃ origin s,
      (Scan.start origin).lines (inner lines) = .ok s ∧ ofScan origin s = .ok t := by
    unfold ofLines at h
    split at h
    all_goals
      simp only [bind_eq_ok] at h
      obtain ⟨origin, -, s, hs, ht⟩ := h
      exact ⟨origin, s, hs, ht⟩
  have horigin : t.origin = origin := by rw [(ofScan_eq_ok.mp ht).2]
  rw [horigin]
  exact ⟨s, hs, ht⟩

end Layout

/-! ## assembled segments -/

/-- Lines that are assembled are laid out, and the run over them ends where the layout says. -/
theorem run_of_attempt {lines : List Line} {t : Layout} (h : (attempt lines).outcome = .ok t) :
    Layout.ofLines lines = .ok t ∧ (Run.ofLines t lines).outcome = .ok t.codeEnd := by
  unfold attempt at h
  split at h
  · cases h
  · next t' laid =>
    obtain ⟨c, ran, hconfirm⟩ := bind_eq_ok.mp h
    unfold Layout.confirm at hconfirm
    split at hconfirm
    · next hend =>
      cases hconfirm
      exact ⟨laid, hend ▸ ran⟩
    · cases hconfirm

/-- What is known about the parts of a segment that is assembled with layout `t`:
`s` is the scan of the body, `outs` its output, `e` the state behind it, `pool` the
literal pool and `address` the execution address. -/
structure Assembled (first : Line) (body : List Line) (last : Line) (t : Layout) (s : Scan)
    (outs : List Emission) (e : Emitter) (pool : Emission) (address : UInt16) : Prop where
  operand : first.origin = .ok t.origin
  scanned : (Scan.start t.origin).lines body = .ok s
  placed : Layout.ofScan t.origin s = .ok t
  memory : t.length ≤ 65535
  page : t.origin = 0 → t.length ≤ Page.size
  emitted : Emitter.Steps t ((Emitter.start t).opened first t.origin) body outs e
  pooled : t.pool last = .ok pool
  ended : e.EndsAt t last address
  confirmed : e.location = t.codeEnd
  written : (attempt (first :: (body ++ [last]))).writes =
    Run.lineWrites (first :: body)
        (Emitter.bareOutput first [.header (Text.alignLeft 6 first.label) t.origin
          (UInt16.ofNat t.length)] :: outs) ++
      Run.lastWrites last pool (Emitter.bareOutput last [.end address])

/-- A segment that is assembled has all that `Assembled` lists. -/
theorem assembled_of_attempt {first : Line} {body : List Line} {last : Line} {t : Layout}
    (orig : first.operation? = some (.directive .orig))
    (close : last.operation? = some (.directive .end))
    (h : (attempt (first :: (body ++ [last]))).outcome = .ok t) :
    ∃ s outs e pool address, Assembled first body last t s outs e pool address := by
  obtain ⟨hl, hc⟩ := run_of_attempt h
  obtain ⟨s, ho, hs, hp⟩ := Layout.ofLines_ok hl
  rw [Run.ofLines, ← List.cons_append] at hc
  obtain ⟨outs, e, pool, out, e', hsteps, hpool, hlast, hloc, hw⟩ := Run.resume_ok hc
  cases hsteps with
  | cons head tail =>
      obtain ⟨origin, ho', hmem, hpage, rfl, rfl⟩ := head.of_orig orig
      rw [ho] at ho'
      cases ho'
      obtain ⟨address, haddr, rfl, -⟩ := hlast.of_end close
      refine ⟨s, _, e, pool, address, ho, hs, hp, hmem, hpage, tail, hpool, haddr,
        hloc.symm, ?_⟩
      rw [attempt, hl]
      exact hw

variable {first : Line} {body : List Line} {last : Line} {t : Layout} {s : Scan}
  {outs : List Emission} {e : Emitter} {pool : Emission} {address : UInt16}

/-- A scan of the body, with the pool behind it, is the layout of the segment. -/
theorem Layout.ofLines_of_scan (operand : first.origin = .ok t.origin)
    (scanned : (Scan.start t.origin).lines body = .ok s)
    (placed : Layout.ofScan t.origin s = .ok t) :
    Layout.ofLines (first :: (body ++ [last])) = .ok t := by
  unfold Layout.ofLines
  rw [List.head?_cons, Layout.inner_segment, bind_eq_ok]
  refine ⟨t.origin, operand, ?_⟩
  rw [bind_eq_ok]
  exact ⟨s, scanned, placed⟩

theorem Assembled.laid (h : Assembled first body last t s outs e pool address) :
    Layout.ofLines (first :: (body ++ [last])) = .ok t :=
  Layout.ofLines_of_scan h.operand h.scanned h.placed

/-- A segment is assembled if each of its parts is. -/
theorem assembled_of_parts (orig : first.operation? = some (.directive .orig))
    (close : last.operation? = some (.directive .end)) (operand : first.origin = .ok t.origin)
    (scanned : (Scan.start t.origin).lines body = .ok s)
    (placed : Layout.ofScan t.origin s = .ok t) (memory : t.length ≤ 65535)
    (page : t.origin = 0 → t.length ≤ Page.size)
    (emitted : Emitter.Steps t ((Emitter.start t).opened first t.origin) body outs e)
    (pooled : t.pool last = .ok pool) (ended : e.EndsAt t last address)
    (confirmed : e.location = t.codeEnd) :
    (attempt (first :: (body ++ [last]))).outcome = .ok t ∧
      Assembled first body last t s outs e pool address := by
  have hrun := Run.resume_of_steps (.cons (.orig orig operand memory page) emitted) pooled
    (.end close ended)
  have hattempt : attempt (first :: (body ++ [last])) =
      (Run.resume t (Emitter.start t) ((first :: body) ++ [last])).check t.confirm := by
    rw [attempt, Layout.ofLines_of_scan operand scanned placed]
    rfl
  rw [hrun] at hattempt
  refine ⟨?_, operand, scanned, placed, memory, page, emitted, pooled, ended, confirmed, ?_⟩
  · rw [hattempt]
    exact if_pos confirmed
  · rw [hattempt]
    rfl

/-- The records of an assembled segment: the header, the code, the pool, the end. -/
theorem Assembled.records_eq (h : Assembled first body last t s outs e pool address) :
    (attempt (first :: (body ++ [last]))).records =
      .header (Text.alignLeft 6 first.label) t.origin (UInt16.ofNat t.length) ::
        (outs.flatMap Emission.records ++ (pool.records ++ [.end address])) := by
  have hlen : (first :: body).length = (Emitter.bareOutput first [.header
      (Text.alignLeft 6 first.label) t.origin (UInt16.ofNat t.length)] :: outs).length := by
    rw [List.length_cons, List.length_cons, h.emitted.length_eq]
  rw [Run.records, h.written, List.filterMap_append, Run.filterMap_lineWrites hlen,
    Run.filterMap_lastWrites]
  simp [Emitter.bareOutput]

/-- The records written for a line that is neither `.ORIG` nor `.END` are those in its
output. -/
theorem Assembled.mem_writes_iff_of_ne (h : Assembled first body last t s outs e pool address)
    (orig : first.operation? = some (.directive .orig))
    (close : last.operation? = some (.directive .end)) {line : Line} {r : Record}
    (horig : line.operation? ≠ some (.directive .orig))
    (hclose : line.operation? ≠ some (.directive .end)) :
    ⟨line, .record r⟩ ∈ (attempt (first :: (body ++ [last]))).writes ↔
      ∃ out, (line, out) ∈ body.zip outs ∧ r ∈ out.records := by
  have hfirst : line ≠ first := fun heq => horig (heq ▸ orig)
  have hlast : ∀ out, ⟨line, .record r⟩ ∉ Run.lastWrites last pool out := by
    intro out hmem
    rw [Run.eq_of_mem_lastWrites hmem] at hclose
    exact hclose close
  rw [h.written, List.mem_append, Run.mem_lineWrites]
  simp only [List.zip_cons_cons, List.mem_cons, Prod.mk.injEq, hfirst, false_and, false_or,
    hlast, or_false]

/-- The records written for an instruction are those in its output. -/
theorem Assembled.mem_writes_iff (h : Assembled first body last t s outs e pool address)
    (orig : first.operation? = some (.directive .orig))
    (close : last.operation? = some (.directive .end)) {line : Line} {op : Opcode} {r : Record}
    (hop : line.operation? = some (.instruction op)) :
    ⟨line, .record r⟩ ∈ (attempt (first :: (body ++ [last]))).writes ↔
      ∃ out, (line, out) ∈ body.zip outs ∧ r ∈ out.records :=
  h.mem_writes_iff_of_ne orig close (by simp [hop]) (by simp [hop])

end PageAsm
