import PageAsm.Proofs.Step

/-!
# PageAsm.Proofs.FailedStep

What a line that fails leaves behind.  `Emitter.Leaves` lists the states in which
emission can be after such a line:

```
.ORIG without an address    the state as it was
.ORIG, segment too large    the segment is open
.EXT with too many names    the state as it was
.EXT with a symbol          the names in front of the symbol
everything else             the state as it was
```

Most lines that fail have therefore done nothing.  Where an emission goes on
after failures, they can be left out of it, and all other calls have the same
results and lead to the same states (`Emitter.trace_of_prunes`).
-/

namespace PageAsm

namespace Emitter

variable {t : Layout} {e e' : Emitter} {line : Line} {f : Failure}

/-- The state after a line that fails. -/
inductive Leaves (t : Layout) (e : Emitter) (line : Line) (f : Failure) : Emitter → Prop where
  | unread
      (operation : line.operation? = some (.directive .orig))
      (operand : line.origin = .error f) :
      Leaves t e line f e
  | tooLarge {origin : UInt16} {relocatable : Bool}
      (operation : line.operation? = some (.directive .orig))
      (operand : line.origin = .ok origin)
      (cause : f = .diagnostic (line.diagnostic (.segmentSize t.length relocatable))) :
      Leaves t e line f (e.opened line origin)
  | tooMany
      (operation : line.operation? = some (.directive .ext))
      (many : maxNames < line.operandList.length) :
      Leaves t e line f e
  | collision {before after : List String} {name : String}
      (operation : line.operation? = some (.directive .ext))
      (few : line.operandList.length ≤ maxNames)
      (names : line.operandList = before ++ name :: after)
      (fresh : ∀ other ∈ before, t.symbols.contains other = false)
      (taken : t.symbols.contains name = true) :
      Leaves t e line f { e with externals := Names.declareAll e.externals before }
  | other
      (orig : line.operation? ≠ some (.directive .orig))
      (ext : line.operation? ≠ some (.directive .ext)) :
      Leaves t e line f e

/-! ## one lemma for each kind of operation -/

theorem eq_of_commit_error {x : Except Failure (Emission × Emitter)}
    (h : e.commit x = (.error f, e')) : e' = e := by
  cases x with
  | error g => exact (congrArg Prod.snd h).symm
  | ok p => cases h

theorem leaves_of_emitOrig (hop : line.operation? = some (.directive .orig))
    (h : e.emitOrig t line = (.error f, e')) : Leaves t e line f e' := by
  unfold emitOrig at h
  split at h
  · next g horigin =>
    cases h
    exact .unread hop horigin
  · next origin horigin =>
    -- the state has changed when the two sizes are checked
    dsimp only at h
    split at h
    · cases h
      exact .tooLarge hop horigin rfl
    · split at h
      · cases h
        exact .tooLarge hop horigin rfl
      · cases h

/-- Names are declared up to the first that is a symbol. -/
theorem declareNames_eq_error {names : List String}
    (h : declareNames t line e names = (.error f, e')) :
    ∃ before name after, names = before ++ name :: after ∧
      (∀ other ∈ before, t.symbols.contains other = false) ∧ t.symbols.contains name = true ∧
      e' = { e with externals := Names.declareAll e.externals before } := by
  induction names generalizing e with
  | nil => cases h
  | cons first names ih =>
      rw [declareNames] at h
      split at h
      · next htaken =>
        cases h
        exact ⟨[], first, names, rfl, fun _ hmem => absurd hmem List.not_mem_nil, htaken, rfl⟩
      · next hfresh =>
        obtain ⟨before, name, after, rfl, hbefore, htaken, rfl⟩ := ih h
        refine ⟨first :: before, name, after, rfl, fun other hmem => ?_, htaken, rfl⟩
        cases hmem with
        | head => exact Bool.eq_false_iff.mpr hfresh
        | tail _ hmem => exact hbefore other hmem

theorem leaves_of_emitExt (hop : line.operation? = some (.directive .ext))
    (h : e.emitExt t line = (.error f, e')) : Leaves t e line f e' := by
  unfold emitExt at h
  dsimp only at h
  split at h
  · next hmany =>
    cases h
    exact .tooMany hop hmany
  · next hfew =>
    split at h
    · next g e₁ hnames =>
      cases h
      obtain ⟨before, name, after, hlist, hfresh, htaken, rfl⟩ := declareNames_eq_error hnames
      exact .collision hop (Nat.le_of_not_gt hfew) hlist hfresh htaken
    · cases h

/-- A line that fails leaves one of the states that `Leaves` lists. -/
theorem leaves_of_step (h : e.step t line = (.error f, e')) : Leaves t e line f e' := by
  have hother : ∀ {operation : Option Operation}, line.operation? = operation →
      operation ≠ some (.directive .orig) → operation ≠ some (.directive .ext) → e' = e →
      Leaves t e line f e' := by
    intro operation hop horig hext he
    rw [← hop] at horig hext
    rw [he]
    exact .other horig hext
  unfold step at h
  split at h
  next hop => exact hother hop (by simp) (by simp) (congrArg Prod.snd h).symm
  next op hop => exact hother hop (by simp) (by simp) (eq_of_commit_error h)
  next hop => exact leaves_of_emitOrig hop h
  next hop => exact hother hop (by simp) (by simp) (congrArg Prod.snd h).symm
  next hop => exact hother hop (by simp) (by simp) (congrArg Prod.snd h).symm
  next hop => exact leaves_of_emitExt hop h
  next hop => exact hother hop (by simp) (by simp) (congrArg Prod.snd h).symm
  next hop => exact hother hop (by simp) (by simp) (eq_of_commit_error h)
  next hop => exact hother hop (by simp) (by simp) (eq_of_commit_error h)
  next hop => exact hother hop (by simp) (by simp) (eq_of_commit_error h)

/-! ## what is unchanged -/

theorem Leaves.unopened (h : Leaves t e line f e')
    (hop : line.operation? ≠ some (.directive .orig)) :
    e'.location = e.location ∧ e'.origin = e.origin ∧ e'.segment = e.segment ∧
      e'.relocatable = e.relocatable := by
  cases h with
  | unread operation | tooLarge operation => exact absurd operation hop
  | tooMany | collision | other => exact ⟨rfl, rfl, rfl, rfl⟩

theorem Leaves.externals_eq (h : Leaves t e line f e')
    (hop : line.operation? ≠ some (.directive .ext)) : e'.externals = e.externals := by
  cases h with
  | tooMany operation | collision operation => exact absurd operation hop
  | unread | tooLarge | other => rfl

/-- Outside `.ORIG` and `.EXT`, nothing is left behind. -/
theorem Leaves.eq_self (h : Leaves t e line f e') (orig : line.operation? ≠ some (.directive .orig))
    (ext : line.operation? ≠ some (.directive .ext)) : e' = e := by
  cases h with
  | unread operation | tooLarge operation => exact absurd operation orig
  | tooMany operation | collision operation => exact absurd operation ext
  | other => rfl

/-! ## emissions that go on after failures -/

/-- A call in an emission: for the output of a line, or of the literal pool. -/
inductive Call where
  | line (line : Line)
  /-- The line is where a bad literal is reported. -/
  | pool (line : Line)
deriving DecidableEq

/-- The operation that is emitted; the pool has none. -/
def Call.operation? : Call → Option Operation
  | .line line => line.operation?
  | .pool _ => none

/-- What comes of a call, and the state after it. -/
def call (t : Layout) (e : Emitter) : Call → Except Failure Emission × Emitter
  | .line line => e.step t line
  | .pool line => (t.pool line, e)

/-- Calls one after the other, each with what comes of it and the state after it.  A call
that fails does not end it. -/
def trace (t : Layout) : Emitter → List Call → List (Call × Except Failure Emission × Emitter)
  | _, [] => []
  | e, c :: calls => (c, e.call t c) :: trace t (e.call t c).2 calls

/-- The call has failed, and it was neither for `.ORIG` nor for `.EXT`. -/
def IsIdle (entry : Call × Except Failure Emission × Emitter) : Prop :=
  (∃ f, entry.2.1 = .error f) ∧ entry.1.operation? ≠ some (.directive .orig) ∧
    entry.1.operation? ≠ some (.directive .ext)

/-- Some of the idle calls are left out. -/
inductive Prunes : List (Call × Except Failure Emission × Emitter) →
    List (Call × Except Failure Emission × Emitter) → Prop where
  | nil : Prunes [] []
  | keep {entry} {all kept} (rest : Prunes all kept) : Prunes (entry :: all) (entry :: kept)
  | drop {entry} {all kept} (idle : IsIdle entry) (rest : Prunes all kept) :
      Prunes (entry :: all) kept

/-- An idle call leaves the state as it was. -/
theorem call_state_of_idle {c : Call} (h : IsIdle (c, e.call t c)) : (e.call t c).2 = e := by
  obtain ⟨⟨f, hf⟩, horig, hext⟩ := h
  cases c with
  | pool line => rfl
  | line line =>
      have hstep : e.step t line = (.error f, (e.step t line).2) := Prod.ext hf rfl
      exact (leaves_of_step hstep).eq_self horig hext

/-- Without idle calls, the others have the same results and lead to the same states. -/
theorem trace_of_prunes {calls : List Call}
    {kept : List (Call × Except Failure Emission × Emitter)} (h : Prunes (e.trace t calls) kept) :
    e.trace t (kept.map Prod.fst) = kept := by
  induction calls generalizing e kept with
  | nil =>
      cases h
      rfl
  | cons c calls ih =>
      cases h with
      | keep rest => rw [List.map_cons, trace, ih rest]
      | drop idle rest =>
          rw [call_state_of_idle idle] at rest
          exact ih rest

end Emitter

/-- A line that fails leaves everything but the external names as it was, unless it is
`.ORIG`, and the external names too, unless it is `.EXT`: that has then declared none of its
names if there are too many, and otherwise those in front of the first that is a symbol.  An
`.ORIG` line that fails for another reason than the size of the segment leaves everything as
it was.  Lines that fail and are neither can be left out of any calls that go on after
failures, without a change to the others. -/
theorem failed_lines_leave_state (t : Layout) (e : Emitter) :
    (∀ line f e', e.step t line = (.error f, e') →
      (line.operation? ≠ some (.directive .orig) →
        e'.location = e.location ∧ e'.origin = e.origin ∧ e'.segment = e.segment ∧
          e'.relocatable = e.relocatable) ∧
      (line.operation? ≠ some (.directive .ext) → e'.externals = e.externals) ∧
      (line.operation? = some (.directive .ext) →
        (5 < line.operandList.length ∧ e'.externals = e.externals) ∨
        (line.operandList.length ≤ 5 ∧ ∃ before name after,
          line.operandList = before ++ name :: after ∧
          (∀ other ∈ before, t.symbols.contains other = false) ∧
          t.symbols.contains name = true ∧
          e'.externals = Names.declareAll e.externals before)) ∧
      (line.operation? = some (.directive .orig) →
        (∀ d, f = .diagnostic d → d.code ≠ "pass2::segment_size") → e' = e)) ∧
    ∀ calls kept, Emitter.Prunes (e.trace t calls) kept →
      e.trace t (kept.map Prod.fst) = kept := by
  refine ⟨fun line f e' hstep => ?_, fun calls kept => Emitter.trace_of_prunes⟩
  have hleaves := Emitter.leaves_of_step hstep
  refine ⟨hleaves.unopened, hleaves.externals_eq, fun hext => ?_, fun horig hsize => ?_⟩
  · cases hleaves with
    | unread operation | tooLarge operation => simp [hext] at operation
    | tooMany _ many => exact .inl ⟨many, rfl⟩
    | collision _ few names fresh taken => exact .inr ⟨few, _, _, _, names, fresh, taken, rfl⟩
    | other _ ext => exact absurd hext ext
  · cases hleaves with
    | tooLarge _ _ cause => exact absurd rfl (hsize _ cause)
    | tooMany operation | collision operation => simp [horig] at operation
    | unread | other => rfl

/-- A layout with a symbol. -/
def oneSymbol : Layout :=
  ⟨⟨[("A", .relative 0x3000)]⟩, ["X", "A", "Y"], .empty, 0x3000, 0x3001, 0x3001, 1⟩

/-- Calls of which the first fails halfway, the second at its third operand, and the last
needs what the first has done. -/
def goingOn : List Emitter.Call :=
  [.line ⟨"", ".EXT", "X,A,Y", 2, .nowhere⟩,
   .line ⟨"", "ADD", "R0,R1,#99", 3, .nowhere⟩,
   .line ⟨"", ".FILL", "X", 4, .nowhere⟩]

theorem failed_lines_leave_state_goingOn :
    (∃ f e', (Emitter.start oneSymbol).step oneSymbol ⟨"", ".EXT", "X,A,Y", 2, .nowhere⟩ =
        (.error f, e') ∧ e'.location = 0x3000 ∧ e'.externals = ["X"]) ∧
      ∃ kept, Emitter.Prunes ((Emitter.start oneSymbol).trace oneSymbol goingOn) kept ∧
        (Emitter.start oneSymbol).trace oneSymbol (kept.map Prod.fst) = kept ∧
        kept.map Prod.fst = [.line ⟨"", ".EXT", "X,A,Y", 2, .nowhere⟩,
          .line ⟨"", ".FILL", "X", 4, .nowhere⟩] := by
  obtain ⟨hleaves, hprunes⟩ := failed_lines_leave_state oneSymbol (.start oneSymbol)
  constructor
  · obtain ⟨hopen, -, -, -⟩ := hleaves ⟨"", ".EXT", "X,A,Y", 2, .nowhere⟩ _ _ rfl
    exact ⟨_, _, rfl, (hopen (by decide)).1, rfl⟩
  · have pruned : Emitter.Prunes ((Emitter.start oneSymbol).trace oneSymbol goingOn) _ :=
      .keep (.drop ⟨⟨_, rfl⟩, by decide, by decide⟩ (.keep .nil))
    exact ⟨_, pruned, hprunes _ _ pruned, rfl⟩

end PageAsm
