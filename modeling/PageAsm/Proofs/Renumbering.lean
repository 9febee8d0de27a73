import PageAsm.Proofs.Segment

/-!
# PageAsm.Proofs.Renumbering

Assembling does not look at where lines stand.  The number of a line and its
place in the source are shown in the listing and in diagnostics, and used
nowhere else:

```
            with other numbers and places
records     the same
rows        the same but for the numbers
failure     the same cause
```

`Outcome.placeless` forgets the place of a failure, and goes through every way to
put computations together.  Each function on a line is compared with itself on
the line without its place (`Line.unplaced`), up to whole assemblies
(`result_attempt`).
-/

namespace PageAsm

/-- What is wrong, wherever it was found. -/
def Failure.reason : Failure → Fault ⊕ Cause
  | .diagnostic d => .inr d.cause
  | .fault f => .inl f

/-- The line without its number and its place. -/
def Line.unplaced (line : Line) : Line := { line with number := 0, span := .nowhere }

namespace Outcome

variable {ε α β : Type}

@[simp] theorem map_ok (f : α → β) (a : α) : f <$> (.ok a : Except ε α) = .ok (f a) := rfl

/-- The computation without the place of its failure. -/
def placeless (x : Except Failure α) : Except (Fault ⊕ Cause) α := x.mapError Failure.reason

@[simp] theorem placeless_ok (a : α) : placeless (.ok a) = .ok a := rfl

@[simp] theorem placeless_pure (a : α) : placeless (pure a) = pure a := rfl

@[simp] theorem placeless_error (f : Failure) :
    placeless (.error f : Except Failure α) = .error f.reason := rfl

@[simp] theorem placeless_bind (x : Except Failure α) (f : α → Except Failure β) :
    placeless (x >>= f) = placeless x >>= fun a => placeless (f a) := by
  cases x <;> rfl

@[simp] theorem placeless_map (x : Except Failure α) (f : α → β) :
    placeless (f <$> x) = f <$> placeless x := by
  cases x <;> rfl

@[simp] theorem placeless_fail (line : Line) (cause : Cause) :
    placeless (line.fail cause : Except Failure α) = .error (.inr cause) := rfl

@[simp] theorem placeless_orFail (line : Line) (cause : ε → Cause) (x : Except ε α) :
    placeless (line.orFail cause x) = x.mapError fun e => .inr (cause e) := by
  cases x <;> rfl

/-- Computations that agree but for places, as far as `f` shows their results: both succeed, or
both fail for the same reason. -/
theorem cases_of_placeless {x y : Except Failure α} {f : α → β}
    (h : f <$> placeless x = f <$> placeless y) :
    (∃ a b, x = .ok a ∧ y = .ok b ∧ f b = f a) ∨
      ∃ p q, x = .error p ∧ y = .error q ∧ p.reason = q.reason := by
  cases x with
  | error p =>
      cases y with
      | error q => exact .inr ⟨p, q, rfl, rfl, Except.error.inj h⟩
      | ok b => cases h
  | ok a =>
      cases y with
      | error q => cases h
      | ok b => exact .inl ⟨a, b, rfl, rfl, (Except.ok.inj h).symm⟩

end Outcome

open Outcome

namespace Line

variable (line : Line)

@[simp] theorem label_unplaced : line.unplaced.label = line.label := by
  cases line; rfl

@[simp] theorem mnemonic_unplaced : line.unplaced.mnemonic = line.mnemonic := by
  cases line; rfl

@[simp] theorem operands_unplaced : line.unplaced.operands = line.operands := by
  cases line; rfl

@[simp] theorem operation?_unplaced : line.unplaced.operation? = line.operation? := by
  simp [operation?]

@[simp] theorem isDirective_unplaced (d : Directive) :
    line.unplaced.isDirective d = line.isDirective d := by
  simp [isDirective]

@[simp] theorem operandList_unplaced : line.unplaced.operandList = line.operandList := by
  simp [operandList]

@[simp] theorem literal?_unplaced : line.unplaced.literal? = line.literal? := by
  simp [literal?]

end Line

@[simp] theorem Line.placeless_origin (line : Line) :
    placeless line.unplaced.origin = placeless line.origin := by
  simp only [origin, operands_unplaced]
  split <;> simp

@[simp] theorem Line.placeless_blockCount (line : Line) (value : Numeral) :
    placeless (line.unplaced.blockCount value) = placeless (line.blockCount value) := by
  simp only [blockCount, operands_unplaced]
  repeat' split
  all_goals simp

/-! ## layouts -/

namespace Scan

variable (s : Scan) (line : Line) (operation : Operation)

@[simp] theorem declare_unplaced :
    s.declare line.unplaced operation = s.declare line operation := by
  simp [declare]

@[simp] theorem placeless_aliased :
    placeless (s.aliased line.unplaced) = placeless (s.aliased line) := by
  simp only [aliased, Line.operands_unplaced, Line.operandList_unplaced, Line.label_unplaced]
  repeat' split
  all_goals simp

@[simp] theorem placeless_labelled :
    placeless (s.labelled line.unplaced operation) = placeless (s.labelled line operation) := by
  unfold labelled
  split <;> simp

@[simp] theorem placeless_define :
    placeless (s.define line.unplaced operation) = placeless (s.define line operation) := by
  simp only [define, Line.label_unplaced]
  split
  · rfl
  · simp [apply_ite]

@[simp] theorem placeless_collect :
    placeless (s.collect line.unplaced operation) = placeless (s.collect line operation) := by
  simp only [collect, Line.literal?_unplaced]
  repeat' split
  all_goals simp

@[simp] theorem placeless_blockValue :
    placeless (s.blockValue line.unplaced) = placeless (s.blockValue line) := by
  simp only [blockValue, Line.operands_unplaced]
  repeat' split
  all_goals simp

@[simp] theorem placeless_words :
    placeless (s.words line.unplaced operation) = placeless (s.words line operation) := by
  unfold words
  split <;> simp

@[simp] theorem placeless_line : placeless (s.line line.unplaced) = placeless (s.line line) := by
  simp only [Scan.line, Line.operation?_unplaced]
  split <;> simp

@[simp] theorem placeless_lines (lines : List Line) :
    placeless (s.lines (lines.map Line.unplaced)) = placeless (s.lines lines) := by
  induction lines generalizing s with
  | nil => rfl
  | cons line rest ih => simp [Scan.lines, ih]

end Scan

namespace Layout

theorem inner_map (lines : List Line) (f : Line → Line) :
    inner (lines.map f) = (inner lines).map f := by
  simp [inner, List.map_tail, List.map_dropLast]

theorem placeless_ofLines (lines : List Line) :
    placeless (ofLines (lines.map Line.unplaced)) = placeless (ofLines lines) := by
  cases lines with
  | nil => rfl
  | cons first rest =>
      rw [ofLines, ofLines, inner_map]
      simp

end Layout

/-! ## emission -/

namespace Emitter

variable (t : Layout) (e : Emitter) (line : Line)

@[simp] theorem placeless_absolute (name : String) :
    placeless (e.absolute t line.unplaced name) = placeless (e.absolute t line name) := by
  unfold absolute
  repeat' split
  all_goals simp

@[simp] theorem placeless_register (token : String) :
    placeless (e.register t line.unplaced token) = placeless (e.register t line token) := by
  unfold register
  repeat' split
  all_goals simp

@[simp] theorem placeless_value (token : String) (field : Field) :
    placeless (e.value t line.unplaced token field) = placeless (e.value t line token field) := by
  unfold value
  split <;> simp

@[simp] theorem placeless_resolve (token : String) :
    placeless (e.resolve t line.unplaced token) = placeless (e.resolve t line token) := by
  unfold resolve
  repeat' split
  all_goals simp

@[simp] theorem placeless_literalWord (token : String) :
    placeless (literalWord line.unplaced token) = placeless (literalWord line token) := by
  simp [literalWord]

@[simp] theorem placeless_literal (token : String) :
    placeless (literal t line.unplaced token) = placeless (literal t line token) := by
  unfold literal
  split <;> simp

@[simp] theorem placeless_address (target : Target) (token : String) :
    placeless (target.address line.unplaced token) = placeless (target.address line token) := by
  cases target <;> simp [Target.address]

@[simp] theorem placeless_word (target : Target) (token : String) :
    placeless (target.word line.unplaced token) = placeless (target.word line token) := by
  cases target <;> simp [Target.word]

@[simp] theorem placeless_pageOffset (target : Target) (token : String) :
    placeless (e.pageOffset line.unplaced token target) =
      placeless (e.pageOffset line token target) := by
  simp [pageOffset]

@[simp] theorem placeless_instruction (op : Opcode) :
    placeless (e.instruction t line.unplaced op) = placeless (e.instruction t line op) := by
  simp only [instruction, Line.operandList_unplaced]
  split
  all_goals repeat' split
  all_goals simp

@[simp] theorem placeless_entryPoint (name : String) :
    placeless (e.entryPoint t line.unplaced name) = placeless (e.entryPoint t line name) := by
  unfold entryPoint
  repeat' split
  all_goals simp

@[simp] theorem placeless_entryRecords (names : List String) :
    placeless (e.entryRecords t line.unplaced names) = placeless (e.entryRecords t line names) := by
  induction names with
  | nil => rfl
  | cons name names ih => simp [entryRecords, ih]

/-- What a line gives, wherever it stands: its records or what is wrong, and the state after
it. -/
def result (x : Except Failure Emission × Emitter) :
    Except (Fault ⊕ Cause) (List Record) × Emitter :=
  (Emission.records <$> placeless x.1, x.2)

@[simp] theorem result_mk (x : Except Failure Emission) :
    result (x, e) = (Emission.records <$> placeless x, e) := rfl

@[simp] theorem records_bareOutput (records : List Record) :
    (bareOutput line records).records = records := rfl

@[simp] theorem records_wordOutput (word : UInt16) (patch : Option Patch) :
    (e.wordOutput line word patch).records = [.text e.location word patch] := rfl

/-- The records of a line, and the state after it. -/
def written (x : Emission × Emitter) : List Record × Emitter := (x.1.records, x.2)

@[simp] theorem written_mk (out : Emission) : written (out, e) = (out.records, e) := rfl

/-- A line that succeeds brings its own state, one that fails leaves the state as it was. -/
theorem result_commit (x : Except Failure (Emission × Emitter)) :
    result (e.commit x) =
      match written <$> placeless x with
      | .ok (records, e) => (.ok records, e)
      | .error r => (.error r, e) := by
  cases x <;> rfl

@[simp] theorem written_emitInstruction (op : Opcode) :
    written <$> placeless (e.emitInstruction t line.unplaced op) =
      written <$> placeless (e.emitInstruction t line op) := by
  simp only [emitInstruction, placeless_bind, placeless_instruction, map_bind]
  congr
  funext read
  split <;> simp

@[simp] theorem written_emitFill :
    written <$> placeless (e.emitFill t line.unplaced) =
      written <$> placeless (e.emitFill t line) := by
  simp only [emitFill, Line.operands_unplaced]
  split <;> simp

@[simp] theorem written_emitBlkw :
    written <$> placeless (e.emitBlkw t line.unplaced) =
      written <$> placeless (e.emitBlkw t line) := by
  simp only [emitBlkw, Line.operands_unplaced]
  split <;> simp

@[simp] theorem result_emitOrig :
    result (e.emitOrig t line.unplaced) = result (e.emitOrig t line) := by
  have horigin : id <$> placeless line.unplaced.origin = id <$> placeless line.origin := by simp
  simp only [emitOrig, Line.label_unplaced]
  obtain ⟨origin, origin', hx, hy, heq⟩ | ⟨f, g, hx, hy, hreason⟩ := cases_of_placeless horigin
  · simp only [id] at heq
    simp only [hx, hy, heq]
    repeat' split
    all_goals simp
  · simp [hx, hy, hreason]

@[simp] theorem placeless_emitEnd :
    Emission.records <$> placeless (e.emitEnd t line.unplaced) =
      Emission.records <$> placeless (e.emitEnd t line) := by
  simp only [emitEnd, Line.operands_unplaced]
  split <;> simp

@[simp] theorem placeless_emitEnt :
    Emission.records <$> placeless (e.emitEnt t line.unplaced) =
      Emission.records <$> placeless (e.emitEnt t line) := by
  simp only [emitEnt, Line.operandList_unplaced]
  split <;> simp

theorem declareNames_unplaced (names : List String) :
    placeless (declareNames t line.unplaced e names).1 =
        placeless (declareNames t line e names).1 ∧
      (declareNames t line.unplaced e names).2 = (declareNames t line e names).2 := by
  induction names generalizing e with
  | nil => exact ⟨rfl, rfl⟩
  | cons name names ih =>
      simp only [declareNames]
      split
      · simp
      · exact ih _

@[simp] theorem result_emitExt :
    result (e.emitExt t line.unplaced) = result (e.emitExt t line) := by
  obtain ⟨hfirst, hstate⟩ := declareNames_unplaced t e line line.operandList
  simp only [emitExt, Line.operandList_unplaced]
  split
  · simp
  · generalize declareNames t line.unplaced e line.operandList = x at hfirst hstate
    generalize declareNames t line e line.operandList = y at hfirst hstate
    obtain ⟨x, e₁⟩ := x
    obtain ⟨y, e₂⟩ := y
    cases x <;> cases y <;> simp_all

@[simp] theorem placeless_emitEqu :
    Emission.records <$> placeless (e.emitEqu t line.unplaced) =
      Emission.records <$> placeless (e.emitEqu t line) := by
  simp only [emitEqu, Line.operands_unplaced]
  split <;> simp

@[simp] theorem written_emitStrz :
    written (e.emitStrz line.unplaced) = written (e.emitStrz line) := by
  simp [emitStrz]

/-- Lines that give the same succeed with the same records, or fail for the same reason. -/
theorem cases_of_result {x y : Except Failure Emission × Emitter} (h : result x = result y) :
    (∃ out out' e, x = (.ok out, e) ∧ y = (.ok out', e) ∧ out'.records = out.records) ∨
      ∃ f g e, x = (.error f, e) ∧ y = (.error g, e) ∧ f.reason = g.reason := by
  obtain ⟨x, e⟩ := x
  obtain ⟨y, e'⟩ := y
  obtain ⟨hfirst, rfl⟩ := Prod.mk.inj h
  obtain ⟨out, out', rfl, rfl, hrecords⟩ | ⟨f, g, rfl, rfl, hreason⟩ := cases_of_placeless hfirst
  · exact .inl ⟨out, out', e, rfl, rfl, hrecords⟩
  · exact .inr ⟨f, g, e, rfl, rfl, hreason⟩

/-- A line is emitted alike wherever it stands. -/
theorem result_step : result (e.step t line.unplaced) = result (e.step t line) := by
  simp only [step, Line.operation?_unplaced, Line.mnemonic_unplaced]
  split <;> simp [result_commit]

end Emitter

theorem placeless_poolWords (line : Line) (entries : List (String × UInt16)) :
    placeless (poolWords line.unplaced entries) = placeless (poolWords line entries) := by
  induction entries with
  | nil => rfl
  | cons entry entries ih => simp [poolWords, ih]

theorem Layout.placeless_pool (t : Layout) (line : Line) :
    Emission.records <$> placeless (t.pool line.unplaced) =
      Emission.records <$> placeless (t.pool line) := by
  simp [Layout.pool, placeless_poolWords]

/-! ## runs -/

namespace Run

variable {α β : Type} (t : Layout) (e : Emitter) (line : Line)

/-- What a run gives, wherever its lines stand: records, and how it ends. -/
def result (run : Run α) : List Record × Except (Fault ⊕ Cause) α :=
  (run.records, placeless run.outcome)

@[simp] theorem result_mk (writes : List Write) (outcome : Except Failure α) :
    (⟨writes, outcome⟩ : Run α).result =
      (writes.filterMap fun w => w.item.record?, placeless outcome) := rfl

@[simp] theorem result_stop (f : Failure) :
    (stop f : Run α).result = ([], .error f.reason) := rfl

@[simp] theorem result_after (writes : List Write) (run : Run α) :
    (after writes run).result =
      (writes.filterMap (fun w => w.item.record?) ++ run.result.1, run.result.2) := by
  simp [result]

theorem result_last : (last t e line.unplaced).result = (last t e line).result := by
  obtain ⟨pool, pool', hx, hy, hpool⟩ | ⟨f, g, hx, hy, hreason⟩ :=
    cases_of_placeless (t.placeless_pool line)
  · obtain ⟨out, out', e₁, hs, hs', hout⟩ | ⟨f, g, e₁, hs, hs', hreason⟩ :=
      Emitter.cases_of_result (e.result_step t line)
    · simp [last, hx, hy, hs, hs', hpool, hout, filterMap_recordWrites, filterMap_rowWrites]
    · simp [last, hx, hy, hs, hs', hpool, hreason, filterMap_recordWrites]
  · simp [last, hx, hy, hreason]

/-- A run over lines gives the same wherever they stand. -/
theorem result_resume (lines : List Line) :
    (resume t e (lines.map Line.unplaced)).result = (resume t e lines).result := by
  induction lines generalizing e with
  | nil => rfl
  | cons line rest ih =>
      cases rest with
      | nil => exact result_last t e line
      | cons next rest =>
          simp only [List.map_cons] at ih
          obtain ⟨out, out', e₁, hs, hs', hout⟩ | ⟨f, g, e₁, hs, hs', hreason⟩ :=
            Emitter.cases_of_result (e.result_step t line)
          · simp [resume, hs, hs', hout, ih, filterMap_recordWrites, filterMap_rowWrites]
          · simp [resume, hs, hs', hreason]

theorem result_check (run : Run α) (f : α → Except Failure β) :
    (run.check f).result = (run.result.1, run.result.2 >>= fun a => placeless (f a)) := by
  simp only [result, check, placeless]
  cases run.outcome <;> rfl

end Run

/-- An assembly gives the same records, or fails for the same reason, wherever its lines
stand. -/
theorem result_attempt (lines : List Line) :
    (attempt (lines.map Line.unplaced)).result = (attempt lines).result := by
  have hlayout : id <$> placeless (Layout.ofLines (lines.map Line.unplaced)) =
      id <$> placeless (Layout.ofLines lines) := by
    rw [Layout.placeless_ofLines]
  obtain ⟨t, t', hx, hy, ht⟩ | ⟨f, g, hx, hy, hreason⟩ := cases_of_placeless hlayout
  · simp only [id] at ht
    simp only [attempt, hx, hy, ht, Run.result_check, Run.ofLines, Run.result_resume]
  · simp [attempt, hx, hy, hreason]

end PageAsm
