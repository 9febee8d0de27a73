import PageAsm.Assembly
import PageAsm.Proofs.Outcome

/-!
# PageAsm.Proofs.Failure

How assembling lines can fail.  What is computed for a line fails with a
diagnostic about that line, and nothing else can go wrong with it:

```
operands, records, pool words    diagnostic about the line
words of a line, its location    the same, or a count overflows
```

`Outcome.FailsOnly` states this of a computation, with one law for each way to
put computations together.  For a whole assembly, every diagnostic is about one
of its lines (`attempt_failsOnly`).
-/

namespace PageAsm

namespace Outcome

variable {α β : Type} {P Q : Failure → Prop}

/-- The computation fails in the given ways only. -/
def FailsOnly (P : Failure → Prop) (x : Except Failure α) : Prop := ∀ f, x = .error f → P f

@[simp] theorem failsOnly_ok (a : α) : FailsOnly P (.ok a) := fun _ h => nomatch h

@[simp] theorem failsOnly_pure (a : α) : FailsOnly P (pure a) := failsOnly_ok a

@[simp] theorem failsOnly_error {f : Failure} :
    FailsOnly P (.error f : Except Failure α) ↔ P f := by
  simp [FailsOnly]

@[simp] theorem failsOnly_bind {x : Except Failure α} {f : α → Except Failure β} :
    FailsOnly P (x >>= f) ↔ FailsOnly P x ∧ ∀ a, x = .ok a → FailsOnly P (f a) := by
  cases x with
  | error e => simp [FailsOnly, bind, Except.bind]
  | ok a => simp [FailsOnly, bind, Except.bind]

@[simp] theorem failsOnly_map {x : Except Failure α} {f : α → β} :
    FailsOnly P (f <$> x) ↔ FailsOnly P x := by
  cases x <;> simp [FailsOnly, Functor.map, Except.map]

theorem FailsOnly.mono {x : Except Failure α} (h : FailsOnly P x) (himp : ∀ f, P f → Q f) :
    FailsOnly Q x :=
  fun f hf => himp f (h f hf)

end Outcome

open Outcome

/-- The failure is a diagnostic about the line. -/
def Line.IsBlamed (line : Line) (f : Failure) : Prop :=
  ∃ cause, f = .diagnostic (line.diagnostic cause)

/-- The failures have every diagnostic about the line that remains to be found once lines
are laid out.  The operation of the line is known by then, and so is the place of its
literal. -/
def Line.Admits (line : Line) (P : Failure → Prop) : Prop :=
  ∀ cause : Cause, (∀ mnemonic, cause ≠ .unknownOperation mnemonic) →
    (∀ token, cause ≠ .unknownLiteral token) → P (.diagnostic (line.diagnostic cause))

namespace Line

variable {α : Type} {P : Failure → Prop}

@[simp] theorem failsOnly_fail (line : Line) (cause : Cause) :
    FailsOnly line.IsBlamed (line.fail cause : Except Failure α) :=
  failsOnly_error.mpr ⟨cause, rfl⟩

@[simp] theorem admits_isBlamed (line : Line) : line.Admits line.IsBlamed :=
  fun cause _ _ => ⟨cause, rfl⟩

@[simp] theorem Admits.failsOnly_fail {line : Line} {cause : Cause} (hP : line.Admits P)
    (hknown : ∀ mnemonic, cause ≠ .unknownOperation mnemonic)
    (hpooled : ∀ token, cause ≠ .unknownLiteral token) :
    FailsOnly P (line.fail cause : Except Failure α) :=
  failsOnly_error.mpr (hP cause hknown hpooled)

@[simp] theorem Admits.failsOnly_orFail {ε : Type} {line : Line} {cause : ε → Cause}
    {x : Except ε α} (hP : line.Admits P)
    (hknown : ∀ error mnemonic, cause error ≠ .unknownOperation mnemonic)
    (hpooled : ∀ error token, cause error ≠ .unknownLiteral token) :
    FailsOnly P (line.orFail cause x) := by
  cases x with
  | ok a => exact failsOnly_ok a
  | error error => exact hP.failsOnly_fail (hknown error) (hpooled error)

end Line

/-! ## emission -/

namespace Emitter

variable (t : Layout) (e : Emitter) {line : Line} {P : Failure → Prop} (hP : line.Admits P)

include hP

@[simp] theorem failsOnly_absolute (name : String) :
    FailsOnly P (e.absolute t line name) := by
  unfold absolute
  repeat' split
  all_goals simp [hP]

@[simp] theorem failsOnly_register (token : String) :
    FailsOnly P (e.register t line token) := by
  unfold register
  repeat' split
  all_goals simp [hP]

@[simp] theorem failsOnly_value (token : String) (field : Field) :
    FailsOnly P (e.value t line token field) := by
  unfold value
  split <;> simp [hP]

@[simp] theorem failsOnly_resolve (token : String) :
    FailsOnly P (e.resolve t line token) := by
  unfold resolve
  repeat' split
  all_goals simp [hP]

@[simp] theorem failsOnly_literalWord (token : String) :
    FailsOnly P (literalWord line token) := by
  simp [literalWord, hP]

theorem failsOnly_literal (token : String)
    (hpooled : t.literals.get? token = none →
      P (.diagnostic (line.diagnostic (.unknownLiteral token)))) :
    FailsOnly P (literal t line token) := by
  simp only [literal, failsOnly_bind, hP, failsOnly_literalWord, true_and]
  intro _ _
  split
  · exact failsOnly_pure _
  · next hget => exact failsOnly_error.mpr (hpooled hget)

@[simp] theorem failsOnly_address (target : Target) (token : String) :
    FailsOnly P (target.address line token) := by
  cases target <;> simp [Target.address, hP]

@[simp] theorem failsOnly_word (target : Target) (token : String) :
    FailsOnly P (target.word line token) := by
  cases target <;> simp [Target.word, hP]

@[simp] theorem failsOnly_pageOffset (target : Target) (token : String) :
    FailsOnly P (e.pageOffset line token target) := by
  simp [pageOffset, hP]

theorem failsOnly_instruction (op : Opcode)
    (hliteral : ∀ reg token r, line.operandList = [reg, token] → e.register t line reg = .ok r →
      isLiteral token = true → FailsOnly P (literal t line token)) :
    FailsOnly P (e.instruction t line op) := by
  unfold instruction
  split
  case h_6 op reg token operands =>
    simp only [failsOnly_bind, hP, failsOnly_register, true_and]
    intro r hr
    split
    · next hlit => simp [hP, hliteral reg token r operands hr hlit]
    · simp [hP]
  all_goals repeat' split
  all_goals simp [hP]

omit hP in
@[simp] theorem failsOnly_commit (x : Except Failure (Emission × Emitter)) :
    FailsOnly P (e.commit x).1 ↔ FailsOnly P x := by
  cases x <;> simp [commit]

/-- The fields of an instruction always fill a word. -/
theorem failsOnly_emitInstruction (op : Opcode)
    (hliteral : ∀ reg token r, line.operandList = [reg, token] → e.register t line reg = .ok r →
      isLiteral token = true → FailsOnly P (literal t line token)) :
    FailsOnly P (e.emitInstruction t line op) := by
  simp only [emitInstruction, failsOnly_bind, failsOnly_instruction t e hP op hliteral, true_and]
  intro read _
  obtain ⟨word, hword⟩ := read.1.exists_word
  simp [hword]

theorem failsOnly_origin : FailsOnly P line.origin := by
  unfold Line.origin
  split <;> simp [hP]

@[simp] theorem failsOnly_emitOrig : FailsOnly P (e.emitOrig t line).1 := by
  unfold emitOrig
  split
  · next f h => exact failsOnly_error.mpr (failsOnly_origin hP f h)
  · dsimp only
    repeat' split
    all_goals simp [hP]

@[simp] theorem failsOnly_emitEnd : FailsOnly P (e.emitEnd t line) := by
  unfold emitEnd
  split <;> simp [hP]

@[simp] theorem failsOnly_entryPoint (name : String) :
    FailsOnly P (e.entryPoint t line name) := by
  unfold entryPoint
  repeat' split
  all_goals simp [hP]

@[simp] theorem failsOnly_entryRecords (names : List String) :
    FailsOnly P (e.entryRecords t line names) := by
  induction names with
  | nil => simp [entryRecords]
  | cons name names ih => simp [entryRecords, ih, hP]

@[simp] theorem failsOnly_emitEnt : FailsOnly P (e.emitEnt t line) := by
  unfold emitEnt
  dsimp only
  split <;> simp [hP]

theorem failsOnly_declareNames (names : List String) :
    FailsOnly P (declareNames t line e names).1 := by
  induction names generalizing e with
  | nil => simp [declareNames]
  | cons name names ih =>
      rw [declareNames]
      split
      · simp [hP]
      · exact ih _

@[simp] theorem failsOnly_emitExt : FailsOnly P (e.emitExt t line).1 := by
  have hnames := failsOnly_declareNames t e hP line.operandList
  unfold emitExt
  dsimp only
  split
  · simp [hP]
  · split
    · next f e₁ h => exact failsOnly_error.mpr (hnames f (congrArg Prod.fst h))
    · simp

@[simp] theorem failsOnly_emitEqu : FailsOnly P (e.emitEqu t line) := by
  unfold emitEqu
  split <;> simp [hP]

@[simp] theorem failsOnly_emitFill : FailsOnly P (e.emitFill t line) := by
  unfold emitFill
  split <;> simp [hP]

@[simp] theorem failsOnly_blockCount (value : Numeral) :
    FailsOnly P (line.blockCount value) := by
  unfold Line.blockCount
  repeat' split
  all_goals simp [hP]

@[simp] theorem failsOnly_emitBlkw : FailsOnly P (e.emitBlkw t line) := by
  unfold emitBlkw
  split <;> simp [hP]

/-- What is wrong with a line is one of what remains to be found, or its operation, or its
literal. -/
theorem failsOnly_step_of
    (hknown : line.operation? = none →
      P (.diagnostic (line.diagnostic (.unknownOperation line.mnemonic))))
    (hliteral : ∀ op reg token r, line.operation? = some (.instruction op) →
      line.operandList = [reg, token] → e.register t line reg = .ok r →
      isLiteral token = true → FailsOnly P (literal t line token)) :
    FailsOnly P (e.step t line).1 := by
  unfold step
  split
  next hop => exact failsOnly_error.mpr (hknown hop)
  next op hop =>
    rw [failsOnly_commit]
    exact failsOnly_emitInstruction t e hP op fun reg token r => hliteral op reg token r hop
  all_goals simp [hP]

omit hP in
/-- A line is emitted or has a diagnostic. -/
theorem failsOnly_step (line : Line) : FailsOnly line.IsBlamed (e.step t line).1 := by
  refine failsOnly_step_of t e line.admits_isBlamed (fun _ => ⟨_, rfl⟩) ?_
  intro op reg token r _ _ _ _
  exact failsOnly_literal t line.admits_isBlamed token fun _ => ⟨_, rfl⟩

end Emitter

section

variable {line : Line} {P : Failure → Prop} (hP : line.Admits P)

include hP

theorem failsOnly_poolWords (entries : List (String × UInt16)) :
    FailsOnly P (poolWords line entries) := by
  induction entries with
  | nil => simp [poolWords]
  | cons entry entries ih => simp [poolWords, ih, hP]

theorem Layout.failsOnly_pool (t : Layout) : FailsOnly P (t.pool line) := by
  simp [Layout.pool, failsOnly_poolWords, hP]

end

/-! ## runs -/

/-- The failure is a diagnostic about one of the lines. -/
def BlamesOne (lines : List Line) (f : Failure) : Prop := ∃ line ∈ lines, line.IsBlamed f

namespace Run

theorem failsOnly_last (t : Layout) (e : Emitter) (line : Line) :
    FailsOnly line.IsBlamed (last t e line).outcome := by
  unfold last
  split
  · next f h => exact failsOnly_error.mpr (Layout.failsOnly_pool line.admits_isBlamed t f h)
  · rw [outcome_after]
    split
    · next f e₁ h => exact failsOnly_error.mpr (e.failsOnly_step t line f (congrArg Prod.fst h))
    · exact failsOnly_ok _

/-- A run over lines gets to the end or has a diagnostic about one of them. -/
theorem failsOnly_resume (t : Layout) (e : Emitter) (lines : List Line) :
    FailsOnly (BlamesOne lines) (resume t e lines).outcome := by
  fun_induction resume t e lines with
  | case1 e => exact failsOnly_ok _
  | case2 e line => exact (failsOnly_last t e line).mono fun f hf => ⟨line, by simp, hf⟩
  | case3 e line rest hne f e₁ h =>
      have hf := e.failsOnly_step t line f (congrArg Prod.fst h)
      exact failsOnly_error.mpr ⟨line, by simp, hf⟩
  | case4 e line rest hne out e₁ h ih =>
      refine ih.mono fun f hf => ?_
      obtain ⟨other, hmem, hblamed⟩ := hf
      exact ⟨other, List.mem_cons_of_mem _ hmem, hblamed⟩

end Run

/-! ## layouts -/

theorem failsOnly_addCounts (a b : Nat) :
    FailsOnly (· = .fault .countOverflow) (addCounts a b) := by
  unfold addCounts
  split
  · exact failsOnly_ok _
  · exact failsOnly_error.mpr rfl

namespace Scan

variable (s : Scan) (line : Line) (operation : Operation)

@[simp] theorem failsOnly_aliased : FailsOnly line.IsBlamed (s.aliased line) := by
  unfold aliased
  repeat' split
  all_goals simp

@[simp] theorem failsOnly_labelled : FailsOnly line.IsBlamed (s.labelled line operation) := by
  unfold labelled
  split <;> simp

@[simp] theorem failsOnly_define : FailsOnly line.IsBlamed (s.define line operation) := by
  unfold define
  split
  · simp
  · simp only [failsOnly_bind, failsOnly_labelled, true_and]
    intro symbol _
    split <;> simp

@[simp] theorem failsOnly_collect : FailsOnly line.IsBlamed (s.collect line operation) := by
  unfold collect
  dsimp only
  repeat' split
  all_goals simp

@[simp] theorem failsOnly_blockValue : FailsOnly line.IsBlamed (s.blockValue line) := by
  unfold blockValue
  repeat' split
  all_goals simp

/-- The failure is a diagnostic about the line, or a count of words that overflows. -/
def Overflows (line : Line) (f : Failure) : Prop :=
  line.IsBlamed f ∨ f = .fault .countOverflow

theorem failsOnly_words : FailsOnly (Overflows line) (s.words line operation) := by
  have hblock : FailsOnly line.IsBlamed (s.words line (.directive .blkw)) := by
    simp [words]
  unfold words
  split
  · exact failsOnly_ok _
  · exact (failsOnly_addCounts _ _).mono fun f => .inr
  · exact hblock.mono fun f => .inl
  · exact failsOnly_ok _

theorem failsOnly_advance (n : Nat) : FailsOnly (Overflows line) (s.advance n) := by
  have hcount : ∀ a b, FailsOnly (Overflows line) (addCounts a b) := fun a b =>
    (failsOnly_addCounts a b).mono fun f => .inr
  simp [advance, hcount]

theorem failsOnly_line : FailsOnly (Overflows line) (s.line line) := by
  unfold Scan.line
  split
  · exact (line.failsOnly_fail _).mono fun f => .inl
  · simp only [failsOnly_bind, failsOnly_words, failsOnly_advance, implies_true, and_true]
    refine ⟨(failsOnly_define _ line _).mono fun f => .inl, fun s₁ _ => ?_⟩
    exact (failsOnly_collect s₁ line _).mono fun f => .inl

theorem failsOnly_lines (lines : List Line) :
    FailsOnly (fun f => BlamesOne lines f ∨ f = .fault .countOverflow) (s.lines lines) := by
  induction lines generalizing s with
  | nil => exact failsOnly_ok _
  | cons line rest ih =>
      simp only [Scan.lines, failsOnly_bind]
      constructor
      · exact (failsOnly_line s line).mono fun f => .imp_left fun hf => ⟨line, by simp, hf⟩
      · intro s₁ _
        refine (ih s₁).mono fun f => .imp_left fun hf => ?_
        exact hf.imp fun other h => ⟨List.mem_cons_of_mem _ h.1, h.2⟩

end Scan

theorem Layout.mem_of_mem_inner {lines : List Line} {line : Line} (h : line ∈ inner lines) :
    line ∈ lines :=
  List.mem_of_mem_tail (List.dropLast_sublist _ |>.mem h)

/-- Lines are laid out, or there is a diagnostic about one of them, or a count of words
overflows. -/
theorem Layout.failsOnly_ofLines (lines : List Line) :
    FailsOnly (fun f => BlamesOne lines f ∨ f = .fault .countOverflow) (ofLines lines) := by
  have hinner : ∀ origin, FailsOnly (fun f => BlamesOne lines f ∨ f = .fault .countOverflow)
      ((Scan.start origin).lines (inner lines) >>= ofScan origin) := by
    intro origin
    rw [failsOnly_bind]
    constructor
    · refine (Scan.failsOnly_lines _ _).mono fun f => .imp_left fun hf => ?_
      exact hf.imp fun line h => ⟨mem_of_mem_inner h.1, h.2⟩
    · intro s _
      simp only [ofScan, failsOnly_bind, failsOnly_pure, implies_true, and_true]
      exact (failsOnly_addCounts _ _).mono fun f => .inr
  unfold ofLines
  split
  · next first hfirst =>
    rw [failsOnly_bind]
    refine ⟨(Emitter.failsOnly_origin first.admits_isBlamed).mono fun f hf => .inl ⟨first, ?_, hf⟩,
      fun origin _ => hinner origin⟩
    exact List.mem_of_head? hfirst
  · exact hinner 0

/-! ## assemblies -/

/-- Every diagnostic of an assembly is about one of its lines. -/
theorem exists_line_of_attempt {lines : List Line} {d : Diagnostic}
    (h : (attempt lines).outcome = .error (.diagnostic d)) :
    ∃ line ∈ lines, ∃ cause, d = line.diagnostic cause := by
  have hblamed : BlamesOne lines (.diagnostic d) := by
    unfold attempt at h
    split at h
    · next f hlayout =>
      cases h
      exact (Layout.failsOnly_ofLines lines _ hlayout).resolve_right fun hf => nomatch hf
    · next t hlayout =>
      cases hrun : (Run.ofLines t lines).outcome with
      | error f =>
          have hf := Run.failsOnly_resume t _ lines f hrun
          simp only [Run.check, hrun, Except.bind] at h
          cases h
          exact hf
      | ok c =>
          simp only [Run.check, hrun, Except.bind, Layout.confirm] at h
          split at h
          · cases h
          · cases h
  obtain ⟨line, hmem, cause, hcause⟩ := hblamed
  exact ⟨line, hmem, cause, Failure.diagnostic.inj hcause⟩

end PageAsm
