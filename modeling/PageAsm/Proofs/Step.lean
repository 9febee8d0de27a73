import PageAsm.Proofs.Reading

/-!
# PageAsm.Proofs.Step

What one emitted line can do.  `Emitter.Step` lists the ways in which a line
succeeds, one constructor for each kind of operation, with its output, the
state after it and the checks it has passed; `step_ok_iff` states that these
are all the ways there are.  Invariants of an emission are proved by cases on
`Step`, so `Emitter.step` is taken apart here only.

```
instruction   one word, patched where it refers to an address
.ORIG         opens the segment, writes its header
.END          an end record
.ENT          entry records
.EXT          new external names
.EQU          nothing
.FILL         one word, a number or what an operand refers to
.BLKW         moves the location
.STRZ         one word a character, and a zero
```
-/

namespace PageAsm

namespace Emitter

open Outcome

variable {t : Layout} {e e' : Emitter} {line : Line} {out : Emission}

/-- The state after `.ORIG`. -/
def opened (e : Emitter) (line : Line) (origin : UInt16) : Emitter :=
  ⟨origin, origin, Text.alignLeft 6 line.label, origin == 0, e.externals⟩

/-- The execution address that `.END` gives. -/
def EndsAt (t : Layout) (e : Emitter) (line : Line) (address : UInt16) : Prop :=
  if line.operands = "" then address = e.origin
  else ∃ target, e.resolve t line line.operands = .ok target ∧
    target.address line line.operands = .ok address

/-- The value that `.BLKW` finds for its operand. -/
def BlockValue (t : Layout) (e : Emitter) (line : Line) (value : Numeral) : Prop :=
  if isNumeric line.operands then Numeral.parse line.operands = .ok value
  else e.absolute t line line.operands = .ok value

/-- A line that is emitted with success. -/
inductive Step (t : Layout) (e : Emitter) (line : Line) : Emission → Emitter → Prop where
  | instruction {op : Opcode} {i : Instruction} {target? : Option Target} {word : UInt16}
      (operation : line.operation? = some (.instruction op))
      (operands : Reads t e line op i target?)
      (bits : i.word? = some word) :
      Step t e line (e.wordOutput line word (target?.bind (e.patch? .nine))) (e.advance 1)
  | orig {origin : UInt16}
      (operation : line.operation? = some (.directive .orig))
      (operand : line.origin = .ok origin)
      (memory : t.length ≤ 65535)
      (page : origin = 0 → t.length ≤ Page.size) :
      Step t e line
        (bareOutput line [.header (Text.alignLeft 6 line.label) origin (UInt16.ofNat t.length)])
        (e.opened line origin)
  | «end» {address : UInt16}
      (operation : line.operation? = some (.directive .end))
      (operand : e.EndsAt t line address) :
      Step t e line (bareOutput line [.end address]) e
  | ent {records : List Record}
      (operation : line.operation? = some (.directive .ent))
      (few : line.operandList.length ≤ maxNames)
      (names : e.entryRecords t line line.operandList = .ok records) :
      Step t e line (bareOutput line records) e
  | ext
      (operation : line.operation? = some (.directive .ext))
      (few : line.operandList.length ≤ maxNames)
      (fresh : ∀ name ∈ line.operandList, t.symbols.contains name = false) :
      Step t e line (bareOutput line [])
        { e with externals := Names.declareAll e.externals line.operandList }
  | equ
      (operation : line.operation? = some (.directive .equ))
      (operand : e.emitEqu t line = .ok (bareOutput line [])) :
      Step t e line (bareOutput line []) e
  | fillNumber {word : UInt16}
      (operation : line.operation? = some (.directive .fill))
      (numeric : isNumeric line.operands = true)
      (operand : literalWord line line.operands = .ok word) :
      Step t e line (e.wordOutput line word none) (e.advance 1)
  | fillTarget {target : Target} {word : UInt16}
      (operation : line.operation? = some (.directive .fill))
      (numeric : isNumeric line.operands = false)
      (operand : e.resolve t line line.operands = .ok target)
      (bits : target.word line line.operands = .ok word) :
      Step t e line (e.wordOutput line word (e.patch? .sixteen target)) (e.advance 1)
  | blkw {value : Numeral} {count : UInt16}
      (operation : line.operation? = some (.directive .blkw))
      (operand : e.BlockValue t line value)
      (block : line.blockCount value = .ok count) :
      Step t e line ⟨[], [.block e.location line.columns]⟩ (e.advance count)
  | strz
      (operation : line.operation? = some (.directive .strz)) :
      Step t e line (e.emitStrz line).1 (e.emitStrz line).2

/-! ## one lemma for each kind of operation -/

theorem commit_eq_ok {x : Except Failure (Emission × Emitter)} :
    e.commit x = (.ok out, e') ↔ x = .ok (out, e') := by
  cases x with
  | error f => simp [commit]
  | ok p => simp [commit, Prod.ext_iff]

theorem emitInstruction_eq_ok {op : Opcode} :
    e.emitInstruction t line op = .ok (out, e') ↔
      ∃ i target? word, Reads t e line op i target? ∧ i.word? = some word ∧
        out = e.wordOutput line word (target?.bind (e.patch? .nine)) ∧ e' = e.advance 1 := by
  unfold emitInstruction
  rw [bind_eq_ok]
  constructor
  · intro h
    obtain ⟨⟨i, target?⟩, hi, h⟩ := h
    obtain ⟨word, hw⟩ := i.exists_word
    simp only [hw] at h
    cases h
    exact ⟨i, target?, word, instruction_ok_iff.mp hi, hw, rfl, rfl⟩
  · intro h
    obtain ⟨i, target?, word, hi, hw, rfl, rfl⟩ := h
    refine ⟨(i, target?), instruction_ok_iff.mpr hi, ?_⟩
    simp only [hw]
    rfl

theorem emitOrig_eq_ok :
    e.emitOrig t line = (.ok out, e') ↔
      ∃ origin, line.origin = .ok origin ∧ t.length ≤ 65535 ∧
        (origin = 0 → t.length ≤ Page.size) ∧ e' = e.opened line origin ∧
        out = bareOutput line
          [.header (Text.alignLeft 6 line.label) origin (UInt16.ofNat t.length)] := by
  unfold emitOrig
  cases ho : line.origin with
  | error f => simp
  | ok origin =>
      by_cases hm : t.length > 65535
      · have hm' : ¬ t.length ≤ 65535 := by omega
        simp [hm, hm']
      · have hle : t.length ≤ 65535 := by omega
        by_cases hp : origin = 0 ∧ t.length > Page.size
        · have hp' : ¬ t.length ≤ Page.size := by omega
          simp [hm, hp, hp']
        · have hpage : origin = 0 → t.length ≤ Page.size := fun h0 =>
            Nat.le_of_not_gt fun hlt => hp ⟨h0, hlt⟩
          have hcond : (origin == 0 && decide (t.length > Page.size)) = false := by
            simpa using hpage
          simp only [hm, if_false, hcond, Bool.false_eq_true, Prod.mk.injEq, Except.ok.injEq,
            exists_eq_left']
          constructor
          · intro h
            obtain ⟨rfl, rfl⟩ := h
            exact ⟨hle, hpage, rfl, rfl⟩
          · intro h
            obtain ⟨-, -, rfl, rfl⟩ := h
            exact ⟨rfl, rfl⟩

theorem emitEnd_eq_ok :
    e.emitEnd t line = .ok out ↔
      ∃ address, e.EndsAt t line address ∧ out = bareOutput line [.end address] := by
  unfold emitEnd EndsAt
  by_cases hb : line.operands = ""
  · simp only [hb, if_true, bind_eq_ok, pure_eq_ok, Except.ok.injEq, exists_eq_left',
      exists_eq_left]
    exact eq_comm
  · simp only [hb, if_false, bind_eq_ok, pure_eq_ok]
    grind

theorem emitEnt_eq_ok :
    e.emitEnt t line = .ok out ↔
      line.operandList.length ≤ maxNames ∧
        ∃ records, e.entryRecords t line line.operandList = .ok records ∧
          out = bareOutput line records := by
  unfold emitEnt
  by_cases hf : line.operandList.length > maxNames
  · simp only [hf, if_true, Line.fail_ne_ok, false_iff]
    omega
  · simp only [hf, if_false, bind_eq_ok, pure_eq_ok]
    have : line.operandList.length ≤ maxNames := by omega
    grind

/-- `.ENT` writes entry records only. -/
theorem mem_entryRecords {names : List String} {records : List Record} {r : Record}
    (h : e.entryRecords t line names = .ok records) (hr : r ∈ records) :
    ∃ name offset, r = .entry name offset := by
  induction names generalizing records with
  | nil =>
      cases h
      cases hr
  | cons name names ih =>
      simp only [entryRecords, bind_eq_ok, pure_eq_ok] at h
      obtain ⟨offset, -, rest, hrest, rfl⟩ := h
      cases hr with
      | head => exact ⟨name, offset, rfl⟩
      | tail _ hr => exact ih hrest hr

theorem declareNames_eq_ok {names : List String} :
    declareNames t line e names = (.ok (), e') ↔
      (∀ name ∈ names, t.symbols.contains name = false) ∧
        e' = { e with externals := Names.declareAll e.externals names } := by
  induction names generalizing e with
  | nil =>
      simp only [declareNames, Prod.mk.injEq, true_and, List.not_mem_nil, false_implies,
        implies_true, Names.declareAll_nil]
      exact eq_comm
  | cons name names ih =>
      by_cases hc : t.symbols.contains name
      · simp [declareNames, hc, Line.fail]
      · simp [declareNames, hc, ih]

theorem emitExt_eq_ok :
    e.emitExt t line = (.ok out, e') ↔
      line.operandList.length ≤ maxNames ∧
        (∀ name ∈ line.operandList, t.symbols.contains name = false) ∧
        out = bareOutput line [] ∧
        e' = { e with externals := Names.declareAll e.externals line.operandList } := by
  unfold emitExt
  by_cases hf : line.operandList.length > maxNames
  · simp only [hf, if_true, Prod.mk.injEq, Line.fail_ne_ok, false_and, false_iff]
    omega
  · simp only [hf, if_false]
    have hle : line.operandList.length ≤ maxNames := by omega
    rcases hd : declareNames t line e line.operandList with ⟨_ | ⟨⟨⟩⟩, e₁⟩
    · simp only [Prod.mk.injEq, reduceCtorEq, false_and, false_iff]
      intro h
      obtain ⟨-, hfresh, -, rfl⟩ := h
      have hok : declareNames t line e line.operandList = (.ok (), _) :=
        declareNames_eq_ok.mpr ⟨hfresh, rfl⟩
      rw [hd] at hok
      cases hok
    · obtain ⟨hfresh, rfl⟩ := declareNames_eq_ok.mp hd
      simp only [Prod.mk.injEq, Except.ok.injEq]
      constructor
      · intro h
        obtain ⟨rfl, rfl⟩ := h
        exact ⟨hle, hfresh, rfl, rfl⟩
      · intro h
        obtain ⟨-, -, rfl, rfl⟩ := h
        exact ⟨rfl, rfl⟩

theorem emitEqu_eq_ok :
    e.emitEqu t line = .ok out → out = bareOutput line [] := by
  unfold emitEqu
  intro h
  split at h <;> simp only [bind_eq_ok, pure_eq_ok] at h <;> grind

theorem emitFill_eq_ok :
    e.emitFill t line = .ok (out, e') ↔
      (isNumeric line.operands = true ∧ ∃ word, literalWord line line.operands = .ok word ∧
        out = e.wordOutput line word none ∧ e' = e.advance 1) ∨
      (isNumeric line.operands = false ∧ ∃ target word,
        e.resolve t line line.operands = .ok target ∧
        target.word line line.operands = .ok word ∧
        out = e.wordOutput line word (e.patch? .sixteen target) ∧ e' = e.advance 1) := by
  unfold emitFill
  by_cases hn : isNumeric line.operands
  · simp only [hn, if_true, bind_eq_ok, pure_eq_ok, Prod.mk.injEq]
    grind
  · simp only [hn, Bool.false_eq_true, if_false, bind_eq_ok, pure_eq_ok, Prod.mk.injEq]
    grind

theorem emitBlkw_eq_ok :
    e.emitBlkw t line = .ok (out, e') ↔
      ∃ value count, e.BlockValue t line value ∧ line.blockCount value = .ok count ∧
        out = ⟨[], [.block e.location line.columns]⟩ ∧ e' = e.advance count := by
  unfold emitBlkw BlockValue
  by_cases hn : isNumeric line.operands
  · simp only [hn, if_true, bind_eq_ok, pure_eq_ok, Prod.mk.injEq, Line.orFail_eq_ok]
    grind
  · simp only [hn, Bool.false_eq_true, if_false, bind_eq_ok, pure_eq_ok, Prod.mk.injEq]
    grind

/-! ## the step -/

/-- A line is emitted with success exactly in the ways that `Step` lists. -/
theorem step_ok_iff : e.step t line = (.ok out, e') ↔ Step t e line out e' := by
  constructor
  · intro h
    unfold step at h
    split at h
    next hop => simp at h
    next op hop =>
      obtain ⟨i, target?, word, hi, hw, rfl, rfl⟩ := emitInstruction_eq_ok.mp (commit_eq_ok.mp h)
      exact .instruction hop hi hw
    next hop =>
      obtain ⟨origin, ho, hm, hp, rfl, rfl⟩ := emitOrig_eq_ok.mp h
      exact .orig hop ho hm hp
    next hop =>
      obtain ⟨hout, rfl⟩ := Prod.mk.inj h
      obtain ⟨address, ha, rfl⟩ := emitEnd_eq_ok.mp hout
      exact .end hop ha
    next hop =>
      obtain ⟨hout, rfl⟩ := Prod.mk.inj h
      obtain ⟨hf, records, hr, rfl⟩ := emitEnt_eq_ok.mp hout
      exact .ent hop hf hr
    next hop =>
      obtain ⟨hf, hfresh, rfl, rfl⟩ := emitExt_eq_ok.mp h
      exact .ext hop hf hfresh
    next hop =>
      obtain ⟨hout, rfl⟩ := Prod.mk.inj h
      obtain rfl := emitEqu_eq_ok hout
      exact .equ hop hout
    next hop =>
      obtain ⟨hn, word, hw, rfl, rfl⟩ | ⟨hn, target, word, ht, hw, rfl, rfl⟩ :=
        emitFill_eq_ok.mp (commit_eq_ok.mp h)
      · exact .fillNumber hop hn hw
      · exact .fillTarget hop hn ht hw
    next hop =>
      obtain ⟨value, count, hv, hc, rfl, rfl⟩ := emitBlkw_eq_ok.mp (commit_eq_ok.mp h)
      exact .blkw hop hv hc
    next hop =>
      obtain ⟨rfl, rfl⟩ := Prod.mk.inj (Except.ok.inj (commit_eq_ok.mp h))
      exact .strz hop
  · intro h
    cases h with
    | instruction hop hi hw =>
        simp only [step, hop]
        exact commit_eq_ok.mpr (emitInstruction_eq_ok.mpr ⟨_, _, _, hi, hw, rfl, rfl⟩)
    | orig hop ho hm hp =>
        simp only [step, hop]
        exact emitOrig_eq_ok.mpr ⟨_, ho, hm, hp, rfl, rfl⟩
    | «end» hop ha =>
        simp only [step, hop, emitEnd_eq_ok.mpr ⟨_, ha, rfl⟩]
    | ent hop hf hr =>
        simp only [step, hop, emitEnt_eq_ok.mpr ⟨hf, _, hr, rfl⟩]
    | ext hop hf hfresh =>
        simp only [step, hop]
        exact emitExt_eq_ok.mpr ⟨hf, hfresh, rfl, rfl⟩
    | equ hop hq => simp only [step, hop, hq]
    | fillNumber hop hn hw =>
        simp only [step, hop]
        exact commit_eq_ok.mpr (emitFill_eq_ok.mpr (.inl ⟨hn, _, hw, rfl, rfl⟩))
    | fillTarget hop hn ht hw =>
        simp only [step, hop]
        exact commit_eq_ok.mpr (emitFill_eq_ok.mpr (.inr ⟨hn, _, _, ht, hw, rfl, rfl⟩))
    | blkw hop hv hc =>
        simp only [step, hop]
        exact commit_eq_ok.mpr (emitBlkw_eq_ok.mpr ⟨_, _, hv, hc, rfl, rfl⟩)
    | strz hop => simp only [step, hop, commit]

/-! ## lines whose operation is known -/

theorem Step.of_instruction {op : Opcode} (h : Step t e line out e')
    (hop : line.operation? = some (.instruction op)) :
    ∃ i target? word, Reads t e line op i target? ∧ i.word? = some word ∧
      out = e.wordOutput line word (target?.bind (e.patch? .nine)) ∧ e' = e.advance 1 := by
  have hs := step_ok_iff.mpr h
  simp only [step, hop] at hs
  exact emitInstruction_eq_ok.mp (commit_eq_ok.mp hs)

theorem Step.of_orig (h : Step t e line out e')
    (hop : line.operation? = some (.directive .orig)) :
    ∃ origin, line.origin = .ok origin ∧ t.length ≤ 65535 ∧
      (origin = 0 → t.length ≤ Page.size) ∧ e' = e.opened line origin ∧
      out = bareOutput line
        [.header (Text.alignLeft 6 line.label) origin (UInt16.ofNat t.length)] := by
  have hs := step_ok_iff.mpr h
  simp only [step, hop] at hs
  exact emitOrig_eq_ok.mp hs

theorem Step.of_end (h : Step t e line out e')
    (hop : line.operation? = some (.directive .end)) :
    ∃ address, e.EndsAt t line address ∧ out = bareOutput line [.end address] ∧ e' = e := by
  have hs := step_ok_iff.mpr h
  simp only [step, hop, Prod.mk.injEq] at hs
  obtain ⟨address, ha, hout⟩ := emitEnd_eq_ok.mp hs.1
  exact ⟨address, ha, hout, hs.2.symm⟩

theorem Step.of_ent (h : Step t e line out e')
    (hop : line.operation? = some (.directive .ent)) :
    ∃ records, e.entryRecords t line line.operandList = .ok records ∧
      out = bareOutput line records ∧ e' = e := by
  have hs := step_ok_iff.mpr h
  simp only [step, hop, Prod.mk.injEq] at hs
  obtain ⟨-, records, hr, hout⟩ := emitEnt_eq_ok.mp hs.1
  exact ⟨records, hr, hout, hs.2.symm⟩

theorem Step.of_ext (h : Step t e line out e')
    (hop : line.operation? = some (.directive .ext)) :
    out = bareOutput line [] ∧
      e' = { e with externals := Names.declareAll e.externals line.operandList } := by
  have hs := step_ok_iff.mpr h
  simp only [step, hop] at hs
  exact (emitExt_eq_ok.mp hs).2.2

theorem Step.of_equ (h : Step t e line out e')
    (hop : line.operation? = some (.directive .equ)) :
    out = bareOutput line [] ∧ e' = e := by
  have hs := step_ok_iff.mpr h
  simp only [step, hop, Prod.mk.injEq] at hs
  exact ⟨emitEqu_eq_ok hs.1, hs.2.symm⟩

theorem Step.of_fill (h : Step t e line out e')
    (hop : line.operation? = some (.directive .fill)) :
    (isNumeric line.operands = true ∧ ∃ word, literalWord line line.operands = .ok word ∧
      out = e.wordOutput line word none ∧ e' = e.advance 1) ∨
    (isNumeric line.operands = false ∧ ∃ target word,
      e.resolve t line line.operands = .ok target ∧ target.word line line.operands = .ok word ∧
      out = e.wordOutput line word (e.patch? .sixteen target) ∧ e' = e.advance 1) := by
  have hs := step_ok_iff.mpr h
  simp only [step, hop] at hs
  exact emitFill_eq_ok.mp (commit_eq_ok.mp hs)

theorem Step.of_blkw (h : Step t e line out e')
    (hop : line.operation? = some (.directive .blkw)) :
    ∃ value count, e.BlockValue t line value ∧ line.blockCount value = .ok count ∧
      out = ⟨[], [.block e.location line.columns]⟩ ∧ e' = e.advance count := by
  have hs := step_ok_iff.mpr h
  simp only [step, hop] at hs
  exact emitBlkw_eq_ok.mp (commit_eq_ok.mp hs)

theorem Step.of_strz (h : Step t e line out e')
    (hop : line.operation? = some (.directive .strz)) :
    out = (e.emitStrz line).1 ∧ e' = (e.emitStrz line).2 := by
  have hs := step_ok_iff.mpr h
  simp only [step, hop, commit, Prod.mk.injEq, Except.ok.injEq] at hs
  exact ⟨hs.1.symm, hs.2.symm⟩

end Emitter

end PageAsm
