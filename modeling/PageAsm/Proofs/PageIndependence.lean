import PageAsm.Proofs.Patching

/-!
# PageAsm.Proofs.PageIndependence

A movable segment can be put at the start of every page.  If its branches, jumps
and transfers refer to literals and to addresses in the segment only, then its
lines assemble for every load address that is the start of a page, to the same
words:

```
origin 0                   origin base, a multiple of 512
address                    address + base
instruction word           the same
.FILL of an address        word + base
every other word           the same
```

Each check that the lines have passed without a load address is passed again
with one: the scan has room for every address (`Scan.lines_shift_of_length_le`),
offsets in a page do not change (`Page.offset_add`), and operands resolve to
what they did, moved.
-/

namespace PageAsm

open Outcome

/-! ## what moves with a segment -/

/-- The name is that of an address in the segment, and not a numeral. -/
def Layout.isAddress (t : Layout) (name : String) : Bool :=
  !isNumeric name &&
    match t.symbols.get? name with
    | some (.relative _) => true
    | _ => false

theorem Layout.isAddress_iff {t : Layout} {name : String} :
    t.isAddress name = true ↔
      isNumeric name = false ∧ ∃ address, t.symbols.get? name = some (.relative address) := by
  unfold isAddress
  rcases t.symbols.get? name with _ | ⟨value | address | other⟩ <;> simp

/-- The address operand of the instruction, if it has one, is a literal or the name of an
address in the segment. -/
def Line.staysInSegment (t : Layout) (line : Line) : Bool :=
  match line.reference? with
  | some (.nine, token) => line.takesLiteral || t.isAddress token
  | _ => true

/-- The line is `.FILL` with the name of an address in the segment. -/
def Line.fillsAddress (t : Layout) (line : Line) : Bool :=
  match line.reference? with
  | some (.sixteen, token) => t.isAddress token
  | _ => false

namespace Record

def isText : Record → Bool
  | text _ _ _ => true
  | _ => false

/-- A word of a segment that is assembled `base` words further on; the word grows with its
address if it is one. -/
def moved (base : UInt16) (grows : Bool) : Record → Record
  | text address word _ => .text (address + base) (if grows then word + base else word) none
  | other => other

end Record

namespace Write

def isText (w : Write) : Bool :=
  match w.item with
  | .record r => r.isText
  | .row _ => false

/-- What is written for a line in a segment that is assembled `base` words further on. -/
def moved (t : Layout) (base : UInt16) (w : Write) : Write :=
  match w.item with
  | .record r => ⟨w.line, .record (r.moved base (w.line.fillsAddress t))⟩
  | .row _ => w

end Write

namespace Run

theorem filter_isText_recordWrites (line : Line) (out : Emission) :
    (recordWrites line out).filter Write.isText =
      (out.records.filter Record.isText).map fun r => ⟨line, .record r⟩ := by
  simp only [recordWrites, List.filter_map]
  rfl

theorem filter_isText_rowWrites (line : Line) (out : Emission) :
    (rowWrites line out).filter Write.isText = [] := by
  simp [rowWrites, Write.isText]

end Run

/-- The words in the output of a line in the two segments. -/
def Emission.Moves (t : Layout) (base : UInt16) (line : Line) (out out' : Emission) : Prop :=
  out'.records.filter Record.isText =
    (out.records.filter Record.isText).map (Record.moved base (line.fillsAddress t))

theorem Emission.Moves.recordWrites {t : Layout} {base : UInt16} {line : Line}
    {out out' : Emission} (h : Moves t base line out out') :
    (Run.recordWrites line out').filter Write.isText =
      ((Run.recordWrites line out).filter Write.isText).map (Write.moved t base) := by
  rw [Run.filter_isText_recordWrites, Run.filter_isText_recordWrites, h, List.map_map,
    List.map_map]
  rfl

/-- Words that are not patched move alone, unless the line is `.FILL`. -/
theorem Emission.moves_of_words {t : Layout} {base : UInt16} {line : Line} {out out' : Emission}
    {words : List (UInt16 × UInt16)} (hline : line.fillsAddress t = false)
    (h : out.records = words.map fun p => .text p.1 p.2 none)
    (h' : out'.records = words.map fun p => .text (p.1 + base) p.2 none) :
    Moves t base line out out' := by
  have htext : ∀ f : UInt16 × UInt16 → UInt16,
      (words.map fun p => Record.text (f p) p.2 none).filter Record.isText =
        words.map fun p => .text (f p) p.2 none := by
    intro f
    rw [List.filter_eq_self]
    intro r hmem
    obtain ⟨p, -, rfl⟩ := List.mem_map.mp hmem
    rfl
  rw [Moves, h, h', htext, htext, List.map_map, hline]
  rfl

/-! ## pages -/

/-- A move by whole pages keeps the offset of a target. -/
theorem Page.offset_add {base location address offset : UInt16}
    (aligned : base.toNat % Page.size = 0) (h : Page.offset location address = .ok offset) :
    Page.offset (location + base) (address + base) = .ok offset := by
  obtain ⟨hpage, rfl⟩ := Page.offset_eq_ok.mp h
  simp only [Page.ofAddress, Page.size, UInt16.toNat_add] at hpage aligned
  rw [Page.offset_eq_ok]
  constructor
  · simp only [Page.ofAddress, Page.size, UInt16.toNat_add]
    omega
  · apply UInt16.toNat_inj.mp
    simp only [UInt16.toNat_ofNat', UInt16.toNat_add]
    omega

/-! ## one line -/

namespace Emitter

variable {t : Layout} {e e' : Emitter} {line : Line} {out : Emission} {base : UInt16}
  {token : String} {target : Target}

theorem pageOffset_paged {offset address : UInt16} (aligned : base.toNat % Page.size = 0)
    (h : e.pageOffset line token (.relative address) = .ok offset) :
    (e.loaded base).pageOffset line token (Target.shift base (.relative address)) =
      .ok offset := by
  obtain ⟨_, haddress, hpage⟩ := pageOffset_eq_ok.mp h
  cases haddress
  exact pageOffset_eq_ok.mpr ⟨_, rfl, Page.offset_add aligned hpage⟩

theorem resolve_shift (h : e.resolve t line token = .ok target) :
    (e.loaded base).resolve (t.shift base) line token = .ok (target.shift base) := by
  rw [resolve_loaded, h]
  rfl

/-- An operand refers to an address in the segment exactly if it is the name of one. -/
theorem isAddress_iff_of_resolve (hforeign : e.IsForeign t)
    (h : e.resolve t line token = .ok target) :
    t.isAddress token = true ↔ ∃ address, target = .relative address := by
  rw [Layout.isAddress_iff]
  constructor
  · intro hname
    obtain ⟨hnumeric, address, hget⟩ := hname
    rw [resolve_label hforeign hnumeric hget] at h
    exact ⟨address, (Except.ok.inj h).symm⟩
  · intro htarget
    obtain ⟨address, rfl⟩ := htarget
    unfold resolve at h
    split at h
    · obtain ⟨value, -, hvalue⟩ := bind_eq_ok.mp h
      cases hvalue
    · next hnumeric =>
      refine ⟨Bool.eq_false_iff.mpr hnumeric, ?_⟩
      split at h
      · cases h
      · split at h
        · simp at h
        · split at h
          · cases h
          · simp at h
        · cases h
        · next hget => exact ⟨_, hget⟩

/-- What an instruction refers to is in the segment. -/
theorem Reads.relative {op : Opcode} {i : Instruction} (h : Reads t e line op i (some target))
    (hop : line.operation? = some (.instruction op)) (hforeign : e.IsForeign t)
    (stays : line.staysInSegment t = true) : ∃ address, target = .relative address := by
  obtain ⟨-, hnone⟩ | ⟨token, _, href, htarget, hrefers⟩ := h.reference hop
  · cases hnone
  · cases htarget
    rw [Line.staysInSegment, href, Bool.or_eq_true] at stays
    unfold RefersTo at hrefers
    split at hrefers
    · obtain ⟨address, -, rfl⟩ := literal_ok hrefers
      exact ⟨address, rfl⟩
    · next hliteral =>
      exact (isAddress_iff_of_resolve hforeign hrefers).mp (stays.resolve_left hliteral)

/-- An instruction that refers to addresses in the segment only is the same on every
page. -/
theorem Reads.paged {op : Opcode} {i : Instruction} {target? : Option Target}
    (aligned : base.toNat % Page.size = 0) (h : Reads t e line op i target?)
    (relative : ∀ target, target? = some target → ∃ address, target = .relative address) :
    Reads (t.shift base) (e.loaded base) line op i (target?.map (Target.shift base)) := by
  cases h with
  | arithRegister operands hd hs token hr =>
      exact .arithRegister operands ((register_loaded _).trans hd) ((register_loaded _).trans hs)
        token ((register_loaded _).trans hr)
  | arithImmediate operands hd hs token hb =>
      exact .arithImmediate operands ((register_loaded _).trans hd) ((register_loaded _).trans hs)
        token ((value_loaded _ _).trans hb)
  | complement operands hd hs =>
      exact .complement operands ((register_loaded _).trans hd) ((register_loaded _).trans hs)
  | branch operands refers page =>
      obtain ⟨address, rfl⟩ := relative _ rfl
      exact .branch operands (resolve_shift refers) (pageOffset_paged aligned page)
  | jump operands refers page =>
      obtain ⟨address, rfl⟩ := relative _ rfl
      exact .jump operands (resolve_shift refers) (pageOffset_paged aligned page)
  | jumpVia operands hb hbits =>
      exact .jumpVia operands ((register_loaded _).trans hb) ((value_loaded _ _).trans hbits)
  | transfer operands hr refers page =>
      obtain ⟨address, rfl⟩ := relative _ rfl
      exact .transfer operands ((register_loaded _).trans hr) refers.loaded
        (pageOffset_paged aligned page)
  | indexed operands hr hb hbits =>
      exact .indexed operands ((register_loaded _).trans hr) ((register_loaded _).trans hb)
        ((value_loaded _ _).trans hbits)
  | ret operands => exact .ret operands
  | debug operands => exact .debug operands
  | trap operands hbits => exact .trap operands ((value_loaded _ _).trans hbits)

/-- The execution address of a segment that is moved. -/
theorem EndsAt.loaded {address : UInt16} (h : e.EndsAt t line address) :
    ∃ address', (e.loaded base).EndsAt (t.shift base) line address' := by
  unfold EndsAt at h
  split at h
  · next hblank => exact ⟨_, (if_pos hblank).mpr rfl⟩
  · next hblank =>
    obtain ⟨target, hresolve, haddress⟩ := h
    exact ⟨_, (if_neg hblank).mpr
      ⟨_, resolve_shift hresolve, Target.address_shift haddress⟩⟩

/-- A word that `.FILL` takes from an operand grows if that is an address. -/
theorem patched_eq (hforeign : e.IsForeign t) (h : e.resolve t line token = .ok target)
    (word : UInt16) :
    target.patched base .sixteen word = if t.isAddress token then word + base else word := by
  have hiff := isAddress_iff_of_resolve hforeign h
  cases target with
  | relative address =>
      rw [if_pos (hiff.mpr ⟨address, rfl⟩)]
      rfl
  | absolute value | external name =>
      rw [if_neg fun hname => nomatch hiff.mp hname]
      rfl

theorem emitEqu_loaded (h : e.emitEqu t line = .ok (bareOutput line [])) :
    (e.loaded base).emitEqu (t.shift base) line = .ok (bareOutput line []) := by
  unfold emitEqu at h ⊢
  split at h
  · next hnumeric =>
    rw [if_pos hnumeric]
    exact h
  · next hnumeric =>
    obtain ⟨target, hresolve, hout⟩ := bind_eq_ok.mp h
    rw [if_neg hnumeric]
    exact bind_eq_ok.mpr ⟨_, resolve_shift hresolve, hout⟩

theorem filter_isText_entryRecords {names : List String} {records : List Record}
    (h : e.entryRecords t line names = .ok records) : records.filter Record.isText = [] := by
  rw [List.filter_eq_nil_iff]
  intro r hmem
  obtain ⟨name, offset, rfl⟩ := mem_entryRecords h hmem
  exact Bool.false_ne_true

theorem moves_wordOutput {word word' : UInt16} (patch : Option Patch)
    (h : word' = if line.fillsAddress t then word + base else word) :
    (e.wordOutput line word patch).Moves t base line
      ((e.loaded base).wordOutput line word' none) := by
  subst h
  rfl

/-- A line that is emitted without a load address is emitted on every page. -/
theorem Step.paged (aligned : base.toNat % Page.size = 0) (h : Step t e line out e')
    (hop : line.operation? ≠ some (.directive .orig)) (hforeign : e.IsForeign t)
    (stays : line.staysInSegment t = true) :
    ∃ out', Step (t.shift base) (e.loaded base) line out' (e'.loaded base) ∧
      out.Moves t base line out' := by
  cases h with
  | @instruction op i target? word operation operands bits =>
      have hrelative : ∀ target, target? = some target →
          ∃ address, target = .relative address := by
        intro target htarget
        exact (htarget ▸ operands).relative operation hforeign stays
      -- nine bits of an instruction refer to an address, never all of them
      have hword : line.fillsAddress t = false := by
        obtain ⟨href, -⟩ | ⟨token, target, href, -⟩ := operands.reference operation
        · rw [Line.fillsAddress, href]
        · rw [Line.fillsAddress, href]
      have hstep := Step.instruction operation (operands.paged aligned hrelative) bits
      have hpatch : (target?.map (Target.shift base)).bind ((e.loaded base).patch? .nine) =
          none := by
        cases target? <;> rfl
      rw [hpatch, advance_loaded] at hstep
      exact ⟨_, hstep, moves_wordOutput _ (by rw [hword]; rfl)⟩
  | orig operation => contradiction
  | «end» operation operand =>
      obtain ⟨address', hends⟩ := operand.loaded
      exact ⟨_, .end operation hends, rfl⟩
  | @ent records operation few names =>
      have hrecords : (e.loaded base).entryRecords (t.shift base) line line.operandList = _ :=
        entryRecords_loaded "" line.operandList
      rw [names] at hrecords
      refine ⟨_, .ent operation few hrecords, ?_⟩
      simp only [Emission.Moves, bareOutput, filter_isText_entryRecords names,
        filter_isText_entryRecords hrecords, List.map_nil]
  | ext operation few fresh =>
      refine ⟨_, .ext operation few fun name hmem => ?_, rfl⟩
      exact (Table.contains_map _ _ _).trans (fresh name hmem)
  | equ operation operand => exact ⟨_, .equ operation (emitEqu_loaded operand), rfl⟩
  | fillNumber operation numeric operand =>
      have hstep := Step.fillNumber (t := t.shift base) (e := e.loaded base) operation numeric
        operand
      rw [advance_loaded] at hstep
      have hword : line.fillsAddress t = false := by
        simp [Line.fillsAddress, Line.reference?, operation, Layout.isAddress, numeric]
      exact ⟨_, hstep, moves_wordOutput _ (by rw [hword]; rfl)⟩
  | fillTarget operation numeric operand bits =>
      have hshift : (e.loaded base).resolve (t.shift base) line line.operands = _ :=
        resolve_shift operand
      have hstep := Step.fillTarget operation numeric hshift (Target.word_shift bits)
      rw [advance_loaded, patched_eq hforeign operand] at hstep
      have hword : line.fillsAddress t = t.isAddress line.operands := by
        simp only [Line.fillsAddress, Line.reference?, operation]
      exact ⟨_, hstep, moves_wordOutput _ (by rw [hword])⟩
  | blkw operation operand block =>
      have hvalue : (e.loaded base).BlockValue (t.shift base) line _ :=
        blockValue_loaded.mpr operand
      have hstep := Step.blkw operation hvalue block
      rw [advance_loaded] at hstep
      exact ⟨_, hstep, rfl⟩
  | strz operation =>
      obtain ⟨words, hrecords, hmoved, hstate⟩ := exists_emitStrz_loaded e line base
      have hstep := Step.strz (t := t.shift base) (e := e.loaded base) operation
      rw [hstate] at hstep
      have hline : line.fillsAddress t = false := by
        simp [Line.fillsAddress, Line.reference?, operation]
      exact ⟨_, hstep, Emission.moves_of_words hline hrecords hmoved⟩

/-- Lines that are emitted without a load address are emitted on every page. -/
theorem Steps.paged (aligned : base.toNat % Page.size = 0) {lines : List Line}
    {outs : List Emission} (h : Steps t e lines outs e')
    (hop : ∀ line ∈ lines, line.operation? ≠ some (.directive .orig)) (hforeign : e.IsForeign t)
    (stays : ∀ line ∈ lines, line.staysInSegment t = true) :
    ∃ outs', Steps (t.shift base) (e.loaded base) lines outs' (e'.loaded base) ∧
      (Run.lineWrites lines outs').filter Write.isText =
        ((Run.lineWrites lines outs).filter Write.isText).map (Write.moved t base) := by
  induction h with
  | nil => exact ⟨[], .nil, rfl⟩
  | cons head tail ih =>
      obtain ⟨out', hstep, hmoves⟩ := head.paged aligned (hop _ List.mem_cons_self) hforeign
        (stays _ List.mem_cons_self)
      obtain ⟨outs', hsteps, hrest⟩ := ih (fun line hmem => hop line (List.mem_cons_of_mem _ hmem))
        (head.foreign hforeign) fun line hmem => stays line (List.mem_cons_of_mem _ hmem)
      refine ⟨out' :: outs', .cons hstep hsteps, ?_⟩
      simp only [Run.lineWrites, List.filter_append, Run.filter_isText_rowWrites, List.append_nil,
        hmoves.recordWrites, hrest, List.map_append]

end Emitter

/-! ## segments -/

/-- The words written for an assembled segment are those of its body and its pool. -/
theorem Assembled.filter_isText {first : Line} {body : List Line} {last : Line} {t : Layout}
    {s : Scan} {outs : List Emission} {e : Emitter} {pool : Emission} {address : UInt16}
    (h : Assembled first body last t s outs e pool address) :
    (attempt (first :: (body ++ [last]))).writes.filter Write.isText =
      (Run.lineWrites body outs).filter Write.isText ++
        (Run.recordWrites last pool).filter Write.isText := by
  rw [h.written]
  simp [Run.lineWrites, Run.lastWrites, Run.filter_isText_rowWrites,
    Run.filter_isText_recordWrites, Emitter.bareOutput, Record.isText]

/-- Take a segment that assembles without a load address, and whose branches, jumps and
transfers refer to literals and addresses in the segment only.  With the start of a page as
its load address it assembles too: all addresses move, `.FILL` words that are addresses move
with them, and every other word stays as it is. -/
theorem assembles_on_every_page {lines : List Line} {operand : String} {t : Layout}
    {base : UInt16} (segment : IsSegment lines) (ok : (attempt lines).outcome = .ok t)
    (zero : t.origin = 0) (stays : ∀ line ∈ lines, line.staysInSegment t = true)
    (given : ∀ first ∈ (withOrigin operand lines).head?, first.origin = .ok base)
    (aligned : base.toNat % Page.size = 0) (nonzero : base ≠ 0) :
    (attempt (withOrigin operand lines)).outcome = .ok (t.shift base) ∧
      (attempt (withOrigin operand lines)).writes.filter Write.isText =
        ((attempt lines).writes.filter Write.isText).map (Write.moved t base) := by
  obtain ⟨first, body, last, orig, inner, close⟩ := segment
  obtain ⟨s, outs, e, pool, address, h⟩ := assembled_of_attempt orig close ok
  have horigin : (t.shift base).origin = base := by
    simp only [Layout.shift, zero, UInt16.zero_add]
  have hnonzero : (t.shift base).origin ≠ 0 := by
    rw [horigin]
    exact nonzero
  have hlength : s.length ≤ 65535 := by
    have hcount := h.memory
    rw [(Layout.ofScan_eq_ok.mp h.placed).2] at hcount
    exact Nat.le_trans (Nat.le_add_right _ _) hcount
  have hscan : (Scan.start (t.shift base).origin).lines body = .ok (s.shift base) :=
    Scan.lines_shift_of_length_le h.scanned hlength
  obtain ⟨outs', hsteps, hcode⟩ := h.emitted.paged aligned inner
    (fun _ hmem => absurd hmem List.not_mem_nil) fun line hmem => stays line (by simp [hmem])
  obtain ⟨words, pool', hrecords, hpooled, hmoved⟩ := Layout.exists_pool_shift base h.pooled
  obtain ⟨address', hends⟩ : ∃ address', (e.loaded base).EndsAt (t.shift base) last address' :=
    h.ended.loaded
  have hpool : pool.Moves t base last pool' :=
    Emission.moves_of_words (by simp [Line.fillsAddress, Line.reference?, close]) hrecords hmoved
  have horig : ({ first with operands := operand } : Line).operation? =
      some (.directive .orig) := orig
  have hoperand : ({ first with operands := operand } : Line).origin =
      .ok (t.shift base).origin := by
    rw [horigin]
    exact given _ rfl
  have hemitted : Emitter.Steps (t.shift base) ((Emitter.start (t.shift base)).opened
      { first with operands := operand } (t.shift base).origin) body outs' (e.loaded base) := by
    rw [Emitter.opened_loaded operand zero hnonzero, horigin]
    exact hsteps
  obtain ⟨hok, h'⟩ := assembled_of_parts horig close hoperand hscan (Layout.ofScan_shift h.placed)
    h.memory (fun hzero => absurd hzero hnonzero) hemitted hpooled hends
    (congrArg (· + base) h.confirmed)
  refine ⟨hok, ?_⟩
  calc (attempt (withOrigin operand (first :: (body ++ [last])))).writes.filter Write.isText
      = (Run.lineWrites body outs').filter Write.isText ++
          (Run.recordWrites last pool').filter Write.isText := h'.filter_isText
    _ = ((Run.lineWrites body outs).filter Write.isText ++
          (Run.recordWrites last pool).filter Write.isText).map (Write.moved t base) := by
        rw [hcode, hpool.recordWrites, List.map_append]
    _ = _ := by rw [h.filter_isText]

/-- A movable segment with every kind of operand that may stay on any page. -/
def onePage : List Line :=
  [⟨"PROG", ".ORIG", "", 1, .nowhere⟩,
   ⟨"", ".EXT", "PUTS", 2, .nowhere⟩,
   ⟨"MAIN", "LD", "R1,=#-2", 3, .nowhere⟩,
   ⟨"", "JSR", "MAIN", 4, .nowhere⟩,
   ⟨"", ".FILL", "MAIN", 5, .nowhere⟩,
   ⟨"", ".FILL", "PUTS", 6, .nowhere⟩,
   ⟨"", ".END", "MAIN", 7, .nowhere⟩]

theorem assembles_on_every_page_lastPage :
    ∃ t, (attempt onePage).outcome = .ok t ∧
      (attempt (withOrigin "xFE00" onePage)).outcome = .ok (t.shift 0xFE00) ∧
      (attempt (withOrigin "xFE00" onePage)).writes.filter Write.isText =
        ((attempt onePage).writes.filter Write.isText).map (Write.moved t 0xFE00) := by
  have segment : IsSegment onePage := .intro _ [_, _, _, _, _] _ rfl (by decide) rfl
  obtain ⟨t, ok, zero, stays⟩ : ∃ t, (attempt onePage).outcome = .ok t ∧ t.origin = 0 ∧
      ∀ line ∈ onePage, line.staysInSegment t = true := ⟨_, rfl, rfl, by decide⟩
  have given : ∀ first ∈ (withOrigin "xFE00" onePage).head?, first.origin = .ok 0xFE00 := by
    intro first hfirst
    cases hfirst
    rfl
  exact ⟨t, ok, assembles_on_every_page segment ok zero stays given (by decide) (by decide)⟩

end PageAsm
