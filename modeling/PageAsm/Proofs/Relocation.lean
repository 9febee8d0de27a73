import PageAsm.Proofs.Shift

/-!
# PageAsm.Proofs.Relocation

The patches of a movable segment are right: loading its records at an address
gives the records of the same lines assembled for that address.

```
              assemble at 0
    lines  ------------------>  records with patches
      |                              |
      | assemble at base             | Record.load segment base
      v                              v
    records without patches  ===  the same
```

A patch that is missing, superfluous or of the wrong width would break this for
some load address.  The two assemblies are followed line by line: their layouts
differ by `Layout.shift`, their states by `Emitter.loaded`.
-/

namespace PageAsm

open Outcome

/-! ## loading records -/

/-- Add a load address to the bits of a word that are patched. -/
def PatchWidth.add (base word : UInt16) : PatchWidth → UInt16
  | nine => UInt16.ofNat (word.toNat / 512 * 512 + (word.toNat % 512 + base.toNat) % 512)
  | sixteen => word + base

namespace Record

/-- A record of a movable segment after the segment is loaded at `base`.  Patches against
the segment are carried out; words with any other patch, or none, stay as they are. -/
def load (segment : String) (base : UInt16) : Record → Record
  | text address word (some ⟨width, name⟩) =>
    .text (address + base) (if name = segment then width.add base word else word) none
  | text address word none => .text (address + base) word none
  | entry name offset => .entry name (offset + base)
  | other => other

/-- The record is a word of the segment or one of its entry points. -/
def isLoaded : Record → Bool
  | text _ _ _ => true
  | entry _ _ => true
  | _ => false

@[simp] theorem isLoaded_load (segment : String) (base : UInt16) (r : Record) :
    (r.load segment base).isLoaded = r.isLoaded := by
  cases r with
  | text address word patch? => cases patch? <;> rfl
  | _ => rfl

theorem filter_map_load (segment : String) (base : UInt16) (records : List Record) :
    (records.map (load segment base)).filter isLoaded =
      (records.filter isLoaded).map (load segment base) := by
  rw [List.filter_map]
  simp [Function.comp_def]

end Record

/-! ## targets -/

namespace Target

/-- What an operand refers to when its segment is moved. -/
def shift (base : UInt16) : Target → Target
  | relative address => .relative (address + base)
  | other => other

/-- An address that was taken from a target, when the segment is moved. -/
def move (base : UInt16) : Target → UInt16 → UInt16
  | relative _, address => address + base
  | _, address => address

/-- A word that refers to a target, when the segment is moved. -/
def patched (base : UInt16) (width : PatchWidth) (word : UInt16) : Target → UInt16
  | relative _ => width.add base word
  | _ => word

variable {base : UInt16} {line : Line} {token : String} {target : Target}

theorem address_shift {address : UInt16} (h : target.address line token = .ok address) :
    (target.shift base).address line token = .ok (target.move base address) := by
  cases target with
  | absolute value => exact h
  | relative a => rw [← Except.ok.inj h]; rfl
  | external name => exact h

theorem word_shift {word : UInt16} (h : target.word line token = .ok word) :
    (target.shift base).word line token = .ok (target.patched base .sixteen word) := by
  cases target with
  | absolute value => exact h
  | relative a => rw [← Except.ok.inj h]; rfl
  | external name => exact h

end Target

theorem Page.offset_eq_ok {location address offset : UInt16} :
    Page.offset location address = .ok offset ↔
      Page.ofAddress (location + 1) = Page.ofAddress address ∧
        offset = UInt16.ofNat (address.toNat % 512) := by
  unfold Page.offset
  split
  · next h => simp [h, Page.size, eq_comm]
  · next h => simp [h]

/-! ## the two emissions -/

namespace Emitter

/-- The state in the same segment with a load address. -/
def loaded (base : UInt16) (e : Emitter) : Emitter :=
  { e with location := e.location + base, origin := e.origin + base, relocatable := false }

variable {t : Layout} {e e₁ e₁' : Emitter} {line : Line} {base : UInt16} {segment : String}

theorem absolute_loaded (name : String) :
    (e.loaded base).absolute (t.shift base) line name = e.absolute t line name := by
  unfold absolute
  simp only [loaded, Layout.shift, Table.get?_map]
  split
  · rfl
  · rcases t.symbols.get? name with _ | ⟨value | address | other⟩ <;> rfl

theorem register_loaded (token : String) :
    (e.loaded base).register (t.shift base) line token = e.register t line token := by
  unfold register
  simp only [absolute_loaded]

theorem value_loaded (token : String) (field : Field) :
    (e.loaded base).value (t.shift base) line token field = e.value t line token field := by
  unfold value
  simp only [absolute_loaded]

theorem resolve_loaded (token : String) :
    (e.loaded base).resolve (t.shift base) line token =
      (e.resolve t line token).map (Target.shift base) := by
  unfold resolve
  split
  · cases Numeral.parse token <;> rfl
  · simp only [loaded, Layout.shift, Table.get?_map]
    by_cases hext : token ∈ e.externals
    · simp only [hext, if_true]
      rfl
    · simp only [hext, if_false]
      rcases t.symbols.get? token with _ | ⟨value | address | name⟩
      · rfl
      · rfl
      · rfl
      · simp only [Option.map_some, Symbol.shift]
        by_cases hname : name ∈ e.externals
        · simp only [hname, if_true]
          rfl
        · simp only [hname, if_false]
          rfl

theorem literal_loaded (token : String) :
    literal (t.shift base) line token = (literal t line token).map (Target.shift base) := by
  unfold literal
  simp only [Layout.shift, Table.get?_map]
  cases literalWord line token with
  | error f => rfl
  | ok word => cases t.literals.get? token <;> rfl

theorem entryPoint_loaded (name : String) :
    (e.loaded base).entryPoint (t.shift base) line name =
      (e.entryPoint t line name).map (· + base) := by
  unfold entryPoint
  simp only [loaded, Layout.shift, Table.get?_map]
  by_cases hext : name ∈ e.externals
  · simp only [hext, if_true]
    rfl
  · simp only [hext, if_false]
    rcases t.symbols.get? name with _ | ⟨value | address | other⟩ <;> rfl

theorem entryRecords_loaded (segment : String) (names : List String) :
    (e.loaded base).entryRecords (t.shift base) line names =
      (e.entryRecords t line names).map (List.map (Record.load segment base)) := by
  induction names with
  | nil => rfl
  | cons name names ih =>
      rw [entryRecords, entryRecords, ih, entryPoint_loaded]
      cases e.entryPoint t line name with
      | error f => rfl
      | ok offset => cases e.entryRecords t line names <;> rfl

theorem Addresses.loaded {token : String} {target : Target} (h : e.Addresses t line token target) :
    (e.loaded base).Addresses (t.shift base) line token (target.shift base) := by
  unfold Addresses at h ⊢
  split at h
  · next hlit =>
    rw [if_pos hlit, literal_loaded, h]
    rfl
  · next hlit =>
    rw [if_neg hlit, resolve_loaded, h]
    rfl

theorem Addresses.unique {token : String} {target target' : Target}
    (h : e.Addresses t line token target) (h' : e.Addresses t line token target') :
    target' = target := by
  unfold Addresses at h h'
  split at h
  · next hlit =>
    rw [if_pos hlit, h] at h'
    exact (Except.ok.inj h').symm
  · next hlit =>
    rw [if_neg hlit, h] at h'
    exact (Except.ok.inj h').symm

/-- External names that operands refer to are declared. -/
theorem mem_externals_of_resolve {token name : String}
    (h : e.resolve t line token = .ok (.external name)) : name ∈ e.externals := by
  unfold resolve at h
  split at h
  · obtain ⟨value, -, hvalue⟩ := bind_eq_ok.mp h
    cases hvalue
  · split at h
    · next hext =>
      cases h
      exact hext
    · split at h
      · simp at h
      · split at h
        · next hext =>
          cases h
          exact hext
        · simp at h
      · cases h
      · cases h

theorem Addresses.mem_externals {token name : String}
    (h : e.Addresses t line token (.external name)) : name ∈ e.externals := by
  unfold Addresses at h
  split at h
  · obtain ⟨address, -, htarget⟩ := literal_ok h
    cases htarget
  · exact mem_externals_of_resolve h

/-! ## instructions -/

/-- The offset of a target moves with it, within the nine bits it has. -/
theorem pageOffset_loaded {token : String} {target : Target} {offset offset' : UInt16}
    (h : e.pageOffset line token target = .ok offset)
    (h' : (e.loaded base).pageOffset line token (target.shift base) = .ok offset') :
    offset'.toNat % 512 = (target.move base offset).toNat % 512 := by
  obtain ⟨address, haddr, hpage⟩ := pageOffset_eq_ok.mp h
  obtain ⟨address', haddr', hpage'⟩ := pageOffset_eq_ok.mp h'
  obtain ⟨-, rfl⟩ := Page.offset_eq_ok.mp hpage
  obtain ⟨-, rfl⟩ := Page.offset_eq_ok.mp hpage'
  rw [Target.address_shift haddr] at haddr'
  have hmoved : target.move base address = address' := Except.ok.inj haddr'
  subst hmoved
  cases target with
  | absolute value | external name => rfl
  | relative a =>
      simp only [Target.move, UInt16.toNat_ofNat', UInt16.toNat_add]
      omega

/-- A reference of a branch or a jump, in both segments. -/
theorem resolved_loaded {token : String} {target target' : Target} {offset offset' : UInt16}
    (refers : e.resolve t line token = .ok target)
    (refers' : (e.loaded base).resolve (t.shift base) line token = .ok target')
    (page : e.pageOffset line token target = .ok offset)
    (page' : (e.loaded base).pageOffset line token target' = .ok offset') :
    offset'.toNat % 512 = (target.move base offset).toNat % 512 ∧
      ∀ name, target = .external name → name ∈ e.externals := by
  rw [resolve_loaded, refers] at refers'
  cases refers'
  refine ⟨pageOffset_loaded page page', ?_⟩
  intro name hname
  exact mem_externals_of_resolve (hname ▸ refers)

/-- An instruction read in both segments is the same but for the offset of its target. -/
theorem Reads.loaded {op : Opcode} {i i' : Instruction} {target? target?' : Option Target}
    (h : Reads t e line op i target?)
    (h' : Reads (t.shift base) (e.loaded base) line op i' target?') :
    (target? = none ∧ i' = i) ∨
      ∃ target offset offset', target? = some target ∧ i.offset? = some offset ∧
        i' = i.atOffset offset' ∧
        offset'.toNat % 512 = (target.move base offset).toNat % 512 ∧
        ∀ name, target = .external name → name ∈ e.externals := by
  cases h with
  | arithRegister operands hd hs token hr =>
      cases h' with
      | arithRegister operands' hd' hs' token' hr' => grind [register_loaded]
      | arithImmediate operands' hd' hs' token' hb' => grind
  | arithImmediate operands hd hs token hb =>
      cases h' with
      | arithRegister operands' hd' hs' token' hr' => grind
      | arithImmediate operands' hd' hs' token' hb' => grind [register_loaded, value_loaded]
  | complement operands hd hs =>
      cases h' with
      | complement operands' hd' hs' => grind [register_loaded]
  | branch operands refers page =>
      cases h' with
      | branch operands' refers' page' =>
          rw [operands] at operands'
          cases operands'
          have hmoved := resolved_loaded refers refers' page page'
          exact .inr ⟨_, _, _, rfl, rfl, rfl, hmoved⟩
  | jump operands refers page =>
      cases h' with
      | jump operands' refers' page' =>
          rw [operands] at operands'
          cases operands'
          have hmoved := resolved_loaded refers refers' page page'
          exact .inr ⟨_, _, _, rfl, rfl, rfl, hmoved⟩
  | jumpVia operands hb hbits =>
      cases h' with
      | jumpVia operands' hb' hbits' => grind [register_loaded, value_loaded]
  | transfer operands hr refers page =>
      cases h' with
      | transfer operands' hr' refers' page' =>
          rw [operands] at operands'
          cases operands'
          rw [register_loaded, hr] at hr'
          cases hr'
          rw [refers.loaded.unique refers'] at page'
          refine .inr ⟨_, _, _, rfl, rfl, rfl, pageOffset_loaded page page', ?_⟩
          intro name hname
          exact Addresses.mem_externals (hname ▸ refers)
  | indexed operands hr hb hbits =>
      cases h' with
      | indexed operands' hr' hb' hbits' => grind [register_loaded, value_loaded]
  | ret operands =>
      cases h' with
      | ret operands' => exact .inl ⟨rfl, rfl⟩
  | debug operands =>
      cases h' with
      | debug operands' => exact .inl ⟨rfl, rfl⟩
  | trap operands hbits =>
      cases h' with
      | trap operands' hbits' => grind [value_loaded]

/-- A word with another offset is the word with its low bits patched. -/
theorem word?_moved {i : Instruction} {target : Target} {offset offset' word : UInt16}
    (ho : i.offset? = some offset) (hw : i.word? = some word)
    (hmove : offset'.toNat % 512 = (target.move base offset).toNat % 512) :
    (i.atOffset offset').word? = some (target.patched base .nine word) := by
  obtain ⟨hlow, hother⟩ := Instruction.word?_atOffset ho hw
  rw [hother offset', hmove, Option.some.injEq]
  cases target with
  | absolute value | external name =>
      simp only [Target.move, Target.patched]
      apply UInt16.toNat_inj.mp
      have hlt := word.toNat_lt
      rw [UInt16.toNat_ofNat']
      omega
  | relative a =>
      simp only [Target.move, Target.patched, PatchWidth.add, UInt16.toNat_add]
      congr 1
      omega

/-! ## lines -/

/-- The state is in a segment of the given name that may be moved, and the name is not
also one of an external. -/
structure Movable (segment : String) (e : Emitter) : Prop where
  relocatable : e.relocatable = true
  name : e.segment = segment
  distinct : segment ∉ e.externals

theorem Movable.advance (h : e.Movable segment) (words : UInt16) :
    (e.advance words).Movable segment :=
  ⟨h.relocatable, h.name, h.distinct⟩

theorem advance_loaded (words : UInt16) :
    (e.loaded base).advance words = (e.advance words).loaded base := by
  have hloc : e.location + base + words = e.location + words + base := by ac_rfl
  simp only [Emitter.advance, loaded, hloc]

/-- Loading a word carries its patch out. -/
theorem load_patch? (h : e.Movable segment) {target : Target} (width : PatchWidth)
    (word : UInt16) (hext : ∀ name, target = .external name → name ∈ e.externals) :
    Record.load segment base (.text e.location word (e.patch? width target)) =
      .text (e.location + base) (target.patched base width word) none := by
  cases target with
  | absolute value => simp only [patch?, h.relocatable, if_true, Record.load, Target.patched]
  | relative address =>
      simp only [patch?, h.relocatable, if_true, h.name, Record.load, Target.patched]
  | external name =>
      have hne : name ≠ segment := by
        intro heq
        exact h.distinct (heq ▸ hext name rfl)
      simp only [patch?, h.relocatable, if_true, Record.load, hne, if_false, Target.patched]

theorem blockValue_loaded {value : Numeral} :
    (e.loaded base).BlockValue (t.shift base) line value ↔ e.BlockValue t line value := by
  unfold BlockValue
  rw [absolute_loaded]

theorem BlockValue.unique {value value' : Numeral} (h : e.BlockValue t line value)
    (h' : e.BlockValue t line value') : value' = value := by
  unfold BlockValue at h h'
  split at h
  · next hn =>
    rw [if_pos hn, h] at h'
    exact (Except.ok.inj h').symm
  · next hn =>
    rw [if_neg hn, h] at h'
    exact (Except.ok.inj h').symm

theorem place_shift (base address : UInt16) (words : List UInt16) :
    place (address + base) words = (place address words).map fun p => (p.1 + base, p.2) := by
  unfold place
  rw [List.map_map]
  apply List.map_congr_left
  intro p hp
  simp only [Function.comp_apply, Prod.mk.injEq, and_true]
  ac_rfl

/-- A string in a segment that is moved: the same words at other addresses. -/
theorem exists_emitStrz_loaded (e : Emitter) (line : Line) (base : UInt16) :
    ∃ words : List (UInt16 × UInt16),
      (e.emitStrz line).1.records = words.map (fun p => .text p.1 p.2 none) ∧
      ((e.loaded base).emitStrz line).1.records =
        words.map (fun p => .text (p.1 + base) p.2 none) ∧
      ((e.loaded base).emitStrz line).2 = (e.emitStrz line).2.loaded base := by
  have hplace := place_shift base e.location (stringWords line.operands)
  refine ⟨place e.location (stringWords line.operands), rfl, ?_, ?_⟩
  · simp only [emitStrz, loaded, hplace, List.map_map]
    rfl
  · have hlen : (place (e.loaded base).location (stringWords line.operands)).length =
        (place e.location (stringWords line.operands)).length := by
      simp [place]
    simp only [emitStrz, hlen]
    exact advance_loaded _

/-- A line that is emitted in both segments: the records in the one with a load address
are those in the other, loaded. -/
theorem Step.loaded {out out' : Emission} (h : Step t e line out e₁)
    (h' : Step (t.shift base) (e.loaded base) line out' e₁')
    (hop : line.operation? ≠ some (.directive .orig)) (hm : e.Movable segment)
    (hext : line.operation? = some (.directive .ext) → segment ∉ line.operandList) :
    out'.records.filter Record.isLoaded =
        (out.records.filter Record.isLoaded).map (Record.load segment base) ∧
      e₁' = e₁.loaded base ∧ e₁.Movable segment := by
  cases h with
  | @instruction op i target? word operation operands bits =>
      obtain ⟨i', target?', word', operands', bits', rfl, rfl⟩ := h'.of_instruction operation
      refine ⟨?_, advance_loaded 1, hm.advance 1⟩
      have hnone : target?'.bind ((e.loaded base).patch? .nine) = none := by
        cases target?' <;> rfl
      obtain ⟨rfl, rfl⟩ | ⟨target, offset, offset', rfl, ho, rfl, hmove, hmem⟩ :=
        operands.loaded operands'
      · rw [bits] at bits'
        cases bits'
        rw [hnone]
        rfl
      · rw [word?_moved ho bits hmove] at bits'
        cases bits'
        rw [hnone]
        exact congrArg (fun r => [r]) (load_patch? hm .nine word hmem).symm
  | orig operation => contradiction
  | «end» operation operand =>
      obtain ⟨address', -, rfl, rfl⟩ := h'.of_end operation
      exact ⟨rfl, rfl, hm⟩
  | ent operation few names =>
      obtain ⟨records', names', rfl, rfl⟩ := h'.of_ent operation
      rw [entryRecords_loaded segment, names] at names'
      cases names'
      exact ⟨Record.filter_map_load segment base _, rfl, hm⟩
  | ext operation few fresh =>
      obtain ⟨rfl, rfl⟩ := h'.of_ext operation
      refine ⟨rfl, rfl, hm.relocatable, hm.name, ?_⟩
      exact fun hmem => (Names.mem_declareAll.mp hmem).elim hm.distinct (hext operation)
  | equ operation operand =>
      obtain ⟨rfl, rfl⟩ := h'.of_equ operation
      exact ⟨rfl, rfl, hm⟩
  | fillNumber operation numeric operand =>
      obtain ⟨-, word', operand', rfl, rfl⟩ | ⟨numeric', -⟩ := h'.of_fill operation
      · rw [operand] at operand'
        cases operand'
        exact ⟨rfl, advance_loaded 1, hm.advance 1⟩
      · rw [numeric] at numeric'
        cases numeric'
  | @fillTarget target word operation numeric operand bits =>
      obtain ⟨numeric', -⟩ | ⟨-, target', word', operand', bits', rfl, rfl⟩ := h'.of_fill operation
      · rw [numeric] at numeric'
        cases numeric'
      · rw [resolve_loaded, operand] at operand'
        cases operand'
        rw [Target.word_shift bits] at bits'
        cases bits'
        refine ⟨?_, advance_loaded 1, hm.advance 1⟩
        have hmem : ∀ name, target = .external name → name ∈ e.externals := by
          intro name hname
          exact mem_externals_of_resolve (hname ▸ operand)
        exact congrArg (fun r => [r]) (load_patch? hm .sixteen word hmem).symm
  | blkw operation operand block =>
      obtain ⟨value', count', operand', block', rfl, rfl⟩ := h'.of_blkw operation
      rw [operand.unique (blockValue_loaded.mp operand'), block] at block'
      cases block'
      exact ⟨rfl, advance_loaded _, hm.advance _⟩
  | strz operation =>
      obtain ⟨rfl, rfl⟩ := h'.of_strz operation
      obtain ⟨words, hrecords, hmoved, hstate⟩ := exists_emitStrz_loaded e line base
      refine ⟨?_, hstate, hm.advance _⟩
      rw [← Record.filter_map_load, hrecords, hmoved, List.map_map]
      rfl

/-- Several lines that are emitted in both segments. -/
theorem Steps.loaded {lines : List Line} {outs outs' : List Emission}
    (h : Steps t e lines outs e₁) (h' : Steps (t.shift base) (e.loaded base) lines outs' e₁')
    (hop : ∀ line ∈ lines, line.operation? ≠ some (.directive .orig)) (hm : e.Movable segment)
    (hext : ∀ line ∈ lines, line.operation? = some (.directive .ext) →
      segment ∉ line.operandList) :
    (outs'.flatMap Emission.records).filter Record.isLoaded =
      ((outs.flatMap Emission.records).filter Record.isLoaded).map (Record.load segment base) := by
  induction h generalizing outs' with
  | nil =>
      cases h' with
      | nil => rfl
  | cons head tail ih =>
      cases h' with
      | cons head' tail' =>
          obtain ⟨hfirst, rfl, hm'⟩ := head.loaded head' (hop _ List.mem_cons_self) hm
            (hext _ List.mem_cons_self)
          have hrest := ih tail' (fun line hmem => hop line (List.mem_cons_of_mem _ hmem)) hm'
            fun line hmem => hext line (List.mem_cons_of_mem _ hmem)
          simp only [List.flatMap_cons, List.filter_append, List.map_append, hfirst, hrest]

/-- The state behind `.ORIG` in the two segments. -/
theorem opened_loaded {t t' : Layout} {first : Line} (operand : String) (hzero : t.origin = 0)
    (hbase : t'.origin ≠ 0) :
    (start t').opened { first with operands := operand } t'.origin =
      ((start t).opened first t.origin).loaded t'.origin := by
  have hrel : (t'.origin == 0) = false := by simpa using hbase
  simp only [opened, loaded, start, hzero, hrel, UInt16.zero_add]

end Emitter

/-! ## the literal pool -/

theorem poolWords_shift (base : UInt16) (line : Line) (entries : List (String × UInt16)) :
    poolWords line (entries.map fun entry => (entry.1, entry.2 + base)) =
      (poolWords line entries).map (List.map fun p => (p.1 + base, p.2)) := by
  induction entries with
  | nil => rfl
  | cons entry entries ih =>
      obtain ⟨token, address⟩ := entry
      simp only [List.map_cons, poolWords, ih]
      cases Emitter.literalWord line token with
      | error f => rfl
      | ok word => cases poolWords line entries <;> rfl

/-- The pool of a segment that is moved: the same words at other addresses. -/
theorem Layout.exists_pool_shift {t : Layout} {line : Line} {pool : Emission}
    (base : UInt16) (h : t.pool line = .ok pool) :
    ∃ (words : List (UInt16 × UInt16)) (pool' : Emission),
      pool.records = words.map (fun p => .text p.1 p.2 none) ∧
      (t.shift base).pool line = .ok pool' ∧
      pool'.records = words.map fun p => .text (p.1 + base) p.2 none := by
  obtain ⟨words, hwords, rfl⟩ := Layout.pool_eq_ok.mp h
  have hshift := poolWords_shift base line t.literals.entries
  rw [hwords] at hshift
  refine ⟨words, _, rfl, Layout.pool_eq_ok.mpr ⟨_, hshift, rfl⟩, ?_⟩
  simp only [List.map_map]
  rfl

theorem Layout.pool_shift {t : Layout} {line : Line} {pool pool' : Emission} {base : UInt16}
    (segment : String) (h : t.pool line = .ok pool) (h' : (t.shift base).pool line = .ok pool') :
    pool'.records = pool.records.map (Record.load segment base) := by
  obtain ⟨words, pool'', hrecords, hpool, hmoved⟩ := Layout.exists_pool_shift base h
  rw [hpool] at h'
  cases h'
  rw [hmoved, hrecords, List.map_map]
  rfl

/-! ## segments -/

/-- The name of a segment: the label of its first line, padded to six characters. -/
def segmentName : List Line → String
  | [] => ""
  | first :: _ => Text.alignLeft 6 first.label

/-- The same lines with another operand on the first. -/
def withOrigin (operand : String) : List Line → List Line
  | [] => []
  | first :: rest => { first with operands := operand } :: rest

theorem Assembled.filter_isLoaded {first : Line} {body : List Line} {last : Line} {t : Layout}
    {s : Scan} {outs : List Emission} {e : Emitter} {pool : Emission} {address : UInt16}
    (h : Assembled first body last t s outs e pool address) :
    (attempt (first :: (body ++ [last]))).records.filter Record.isLoaded =
      (outs.flatMap Emission.records).filter Record.isLoaded ++
        pool.records.filter Record.isLoaded := by
  rw [h.records_eq]
  simp [Record.isLoaded]

/-- Assemble a segment once without a load address and once with one.  If no external name
is that of the segment, the text and entry records of the second assembly are those of the
first after loading: addresses and offsets move by the load address, nine or all bits of a
word do where it is patched against the segment, and no other word changes. -/
theorem loading_agrees_with_assembly {lines : List Line} {operand : String} {t t' : Layout}
    (segment : IsSegment lines)
    (distinct : ∀ line ∈ lines, line.operation? = some (.directive .ext) →
      segmentName lines ∉ line.operandList)
    (movable : (attempt lines).outcome = .ok t) (zero : t.origin = 0)
    (fixed : (attempt (withOrigin operand lines)).outcome = .ok t') (base : t'.origin ≠ 0) :
    (attempt (withOrigin operand lines)).records.filter Record.isLoaded =
      ((attempt lines).records.filter Record.isLoaded).map
        (Record.load (segmentName lines) t'.origin) := by
  obtain ⟨first, body, last, orig, inner, close⟩ := segment
  obtain ⟨s, outs, e, pool, address, h⟩ := assembled_of_attempt orig close movable
  have orig' : ({ first with operands := operand } : Line).operation? =
      some (.directive .orig) := orig
  obtain ⟨s', outs', e', pool', address', h'⟩ := assembled_of_attempt orig' close fixed
  have hlayout : t' = t.shift t'.origin :=
    Layout.eq_shift h.scanned h.placed h'.scanned h'.placed (by rw [zero, UInt16.zero_add])
  have hmovable : ((Emitter.start t).opened first t.origin).Movable
      (segmentName (first :: (body ++ [last]))) := by
    refine ⟨?_, rfl, List.not_mem_nil⟩
    rw [zero]
    rfl
  have hsteps : Emitter.Steps (t.shift t'.origin)
      (((Emitter.start t).opened first t.origin).loaded t'.origin) body outs' e' := by
    rw [← Emitter.opened_loaded operand zero base, ← hlayout]
    exact h'.emitted
  have hpooled : (t.shift t'.origin).pool last = .ok pool' := by
    rw [← hlayout]
    exact h'.pooled
  have hcode := h.emitted.loaded hsteps inner hmovable fun line hmem =>
    distinct line (by simp [hmem])
  have hpool := Layout.pool_shift (segmentName (first :: (body ++ [last]))) h.pooled hpooled
  calc (attempt (withOrigin operand (first :: (body ++ [last])))).records.filter Record.isLoaded
      = (outs'.flatMap Emission.records).filter Record.isLoaded ++
          pool'.records.filter Record.isLoaded := h'.filter_isLoaded
    _ = ((outs.flatMap Emission.records).filter Record.isLoaded ++
          pool.records.filter Record.isLoaded).map (Record.load _ t'.origin) := by
        rw [hcode, hpool, Record.filter_map_load, List.map_append]
    _ = _ := by rw [h.filter_isLoaded]

/-- A movable segment with patches of both widths, against itself and an external name. -/
def movablePatches : List Line :=
  [⟨"PROG", ".ORIG", "", 1, .nowhere⟩,
   ⟨"", ".EXT", "PUTS", 2, .nowhere⟩,
   ⟨"MAIN", "LD", "R1,=#-2", 3, .nowhere⟩,
   ⟨"", "JSR", "PUTS", 4, .nowhere⟩,
   ⟨"", ".FILL", "PUTS", 5, .nowhere⟩,
   ⟨"", ".FILL", "MAIN", 6, .nowhere⟩,
   ⟨"", ".ENT", "MAIN", 7, .nowhere⟩,
   ⟨"", ".END", "MAIN", 8, .nowhere⟩]

theorem loading_agrees_with_assembly_movablePatches :
    ∃ t t', (attempt movablePatches).outcome = .ok t ∧
      (attempt (withOrigin "x10" movablePatches)).outcome = .ok t' ∧ t'.origin = 16 ∧
      (attempt (withOrigin "x10" movablePatches)).records.filter Record.isLoaded =
        ((attempt movablePatches).records.filter Record.isLoaded).map
          (Record.load "PROG  " 16) := by
  have segment : IsSegment movablePatches := .intro _ [_, _, _, _, _, _] _ rfl (by decide) rfl
  obtain ⟨t, movable, zero⟩ : ∃ t, (attempt movablePatches).outcome = .ok t ∧ t.origin = 0 :=
    ⟨_, rfl, rfl⟩
  obtain ⟨t', fixed, base⟩ : ∃ t', (attempt (withOrigin "x10" movablePatches)).outcome = .ok t' ∧
      t'.origin = 16 := ⟨_, rfl, rfl⟩
  refine ⟨t, t', movable, fixed, base, ?_⟩
  have hloaded := loading_agrees_with_assembly segment (by decide) movable zero fixed
    (by rw [base]; decide)
  rw [base] at hloaded
  exact hloaded

end PageAsm
