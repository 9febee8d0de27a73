import PageAsm.Proofs.Segment

/-!
# PageAsm.Proofs.Framing

The header and end records of an object file.  Source text is read only if its
first line is `.ORIG` and its last one `.END`, so the records begin with the
header of the first line and finish with the end record of the last:

```
P        .ORIG    x3000         HP     30000001
         RET                    T3000D000
         .END                   E3000
```

Nothing is said about `.ORIG` and `.END` on the lines in between.  Each of them
writes a record of its own as well (`Layout.FrameRecords`), and all other lines
write text and entry records only: the records in between are free of headers
and ends exactly if the lines are.
-/

namespace PageAsm

open Outcome

/-! ## lines that are framed -/

/-- Lines with `.ORIG` first and `.END` last, on different lines. -/
inductive IsFramed : List Line → Prop where
  | intro (first : Line) (body : List Line) (last : Line)
      (orig : first.operation? = some (.directive .orig))
      (close : last.operation? = some (.directive .end)) :
      IsFramed (first :: (body ++ [last]))

theorem Line.operation?_of_isDirective {line : Line} {d : Directive}
    (h : line.isDirective d = true) : line.operation? = some (.directive d) := by
  have hmnemonic : line.mnemonic = d.mnemonic := eq_of_beq h
  rw [Line.operation?, hmnemonic]
  exact Operation.parse?_mnemonic d

namespace SourceText

theorem isFramed_of_checkFrame {lines : List Line} (h : checkFrame lines = .ok ()) :
    IsFramed lines := by
  unfold checkFrame at h
  split at h
  · next first last hfirst hlast =>
    split at h
    · cases h
    · next horig =>
      split at h
      · cases h
      · next hend =>
        simp only [Bool.or_eq_true, decide_eq_true_eq, Bool.not_eq_true', not_or,
          Bool.not_eq_false] at horig hend
        obtain ⟨front, rfl⟩ := List.getLast?_eq_some_iff.mp hlast
        cases front with
        | nil => simp at hend
        | cons other body =>
            cases hfirst
            exact .intro first body last (Line.operation?_of_isDirective horig)
              (Line.operation?_of_isDirective hend.2)
  · cases h

/-- Source text that can be read is framed. -/
theorem isFramed_of_read {source : String} {lines : List Line} (h : read source = .ok lines) :
    IsFramed lines := by
  simp only [read, bind_eq_ok, pure_eq_ok] at h
  obtain ⟨lines, -, ⟨⟩, hframe, rfl⟩ := h
  exact isFramed_of_checkFrame hframe

end SourceText

theorem assembleSource_of_read {source : String} {lines : List Line}
    (h : SourceText.read source = .ok lines) :
    assembleSource source = (attempt lines).outcome.map fun t =>
      ⟨t, (attempt lines).object, (attempt lines).listing⟩ := by
  rw [assembleSource, h]
  rfl

/-- Source text that is assembled can be read, and its lines are assembled. -/
theorem exists_lines_of_assembleSource {source : String} {a : Assembly}
    (h : assembleSource source = .ok a) :
    ∃ lines t, SourceText.read source = .ok lines ∧ (attempt lines).outcome = .ok t ∧
      a = ⟨t, (attempt lines).object, (attempt lines).listing⟩ := by
  cases hread : SourceText.read source with
  | error d =>
      rw [assembleSource, hread] at h
      cases h
  | ok lines =>
      rw [assembleSource_of_read hread] at h
      cases hout : (attempt lines).outcome with
      | error f =>
          rw [hout] at h
          cases h
      | ok t =>
          rw [hout] at h
          exact ⟨lines, t, rfl, hout, (Except.ok.inj h).symm⟩

/-! ## header and end records -/

/-- The directive that writes a header or an end record; none for text and entries. -/
def Record.frame? : Record → Option Directive
  | header _ _ _ => some .orig
  | «end» _ => some .end
  | _ => none

/-- The directive of a line that frames a segment. -/
def Line.frame? (line : Line) : Option Directive :=
  match line.operation? with
  | some (.directive .orig) => some .orig
  | some (.directive .end) => some .end
  | _ => none

/-- The record is a header or an end record. -/
def Record.isFrame (r : Record) : Bool := r.frame?.isSome

/-- The header or end record that is written, with its line. -/
def Write.frame? (w : Write) : Option (Line × Record) :=
  (w.item.record?.filter Record.isFrame).map fun r => (w.line, r)

/-- The last of the lines that opens a segment. -/
def Line.opening? (lines : List Line) : Option Line :=
  (lines.filter fun line => line.frame? = some .orig).getLast?

namespace Layout

/-- The record that a line which frames a segment writes below other lines. -/
inductive FrameRecord (t : Layout) (above : List Line) (line : Line) : Record → Prop where
  /-- A header has the label, in six places, the operand and the length of the layout. -/
  | header {origin length : UInt16}
      (operation : line.operation? = some (.directive .orig))
      (operand : line.origin = .ok origin)
      (whole : length.toNat = t.length) :
      FrameRecord t above line (.header (Text.alignLeft 6 line.label) origin length)
  /-- Without an operand, the execution address is the origin of the segment that was opened
  last. -/
  | bareEnd {opening : Line} {origin : UInt16}
      (operation : line.operation? = some (.directive .end))
      (bare : line.operands = "")
      (opened : Line.opening? above = some opening)
      (operand : opening.origin = .ok origin) :
      FrameRecord t above line (.end origin)
  /-- An operand is resolved in the state that the lines above leave. -/
  | «end» {outs : List Emission} {e : Emitter} {target : Target} {address : UInt16}
      (operation : line.operation? = some (.directive .end))
      (given : line.operands ≠ "")
      (emitted : Emitter.Steps t (.start t) above outs e)
      (resolved : e.resolve t line line.operands = .ok target)
      (operand : target.address line line.operands = .ok address) :
      FrameRecord t above line (.end address)

/-- The records of lines that frame segments, one a line and in order, each with its line. -/
inductive FrameRecords (t : Layout) : List Line → List Line → List (Line × Record) → Prop where
  | nil {above : List Line} : FrameRecords t above [] []
  | frame {above lines : List Line} {line : Line} {r : Record} {frames : List (Line × Record)}
      (framed : t.FrameRecord above line r) (rest : FrameRecords t (above ++ [line]) lines frames) :
      FrameRecords t above (line :: lines) ((line, r) :: frames)
  | plain {above lines : List Line} {line : Line} {frames : List (Line × Record)}
      (unframed : line.frame? = none) (rest : FrameRecords t (above ++ [line]) lines frames) :
      FrameRecords t above (line :: lines) frames

variable {t : Layout} {above lines : List Line} {line : Line} {r : Record}
  {frames : List (Line × Record)}

theorem FrameRecord.frame?_ne_none (h : t.FrameRecord above line r) : line.frame? ≠ none := by
  cases h with
  | header operation | bareEnd operation | «end» operation => simp [Line.frame?, operation]

theorem FrameRecord.isFrame (h : t.FrameRecord above line r) : r.isFrame = true := by
  cases h <;> rfl

/-- There are no such records exactly if no line frames a segment. -/
theorem FrameRecords.eq_nil_iff (h : t.FrameRecords above lines frames) :
    frames = [] ↔ ∀ line ∈ lines, line.frame? = none := by
  induction h with
  | nil => simp
  | frame framed rest ih => simp [framed.frame?_ne_none]
  | plain unframed rest ih => simp [unframed, ih]

end Layout

/-! ## steps -/

theorem Line.opening?_append (lines more : List Line) :
    Line.opening? (lines ++ more) = (Line.opening? more).or (Line.opening? lines) := by
  simp only [Line.opening?, List.filter_append, List.getLast?_append]

theorem Line.exists_opening?_append {lines : List Line} {opening : Line}
    (h : Line.opening? lines = some opening) (more : List Line) :
    ∃ other, Line.opening? (lines ++ more) = some other := by
  rw [Line.opening?_append, h]
  cases Line.opening? more with
  | none => exact ⟨opening, rfl⟩
  | some other => exact ⟨other, rfl⟩

theorem Line.opening?_singleton (line : Line) :
    Line.opening? [line] = if line.frame? = some .orig then some line else none := by
  by_cases h : line.frame? = some .orig
  · simp [Line.opening?, h]
  · simp [Line.opening?, h]

namespace Emitter

variable {t : Layout} {e e' : Emitter} {above : List Line} {line : Line} {out : Emission}
  {outs : List Emission}

/-- Only `.ORIG` gives another origin, which is its operand. -/
theorem Step.origin (h : Step t e line out e') :
    if line.frame? = some .orig then line.origin = .ok e'.origin else e'.origin = e.origin := by
  cases h with
  | orig operation operand =>
      rw [if_pos (by rw [Line.frame?, operation])]
      exact operand
  | instruction operation | «end» operation | ent operation | ext operation | equ operation
  | fillNumber operation | fillTarget operation | blkw operation | strz operation =>
      exact (if_neg (by simp [Line.frame?, operation])).mpr rfl

/-- The origin is the operand of the last `.ORIG`. -/
theorem Steps.origin {lines : List Line} (h : Steps t e lines outs e') :
    match Line.opening? lines with
    | some opening => opening.origin = .ok e'.origin
    | none => e'.origin = e.origin := by
  induction h with
  | nil => rfl
  | @cons e e₁ e' line rest out outs head tail ih =>
      rw [← List.singleton_append, Line.opening?_append, Line.opening?_singleton]
      cases hrest : Line.opening? rest with
      | some opening =>
          rw [hrest] at ih
          exact ih
      | none =>
          rw [hrest] at ih
          have horigin := head.origin
          by_cases hline : line.frame? = some .orig
          · rw [if_pos hline] at horigin ⊢
            exact horigin.trans (congrArg Except.ok ih.symm)
          · rw [if_neg hline] at horigin ⊢
            exact ih.trans horigin

/-- What `.END` gives as execution address below some lines, one of which is `.ORIG`. -/
theorem EndsAt.frameRecord {address : UInt16} {opening : Line} (h : e.EndsAt t line address)
    (operation : line.operation? = some (.directive .end))
    (emitted : Steps t (start t) above outs e) (opened : Line.opening? above = some opening) :
    t.FrameRecord above line (.end address) := by
  unfold EndsAt at h
  by_cases hbare : line.operands = ""
  · rw [if_pos hbare] at h
    have horigin := emitted.origin
    rw [opened] at horigin
    exact .bareEnd operation hbare opened (h ▸ horigin)
  · rw [if_neg hbare] at h
    obtain ⟨target, hresolve, haddress⟩ := h
    exact .end operation hbare emitted hresolve haddress

/-- A line that frames a segment writes one record, and other lines write no such record. -/
theorem Step.frameRecord {opening : Line} (h : Step t e line out e')
    (emitted : Steps t (start t) above outs e) (opened : Line.opening? above = some opening) :
    (line.frame? = none ∧ out.records.filter Record.isFrame = []) ∨
      ∃ r, t.FrameRecord above line r ∧ out.records = [r] := by
  cases h with
  | orig operation operand memory =>
      have hlength : (UInt16.ofNat t.length).toNat = t.length :=
        UInt16.toNat_ofNat_of_lt' (Nat.lt_succ_of_le memory)
      exact .inr ⟨_, .header operation operand hlength, rfl⟩
  | «end» operation operand => exact .inr ⟨_, operand.frameRecord operation emitted opened, rfl⟩
  | instruction operation | ext operation | equ operation | fillNumber operation
  | fillTarget operation | blkw operation =>
      exact .inl ⟨by rw [Line.frame?, operation], rfl⟩
  | ent operation few names =>
      refine .inl ⟨by rw [Line.frame?, operation], List.filter_eq_nil_iff.mpr fun r hr => ?_⟩
      obtain ⟨name, offset, rfl⟩ := mem_entryRecords names hr
      exact Bool.false_ne_true
  | strz operation =>
      refine .inl ⟨by rw [Line.frame?, operation], List.filter_eq_nil_iff.mpr fun r hr => ?_⟩
      obtain ⟨word, -, rfl⟩ := List.mem_map.mp hr
      exact Bool.false_ne_true

end Emitter

/-! ## runs -/

theorem Layout.filter_isFrame_pool {t : Layout} {line : Line} {pool : Emission}
    (h : t.pool line = .ok pool) : pool.records.filter Record.isFrame = [] := by
  obtain ⟨words, -, rfl⟩ := Layout.pool_eq_ok.mp h
  refine List.filter_eq_nil_iff.mpr fun r hr => ?_
  obtain ⟨word, -, rfl⟩ := List.mem_map.mp hr
  exact Bool.false_ne_true

namespace Run

theorem map_snd_filterMap_frame? (ws : List Write) :
    (ws.filterMap Write.frame?).map Prod.snd =
      (ws.filterMap fun w => w.item.record?).filter Record.isFrame := by
  induction ws with
  | nil => rfl
  | cons w ws ih =>
      rw [List.filterMap_cons, List.filterMap_cons, Write.frame?]
      cases w.item.record? with
      | none => exact ih
      | some r =>
          rw [List.filter_cons, Option.filter_some]
          cases r.isFrame with
          | false => exact ih
          | true => exact congrArg (r :: ·) ih

theorem filterMap_frame?_recordWrites (line : Line) (out : Emission) :
    (recordWrites line out).filterMap Write.frame? =
      (out.records.filter Record.isFrame).map fun r => (line, r) := by
  rw [recordWrites]
  induction out.records with
  | nil => rfl
  | cons r rs ih =>
      rw [List.map_cons, List.filterMap_cons, List.filter_cons, Write.frame?, Item.record?,
        Option.filter_some]
      cases r.isFrame with
      | false => exact ih
      | true => exact congrArg ((line, r) :: ·) ih

theorem filterMap_frame?_rowWrites (line : Line) (out : Emission) :
    (rowWrites line out).filterMap Write.frame? = [] := by
  rw [rowWrites, List.filterMap_map]
  exact List.filterMap_eq_nil_iff.mpr fun _ _ => rfl

/-- Lines that are emitted below others write the records of those of them that frame segments. -/
theorem frameRecords_lineWrites {t : Layout} {e e' : Emitter} {above lines : List Line}
    {outs outs₀ : List Emission} {opening : Line} (h : Emitter.Steps t e lines outs e')
    (emitted : Emitter.Steps t (.start t) above outs₀ e)
    (opened : Line.opening? above = some opening) :
    t.FrameRecords above lines ((lineWrites lines outs).filterMap Write.frame?) := by
  induction h generalizing above outs₀ opening with
  | nil => exact .nil
  | @cons e e₁ e' line rest out outs head tail ih =>
      obtain ⟨other, hopened⟩ := Line.exists_opening?_append opened [line]
      have hrest := ih (emitted.concat head) hopened
      rw [lineWrites, List.filterMap_append, List.filterMap_append,
        filterMap_frame?_recordWrites, filterMap_frame?_rowWrites, List.append_nil]
      obtain ⟨hplain, hnone⟩ | ⟨r, hframes, hrecords⟩ := head.frameRecord emitted opened
      · rw [hnone]
        exact .plain hplain hrest
      · rw [hrecords, List.filter_cons_of_pos hframes.isFrame]
        exact .frame hframes hrest

end Run

/-! ## assembled segments -/

section

variable {first : Line} {body : List Line} {last : Line} {t : Layout} {s : Scan}
  {outs : List Emission} {e : Emitter} {pool : Emission} {address : UInt16}

namespace Assembled

/-- The first line is emitted in the state at the start. -/
theorem exists_first_step (h : Assembled first body last t s outs e pool address)
    (orig : first.operation? = some (.directive .orig)) :
    ∃ out, Emitter.Step t (.start t) first out ((Emitter.start t).opened first t.origin) :=
  ⟨_, .orig orig h.operand h.memory h.page⟩

/-- The headers and end records that are written, with their lines. -/
theorem filterMap_frame?_writes (h : Assembled first body last t s outs e pool address) :
    (attempt (first :: (body ++ [last]))).writes.filterMap Write.frame? =
      (first, .header (Text.alignLeft 6 first.label) t.origin (UInt16.ofNat t.length)) ::
        ((Run.lineWrites body outs).filterMap Write.frame? ++ [(last, .end address)]) := by
  rw [h.written, Run.lineWrites, Run.lastWrites]
  simp only [List.filterMap_append, Run.filterMap_frame?_recordWrites,
    Run.filterMap_frame?_rowWrites, Layout.filter_isFrame_pool h.pooled]
  rfl

/-- The records of the lines in between and of the pool have the headers and end records of these
lines. -/
theorem filter_isFrame_middle (h : Assembled first body last t s outs e pool address) :
    (outs.flatMap Emission.records ++ pool.records).filter Record.isFrame =
      ((Run.lineWrites body outs).filterMap Write.frame?).map Prod.snd := by
  rw [List.filter_append, Layout.filter_isFrame_pool h.pooled, List.append_nil,
    Run.map_snd_filterMap_frame?, Run.filterMap_lineWrites h.emitted.length_eq]

end Assembled

end

/-- The records of source text that is assembled begin with the header of the first line and
finish with the end record of the last.  The headers and end records in between are those of the
lines in between that are `.ORIG` or `.END`, one each and in order, and are written for these
lines; so there are text and entry records only if no line in between is one of these. -/
theorem frame_records_follow_lines {source : String} {a : Assembly}
    (ok : assembleSource source = .ok a) :
    ∃ first body last name origin length middle address inner,
      SourceText.read source = .ok (first :: (body ++ [last])) ∧
      a.object = (attempt (first :: (body ++ [last]))).object ∧
      (attempt (first :: (body ++ [last]))).records =
        .header name origin length :: (middle ++ [.end address]) ∧
      (attempt (first :: (body ++ [last]))).writes.filterMap Write.frame? =
        (first, .header name origin length) :: (inner ++ [(last, .end address)]) ∧
      a.layout.FrameRecord [] first (.header name origin length) ∧
      a.layout.FrameRecords [first] body inner ∧
      a.layout.FrameRecord (first :: body) last (.end address) ∧
      middle.filter Record.isFrame = inner.map Prod.snd ∧
      ((∀ r ∈ middle, r.frame? = none) ↔ ∀ line ∈ body, line.frame? = none) := by
  obtain ⟨lines, t, hread, hattempt, rfl⟩ := exists_lines_of_assembleSource ok
  obtain ⟨first, body, last, orig, close⟩ := SourceText.isFramed_of_read hread
  obtain ⟨s, outs, e, pool, address, h⟩ := assembled_of_attempt orig close hattempt
  have hopened : Line.opening? [first] = some first := by
    rw [Line.opening?_singleton, Line.frame?, orig]
    rfl
  obtain ⟨out, hfirst⟩ := h.exists_first_step orig
  have hinner := Run.frameRecords_lineWrites h.emitted (.cons hfirst .nil) hopened
  have hmiddle := h.filter_isFrame_middle
  have hrecords := h.records_eq
  rw [← List.append_assoc] at hrecords
  refine ⟨first, body, last, _, _, _, _, _, _, hread, rfl, hrecords, h.filterMap_frame?_writes,
    ?_, hinner, ?_, hmiddle, ?_⟩
  · exact .header orig h.operand (UInt16.toNat_ofNat_of_lt' (Nat.lt_succ_of_le h.memory))
  · obtain ⟨opening, hopening⟩ := Line.exists_opening?_append hopened body
    exact h.ended.frameRecord close (.cons hfirst h.emitted) hopening
  · rw [← hinner.eq_nil_iff, ← List.map_eq_nil_iff (f := Prod.snd), ← hmiddle,
      List.filter_eq_nil_iff]
    simp [Record.isFrame]

/-- Source text with an entry point. -/
def entryPoint : String :=
  "P        .ORIG\nA        RET\n         .ENT     A\n         .END\n"

theorem frame_records_follow_lines_entryPoint :
    ∃ lines, SourceText.read entryPoint = .ok lines ∧
      (attempt lines).records =
        [.header "P     " 0 1, .text 0 0xD000 none, .entry "A" 0, .end 0] ∧
      ∃ name origin length middle address,
        (attempt lines).records = .header name origin length :: (middle ++ [.end address]) ∧
        ∀ r ∈ middle, r.frame? = none := by
  obtain ⟨a, ok⟩ : ∃ a, assembleSource entryPoint = .ok a := ⟨_, rfl⟩
  obtain ⟨first, body, last, name, origin, length, middle, address, inner, hread, -, hrecords, -,
    -, -, -, -, hplain⟩ := frame_records_follow_lines ok
  obtain ⟨lines, hlines, hall, hbody⟩ : ∃ lines, SourceText.read entryPoint = .ok lines ∧
      (attempt lines).records =
        [.header "P     " 0 1, .text 0 0xD000 none, .entry "A" 0, .end 0] ∧
      ∀ line ∈ Layout.inner lines, line.frame? = none := ⟨_, rfl, by decide, by decide⟩
  obtain rfl : lines = _ := Except.ok.inj (hlines.symm.trans hread)
  rw [Layout.inner_segment] at hbody
  exact ⟨_, hlines, hall, name, origin, length, middle, address, hrecords, hplain.mpr hbody⟩

/-- Source text with `.END` on a line in between. -/
def innerEnd : String := "P        .ORIG    x3000\n         .END\n         .END\n"

/-- Two end records are written for it, so that the records between the header and the last
one are not text and entry records only. -/
theorem second_end_of_innerEnd :
    ∃ a lines, assembleSource innerEnd = .ok a ∧ SourceText.read innerEnd = .ok lines ∧
      (attempt lines).records = [.header "P     " 0x3000 0, .end 0x3000, .end 0x3000] ∧
      ¬ ∃ name origin length middle address,
        (attempt lines).records = .header name origin length :: (middle ++ [.end address]) ∧
        ∀ r ∈ middle, r.frame? = none := by
  obtain ⟨a, lines, ok, hread, hrecords⟩ : ∃ a lines, assembleSource innerEnd = .ok a ∧
      SourceText.read innerEnd = .ok lines ∧
      (attempt lines).records = [.header "P     " 0x3000 0, .end 0x3000, .end 0x3000] :=
    ⟨_, _, rfl, rfl, by decide⟩
  refine ⟨a, lines, ok, hread, hrecords, ?_⟩
  intro h
  obtain ⟨name, origin, length, middle, address, hshape, hfree⟩ := h
  have htail : [Record.end 0x3000] ++ [.end 0x3000] = middle ++ [.end address] :=
    (List.cons.inj (hrecords.symm.trans hshape)).2
  have hmiddle : [Record.end 0x3000] = middle := List.append_inj_left' htail rfl
  have hnone := hfree (.end 0x3000) (hmiddle ▸ List.mem_singleton_self _)
  cases hnone

end PageAsm
