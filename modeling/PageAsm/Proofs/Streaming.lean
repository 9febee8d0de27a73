import PageAsm.Proofs.ListingAgreement

/-!
# PageAsm.Proofs.Streaming

The two files while a run goes on.  Records and rows are written line by line, so
a run that stops has written what belongs to the lines in front:

```
            object                        listing
lines       records of each line          rows of each line
last line   records of the pool, its own  its own rows, rows of the pool
```

A step that fails writes nothing, but the records of the pool are in the object
file by then if the step is that of the last line (`Run.Streams`).

A file with limited room holds the first bytes of what a file without limit
holds.  The first item that does not fit fills its file up and ends the run
(`Delivery.writeAll_of_not_fits`); if there is no such item, the limits change
nothing (`Delivery.writeAll_of_fits`).
-/

namespace PageAsm

/-! ## what a run writes -/

namespace Run

/-- The records and rows that a run over lines writes, and how it ends. -/
inductive Streams (t : Layout) (e : Emitter) :
    List Line → List Record → List Row → Except Failure UInt16 → Prop where
  | nothing : Streams t e [] [] [] (.ok e.location)
  /-- The step of a line fails that is not the last one. -/
  | stopped {done rest : List Line} {line : Line} {outs : List Emission} {e₁ e₂ : Emitter}
      {f : Failure} (steps : Emitter.Steps t e done outs e₁) (more : rest ≠ [])
      (failed : e₁.step t line = (.error f, e₂)) :
      Streams t e (done ++ line :: rest) (outs.flatMap Emission.records)
        (outs.flatMap Emission.rows) (.error f)
  /-- The literal pool fails. -/
  | unpooled {done : List Line} {line : Line} {outs : List Emission} {e₁ : Emitter} {f : Failure}
      (steps : Emitter.Steps t e done outs e₁) (failed : t.pool line = .error f) :
      Streams t e (done ++ [line]) (outs.flatMap Emission.records)
        (outs.flatMap Emission.rows) (.error f)
  /-- The step of the last line fails. -/
  | unfinished {done : List Line} {line : Line} {outs : List Emission} {e₁ e₂ : Emitter}
      {pool : Emission} {f : Failure} (steps : Emitter.Steps t e done outs e₁)
      (pooled : t.pool line = .ok pool) (failed : e₁.step t line = (.error f, e₂)) :
      Streams t e (done ++ [line]) (outs.flatMap Emission.records ++ pool.records)
        (outs.flatMap Emission.rows) (.error f)
  | finished {done : List Line} {line : Line} {outs : List Emission} {e₁ e₂ : Emitter}
      {pool out : Emission} (steps : Emitter.Steps t e done outs e₁)
      (pooled : t.pool line = .ok pool) (ended : e₁.step t line = (.ok out, e₂)) :
      Streams t e (done ++ [line])
        (outs.flatMap Emission.records ++ (pool.records ++ out.records))
        (outs.flatMap Emission.rows ++ (out.rows ++ pool.rows)) (.ok e₁.location)

variable {t : Layout} {e e₁ : Emitter} {line : Line}

/-- A step in front of a run puts its output in front. -/
theorem Streams.cons {rest : List Line} {out : Emission} {records : List Record} {rows : List Row}
    {outcome : Except Failure UInt16} (head : Emitter.Step t e line out e₁) (more : rest ≠ [])
    (tail : Streams t e₁ rest records rows outcome) :
    Streams t e (line :: rest) (out.records ++ records) (out.rows ++ rows) outcome := by
  cases tail with
  | nothing => contradiction
  | stopped steps later failed =>
      have h := Streams.stopped (.cons head steps) later failed
      simpa only [List.flatMap_cons, List.cons_append] using h
  | unpooled steps failed =>
      have h := Streams.unpooled (.cons head steps) failed
      simpa only [List.flatMap_cons, List.cons_append] using h
  | unfinished steps pooled failed =>
      have h := Streams.unfinished (.cons head steps) pooled failed
      simpa only [List.flatMap_cons, List.cons_append, List.append_assoc] using h
  | finished steps pooled ended =>
      have h := Streams.finished (.cons head steps) pooled ended
      simpa only [List.flatMap_cons, List.cons_append, List.append_assoc] using h

theorem records_mk (writes : List Write) (outcome : Except Failure UInt16) :
    (⟨writes, outcome⟩ : Run UInt16).records = writes.filterMap fun w => w.item.record? := rfl

theorem rows_mk (writes : List Write) (outcome : Except Failure UInt16) :
    (⟨writes, outcome⟩ : Run UInt16).rows = writes.filterMap fun w => w.item.row? := rfl

theorem streams_last (t : Layout) (e : Emitter) (line : Line) :
    Streams t e [line] (last t e line).records (last t e line).rows (last t e line).outcome := by
  unfold last
  cases hpool : t.pool line with
  | error f => exact .unpooled .nil hpool
  | ok pool =>
      rcases hstep : e.step t line with ⟨f | out, e₁⟩
      · simp only [records_after, rows_after, outcome_after, filterMap_recordWrites,
          filterMap_row?_recordWrites]
        rw [stop, records_mk, rows_mk, List.filterMap_nil, List.filterMap_nil, List.append_nil]
        exact .unfinished .nil hpool hstep
      · simp only [records_after, rows_after, outcome_after, records_mk, rows_mk,
          List.filterMap_append, filterMap_recordWrites, filterMap_rowWrites,
          filterMap_row?_recordWrites, filterMap_row?_rowWrites, List.append_nil, List.nil_append]
        exact .finished .nil hpool hstep

/-- A run writes the records and rows of its steps, and the pool around the last one. -/
theorem streams_resume (t : Layout) (e : Emitter) (lines : List Line) :
    Streams t e lines (resume t e lines).records (resume t e lines).rows
      (resume t e lines).outcome := by
  induction lines generalizing e with
  | nil => exact .nothing
  | cons line rest ih =>
      cases rest with
      | nil => exact streams_last t e line
      | cons next rest =>
          rcases hstep : e.step t line with ⟨f | out, e₁⟩
          · simp only [resume, hstep]
            exact .stopped .nil (List.cons_ne_nil _ _) hstep
          · simp only [resume, hstep, records_after, rows_after, outcome_after,
              List.filterMap_append, filterMap_recordWrites, filterMap_rowWrites,
              filterMap_row?_recordWrites, filterMap_row?_rowWrites, List.append_nil,
              List.nil_append]
            exact .cons (Emitter.step_ok_iff.mp hstep) (List.cons_ne_nil _ _) (ih e₁)

/-! ## the texts of the files -/

/-- The text that writes put into a file. -/
def textOf (output : Output) (writes : List Write) : String :=
  String.join (writes.map fun w => if w.item.output = output then w.item.text else "")

@[simp] theorem textOf_nil (output : Output) : textOf output [] = "" := rfl

theorem textOf_cons (output : Output) (w : Write) (ws : List Write) :
    textOf output (w :: ws) =
      (if w.item.output = output then w.item.text else "") ++ textOf output ws := by
  simp [textOf]

theorem object_eq {α : Type} (run : Run α) : run.object = textOf .object run.writes := by
  unfold object records
  induction run.writes with
  | nil => rfl
  | cons w ws ih =>
      rw [textOf_cons, ← ih]
      obtain ⟨line, r | r⟩ := w <;> simp [Item.record?, Item.output, Item.text]

theorem listing_eq {α : Type} (run : Run α) : run.listing = textOf .listing run.writes := by
  unfold listing rows
  induction run.writes with
  | nil => rfl
  | cons w ws ih =>
      rw [textOf_cons, ← ih]
      obtain ⟨line, r | r⟩ := w <;> simp [Item.row?, Item.output, Item.text]

end Run

/-! ## files with limited room -/

namespace Sink

/-- There is room for the bytes. -/
def Fits (s : Sink) (bytes : ByteArray) : Prop :=
  ∀ n ∈ s.room, s.contents.size + bytes.size ≤ n

/-- The file with bytes behind its contents. -/
def append (s : Sink) (bytes : ByteArray) : Sink := { s with contents := s.contents ++ bytes }

variable {s : Sink} {bytes more : ByteArray} {text : String}

theorem fits_append : (s.append bytes).Fits more ↔ s.Fits (bytes ++ more) := by
  simp only [Fits, append, ByteArray.size_append, Nat.add_assoc]

theorem fits_of_append (h : s.Fits (bytes ++ more)) : s.Fits bytes := by
  intro n hn
  have hle := h n hn
  rw [ByteArray.size_append] at hle
  omega

theorem append_empty (s : Sink) : s.append ByteArray.empty = s := by
  simp [append]

theorem append_append (s : Sink) (bytes more : ByteArray) :
    (s.append bytes).append more = s.append (bytes ++ more) := by
  simp [append, ByteArray.append_assoc]

theorem write_of_fits (h : s.Fits text.toUTF8) : s.write text = (s.append text.toUTF8, true) := by
  unfold write append
  split
  · rfl
  · next room hroom =>
    have hle := h room hroom
    rw [← ByteArray.size_append] at hle
    exact if_pos hle

/-- A text that does not fit fills the file up. -/
theorem write_of_not_fits (h : ¬ s.Fits text.toUTF8) :
    ∃ s' rest, s.write text = (s', false) ∧ s'.contents ++ rest = s.contents ++ text.toUTF8 ∧
      s.room = some s'.contents.size := by
  simp only [Fits, Classical.not_forall, Nat.not_le, Option.mem_def] at h
  obtain ⟨room, hroom, hlt⟩ := h
  rw [← ByteArray.size_append] at hlt
  refine ⟨{ s with contents := (s.contents ++ text.toUTF8).extract 0 room },
    (s.contents ++ text.toUTF8).extract room (s.contents ++ text.toUTF8).size, ?_, ?_, ?_⟩
  · simp only [write, hroom]
    exact if_neg (Nat.not_le.mpr hlt)
  · rw [ByteArray.extract_append_extract, Nat.zero_min, Nat.max_eq_right (Nat.le_of_lt hlt),
      ByteArray.extract_zero_size]
  · rw [hroom, ByteArray.size_extract, Nat.min_eq_left (Nat.le_of_lt hlt), Nat.sub_zero]

end Sink

namespace Delivery

/-- The files after a write that fits. -/
def accept (sinks : Outputs Sink) (w : Write) : Outputs Sink :=
  sinks.set w.item.output ((sinks.get w.item.output).append w.item.text.toUTF8)

/-- Every file has room for what the writes put into it. -/
def FitsAll (sinks : Outputs Sink) (ws : List Write) : Prop :=
  ∀ output, (sinks.get output).Fits (Run.textOf output ws).toUTF8

variable {sinks : Outputs Sink} {w : Write} {ws : List Write}

/-- Accepting a write and then the others puts the whole text into each file. -/
theorem append_accept (output : Output) :
    ((accept sinks w).get output).append (Run.textOf output ws).toUTF8 =
      (sinks.get output).append (Run.textOf output (w :: ws)).toUTF8 := by
  rw [accept, Outputs.get_set, Run.textOf_cons]
  by_cases h : output = w.item.output
  · subst h
    simp [Sink.append_append]
  · simp [h, Ne.symm h]

theorem fits_accept (output : Output) :
    ((accept sinks w).get output).Fits (Run.textOf output ws).toUTF8 ↔
      (sinks.get output).Fits (Run.textOf output (w :: ws)).toUTF8 := by
  rw [accept, Outputs.get_set, Run.textOf_cons]
  by_cases h : output = w.item.output
  · subst h
    simp [Sink.fits_append]
  · simp [h, Ne.symm h]

theorem room_accept (output : Output) :
    ((accept sinks w).get output).room = (sinks.get output).room := by
  rw [accept, Outputs.get_set]
  split
  · next h => rw [h, Sink.append]
  · rfl

theorem writeAll_cons_of_fits (h : (sinks.get w.item.output).Fits w.item.text.toUTF8) :
    writeAll sinks.object sinks.listing (w :: ws) =
      writeAll (accept sinks w).object (accept sinks w).listing ws := by
  rw [writeAll]
  unfold accept
  cases ho : w.item.output with
  | object =>
      rw [ho] at h
      simp only [Outputs.get] at h
      simp only [Sink.write_of_fits h, Outputs.set, Outputs.get]
  | listing =>
      rw [ho] at h
      simp only [Outputs.get] at h
      simp only [Sink.write_of_fits h, Outputs.set, Outputs.get]

theorem writeAll_cons_of_write {s : Sink}
    (h : (sinks.get w.item.output).write w.item.text = (s, false)) :
    writeAll sinks.object sinks.listing (w :: ws) =
      ((sinks.set w.item.output s).object, (sinks.set w.item.output s).listing, some w) := by
  rw [writeAll]
  cases ho : w.item.output with
  | object =>
      rw [ho] at h
      simp only [Outputs.get] at h
      simp only [h, Outputs.set]
  | listing =>
      rw [ho] at h
      simp only [Outputs.get] at h
      simp only [h, Outputs.set]

/-- Where there is room for everything, everything is written. -/
theorem writeAll_of_fits (h : FitsAll sinks ws) :
    writeAll sinks.object sinks.listing ws =
      (sinks.object.append (Run.textOf .object ws).toUTF8,
        sinks.listing.append (Run.textOf .listing ws).toUTF8, none) := by
  induction ws generalizing sinks with
  | nil => simp [writeAll, Sink.append_empty]
  | cons w ws ih =>
      have hfirst : (sinks.get w.item.output).Fits w.item.text.toUTF8 := by
        have hall := h w.item.output
        rw [Run.textOf_cons, if_pos rfl] at hall
        simp only [String.toUTF8_eq_toByteArray, String.toByteArray_append] at hall
        exact Sink.fits_of_append hall
      have hrest : FitsAll (accept sinks w) ws := fun output => (fits_accept output).mpr (h output)
      rw [writeAll_cons_of_fits hfirst, ih hrest]
      have haccept : ∀ output, ((accept sinks w).get output).append (Run.textOf output ws).toUTF8 =
          (sinks.get output).append (Run.textOf output (w :: ws)).toUTF8 := append_accept
      have hobject := haccept .object
      have hlisting := haccept .listing
      simp only [Outputs.get] at hobject hlisting
      rw [hobject, hlisting]

/-- Where there is not, the files hold the first bytes of it, and the file of the write
that is refused is full. -/
theorem writeAll_of_not_fits (hempty : ∀ output, (sinks.get output).Fits ByteArray.empty)
    (h : ¬ FitsAll sinks ws) :
    ∃ (sinks' : Outputs Sink) (w : Write),
      writeAll sinks.object sinks.listing ws = (sinks'.object, sinks'.listing, some w) ∧
      (∀ output, ∃ rest, (sinks'.get output).contents ++ rest =
        ((sinks.get output).append (Run.textOf output ws).toUTF8).contents) ∧
      (sinks.get w.item.output).room = some (sinks'.get w.item.output).contents.size := by
  induction ws generalizing sinks with
  | nil => exact absurd hempty h
  | cons w ws ih =>
      by_cases hfirst : (sinks.get w.item.output).Fits w.item.text.toUTF8
      · -- the write fits, and one of the others does not
        have hrest : ¬ FitsAll (accept sinks w) ws := fun hall =>
          h fun output => (fits_accept output).mp (hall output)
        have hempty' : ∀ output, ((accept sinks w).get output).Fits ByteArray.empty := by
          intro output
          rw [accept, Outputs.get_set]
          split
          · rw [Sink.fits_append, ByteArray.append_empty]
            exact hfirst
          · exact hempty output
        obtain ⟨sinks', refused, hwrite, hinitial, hfull⟩ := ih hempty' hrest
        refine ⟨sinks', refused, ?_, fun output => ?_, ?_⟩
        · rw [writeAll_cons_of_fits hfirst, hwrite]
        · rw [← append_accept]
          exact hinitial output
        · rw [← hfull, room_accept]
      · obtain ⟨s, rest, hwrite, hinitial, hfull⟩ := Sink.write_of_not_fits hfirst
        refine ⟨sinks.set w.item.output s, w, writeAll_cons_of_write hwrite, fun output => ?_, ?_⟩
        · rw [Outputs.get_set, Run.textOf_cons]
          split
          · next heq =>
            refine ⟨rest ++ (Run.textOf output ws).toUTF8, ?_⟩
            rw [← ByteArray.append_assoc, hinitial, heq]
            simp [Sink.append, ByteArray.append_assoc]
          · exact ⟨_, rfl⟩
        · rw [Outputs.get_set, if_pos rfl, hfull]

/-! ## delivered runs -/

variable {α : Type} (run : Run α) {objectRoom listingRoom : Option Nat}

theorem fitsAll_empty_iff :
    FitsAll ⟨.empty objectRoom, .empty listingRoom⟩ run.writes ↔
      (∀ n ∈ objectRoom, run.object.toUTF8.size ≤ n) ∧
        ∀ n ∈ listingRoom, run.listing.toUTF8.size ≤ n := by
  have hsize : ∀ room bytes, (Sink.empty room).Fits bytes ↔ ∀ n ∈ room, bytes.size ≤ n := by
    intro room bytes
    simp [Sink.Fits, Sink.empty]
  rw [run.object_eq, run.listing_eq, ← hsize, ← hsize]
  constructor
  · intro h
    exact ⟨h .object, h .listing⟩
  · intro h output
    cases output with
    | object => exact h.1
    | listing => exact h.2

/-- With room for everything, the files hold the texts of the run. -/
theorem ofRun_of_fits (hobject : ∀ n ∈ objectRoom, run.object.toUTF8.size ≤ n)
    (hlisting : ∀ n ∈ listingRoom, run.listing.toUTF8.size ≤ n) :
    ofRun run objectRoom listingRoom =
      ⟨run.object.toUTF8, run.listing.toUTF8, run.outcome⟩ := by
  have h := writeAll_of_fits ((fitsAll_empty_iff run).mpr ⟨hobject, hlisting⟩)
  simp only at h
  rw [ofRun, h, run.object_eq, run.listing_eq]
  simp [Sink.append, Sink.empty]

/-- A delivery that was interrupted because a file was full, against one without limits. -/
structure Interrupts (full limited : Delivery α) (objectRoom listingRoom : Option Nat) : Prop where
  reported : ∃ d, limited.outcome = .error (.diagnostic d) ∧ d.code = "io::write"
  object : ∃ rest, full.object = limited.object ++ rest
  listing : ∃ rest, full.listing = limited.listing ++ rest
  filled : objectRoom = some limited.object.size ∨ listingRoom = some limited.listing.size

theorem interrupts_of_not_fits
    (h : ¬ ((∀ n ∈ objectRoom, run.object.toUTF8.size ≤ n) ∧
      ∀ n ∈ listingRoom, run.listing.toUTF8.size ≤ n)) :
    Interrupts ⟨run.object.toUTF8, run.listing.toUTF8, run.outcome⟩
      (ofRun run objectRoom listingRoom) objectRoom listingRoom := by
  rw [← fitsAll_empty_iff] at h
  have hempty : ∀ output, ((⟨.empty objectRoom, .empty listingRoom⟩ : Outputs Sink).get
      output).Fits ByteArray.empty := by
    intro output n _
    cases output <;> exact Nat.zero_le n
  obtain ⟨sinks, w, hwrite, hinitial, hfull⟩ := writeAll_of_not_fits hempty h
  obtain ⟨object, hobject⟩ := hinitial .object
  obtain ⟨listing, hlisting⟩ := hinitial .listing
  simp only at hwrite
  simp only [Outputs.get, Sink.append, Sink.empty, ByteArray.empty_append] at hobject hlisting
  rw [ofRun, hwrite]
  refine ⟨⟨_, rfl, rfl⟩, ⟨object, ?_⟩, ⟨listing, ?_⟩, ?_⟩
  · rw [run.object_eq]
    exact hobject.symm
  · rw [run.listing_eq]
    exact hlisting.symm
  · cases ho : w.item.output with
    | object =>
        rw [ho] at hfull
        exact .inl hfull
    | listing =>
        rw [ho] at hfull
        exact .inr hfull

end Delivery

/-- What the two files hold while a run over lines goes on.  Without limits they hold the
records and rows of the steps up to the first that fails, with the pool around the last
step, a line each.  Files with limited room hold the same if there is room for it;
otherwise the run ends with the diagnostic for it, both files hold the first bytes of
that, and one of them is full.  Lines that cannot be laid out write nothing. -/
theorem limited_files_hold_first_bytes (t : Layout) (lines : List Line)
    (objectRoom listingRoom : Option Nat) :
    (∃ records rows outcome, Run.Streams t (Emitter.start t) lines records rows outcome ∧
      Delivery.ofRun (Run.ofLines t lines) none none =
        ⟨(String.join (records.map fun r => r.render ++ "\n")).toUTF8,
          (String.join (rows.map fun r => r.render ++ "\n")).toUTF8, outcome⟩) ∧
    ((∀ n ∈ objectRoom, (Delivery.ofRun (Run.ofLines t lines) none none).object.size ≤ n) ∧
        (∀ n ∈ listingRoom, (Delivery.ofRun (Run.ofLines t lines) none none).listing.size ≤ n) →
      Delivery.ofRun (Run.ofLines t lines) objectRoom listingRoom =
        Delivery.ofRun (Run.ofLines t lines) none none) ∧
    (¬ ((∀ n ∈ objectRoom, (Delivery.ofRun (Run.ofLines t lines) none none).object.size ≤ n) ∧
        ∀ n ∈ listingRoom, (Delivery.ofRun (Run.ofLines t lines) none none).listing.size ≤ n) →
      Delivery.Interrupts (Delivery.ofRun (Run.ofLines t lines) none none)
        (Delivery.ofRun (Run.ofLines t lines) objectRoom listingRoom) objectRoom listingRoom) ∧
    ∀ f, Layout.ofLines lines = .error f →
      assembleTo lines objectRoom listingRoom = ⟨.empty, .empty, .error f⟩ := by
  have hfull : Delivery.ofRun (Run.ofLines t lines) none none =
      ⟨(Run.ofLines t lines).object.toUTF8, (Run.ofLines t lines).listing.toUTF8,
        (Run.ofLines t lines).outcome⟩ :=
    Delivery.ofRun_of_fits _ (fun _ h => nomatch h) (fun _ h => nomatch h)
  rw [hfull]
  refine ⟨⟨_, _, _, Run.streams_resume t _ lines, rfl⟩, fun h => ?_, fun h => ?_, fun f hf => ?_⟩
  · exact Delivery.ofRun_of_fits _ h.1 h.2
  · exact Delivery.interrupts_of_not_fits _ h
  · rw [assembleTo, attempt, hf]
    rfl

/-- The object file of the segment has room for its header only, and two bytes more. -/
theorem limited_files_hold_first_bytes_fullObject :
    ∃ t limited, Layout.ofLines stringAndLiteral = .ok t ∧
      limited = Delivery.ofRun (Run.ofLines t stringAndLiteral) (some 18) none ∧
      limited.object.size = 18 ∧
      Delivery.Interrupts (Delivery.ofRun (Run.ofLines t stringAndLiteral) none none) limited
        (some 18) none := by
  obtain ⟨t, laid, hsize⟩ : ∃ t, Layout.ofLines stringAndLiteral = .ok t ∧
      18 < (Delivery.ofRun (Run.ofLines t stringAndLiteral) none none).object.size :=
    ⟨_, rfl, by decide +kernel⟩
  have h := (limited_files_hold_first_bytes t stringAndLiteral (some 18) none).2.2.1
    fun hfits => Nat.not_le.mpr hsize (hfits.1 18 rfl)
  refine ⟨t, _, laid, rfl, ?_, h⟩
  exact (Option.some.inj (h.filled.resolve_right fun hnone => nomatch hnone)).symm

end PageAsm
