import PageAsm.Session
import PageAsm.Proofs.Streaming

/-!
# PageAsm.Proofs.OpenFiles

Writing to two files of a disk through buffers.  While a script writes, the
bytes of a file and the text that waits for it are, together, what was handed
over so far:

```
handed over    written            waiting
               bytes on disk      buffer
```

`OpenFiles` describes the disk between two actions.  Each action keeps it
(`OpenFiles.exists_write`), hence also a run of them (`OpenFiles.exists_deliver`),
up to the point where nothing waits any more (`OpenFiles.exists_flush`).
-/

namespace PageAsm

/-- The disk is the one at the start with two files put in. -/
structure Disk.Saves (start : Disk) (places : Outputs Location) (contents : Outputs ByteArray)
    (disk : Disk) : Prop where
  held : ∀ output, disk.files.lookup (places.get output) = some (contents.get output)
  others : ∀ place, (∀ output, place ≠ places.get output) →
    disk.files.lookup place = start.files.lookup place
  workingDirectory : disk.workingDirectory = start.workingDirectory
  directories : disk.directories = start.directories
  devices : disk.devices = start.devices

/-- Two files are open for writing at their ends. -/
structure OpenFiles (start : Disk) (places : Outputs Location) (contents : Outputs ByteArray)
    (disk : Disk) (channels : Outputs (Option Channel)) : Prop where
  distinct : places.object ≠ places.listing
  saves : start.Saves places contents disk
  opened : ∀ output, channels.get output =
    some (.file (places.get output) (contents.get output).size)

/-- The contents with a text at the end of one file. -/
def Outputs.extend (contents : Outputs ByteArray) (output : Output) (text : String) :
    Outputs ByteArray :=
  contents.set output (contents.get output ++ text.toUTF8)

theorem Outputs.get_extend (contents : Outputs ByteArray) (output other : Output) (text : String) :
    (contents.extend output text).get other =
      if other = output then contents.get output ++ text.toUTF8 else contents.get other :=
  Outputs.get_set _ _ _ _

theorem Outputs.extend_empty (contents : Outputs ByteArray) (output : Output) :
    contents.extend output "" = contents := by
  cases output <;> simp [extend, set, get]

theorem Outputs.extend_extend (contents : Outputs ByteArray) (output : Output)
    (text more : String) :
    (contents.extend output text).extend output more = contents.extend output (text ++ more) := by
  cases output <;> simp [extend, set, get, ByteArray.append_assoc]

namespace OpenFiles

variable {start disk : Disk} {places : Outputs Location} {contents : Outputs ByteArray}
  {channels : Outputs (Option Channel)}

/-- The two places are told apart by their files. -/
theorem get_eq_iff (h : OpenFiles start places contents disk channels) {output other : Output} :
    places.get other = places.get output ↔ other = output := by
  have hdistinct := h.distinct
  cases output <;> cases other <;> simp_all [Outputs.get, eq_comm]

/-- A text at the end of an open file leaves everything else as it is. -/
theorem extend (h : OpenFiles start places contents disk channels) (output : Output)
    (text : String) :
    OpenFiles start places (contents.extend output text)
      (disk.put (places.get output) (contents.get output ++ text.toUTF8))
      (channels.set output
        (some (.file (places.get output) ((contents.get output).size + text.toUTF8.size)))) := by
  refine ⟨h.distinct, ⟨fun other => ?_, fun place hplace => ?_, h.saves.workingDirectory,
    h.saves.directories, h.saves.devices⟩, fun other => ?_⟩
  · rw [Disk.lookup_put, Outputs.get_extend, h.saves.held other]
    simp only [h.get_eq_iff]
    split <;> rfl
  · rw [Disk.lookup_put, if_neg (hplace output)]
    exact h.saves.others place hplace
  · rw [Outputs.get_set, Outputs.get_extend, h.opened other]
    split
    · next heq => rw [heq, ByteArray.size_append]
    · rfl

/-- An open file takes every text. -/
theorem exists_write (h : OpenFiles start places contents disk channels) (output : Output)
    (text : String) :
    ∃ disk' channels', OpenFiles start places (contents.extend output text) disk' channels' ∧
      ∀ next, (Script.write output text next).runWith disk channels =
        (next true).runWith disk' channels' := by
  have hold : (disk.files.lookup (places.get output)).getD ByteArray.empty =
      contents.get output := by
    rw [h.saves.held output, Option.getD_some]
  refine ⟨_, _, h.extend output text, fun next => ?_⟩
  simp only [Script.runWith, h.opened output, Disk.write?, hold, Disk.overlay_end]
  simp [Channel.shown]

/-- It takes texts one after the other. -/
theorem exists_writeAll (h : OpenFiles start places contents disk channels) (output : Output)
    (texts : List String) :
    ∃ disk' channels',
      OpenFiles start places (contents.extend output (String.join texts)) disk' channels' ∧
        ∀ next, (Session.writeAll output texts next).runWith disk channels =
          (next true).runWith disk' channels' := by
  induction texts generalizing contents disk channels with
  | nil =>
      refine ⟨disk, channels, ?_, fun next => rfl⟩
      rw [String.join_nil, Outputs.extend_empty]
      exact h
  | cons text texts ih =>
      obtain ⟨disk₁, channels₁, h₁, hrun₁⟩ := h.exists_write output text
      obtain ⟨disk₂, channels₂, h₂, hrun₂⟩ := ih h₁
      rw [Outputs.extend_extend, ← String.join_cons] at h₂
      exact ⟨disk₂, channels₂, h₂, fun next => (hrun₁ _).trans (hrun₂ next)⟩

/-! ## buffers -/

/-- What was handed over to a file: its bytes, and the text that waits. -/
def handed (contents : Outputs ByteArray) (buffers : Outputs Buffer) (output : Output) :
    ByteArray :=
  contents.get output ++ (buffers.get output).pending.toUTF8

theorem handed_pushAll (contents : Outputs ByteArray) (buffers : Outputs Buffer) (w : Write)
    (output : Output) :
    handed (contents.extend w.item.output
        (String.join ((buffers.get w.item.output).pushAll w.item.pieces).1))
      (buffers.set w.item.output ((buffers.get w.item.output).pushAll w.item.pieces).2) output =
        handed contents buffers output ++
          (if w.item.output = output then w.item.text else "").toUTF8 := by
  unfold handed
  rw [Outputs.get_extend, Outputs.get_set]
  by_cases houtput : w.item.output = output
  · subst houtput
    have hjoin := congrArg String.toUTF8
      ((buffers.get w.item.output).join_pushAll w.item.pieces)
    rw [Item.join_pieces] at hjoin
    simp only [String.toUTF8_eq_toByteArray, String.toByteArray_append] at hjoin ⊢
    simp only [if_true, ByteArray.append_assoc, hjoin]
  · simp [houtput, Ne.symm houtput]

/-- Items are handed over to their files. -/
theorem exists_deliver (h : OpenFiles start places contents disk channels)
    (buffers : Outputs Buffer) (ws : List Write) :
    ∃ contents' buffers' disk' channels', OpenFiles start places contents' disk' channels' ∧
      (∀ output, handed contents' buffers' output =
        handed contents buffers output ++ (Run.textOf output ws).toUTF8) ∧
      ∀ next, (Session.deliver buffers ws next).runWith disk channels =
        (next buffers' none).runWith disk' channels' := by
  induction ws generalizing contents buffers disk channels with
  | nil => exact ⟨contents, buffers, disk, channels, h, fun output => by simp, fun next => rfl⟩
  | cons w ws ih =>
      obtain ⟨disk₁, channels₁, h₁, hrun₁⟩ := h.exists_writeAll w.item.output
        ((buffers.get w.item.output).pushAll w.item.pieces).1
      obtain ⟨contents₂, buffers₂, disk₂, channels₂, h₂, hhanded, hrun₂⟩ := ih h₁
        (buffers.set w.item.output ((buffers.get w.item.output).pushAll w.item.pieces).2)
      refine ⟨contents₂, buffers₂, disk₂, channels₂, h₂, fun output => ?_,
        fun next => (hrun₁ _).trans (hrun₂ next)⟩
      rw [hhanded, handed_pushAll, Run.textOf_cons]
      simp [ByteArray.append_assoc]

/-- What waits for the two files is written out, in either order. -/
theorem exists_flush (h : OpenFiles start places contents disk channels)
    (buffers : Outputs Buffer) {first second : Output} (hne : first ≠ second) :
    ∃ contents' disk' channels', OpenFiles start places contents' disk' channels' ∧
      (∀ output, contents'.get output = handed contents buffers output) ∧
      ∀ next : Bool → Bool → Script,
        (Session.flush buffers first fun a => Session.flush buffers second fun b =>
          next a b).runWith disk channels = (next true true).runWith disk' channels' := by
  obtain ⟨disk₁, channels₁, h₁, hrun₁⟩ := h.exists_writeAll first (buffers.get first).flush
  obtain ⟨disk₂, channels₂, h₂, hrun₂⟩ := h₁.exists_writeAll second (buffers.get second).flush
  refine ⟨_, disk₂, channels₂, h₂, fun output => ?_, fun next => (hrun₁ _).trans (hrun₂ _)⟩
  rw [Outputs.get_extend, Outputs.get_extend, Outputs.get_extend, if_neg (Ne.symm hne)]
  simp only [Buffer.join_flush, handed]
  by_cases hsecond : output = second
  · rw [if_pos hsecond, hsecond]
  · have hfirst : output = first := by
      cases output <;> cases first <;> cases second <;> simp_all
    rw [if_neg hsecond, if_pos hfirst, hfirst]

end OpenFiles

/-! ## new files -/

namespace Disk

/-- A file can be made at the path: its directory exists, and there is no directory and no
device in its place. -/
structure Writable (disk : Disk) (path : String) (place : Location) : Prop where
  located : disk.locate path = some place
  directory : disk.isDirectory place = false
  device : disk.devices.lookup place = none

variable {disk : Disk} {path : String} {place : Location}

theorem walk_put (other : Location) (contents : ByteArray) (base : Location)
    (names : List String) : (disk.put other contents).walk base names = disk.walk base names := by
  induction names generalizing base with
  | nil => rfl
  | cons name names ih =>
      simp only [walk, ih]
      rfl

theorem locate_put (other : Location) (contents : ByteArray) (path : String) :
    (disk.put other contents).locate path = disk.locate path := by
  simp only [locate, walk_put]
  rfl

theorem Writable.create (h : disk.Writable path place) :
    disk.create? path = some (disk.put place ByteArray.empty, .file place 0) := by
  simp [create?, h.located, h.directory, h.device]

theorem Writable.put (h : disk.Writable path place) (other : Location) (contents : ByteArray) :
    (disk.put other contents).Writable path place :=
  ⟨(locate_put other contents path).trans h.located, h.directory, h.device⟩

end Disk

namespace OpenFiles

variable {disk : Disk} {places : Outputs Location}

/-- Two files that were just made are empty. -/
theorem ofPut (distinct : places.object ≠ places.listing) :
    OpenFiles disk places (.both ByteArray.empty)
      ((disk.put places.object ByteArray.empty).put places.listing ByteArray.empty)
      ⟨some (.file places.object 0), some (.file places.listing 0)⟩ := by
  refine ⟨distinct, ⟨fun output => ?_, fun place hplace => ?_, rfl, rfl, rfl⟩, fun output => ?_⟩
  · cases output with
    | object => simp [Outputs.get, Outputs.both, distinct]
    | listing => simp [Outputs.get, Outputs.both]
  · have hobject : place ≠ places.object := hplace .object
    have hlisting : place ≠ places.listing := hplace .listing
    simp [hobject, hlisting]
  · cases output <;> rfl

theorem exists_withFiles {object listing : String} (hobject : disk.Writable object places.object)
    (hlisting : disk.Writable listing places.listing) (distinct : places.object ≠ places.listing) :
    ∃ disk' channels', OpenFiles disk places (.both ByteArray.empty) disk' channels' ∧
      ∀ next, (Session.withFiles object listing next).runWith disk (.both none) =
        next.runWith disk' channels' := by
  refine ⟨_, _, ofPut distinct, fun next => ?_⟩
  simp only [Session.withFiles, Script.runWith, hobject.create,
    (hlisting.put places.object ByteArray.empty).create]
  rfl

end OpenFiles

end PageAsm
