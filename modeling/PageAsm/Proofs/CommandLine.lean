import PageAsm.Proofs.OpenFiles
import PageAsm.Proofs.OutputPaths
import PageAsm.Proofs.Placement

/-!
# PageAsm.Proofs.CommandLine

The command line agrees with the library.  For a source file, and a disk on
which nothing is in the way of its output:

```
            status             files                    printed, besides status lines
assemble    of the assembly    the two outputs          nothing
check       of the assembly    as they were             nothing
symbols     of the layout      as they were             the tables
```

The status is 0 for a result, 1 for a diagnostic that the reporter shows, and 101
for other failures.  All that is known of the reporter is that it shows a
diagnostic whose labels are in the source text (`Reporter.ShowsText`), and this
leaves out some that are about a line without an operation.  The other exception
is the file `..asm`, for whose output there is no name
(`Disk.locate_withExtension`).
-/

namespace PageAsm

/-! ## ways to end -/

/-- The labels of a diagnostic mark whole characters of the source text, on whatever line. -/
def Diagnostic.MarksText (source : List Char) (d : Diagnostic) : Prop :=
  ∀ label ∈ d.labels, Text.IsBoundary source label.1.offset ∧ Text.IsBoundary source label.1.stop

theorem Diagnostic.IsPlaced.marksText {source : List Char} {d : Diagnostic}
    (h : d.IsPlaced source) : d.MarksText source :=
  fun label hmem => (h.inText label hmem).2

/-- The reporter shows every diagnostic whose labels mark whole characters of the source text. -/
structure Reporter.ShowsText (reporter : Reporter) : Prop where
  shows : ∀ (source : String) (d : Diagnostic), d.MarksText source.toList →
    (reporter.render? source d).isSome = true

theorem Reporter.showsText_plain : plain.ShowsText where
  shows source d h := by
    have hall : (d.labels.all fun label => decide (label.1.stop ≤ source.utf8ByteSize)) = true :=
      List.all_eq_true.mpr fun label hmem => by
        have hle := (h label hmem).2.le
        rw [← Text.utf8ByteSize_eq] at hle
        exact decide_eq_true hle
    simp only [plain, hall, if_true, Option.isSome_some]

namespace Session

section

variable (reporter : Reporter)

/-- The status for the outcome of an assembly or a part of it. -/
def exitStatus {α : Type} (source : String) : Except Failure α → Nat
  | .ok _ => 0
  | .error (.diagnostic d) => if (reporter.render? source d).isSome then 1 else 101
  | .error (.fault _) => 101

variable {reporter}

theorem exitStatus_eq_zero {α : Type} {source : String} {x : Except Failure α} :
    exitStatus reporter source x = 0 ↔ ∃ a, x = .ok a := by
  cases x with
  | ok a => simp [exitStatus]
  | error f =>
      cases f with
      | fault f => simp [exitStatus]
      | diagnostic d =>
          simp only [exitStatus]
          split <;> simp

theorem exitStatus_map {α β : Type} (source : String) (x : Except Failure α) (f : α → β) :
    exitStatus reporter source (x.map f) = exitStatus reporter source x := by
  cases x with
  | ok a => rfl
  | error f => cases f <;> rfl

/-- A diagnostic is shown if it marks the text, or is about a line that has an operation. -/
theorem exitStatus_eq_one (shows : reporter.ShowsText) {source : String} {d : Diagnostic}
    (h : assembleSource source = .error (.diagnostic d))
    (shown : d.MarksText source.toList ∨ ¬ d.LacksOperation source.toList) :
    exitStatus reporter source (assembleSource source) = 1 := by
  have hmarks : d.MarksText source.toList := by
    obtain hmarks | operation := shown
    · exact hmarks
    · obtain ⟨hplaced, -⟩ | ⟨p, hmem, hp⟩ := Diagnostic.isPlaced_or_exists_read h
      · exact hplaced.marksText
      · exact ((Diagnostic.isPlaced_iff_of_read hmem hp).mpr operation).marksText
  rw [h, exitStatus, if_pos (shows.shows source d hmarks)]

/-- The text for a result, if there is one. -/
def onSuccess {α : Type} (text : α → String) : Except Failure α → String
  | .ok a => text a
  | .error _ => ""

theorem runWith_quitWith (α : Type) (disk : Disk) (channels : Outputs (Option Channel))
    (source : String) (f : Failure) :
    (quitWith reporter source f).runWith disk channels =
      ⟨some (exitStatus reporter source (.error f : Except Failure α)), "", disk⟩ := by
  cases f with
  | fault f => rfl
  | diagnostic d =>
      simp only [quitWith, exitStatus]
      cases reporter.render? source d <;> rfl

end

end Session

theorem assembleSource_of_error {source : String} {d : Diagnostic}
    (h : SourceText.read source = .error d) :
    assembleSource source = .error (.diagnostic d) := by
  rw [assembleSource, h]
  rfl

/-! ## commands -/

/-- The path names a file with source text. -/
structure Disk.HoldsSource (disk : Disk) (path source : String) : Prop where
  extension : Path.extension? path = some "asm"
  contents : disk.read? path = some source

/-- The layout of the segment in a source text. -/
def Layout.ofSource (source : String) : Except Failure Layout := do
  let lines ← (SourceText.read source).mapError .diagnostic
  Layout.ofLines lines

theorem Layout.ofSource_of_error {source : String} {d : Diagnostic}
    (h : SourceText.read source = .error d) :
    Layout.ofSource source = .error (.diagnostic d) := by
  rw [Layout.ofSource, h]
  rfl

theorem Layout.ofSource_of_read {source : String} {lines : List Line}
    (h : SourceText.read source = .ok lines) : Layout.ofSource source = Layout.ofLines lines := by
  rw [Layout.ofSource, h]
  rfl

theorem Layout.ofSource_eq_ok {source : String} {t : Layout} :
    Layout.ofSource source = .ok t ↔
      ∃ lines, SourceText.read source = .ok lines ∧ Layout.ofLines lines = .ok t := by
  cases hread : SourceText.read source with
  | error d => simp [Layout.ofSource_of_error hread]
  | ok lines => simp [Layout.ofSource_of_read hread]

namespace Session

variable {reporter : Reporter} {disk : Disk} {path source : String}

theorem runWith_withLines (h : disk.HoldsSource path source) (channels : Outputs (Option Channel))
    (next : String → List Line → Script) :
    (withLines reporter path next).runWith disk channels =
      match SourceText.read source with
      | .ok lines => (next source lines).runWith disk channels
      | .error d => (quitWith reporter source (.diagnostic d)).runWith disk channels := by
  simp only [withLines, withSource, h.extension, Script.runWith, h.contents]
  cases SourceText.read source <;> rfl

/-- The status lines of a session that checks a file. -/
def checkLines (settings : Settings) (path : String) : Except Failure Assembly → List String
  | .ok _ => [statusOf settings "Checking" path, success settings]
  | .error _ => [statusOf settings "Checking" path]

/-- A check ends as the assembly does. -/
theorem run_check (h : disk.HoldsSource path source) (settings : Settings) :
    (check reporter settings path).run disk =
      ⟨some (exitStatus reporter source (assembleSource source)),
        String.join (checkLines settings path (assembleSource source)) ++ "", disk⟩ := by
  simp only [check, Script.run, Script.runWith, runWith_withLines h]
  cases hread : SourceText.read source with
  | error d => simp [assembleSource_of_error hread, runWith_quitWith Assembly, checkLines]
  | ok lines =>
      rw [assembleSource_of_read hread, exitStatus_map]
      dsimp only
      cases (attempt lines).outcome with
      | error f => simp [runWith_quitWith Layout, checkLines, Except.map]
      | ok t => simp [Script.runWith, exitStatus, checkLines, Except.map]

/-- The status line of a session that lists the tables. -/
def symbolsLines (settings : Settings) (path : String) : List String :=
  [statusOf settings "Reading" path]

/-- The tables are printed if there is a layout. -/
theorem run_symbols (h : disk.HoldsSource path source) (settings : Settings) :
    (symbols reporter settings path).run disk =
      ⟨some (exitStatus reporter source (Layout.ofSource source)),
        String.join (symbolsLines settings path) ++
          onSuccess Layout.render (Layout.ofSource source), disk⟩ := by
  simp only [symbols, Script.run, Script.runWith, runWith_withLines h]
  cases hread : SourceText.read source with
  | error d =>
      simp [Layout.ofSource_of_error hread, runWith_quitWith Layout, onSuccess, symbolsLines]
  | ok lines =>
      rw [Layout.ofSource_of_read hread]
      dsimp only
      cases Layout.ofLines lines with
      | error f => simp [runWith_quitWith Layout, onSuccess, symbolsLines]
      | ok t => simp [Script.runWith, exitStatus, onSuccess, symbolsLines]

/-! ## assembling -/

/-- What is printed about the files that were saved. -/
def savedLines (settings : Settings) (object listing : String) (t : Layout) : List String :=
  [status settings "Finished" (summary t), statusOf settings "Saved" object,
    statusOf settings "Saved" listing]

/-- The status lines of a session that assembles a file. -/
def assembleLines (settings : Settings) (path object listing : String) :
    Except Failure Assembly → List String
  | .ok a => statusOf settings "Assembling" path :: savedLines settings object listing a.layout
  | .error _ => [statusOf settings "Assembling" path]

/-- After a failure too the files are flushed, in an order that depends on its kind. -/
theorem exists_close_error (reporter : Reporter) (buffers : Outputs Buffer) (f : Failure) :
    ∃ first second, first ≠ second ∧ ∀ settings source object listing,
      close reporter settings source object listing buffers (.error f) =
        flush buffers first fun _ => flush buffers second fun _ => quitWith reporter source f := by
  cases f with
  | diagnostic d => exact ⟨.object, .listing, by decide, fun _ _ _ _ => rfl⟩
  | fault f => exact ⟨.listing, .object, by decide, fun _ _ _ _ => rfl⟩

/-- When the files are closed, everything that was handed over is in them. -/
theorem exists_close (reporter : Reporter) {start : Disk} {places : Outputs Location}
    {contents : Outputs ByteArray} {channels : Outputs (Option Channel)}
    (h : OpenFiles start places contents disk channels) (buffers : Outputs Buffer)
    (result : Except Failure Layout) :
    ∃ contents' disk', start.Saves places contents' disk' ∧
      (∀ output, contents'.get output = OpenFiles.handed contents buffers output) ∧
      ∀ settings source object listing,
        (close reporter settings source object listing buffers result).runWith disk channels =
          ⟨some (exitStatus reporter source result),
            onSuccess (fun t => String.join (savedLines settings object listing t)) result,
            disk'⟩ := by
  cases result with
  | ok t =>
      obtain ⟨contents', disk', channels', h', hcontents, hrun⟩ :=
        h.exists_flush buffers (by decide : Output.object ≠ .listing)
      refine ⟨contents', disk', h'.saves, hcontents, fun settings source object listing => ?_⟩
      rw [close, hrun]
      simp [Script.runWith, exitStatus, onSuccess, savedLines]
  | error f =>
      obtain ⟨first, second, hne, hclose⟩ := exists_close_error reporter buffers f
      obtain ⟨contents', disk', channels', h', hcontents, hrun⟩ := h.exists_flush buffers hne
      refine ⟨contents', disk', h'.saves, hcontents, fun settings source object listing => ?_⟩
      rw [hclose, hrun fun _ _ => quitWith reporter source f]
      exact runWith_quitWith Layout disk' channels' source f

end Session

/-- What assembling leaves on a disk: no change if the text cannot be read, and otherwise two
files with what is written for its lines. -/
def Disk.Leaves (disk : Disk) (places : Outputs Location) (source : String) (disk' : Disk) :
    Prop :=
  match SourceText.read source with
  | .error _ => disk' = disk
  | .ok lines => disk.Saves places
      ⟨(assembleTo lines none none).object, (assembleTo lines none none).listing⟩ disk'

namespace Session

variable {reporter : Reporter} {disk : Disk} {path source object listing : String}
  {places : Outputs Location}

/-- Two new files take all that is written. -/
theorem exists_deliver_withFiles (hobject : disk.Writable object places.object)
    (hlisting : disk.Writable listing places.listing) (distinct : places.object ≠ places.listing)
    (ws : List Write) :
    ∃ contents buffers disk' channels', OpenFiles disk places contents disk' channels' ∧
      (∀ output, OpenFiles.handed contents buffers output = (Run.textOf output ws).toUTF8) ∧
      ∀ next, (withFiles object listing (deliver (.both .empty) ws next)).runWith disk
        (.both none) = (next buffers none).runWith disk' channels' := by
  obtain ⟨disk₁, channels₁, h₁, hfiles⟩ := OpenFiles.exists_withFiles hobject hlisting distinct
  obtain ⟨contents, buffers, disk₂, channels₂, h₂, hhanded, hdeliver⟩ :=
    h₁.exists_deliver (.both .empty) ws
  refine ⟨contents, buffers, disk₂, channels₂, h₂, fun output => ?_,
    fun next => (hfiles _).trans (hdeliver next)⟩
  rw [hhanded]
  cases output <;> simp [OpenFiles.handed, Outputs.get, Outputs.both, Buffer.empty]

/-- Without limits the files hold all that is written. -/
theorem assembleTo_none (lines : List Line) :
    assembleTo lines none none =
      ⟨(attempt lines).object.toUTF8, (attempt lines).listing.toUTF8, (attempt lines).outcome⟩ :=
  Delivery.ofRun_of_fits _ (fun _ hroom => nomatch hroom) (fun _ hroom => nomatch hroom)

theorem eq_assembleTo {contents : Outputs ByteArray} {lines : List Line}
    (h : ∀ output, contents.get output = (Run.textOf output (attempt lines).writes).toUTF8) :
    contents = ⟨(assembleTo lines none none).object, (assembleTo lines none none).listing⟩ := by
  rw [assembleTo_none, Run.object_eq, Run.listing_eq, ← h .object, ← h .listing]
  rfl

/-- Assembling ends as the assembly does, and leaves what it writes. -/
theorem exists_run_assemble (h : disk.HoldsSource path source)
    (hobject : disk.Writable object places.object)
    (hlisting : disk.Writable listing places.listing)
    (distinct : places.object ≠ places.listing) :
    ∃ disk', disk.Leaves places source disk' ∧
      ∀ settings, (assemble reporter settings path object listing).run disk =
        ⟨some (exitStatus reporter source (assembleSource source)),
          String.join (assembleLines settings path object listing (assembleSource source)) ++ "",
          disk'⟩ := by
  simp only [assemble, Script.run, Script.runWith, runWith_withLines h, Disk.Leaves]
  cases hread : SourceText.read source with
  | error d =>
      refine ⟨disk, rfl, fun settings => ?_⟩
      simp [assembleSource_of_error hread, runWith_quitWith Assembly, assembleLines]
  | ok lines =>
      obtain ⟨contents, buffers, disk₁, channels₁, h₁, hhanded, hdeliver⟩ :=
        exists_deliver_withFiles hobject hlisting distinct (attempt lines).writes
      obtain ⟨contents', disk', hsaves, hcontents, hclose⟩ :=
        exists_close reporter h₁ buffers (attempt lines).outcome
      have hwritten := eq_assembleTo fun output => (hcontents output).trans (hhanded output)
      rw [hwritten] at hsaves
      refine ⟨disk', hsaves, fun settings => ?_⟩
      rw [assembleSource_of_read hread, exitStatus_map]
      simp only [hdeliver, hclose]
      cases (attempt lines).outcome <;> simp [onSuccess, assembleLines, Except.map]

/-- A session whose object file has no name ends when it would be made. -/
theorem run_assemble_of_unnamed (h : disk.HoldsSource path source)
    (unnamed : disk.locate object = none) (settings : Settings) :
    (assemble reporter settings path object listing).run disk =
      ⟨some (match SourceText.read source with
          | .ok _ => 1
          | .error _ => exitStatus reporter source (assembleSource source)),
        String.join [statusOf settings "Assembling" path] ++ "", disk⟩ := by
  simp only [assemble, Script.run, Script.runWith, runWith_withLines h]
  cases hread : SourceText.read source with
  | error d => simp [assembleSource_of_error hread, runWith_quitWith Assembly]
  | ok lines => simp [withFiles, Script.runWith, Disk.create?, unnamed, quit]

end Session

/-! ## arguments -/

theorem Argument.ofString_plain {s : String} (h : s.toList.head? ≠ some '-') :
    Argument.ofString s = .plain s := by
  unfold Argument.ofString
  split
  · next heq => simp [heq] at h
  · next heq => simp [heq] at h
  · next heq => simp [heq] at h
  · rfl

/-- A command takes one plain argument as the name of its file. -/
theorem CommandState.takeAll_plain (command : Command) {path : String}
    (h : path.toList.head? ≠ some '-') (hne : path ≠ "") :
    (start command).takeAll [path] = finish ⟨command, some path, none, none, false, none⟩ := by
  have htake : (start command).take path =
      .ok (some ⟨command, some path, none, none, false, none⟩) := by
    simp [start, take, Argument.ofString_plain h, setName, hne, Except.map]
  simp only [takeAll, htake]
  rfl

/-- A path with an extension is none without. -/
theorem Path.ne_of_extension? {path word ext : String} (h : extension? path = some ext)
    (hword : extension? word = none) : path ≠ word := by
  intro heq
  rw [heq, hword] at h
  cases h

namespace Request

variable {path : String}

theorem ofArguments_path (h : path.toList.head? ≠ some '-')
    (extension : Path.extension? path = some "asm") :
    ofArguments [path] = .ok (.assemble path none none) := by
  have hne : ∀ word, Path.extension? word = none → path ≠ word := fun _ =>
    Path.ne_of_extension? extension
  have hparse : Command.parse? path = none := by
    unfold Command.parse?
    split
    · exact absurd rfl (hne _ (by decide))
    · exact absurd rfl (hne _ (by decide))
    · exact absurd rfl (hne _ (by decide))
    · exact absurd rfl (hne _ (by decide))
    · rfl
  have hhelp : path ≠ "help" := hne _ (by decide)
  have hempty : path ≠ "" := hne _ (by decide)
  simp [ofArguments, ofArgumentsAfter, hparse, hhelp, Argument.ofString_plain h, ofPath, hempty]

/-- Behind the word for a command, one plain argument makes a request. -/
theorem ofArguments_command {word : String} (command : Command)
    (hparse : Command.parse? word = some command) (h : path.toList.head? ≠ some '-')
    (hne : path ≠ "") :
    ofArguments [word, path] =
      CommandState.finish ⟨command, some path, none, none, false, none⟩ := by
  simp only [ofArguments, ofArgumentsAfter, hparse, CommandState.takeAll_plain command h hne]
  cases command <;> rfl

end Request

namespace Session

variable {reporter : Reporter} {disk : Disk} {path source : String}

/-- The outcome of a session on a disk, with the value of the environment variable. -/
def outcome (reporter : Reporter) (disk : Disk) (quiet : Option String)
    (arguments : List String) : Outcome :=
  (ofArguments reporter arguments quiet).run disk

theorem outcome_eq {arguments : List String} {request : Request}
    (h : Request.ofArguments arguments = .ok request) (quiet : Option String) :
    outcome reporter disk quiet arguments =
      (ofRequest reporter (Settings.ofVariable quiet) request).run disk := by
  rw [outcome, ofArguments, h]

/-- What sessions do that differ in the value of the environment variable only.  They end with the
same status and leave the same disk.  What is printed are the status lines and the plain text
behind them, and `1` leaves the plain text only. -/
structure Does (session : Option String → Outcome) (status : Nat) (leaves : Disk → Prop)
    (lines : List String) (plain : String) : Prop where
  status : ∀ quiet, (session quiet).status = some status
  disk : ∃ disk, leaves disk ∧ ∀ quiet, (session quiet).disk = disk
  printed : (session none).printed = String.join lines ++ plain
  quiet : ∀ value, (session (some value)).printed =
    if value = "1" then plain else (session none).printed

theorem does_of_run {arguments : List String} {request : Request} {status : Nat}
    {leaves : Disk → Prop} (lines : Settings → List String) {plain : String} {disk' : Disk}
    (hargs : Request.ofArguments arguments = .ok request)
    (run : ∀ settings, (ofRequest reporter settings request).run disk =
      ⟨some status, String.join (lines settings) ++ plain, disk'⟩)
    (silent : String.join (lines ⟨true⟩) = "") (left : leaves disk') :
    Does (fun quiet => outcome reporter disk quiet arguments) status leaves
      (lines (.ofVariable none)) plain := by
  have houtcome := fun quiet => (outcome_eq hargs quiet).trans (run (.ofVariable quiet))
  refine ⟨fun quiet => by rw [houtcome], ⟨disk', left, fun quiet => by rw [houtcome]⟩,
    by rw [houtcome], fun value => ?_⟩
  rw [houtcome, houtcome]
  by_cases h : value = "1"
  · have hquiet : Settings.ofVariable (some value) = ⟨true⟩ := by rw [h]; rfl
    rw [if_pos h, hquiet, silent]
    exact String.empty_append
  · have hloud : Settings.ofVariable (some value) = .ofVariable none := by
      simp [Settings.ofVariable, h]
    rw [if_neg h, hloud]

end Session

/-! ## agreement -/

/-- Nothing is in the way of the output of a source file: there is no directory and no device in
its place. -/
structure Disk.TakesOutput (disk : Disk) (path : String) : Prop where
  free : ∀ ext ∈ ["obj", "lst"], ∀ place,
    disk.locate (Path.withExtension path ext) = some place →
      disk.isDirectory place = false ∧ disk.devices.lookup place = none

theorem Disk.HoldsSource.exists_locate {disk : Disk} {path source : String}
    (h : disk.HoldsSource path source) : ∃ place, disk.locate path = some place := by
  have hread := h.contents
  simp only [read?, Option.bind_eq_bind, Option.bind_eq_some_iff] at hread
  obtain ⟨place, hplace, -⟩ := hread
  exact ⟨place, hplace⟩

namespace Session

/-- The command line agrees with the library on a source file. -/
structure Agrees (reporter : Reporter) (disk : Disk) (path source : String) : Prop where
  /-- A plain path is understood, alone and behind a command. -/
  understood : path.toList.head? ≠ some '-' →
    Request.ofArguments [path] = .ok (.assemble path none none) ∧
    Request.ofArguments ["assemble", path] = .ok (.assemble path none none) ∧
    Request.ofArguments ["check", path] = .ok (.check path) ∧
    Request.ofArguments ["symbols", path] = .ok (.symbols path)
  /-- A diagnostic gives status 1, unless it is about a line without an operation and marks what
  is not in the text. -/
  diagnosed : ∀ d, assembleSource source = .error (.diagnostic d) →
    d.MarksText source.toList ∨ ¬ d.LacksOperation source.toList →
      exitStatus reporter source (assembleSource source) = 1
  assembles : (Path.components path).getLast? ≠ some "..asm" → ∃ places : Outputs Location,
    disk.locate (Path.withExtension path "obj") = some places.object ∧
    disk.locate (Path.withExtension path "lst") = some places.listing ∧
    ∀ arguments, Request.ofArguments arguments = .ok (.assemble path none none) →
      Does (fun quiet => outcome reporter disk quiet arguments)
        (exitStatus reporter source (assembleSource source)) (disk.Leaves places source)
        (assembleLines (.ofVariable none) path (Path.withExtension path "obj")
          (Path.withExtension path "lst") (assembleSource source)) ""
  /-- There is no name for the output of `..asm`. -/
  refuses : (Path.components path).getLast? = some "..asm" →
    ∀ arguments, Request.ofArguments arguments = .ok (.assemble path none none) →
      Does (fun quiet => outcome reporter disk quiet arguments)
        (match SourceText.read source with
          | .ok _ => 1
          | .error _ => exitStatus reporter source (assembleSource source))
        (· = disk) [statusOf (.ofVariable none) "Assembling" path] ""
  checks : ∀ arguments, Request.ofArguments arguments = .ok (.check path) →
    Does (fun quiet => outcome reporter disk quiet arguments)
      (exitStatus reporter source (assembleSource source)) (· = disk)
      (checkLines (.ofVariable none) path (assembleSource source)) ""
  lists : ∀ arguments, Request.ofArguments arguments = .ok (.symbols path) →
    Does (fun quiet => outcome reporter disk quiet arguments)
      (exitStatus reporter source (Layout.ofSource source)) (· = disk)
      (symbolsLines (.ofVariable none) path) (onSuccess Layout.render (Layout.ofSource source))
  /-- The tables are listed exactly if the source can be read and laid out. -/
  listed : (exitStatus reporter source (Layout.ofSource source) = 0 ↔
      ∃ lines t, SourceText.read source = .ok lines ∧ Layout.ofLines lines = .ok t) ∧
    ∀ lines t, SourceText.read source = .ok lines → Layout.ofLines lines = .ok t →
      onSuccess Layout.render (Layout.ofSource source) = t.render

section

variable {reporter : Reporter} {disk : Disk} {path source : String}

theorem understood_of_plain (h : disk.HoldsSource path source)
    (plain : path.toList.head? ≠ some '-') :
    Request.ofArguments [path] = .ok (.assemble path none none) ∧
      Request.ofArguments ["assemble", path] = .ok (.assemble path none none) ∧
      Request.ofArguments ["check", path] = .ok (.check path) ∧
      Request.ofArguments ["symbols", path] = .ok (.symbols path) := by
  have hne : path ≠ "" := Path.ne_of_extension? h.extension (by decide)
  exact ⟨Request.ofArguments_path plain h.extension,
    Request.ofArguments_command .assemble rfl plain hne,
    Request.ofArguments_command .check rfl plain hne,
    Request.ofArguments_command .symbols rfl plain hne⟩

theorem silent_assembleLines (path object listing : String) (x : Except Failure Assembly) :
    String.join (assembleLines ⟨true⟩ path object listing x) = "" := by
  cases x <;> rfl

theorem silent_checkLines (path : String) (x : Except Failure Assembly) :
    String.join (checkLines ⟨true⟩ path x) = "" := by
  cases x <;> rfl

/-- The output of a source file goes beside it, unless there is no name for it. -/
theorem exists_places (h : disk.HoldsSource path source) (free : disk.TakesOutput path) :
    ((Path.components path).getLast? = some "..asm" ∧
        disk.locate (Path.withExtension path "obj") = none) ∨
      (Path.components path).getLast? ≠ some "..asm" ∧ ∃ places : Outputs Location,
        disk.Writable (Path.withExtension path "obj") places.object ∧
          disk.Writable (Path.withExtension path "lst") places.listing ∧
            places.object ≠ places.listing := by
  obtain ⟨place, hplace⟩ := h.exists_locate
  obtain ⟨hname, hnone⟩ | ⟨hname, directory, stem, -, hplaces⟩ :=
    Disk.locate_withExtension h.extension hplace
  · exact .inl ⟨hname, hnone "obj"⟩
  · have hobject := hplaces "obj" (by decide) (by decide)
    have hlisting := hplaces "lst" (by decide) (by decide)
    have hfree := free.free "obj" (by decide) _ hobject
    have hfree' := free.free "lst" (by decide) _ hlisting
    refine .inr ⟨hname, ⟨directory ++ [stem ++ "." ++ "obj"], directory ++ [stem ++ "." ++ "lst"]⟩,
      ⟨hobject, hfree.1, hfree.2⟩, ⟨hlisting, hfree'.1, hfree'.2⟩, fun heq => ?_⟩
    simp at heq

end

end Session

/-- The command line agrees with the library. -/
theorem command_line_agrees_with_library {reporter : Reporter} (shows : reporter.ShowsText)
    {disk : Disk} {path source : String} (h : disk.HoldsSource path source)
    (free : disk.TakesOutput path) : Session.Agrees reporter disk path source where
  understood := Session.understood_of_plain h
  diagnosed _ := Session.exitStatus_eq_one shows
  assembles named := by
    obtain ⟨hname, -⟩ | ⟨-, places, hobject, hlisting, distinct⟩ := Session.exists_places h free
    · exact absurd hname named
    · obtain ⟨disk', hleaves, hrun⟩ := Session.exists_run_assemble h hobject hlisting distinct
      exact ⟨places, hobject.located, hlisting.located, fun arguments hargs =>
        Session.does_of_run (fun settings => Session.assembleLines settings path _ _ _)
          hargs hrun (Session.silent_assembleLines _ _ _ _) hleaves⟩
  refuses dotted arguments hargs := by
    obtain ⟨-, hnone⟩ | ⟨hname, -⟩ := Session.exists_places h free
    · exact Session.does_of_run (fun settings => [Session.statusOf settings "Assembling" path])
        hargs (Session.run_assemble_of_unnamed h hnone) rfl rfl
    · exact absurd dotted hname
  checks arguments hargs :=
    Session.does_of_run (fun settings => Session.checkLines settings path _) hargs
      (Session.run_check h) (Session.silent_checkLines _ _) rfl
  lists arguments hargs :=
    Session.does_of_run (fun settings => Session.symbolsLines settings path) hargs
      (Session.run_symbols h) rfl rfl
  listed := by
    refine ⟨?_, fun lines t hread hlaid => ?_⟩
    · simp only [Session.exitStatus_eq_zero, Layout.ofSource_eq_ok]
      exact exists_comm
    · rw [Layout.ofSource_eq_ok.mpr ⟨lines, hread, hlaid⟩]
      rfl

/-- A disk with one source file in its root. -/
def sourceDisk (source : String) : Disk := ⟨[], [], [(["a.asm"], source.toUTF8)], []⟩

theorem holdsSource_sourceDisk (source : String) :
    (sourceDisk source).HoldsSource "a.asm" source := by
  have hlookup : (sourceDisk source).read? "a.asm" = String.fromUTF8? source.toUTF8 := rfl
  refine ⟨by decide, ?_⟩
  rw [hlookup]
  simp only [String.fromUTF8?, String.toUTF8_eq_toByteArray, dif_pos source.isValidUTF8]
  rfl

theorem takesOutput_sourceDisk (source : String) : (sourceDisk source).TakesOutput "a.asm" where
  free ext hext place hplace := by
    simp only [List.mem_cons, List.not_mem_nil, or_false] at hext
    obtain rfl | rfl := hext
    · have hobject : (sourceDisk source).locate (Path.withExtension "a.asm" "obj") =
          some ["a.obj"] := rfl
      rw [hobject] at hplace
      cases hplace
      exact ⟨rfl, rfl⟩
    · have hlisting : (sourceDisk source).locate (Path.withExtension "a.asm" "lst") =
          some ["a.lst"] := rfl
      rw [hlisting] at hplace
      cases hplace
      exact ⟨rfl, rfl⟩

/-- Source text whose end refers to an undefined symbol. -/
def undefinedEnd : String := "PROG     .ORIG   x3000\n         RET\n         .END    NOPE\n"

/-- A quiet session fails with status 1, and the object file keeps what was written before. -/
theorem command_line_agrees_with_library_undefinedEnd :
    Reporter.plain.ShowsText ∧ (sourceDisk undefinedEnd).HoldsSource "a.asm" undefinedEnd ∧
      (sourceDisk undefinedEnd).TakesOutput "a.asm" ∧
      let quiet := Session.outcome .plain (sourceDisk undefinedEnd) (some "1") ["a.asm"]
      quiet.status = some 1 ∧ quiet.printed = "" ∧
        quiet.disk.files.lookup ["a.obj"] = some "HPROG  30000001\nT3000D000\n".toUTF8 := by
  have hsource := holdsSource_sourceDisk undefinedEnd
  have houtput := takesOutput_sourceDisk undefinedEnd
  have hagrees : Session.Agrees .plain (sourceDisk undefinedEnd) "a.asm" undefinedEnd :=
    command_line_agrees_with_library Reporter.showsText_plain hsource houtput
  obtain ⟨places, hobject, -, hdoes⟩ := hagrees.assembles (by decide)
  obtain ⟨hstatus, ⟨disk, hleaves, hdisk⟩, -, hquiet⟩ :=
    hdoes ["a.asm"] (hagrees.understood (by decide)).1
  obtain ⟨d, hd, hcause⟩ : ∃ d, assembleSource undefinedEnd = .error (.diagnostic d) ∧
      d.cause ≠ .unknownOperation "" := ⟨_, rfl, by decide⟩
  have hone := hagrees.diagnosed d hd (.inr fun hlacks => hcause hlacks.1)
  obtain ⟨lines, hread, hrun⟩ : ∃ lines, SourceText.read undefinedEnd = .ok lines ∧
      (attempt lines).object = "HPROG  30000001\nT3000D000\n" := ⟨_, rfl, by decide⟩
  have hplace : places.object = ["a.obj"] := Option.some.inj (hobject.symm.trans (by decide))
  simp only [Disk.Leaves, hread, Session.assembleTo_none, hrun] at hleaves
  refine ⟨Reporter.showsText_plain, hsource, houtput, ?_, (hquiet "1").trans (if_pos rfl), ?_⟩
  · rw [hstatus, hone]
  · rw [hdisk, ← hplace]
    exact hleaves.held .object

/-- Source text with a last line of seven bytes. -/
def shortLastLine : String := "P        .ORIG   x3000\nABCDEF \n"

/-- There is a diagnostic for it, but its label is not in the text.  The reporter shows all that
are, and still a check ends as after a fault. -/
theorem unshown_diagnostic_of_shortLastLine :
    Reporter.plain.ShowsText ∧
      (∃ d, assembleSource shortLastLine = .error (.diagnostic d) ∧
        d.labels = [(⟨32, 0⟩, "unknown operation")] ∧ shortLastLine.utf8ByteSize = 31) ∧
      (Session.outcome .plain (sourceDisk shortLastLine) none ["check", "a.asm"]).status =
        some 101 := by
  refine ⟨Reporter.showsText_plain, ⟨_, rfl, rfl, by decide⟩, ?_⟩
  have hargs : Request.ofArguments ["check", "a.asm"] = .ok (.check "a.asm") := rfl
  rw [Session.outcome_eq hargs, Session.ofRequest,
    Session.run_check (holdsSource_sourceDisk shortLastLine)]
  decide

end PageAsm
