import PageAsm.Path

/-!
# PageAsm.Disk

A tree of directories, files and devices with a working directory, and the few
operations on files that assembling needs.

A file that is made is written through a `Channel`, which has a position of its
own: two channels on one file write over each other.
-/

namespace PageAsm

/-- A place in the tree: the names of the directories from the root, and the
last name. -/
abbrev Location := List String

/-- Things in the tree that are written to like files. -/
inductive Device where
  /-- Takes everything and keeps nothing. -/
  | null
  /-- Takes nothing. -/
  | full
  /-- Shows everything on the terminal. -/
  | terminal
deriving DecidableEq

/-- The state of the file system. -/
structure Disk where
  workingDirectory : Location
  directories : List Location
  files : List (Location × ByteArray)
  devices : List (Location × Device)

/-- Where a text goes that is written to an open file. -/
inductive Channel where
  /-- To a file, from a position on. -/
  | file (place : Location) (position : Nat)
  | device (d : Device)
deriving DecidableEq

namespace Disk

/-- The most bytes of a path. -/
def maxPath : Nat := 4095

/-- The most bytes of a name. -/
def maxName : Nat := 255

def isDirectory (disk : Disk) (place : Location) : Bool :=
  place.isEmpty || disk.directories.contains place

/-- Go down a path through existing directories. -/
def walk (disk : Disk) : Location → List String → Option Location
  | place, [] => some place
  | place, name :: names =>
    if name = "" || name = "." then disk.walk place names
    else if name = ".." then disk.walk place.dropLast names
    else if disk.isDirectory (place ++ [name]) then disk.walk (place ++ [name]) names
    else none

/-- Where a path starts. -/
def base (disk : Disk) (path : String) : Location :=
  if Path.isAbsolute path then [] else disk.workingDirectory

/-- The directory that a path names. -/
def directory? (disk : Disk) (path : String) : Option Location :=
  if path = "" || path.utf8ByteSize > maxPath then none
  else disk.walk (disk.base path) (Path.components path)

/-- The place of the file that a path names, if its directory exists. -/
def locate (disk : Disk) (path : String) : Option Location :=
  if path.utf8ByteSize > maxPath then none
  else
    let names := Path.components path
    match names.getLast? with
    | none => none
    | some name =>
      if name = "" || name = "." || name = ".." || name.utf8ByteSize > maxName then none
      else (disk.walk (disk.base path) names.dropLast).map (· ++ [name])

/-- The text in a file, if it is one. -/
def read? (disk : Disk) (path : String) : Option String := do
  let place ← disk.locate path
  let contents ← disk.files.lookup place
  String.fromUTF8? contents

/-- There is something at the path. -/
def contains (disk : Disk) (path : String) : Bool :=
  (disk.directory? path).isSome ||
    match disk.locate path with
    | none => false
    | some place => (disk.files.lookup place).isSome || (disk.devices.lookup place).isSome

/-- Set the contents of a file at a place. -/
def put (disk : Disk) (place : Location) (contents : ByteArray) : Disk :=
  { disk with files := disk.files.filter (fun (other, _) => other != place) ++ [(place, contents)] }

@[simp] theorem lookup_put (disk : Disk) (place other : Location) (contents : ByteArray) :
    (disk.put place contents).files.lookup other =
      if other = place then some contents else disk.files.lookup other := by
  simp only [put]
  induction disk.files with
  | nil => simp [List.lookup_cons]; grind
  | cons f files ih =>
    obtain ⟨k, c⟩ := f
    simp only [List.filter_cons, List.lookup_cons]
    grind

/-- Make an empty file, also in place of an old one, and open it.  There is
none if the directory does not exist or the path names a directory. -/
def create? (disk : Disk) (path : String) : Option (Disk × Channel) :=
  match disk.locate path with
  | none => none
  | some place =>
    if disk.isDirectory place then none
    else
      match disk.devices.lookup place with
      | some device => some (disk, .device device)
      | none => some (disk.put place ByteArray.empty, .file place 0)

/-- Bytes written over others from a position on. -/
def overlay (old : ByteArray) (position : Nat) (bytes : ByteArray) : ByteArray :=
  old.extract 0 position ++ bytes ++ old.extract (position + bytes.size) old.size

/-- At the end of what is there, writing over is appending. -/
theorem overlay_end (old bytes : ByteArray) : overlay old old.size bytes = old ++ bytes := by
  have h : old.extract (old.size + bytes.size) old.size = ByteArray.empty := by
    apply ByteArray.ext_iff.mpr
    simp
  simp [overlay, h]

/-- Write a text to an open file, if it takes it. -/
def write? (disk : Disk) (channel : Channel) (text : String) : Option (Disk × Channel) :=
  match channel with
  | .file place position =>
    let old := (disk.files.lookup place).getD ByteArray.empty
    let bytes := text.toUTF8
    some (disk.put place (overlay old position bytes), .file place (position + bytes.size))
  | .device .full => none
  | .device _ => some (disk, channel)

end Disk

/-- What appears on the terminal when a text is written. -/
def Channel.shown (channel : Channel) (text : String) : String :=
  if channel = .device .terminal then text else ""

end PageAsm
