import PageAsm.Session

/-!
# PageAsm.Main

The command line program: carries the script of a session out on the real file
system and terminal.
-/

namespace PageAsm

/-- Milliseconds between two looks at a watched file. -/
def watchInterval : UInt32 := 500

def readFile? (path : String) : IO (Option String) :=
  try
    let text ← IO.FS.readFile path
    return some text
  catch _ => return none

def isReadable (path : String) : IO Bool :=
  try
    let _ ← IO.FS.Handle.mk path .read
    return true
  catch _ => return false

def createFile? (path : String) : IO (Option IO.FS.Handle) :=
  try
    let handle ← IO.FS.Handle.mk path .write
    return some handle
  catch _ => return none

def writeTo (handle : IO.FS.Handle) (text : String) : IO Bool :=
  try
    handle.putStr text
    handle.flush
    return true
  catch _ => return false

/-- React to a file every time its contents change. -/
partial def watchFile (path : String) (reaction : Option String → String)
    (last : Option String) : IO Unit := do
  IO.sleep watchInterval
  let contents ← readFile? path
  if contents != last then IO.print (reaction contents)
  watchFile path reaction contents

/-- Carry out a script with open files. -/
def Script.perform (handles : Outputs (Option IO.FS.Handle)) : Script → IO UInt32
  | .exit status => return UInt32.ofNat status
  | .print text next => do
    IO.print text
    next.perform handles
  | .complain text next => do
    IO.eprint text
    next.perform handles
  | .read path next => do
    let contents ← readFile? path
    (next contents).perform handles
  | .probe path next => do
    let found ← isReadable path
    (next found).perform handles
  | .create output path next => do
    match ← createFile? path with
    | some handle => (next true).perform (handles.set output (some handle))
    | none => (next false).perform handles
  | .write output text next => do
    match handles.get output with
    | some handle => do
      let written ← writeTo handle text
      (next written).perform handles
    | none => (next false).perform handles
  | .watch path reaction => do
    watchFile path reaction (← readFile? path)
    return 0

end PageAsm

def main (arguments : List String) : IO UInt32 := do
  let quiet ← IO.getEnv PageAsm.Settings.variableName
  (PageAsm.Session.ofArguments .plain arguments quiet).perform (.both none)
