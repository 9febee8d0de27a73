import PageAsm.Assembly
import PageAsm.Buffer
import PageAsm.Disk
import PageAsm.Reporter
import PageAsm.Request
import PageAsm.Settings

/-!
# PageAsm.Session

What the program does for a request, as a script of actions on files and the
terminal.  `Script.run` carries a script out on a `Disk`.

A session ends with status 0 if all went well, 1 after a diagnostic or a
failure to read or write a file, 2 if the arguments are wrong, and 101 after a
fault or a diagnostic that the reporter cannot show.
-/

namespace PageAsm

/-- A session as a script. -/
inductive Script where
  | exit (status : Nat)
  /-- Print to the terminal. -/
  | print (text : String) (next : Script)
  /-- Print to the error channel. -/
  | complain (text : String) (next : Script)
  /-- Read a file, if it can be read. -/
  | read (path : String) (next : Option String → Script)
  /-- Tell whether there is something at a path. -/
  | probe (path : String) (next : Bool → Script)
  /-- Make an empty file and open it, if that is possible. -/
  | create (output : Output) (path : String) (next : Bool → Script)
  /-- Write to an open file, if it takes the text. -/
  | write (output : Output) (text : String) (next : Bool → Script)
  /-- Print a reaction to a file every time it changes, for ever. -/
  | watch (path : String) (reaction : Option String → String)

/-- How a session ends. -/
structure Outcome where
  /-- There is no status if the session goes on for ever. -/
  status : Option Nat
  /-- What is printed to the terminal. -/
  printed : String
  disk : Disk

/-- Carry out a script on a disk with open files. -/
def Script.runWith (disk : Disk) (channels : Outputs (Option Channel)) : Script → Outcome
  | exit status => ⟨some status, "", disk⟩
  | print text next =>
    let outcome := next.runWith disk channels
    { outcome with printed := text ++ outcome.printed }
  | complain _ next => next.runWith disk channels
  | read path next => (next (disk.read? path)).runWith disk channels
  | probe path next => (next (disk.contains path)).runWith disk channels
  | create output path next =>
    match disk.create? path with
    | some (disk, channel) => (next true).runWith disk (channels.set output (some channel))
    | none => (next false).runWith disk channels
  | write output text next =>
    match channels.get output with
    | none => (next false).runWith disk channels
    | some channel =>
      match disk.write? channel text with
      | none => (next false).runWith disk channels
      | some (disk, channel') =>
        let outcome := (next true).runWith disk (channels.set output (some channel'))
        { outcome with printed := channel.shown text ++ outcome.printed }
  | watch _ _ => ⟨none, "", disk⟩

/-- Carry out a script on a disk. -/
def Script.run (disk : Disk) (script : Script) : Outcome :=
  script.runWith disk (.both none)

namespace Session

/-! ## what is printed -/

def versionText : String := "relasm 0.1.0\n"

def welcomeText : String :=
  "\n~ relasm v0.1.0 ~\n\nWelcome to relasm, a two-pass relocating assembler producing\n"
    ++ "object and listing files for a 16-bit page-addressed machine.\n"
    ++ "Please use `-h` or `--help` to access the usage instructions and documentation.\n\n"

def usageText : String :=
  "Usage: relasm [PATH] [COMMAND]\n\n"
    ++ "Commands:\n"
    ++ "  assemble  Assemble a `.asm` file into an object file and a listing file\n"
    ++ "  check     Check a `.asm` file without writing any output\n"
    ++ "  symbols   Print the symbol, external and literal tables built by the first pass\n"
    ++ "  watch     Place a watch on a `.asm` file to receive constant assembler updates\n"
    ++ "  help      Print this message\n"

/-- A status line, which quiet sessions leave out. -/
def status (settings : Settings) (verb text : String) : String :=
  if settings.quiet then "" else Text.alignRight 12 verb ++ " " ++ text ++ "\n"

def statusOf (settings : Settings) (verb path : String) : String :=
  status settings verb ("target " ++ path)

/-- At least four hexadecimal digits of a count of words. -/
def countText (n : Nat) : String := String.ofList (Text.padStart 4 '0' (Text.hexDigits n))

def summary (t : Layout) : String :=
  s!"{t.symbols.size} symbols, {t.literals.size} literals, x{countText t.length} words"

/-! ## ways to end -/

def quit (text : String) : Script := .complain (text ++ "\n") (.exit 1)

def faultText : String := "internal check failed\n"

/-- End after a fault. -/
def abort : Script := .complain faultText (.exit 101)

/-- End after a failure.  A diagnostic that cannot be shown is a fault. -/
def quitWith (reporter : Reporter) (source : String) : Failure → Script
  | .diagnostic d =>
    match reporter.render? source d with
    | some text => .complain text (.exit 1)
    | none => abort
  | .fault _ => abort

/-! ## requests -/

section

variable (reporter : Reporter)

/-- Go on with the contents of a source file, whose extension must be `asm`. -/
def withSource (path : String) (next : String → Script) : Script :=
  match Path.extension? path with
  | some "asm" =>
    .read path fun
      | some source => next source
      | none => quit ("unable to read " ++ path)
  | some _ => quit "File has unknown extension. Exiting..."
  | none => quit "File has no extension. Exiting..."

/-- Go on with the contents of a source file and its lines. -/
def withLines (path : String) (next : String → List Line → Script) : Script :=
  withSource path fun source =>
    match SourceText.read source with
    | .ok lines => next source lines
    | .error d => quitWith reporter source (.diagnostic d)

/-- Go on with two empty files. -/
def withFiles (object listing : String) (next : Script) : Script :=
  .create .object object fun
    | false => quit ("unable to create " ++ object)
    | true =>
      .create .listing listing fun
        | false => quit ("unable to create " ++ listing)
        | true => next

/-- Write texts one after the other, and tell whether the file took all. -/
def writeAll (output : Output) : List String → (Bool → Script) → Script
  | [], next => next true
  | text :: texts, next =>
    .write output text fun
      | true => writeAll output texts next
      | false => next false

/-- Write out what waits for a file. -/
def flush (buffers : Outputs Buffer) (output : Output) (next : Bool → Script) : Script :=
  writeAll output (buffers.get output).flush next

/-- Hand items over to the buffers of their files, until one makes a file refuse
a text.  Goes on with the buffers and the item that was refused. -/
def deliver : Outputs Buffer → List Write → (Outputs Buffer → Option Write → Script) → Script
  | buffers, [], next => next buffers none
  | buffers, w :: ws, next =>
    let (texts, buffer) := (buffers.get w.item.output).pushAll w.item.pieces
    writeAll w.item.output texts fun
      | true => deliver (buffers.set w.item.output buffer) ws next
      | false => next buffers (some w)

/-- The reason given when a file takes no more. -/
def unwritableReason : String := "the file cannot be written"

/-- Close the two files after a run and end.  What was written before a failure
is kept; after a fault the listing is written out first. -/
def close (settings : Settings) (source object listing : String) (buffers : Outputs Buffer) :
    Except Failure Layout → Script
  | .error (.fault f) =>
    flush buffers .listing fun _ => flush buffers .object fun _ =>
      quitWith reporter source (.fault f)
  | .error (.diagnostic d) =>
    flush buffers .object fun _ => flush buffers .listing fun _ =>
      quitWith reporter source (.diagnostic d)
  | .ok t =>
    flush buffers .object fun objectDone => flush buffers .listing fun listingDone =>
      if objectDone && listingDone then
        .print (status settings "Finished" (summary t)) <|
          .print (statusOf settings "Saved" object) <|
            .print (statusOf settings "Saved" listing) (.exit 0)
      else quit "unable to write the output"

/-- Assemble into two files. -/
def assemble (settings : Settings) (path object listing : String) : Script :=
  .print (statusOf settings "Assembling" path) <|
    withLines reporter path fun source lines =>
      withFiles object listing <|
        let run := attempt lines
        deliver (.both .empty) run.writes fun buffers failed =>
          close reporter settings source object listing buffers <|
            match failed with
            | none => run.outcome
            | some w => w.line.fail (.unwritable w.item.output unwritableReason)

def success (settings : Settings) : String := status settings "Success" "no errors found!"

def check (settings : Settings) (path : String) : Script :=
  .print (statusOf settings "Checking" path) <|
    withLines reporter path fun source lines =>
      match (attempt lines).outcome with
      | .ok _ => .print (success settings) (.exit 0)
      | .error f => quitWith reporter source f

def symbols (settings : Settings) (path : String) : Script :=
  .print (statusOf settings "Reading" path) <|
    withLines reporter path fun source lines =>
      match Layout.ofLines lines with
      | .ok t => .print t.render (.exit 0)
      | .error f => quitWith reporter source f

/-- What is printed when a watched file has changed. -/
def reaction (settings : Settings) : Option String → String
  | none => "unable to read the file\n"
  | some source =>
    match assembleSource source with
    | .ok _ => success settings
    | .error (.diagnostic d) => (reporter.render? source d).getD faultText
    | .error (.fault _) => faultText

def watch (settings : Settings) (path : String) : Script :=
  .probe path fun
    | false => quit "File does not exist. Exiting..."
    | true =>
      .print (statusOf settings "Watching" path) <|
        .print (status settings "Help" "press CTRL+C to exit") <|
          .watch path (reaction reporter settings)

/-- The script for a request. -/
def ofRequest (settings : Settings) : Request → Script
  | .welcome => .print welcomeText (.exit 0)
  | .version => .print versionText (.exit 0)
  | .help => .print usageText (.exit 0)
  | .assemble path object listing =>
    assemble reporter settings path (object.getD (Path.withExtension path "obj"))
      (listing.getD (Path.withExtension path "lst"))
  | .check path => check reporter settings path
  | .symbols path => symbols reporter settings path
  | .watch path => watch reporter settings path

/-- The script for a command line and a value of the environment variable. -/
def ofArguments (arguments : List String) (quiet : Option String) : Script :=
  match Request.ofArguments arguments with
  | .ok request => ofRequest reporter (Settings.ofVariable quiet) request
  | .error e => .complain ("error: " ++ e.message ++ "\n") (.exit 2)

end

end Session

end PageAsm
