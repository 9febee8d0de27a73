/-!
# PageAsm.Request

The arguments of the command line, which have one of these forms:

```
[PATH]
assemble [-o FILE | --object FILE] [-l FILE | --listing FILE] NAME
check NAME
symbols NAME
watch NAME
help [COMMAND]
```

1. The value of an option stands in the next argument, or behind it: `-oFILE`,
   `-o=FILE`, `--object=FILE`.
2. An option is given at most once, and paths are not empty.
3. After `--` every argument is a path.
4. A command is also recognised behind a path, which is then left aside.
-/

namespace PageAsm

/-- What the user asks for. -/
inductive Request where
  | welcome
  | version
  | help
  | assemble (name : String) (object listing : Option String)
  | check (name : String)
  | symbols (name : String)
  | watch (name : String)
deriving DecidableEq

/-- What is wrong with the arguments. -/
inductive UsageError where
  | unexpected (argument : String)
  | missingValue (option : String)
  | emptyValue
  | repeated (option : String)
  | missingName
deriving DecidableEq

def UsageError.message : UsageError → String
  | unexpected argument => s!"unexpected argument '{argument}' found"
  | missingValue option => s!"a value is required for '{option}' but none was supplied"
  | emptyValue => "a value is required but none was supplied"
  | repeated option => s!"the argument '{option}' cannot be used multiple times"
  | missingName => "the following required arguments were not provided: <NAME>"

/-- The commands that take the name of a file. -/
inductive Command where
  | assemble
  | check
  | symbols
  | watch
deriving DecidableEq

namespace Command

def parse? : String → Option Command
  | "assemble" => some assemble
  | "check" => some check
  | "symbols" => some symbols
  | "watch" => some watch
  | _ => none

end Command

/-- The forms of an argument in front of `--`. -/
inductive Argument where
  /-- `--` -/
  | escape
  /-- `--name` or `--name=value` -/
  | long (name : String) (value : Option String)
  /-- A letter behind a dash, and what follows it. -/
  | short (letter : Char) (rest : List Char)
  | plain (text : String)
deriving DecidableEq

def Argument.ofString (s : String) : Argument :=
  match s.toList with
  | ['-', '-'] => .escape
  | '-' :: '-' :: cs =>
    let name := String.ofList (cs.takeWhile (· != '='))
    match cs.dropWhile (· != '=') with
    | [] => .long name none
    | _ :: value => .long name (some (String.ofList value))
  | '-' :: letter :: rest => .short letter rest
  | _ => .plain s

/-! ## arguments of a command -/

/-- The options that take a file. -/
inductive FileOption where
  | object
  | listing
deriving DecidableEq

namespace FileOption

def name : FileOption → String
  | object => "--object <OBJECT>"
  | listing => "--listing <LISTING>"

def ofLong? : Command → String → Option FileOption
  | .assemble, "object" => some object
  | .assemble, "listing" => some listing
  | _, _ => none

def ofShort? : Command → Char → Option FileOption
  | .assemble, 'o' => some object
  | .assemble, 'l' => some listing
  | _, _ => none

end FileOption

/-- What is known of a command after some arguments. -/
structure CommandState where
  command : Command
  name : Option String
  object : Option String
  listing : Option String
  /-- `--` was met. -/
  escaped : Bool
  /-- An option that waits for its value. -/
  pending : Option FileOption
deriving DecidableEq

namespace CommandState

def start (command : Command) : CommandState := ⟨command, none, none, none, false, none⟩

def setOption (s : CommandState) (option : FileOption) (value : String) :
    Except UsageError CommandState :=
  if value = "" then .error .emptyValue
  else
    match option, s.object, s.listing with
    | .object, none, _ => .ok { s with object := some value, pending := none }
    | .listing, _, none => .ok { s with listing := some value, pending := none }
    | _, _, _ => .error (.repeated option.name)

def setName (s : CommandState) (value : String) : Except UsageError CommandState :=
  match s.name with
  | some _ => .error (.unexpected value)
  | none => if value = "" then .error .emptyValue else .ok { s with name := some value }

/-- The request, once all arguments are taken. -/
def finish (s : CommandState) : Except UsageError Request :=
  match s.pending, s.name with
  | some option, _ => .error (.missingValue option.name)
  | none, none => .error .missingName
  | none, some name =>
    match s.command with
    | .assemble => .ok (.assemble name s.object s.listing)
    | .check => .ok (.check name)
    | .symbols => .ok (.symbols name)
    | .watch => .ok (.watch name)

/-- The value of an option behind its letter. -/
def attachedValue : List Char → Option String
  | [] => none
  | '=' :: value => some (String.ofList value)
  | value => some (String.ofList value)

/-- Take an option, whose value may come with it. -/
def takeOption (s : CommandState) (option : FileOption) : Option String →
    Except UsageError CommandState
  | some value => s.setOption option value
  | none => .ok { s with pending := some option }

/-- Take one argument; `none` means that help is asked for. -/
def take (s : CommandState) (argument : String) : Except UsageError (Option CommandState) :=
  if s.escaped then (s.setName argument).map some
  else
    match s.pending, Argument.ofString argument with
    | some option, .plain value => (s.setOption option value).map some
    | some option, _ => .error (.missingValue option.name)
    | none, .escape => .ok (some { s with escaped := true })
    | none, .long name value =>
      if name = "help" && value.isNone then .ok none
      else
        match FileOption.ofLong? s.command name with
        | some option => (s.takeOption option value).map some
        | none => .error (.unexpected argument)
    | none, .short letter rest =>
      if letter = 'h' then .ok none
      else
        match FileOption.ofShort? s.command letter with
        | some option => (s.takeOption option (attachedValue rest)).map some
        | none => .error (.unexpected argument)
    | none, .plain value => (s.setName value).map some

/-- Take all arguments of a command. -/
def takeAll : CommandState → List String → Except UsageError Request
  | s, [] => s.finish
  | s, argument :: rest => do
    match ← s.take argument with
    | none => return .help
    | some s => s.takeAll rest

end CommandState

/-! ## the command line -/

namespace Request

/-- Check the path in front of what follows it. -/
def checkPath : Option String → Except UsageError Unit
  | some "" => .error .emptyValue
  | _ => .ok ()

/-- The request for a path alone. -/
def ofPath : Option String → Except UsageError Request
  | none => .ok .welcome
  | some path => if path = "" then .error .emptyValue else .ok (.assemble path none none)

/-- The arguments of `help`: at most one command. -/
def ofHelp : List String → Except UsageError Request
  | [] => .ok .help
  | [command] =>
    if (Command.parse? command).isSome || command = "help" then .ok .help
    else .error (.unexpected command)
  | _ :: argument :: _ => .error (.unexpected argument)

/-- The arguments behind `--`: at most one path. -/
def ofEscaped : Option String → List String → Except UsageError Request
  | path, [] => ofPath path
  | none, path :: rest => ofEscaped (some path) rest
  | some _, argument :: _ => .error (.unexpected argument)

/-- Read the arguments, after a path that has been met. -/
def ofArgumentsAfter : Option String → List String → Except UsageError Request
  | path, [] => ofPath path
  | path, argument :: rest =>
    match Command.parse? argument with
    | some command => do
      match ← (CommandState.start command).takeAll rest with
      | .help => return .help
      | request =>
        checkPath path
        return request
    | none =>
      if argument = "help" then ofHelp rest
      else
        match Argument.ofString argument with
        | .escape => ofEscaped path rest
        | .long name value => do
          checkPath path
          match name, value with
          | "help", none => return .help
          | "version", none => return .version
          | _, _ => .error (.unexpected argument)
        | .short letter _ => do
          checkPath path
          match letter with
          | 'h' => return .help
          | 'V' => return .version
          | _ => .error (.unexpected argument)
        | .plain text =>
          match path with
          | none => ofArgumentsAfter (some text) rest
          | some _ => .error (.unexpected argument)

/-- Read the arguments of the command line. -/
def ofArguments (arguments : List String) : Except UsageError Request :=
  ofArgumentsAfter none arguments

end Request

end PageAsm
