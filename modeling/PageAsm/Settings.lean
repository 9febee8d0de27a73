/-!
# PageAsm.Settings

Settings taken from the environment.  They are set once, at the start, and can
be asked for after that.
-/

namespace PageAsm

structure Settings where
  /-- Status lines are left out. -/
  quiet : Bool
deriving DecidableEq

/-- A use of the settings out of order. -/
inductive SettingsError where
  | alreadySet
  | notSet
deriving DecidableEq

def SettingsError.message : SettingsError → String
  | alreadySet => "tried to initialize environment state multiple times"
  | notSet => "tried to access environment state before initialization"

namespace Settings

/-- The name of the environment variable that asks for quiet. -/
def variableName : String := "RELASM_QUIET"

/-- The settings for a value of the environment variable: only `1` counts. -/
def ofVariable (value : Option String) : Settings := ⟨value == some "1"⟩

/-- Set the settings for the first time. -/
def init (value : Option String) : Option Settings → Except SettingsError Settings
  | none => .ok (ofVariable value)
  | some _ => .error .alreadySet

/-- Ask for quiet, once the settings are set. -/
def isQuiet : Option Settings → Except SettingsError Bool
  | some settings => .ok settings.quiet
  | none => .error .notSet

end Settings

end PageAsm
