import PageAsm.Text.Blank
import PageAsm.Text.Split

/-!
# PageAsm.Path

Paths as text, with `/` between the components.  The name of a file is the last
component that is neither empty nor a dot; its extension is what follows the
last dot, unless that is the first character of the name.
-/

namespace PageAsm.Path

/-- The components between slashes. -/
def components (path : String) : List String :=
  (Text.splitOn '/' path.toList).map String.ofList

def isAbsolute (path : String) : Bool := path.toList.head? == some '/'

/-- Drop slashes and dots as whole components from the end of a reversed path. -/
def dropDots : List Char → List Char
  | '/' :: cs => dropDots cs
  | '.' :: '/' :: cs => dropDots cs
  | cs => cs

/-- What stands in front of the name of the file, and the name. -/
def splitName (path : String) : List Char × List Char :=
  let reversed := dropDots path.toList.reverse
  ((reversed.dropWhile (· != '/')).reverse, (reversed.takeWhile (· != '/')).reverse)

/-- The stem of a name, and its extension if there is one. -/
def splitExtension (name : List Char) : List Char × Option (List Char) :=
  let reversed := name.reverse
  let stem := (reversed.dropWhile (· != '.')).drop 1
  if stem.isEmpty || name = ['.', '.'] then (name, none)
  else (stem.reverse, some (reversed.takeWhile (· != '.')).reverse)

/-- The extension of the file that a path names. -/
def extension? (path : String) : Option String :=
  (splitExtension (splitName path).2).2.map String.ofList

/-- Put an extension behind the stem of the name; a path that names no file
stays as it is. -/
def setExtension (path ext : String) : String :=
  let (front, name) := splitName path
  if name.isEmpty || name = ['.'] || name = ['.', '.'] then path
  else String.ofList (front ++ (splitExtension name).1) ++ "." ++ ext

/-- The path with another extension.  The old one is cut off first, and what is
left may name no file: `..asm` becomes `..`. -/
def withExtension (path ext : String) : String :=
  match extension? path with
  | none => setExtension path ext
  | some old =>
    setExtension (String.ofList (path.toList.take (path.toList.length - old.toList.length))) ext

end PageAsm.Path
