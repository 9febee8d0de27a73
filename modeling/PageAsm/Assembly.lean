import PageAsm.Delivery
import PageAsm.SourceText

/-!
# PageAsm.Assembly

Assembling a segment: lay it out, run over its lines, and check that the run
ends at the address the layout gives for the end of the code.
-/

namespace PageAsm

/-- The result of assembling a segment. -/
structure Assembly where
  layout : Layout
  object : String
  listing : String

/-- The layout, if the code ends where it says. -/
def Layout.confirm (t : Layout) (codeEnd : UInt16) : Except Failure Layout :=
  if codeEnd = t.codeEnd then .ok t else .error (.fault .locationMismatch)

/-- Lay lines out and run over them. -/
def attempt (lines : List Line) : Run Layout :=
  match Layout.ofLines lines with
  | .error f => .stop f
  | .ok t => (Run.ofLines t lines).check t.confirm

/-- Assemble lines into files with limited room.  What was written before a
failure stays. -/
def assembleTo (lines : List Line) (objectRoom listingRoom : Option Nat) : Delivery Layout :=
  Delivery.ofRun (attempt lines) objectRoom listingRoom

/-- Assemble lines. -/
def assemble (lines : List Line) : Except Failure Assembly :=
  let run := attempt lines
  run.outcome.map fun t => ⟨t, run.object, run.listing⟩

/-- Assemble source text. -/
def assembleSource (source : String) : Except Failure Assembly := do
  let lines ← (SourceText.read source).mapError .diagnostic
  assemble lines

end PageAsm
