import PageAsm.Diagnostic

/-!
# PageAsm.Reporter

Showing diagnostics to the user, next to the lines of source text that they mark.
The layout is no concern of the assembler: sessions take a `Reporter` and only ask
what it shows.
-/

namespace PageAsm

/-- A way to show diagnostics. -/
structure Reporter where
  /-- What is shown of a diagnostic about a source text; none if it cannot be shown. -/
  render? (source : String) (d : Diagnostic) : Option String

namespace Reporter

/-- Show code, message and help.  A label has to be in the text. -/
def plain : Reporter where
  render? source d :=
    if d.labels.all fun label => decide (label.1.stop ≤ source.utf8ByteSize) then
      some (d.code ++ "\n" ++ d.message ++ "\nhelp: " ++ d.help ++ "\n")
    else none

end Reporter

end PageAsm
