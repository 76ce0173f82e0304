/-!
# Escaped text

Characters that mean markup are written as references. They are replaced one after the other, each
in all that the replacements before it have left; so the ampersand comes first.
-/

namespace Letterpress.Markup

/-- Replaces a character wherever it stands. -/
def replaceEach (c : Char) (reference : String) (cs : List Char) : List Char :=
  cs.flatMap fun d => if d = c then reference.toList else [d]

/-- Replaces one character after the other. -/
def replaceInTurn (references : List (Char × String)) (cs : List Char) : List Char :=
  references.foldl (fun cs entry => replaceEach entry.1 entry.2 cs) cs

def escape (references : List (Char × String)) (s : String) : String :=
  String.ofList (replaceInTurn references s.toList)

/-- The characters that mean markup between tags. -/
def textReferences : List (Char × String) := [('&', "&amp;"), ('<', "&lt;"), ('>', "&gt;")]

/-- The characters that mean markup between quotes. -/
def valueReferences : List (Char × String) :=
  textReferences ++ [('"', "&quot;"), ('\'', "&apos;")]

/-- A text as it is written between tags. -/
def escapeText (s : String) : String := escape textReferences s

/-- A text as it is written between quotes. -/
def escapeValue (s : String) : String := escape valueReferences s

end Letterpress.Markup
