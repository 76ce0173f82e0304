import Letterpress.Template.Failure
import Letterpress.Template.Lexer

/-!
# Checking a template

Any text can be filled in. The check finds what is likely not meant: braces that do not match, and
tags without a partner. The first fault found is told.
-/

namespace Letterpress.Template

/-- How often a character stands twice in a row, without overlaps. -/
def countTwice (brace : Char) : List Char → Nat
  | a :: b :: rest =>
    if a = brace ∧ b = brace then countTwice brace rest + 1 else countTwice brace (b :: rest)
  | _ => 0

namespace Keyword

/-- The field a fault of the keyword's tags belongs to. -/
def field (k : Keyword) : String := k.word ++ "_statements"

def openingTag (k : Keyword) : String := "\x7b\x7b#" ++ k.word ++ "\x7d\x7d"

def closingTag (k : Keyword) : String := "\x7b\x7b/" ++ k.word ++ "\x7d\x7d"

/-- A fault of a tag. -/
def fault (k : Keyword) (t : Token Place) (message : String) : Invalid :=
  ⟨k.field, "line " ++ toString t.line, message⟩

end Keyword

/-- Checks that tags close in the order they open. `stack` holds those that are open, last first. -/
def checkPairs : List (Keyword × Token Place) → List (Token Place) → Except Invalid Unit
  | [], [] => .ok ()
  | (k, t) :: _, [] => .error (k.fault t ("unclosed " ++ k.openingTag))
  | stack, t :: rest =>
    match t.tag with
    | .opens k _ => checkPairs ((k, t) :: stack) rest
    | .closes k =>
      match stack with
      | [] => .error (k.fault t (k.closingTag ++ " without " ++ k.openingTag))
      | (k', t') :: stack =>
        if k' = k then checkPairs stack rest
        else .error (k'.fault t' (k'.openingTag ++ " closed by " ++ k.closingTag))
    | .placeholder _ => checkPairs stack rest
    | .inherits _ => checkPairs stack rest

def check (s : String) : Except Invalid Unit :=
  let opening := countTwice '{' s.toList
  let closing := countTwice '}' s.toList
  if opening ≠ closing then
    .error ⟨"brackets", toString opening ++ " opening, " ++ toString closing ++ " closing",
      "mismatched template brackets"⟩
  else checkPairs [] (tokenize s)

end Letterpress.Template
