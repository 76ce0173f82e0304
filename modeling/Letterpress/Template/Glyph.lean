/-!
# Glyphs

Templates are read glyph by glyph. The mark of a glyph tells where it comes from: a place in a text
or a run of a paragraph. How a template is read does not depend on the marks.
-/

namespace Letterpress.Template

structure Glyph (μ : Type) where
  char : Char
  mark : μ
  deriving DecidableEq, Repr

def chars {μ : Type} (glyphs : List (Glyph μ)) : List Char := glyphs.map Glyph.char

def textOf {μ : Type} (glyphs : List (Glyph μ)) : String := String.ofList (chars glyphs)

/-- A place in a text: the number of bytes before it, and its line, counted from one. -/
structure Place where
  offset : Nat := 0
  line : Nat := 1
  deriving DecidableEq, Repr

/-- The place behind a character. -/
def Place.next (p : Place) (c : Char) : Place :=
  ⟨p.offset + c.utf8Size, if c = '\n' then p.line + 1 else p.line⟩

def placedFrom (p : Place) : List Char → List (Glyph Place)
  | [] => []
  | c :: rest => ⟨c, p⟩ :: placedFrom (p.next c) rest

/-- A text with each character marked by its place. -/
def placed (s : String) : List (Glyph Place) := placedFrom {} s.toList

/-- The bytes from `start` to before `stop`. -/
structure Span where
  start : Nat
  stop : Nat
  deriving DecidableEq, Repr

/-- The bytes that glyphs of one stretch take. -/
def spanOf (glyphs : List (Glyph Place)) : Span where
  start := (glyphs.head?.map (·.mark.offset)).getD 0
  stop := (glyphs.getLast?.map fun g => (g.mark.next g.char).offset).getD 0

end Letterpress.Template
