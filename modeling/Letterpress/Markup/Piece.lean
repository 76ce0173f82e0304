import Letterpress.Markup.Escape

/-!
# Pieces of markup to write

A text is written piece by piece: tags, the texts between them, and markup that is kept as it is.
-/

namespace Letterpress.Markup

inductive Piece where
  | opening (name : String) (attributes : List (String × String))
  | empty (name : String) (attributes : List (String × String))
  | closing (name : String)
  | text (s : String)
  | verbatim (markup : String)
  deriving DecidableEq, Repr

namespace Piece

def attributeSource (a : String × String) : String :=
  " " ++ a.1 ++ "=\"" ++ escapeValue a.2 ++ "\""

def attributesSource (attributes : List (String × String)) : String :=
  String.join (attributes.map attributeSource)

def source : Piece → String
  | opening name attributes => "<" ++ name ++ attributesSource attributes ++ ">"
  | empty name attributes => "<" ++ name ++ attributesSource attributes ++ "/>"
  | closing name => "</" ++ name ++ ">"
  | text s => escapeText s
  | verbatim markup => markup

/-- The pieces one behind the other. -/
def join (pieces : List Piece) : String := String.join (pieces.map source)

/-- An attribute that may be absent. -/
def given (name : String) (value : Option String) : List (String × String) :=
  (value.map fun v => (name, v)).toList

/-- An element around pieces. -/
def element (name : String) (attributes : List (String × String)) (inner : List Piece) :
    List Piece :=
  opening name attributes :: inner ++ [closing name]

end Piece

end Letterpress.Markup
