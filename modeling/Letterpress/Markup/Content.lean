import Letterpress.Markup.Attribute

/-!
# The content of an element

A content is a row of texts and elements, each with what follows it. It is done at the end tag of
its element, or cut off where the text ends or is at fault.
-/

namespace Letterpress.Markup

open Text

inductive Content where
  | done
  | cut (fault : Option Fault)
  | element (tag : Tag) (inner rest : Content)
  | empty (tag : Tag) (rest : Content)
  | text (content : List Symbol) (rest : Content)
  | cdata (content : List Symbol) (rest : Content)
  | aside (source : List Symbol) (rest : Content)
  deriving DecidableEq, Repr

namespace Content

/-- A content and what follows the elements around it, innermost first. -/
structure Nested where
  here : Content
  around : List Content

/-- Puts an event before the content it stands before. Nothing follows an element that is left
open. -/
def put (fault : Option Fault) (event : Event) (n : Nested) : Nested :=
  match event with
  | .closing _ => ⟨done, n.here :: n.around⟩
  | .opening tag => ⟨element tag n.here (n.around.headD (cut fault)), n.around.drop 1⟩
  | .empty tag => { n with here := empty tag n.here }
  | .text content => { n with here := text content n.here }
  | .cdata content => { n with here := cdata content n.here }
  | .aside source => { n with here := aside source n.here }

def ofEvents (events : Events) : Content :=
  (events.list.foldr (put events.fault) ⟨cut events.fault, []⟩).here

/-- The content of a whole text. -/
def read (input : List Symbol) : Content := ofEvents (scan input)

/-- Why a content is cut off, if it is. -/
def cut? : Content → Option (Option Fault)
  | done => none
  | cut fault => some fault
  | element _ inner rest =>
    match cut? inner with
    | some fault => some fault
    | none => cut? rest
  | empty _ rest => cut? rest
  | text _ rest => cut? rest
  | cdata _ rest => cut? rest
  | aside _ rest => cut? rest

def startSource (tag : Tag) : List Symbol := literal "<" ++ tag.content ++ literal ">"

def emptySource (tag : Tag) : List Symbol := literal "<" ++ tag.content ++ literal "/>"

def endSource (tag : Tag) : List Symbol := literal "</" ++ tag.name ++ literal ">"

/-- The text a content is read from, without the blanks behind the names of end tags. -/
def source : Content → List Symbol
  | done => []
  | cut _ => []
  | element tag inner rest =>
    startSource tag ++ (source inner ++ (endSource tag ++ source rest))
  | empty tag rest => emptySource tag ++ source rest
  | text content rest => content ++ source rest
  | cdata content rest => literal "<![CDATA[" ++ (content ++ (literal "]]>" ++ source rest))
  | aside written rest => written ++ source rest

end Content

end Letterpress.Markup
