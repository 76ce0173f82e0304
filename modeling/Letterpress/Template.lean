import Letterpress.Document
import Letterpress.Template.Expand
import Letterpress.Template.Parser
import Letterpress.Text.Hidden

/-!
# Templates and what they inherit

A template that names a parent gives bodies to the parent's blocks. The outermost ancestor decides
what is shown; of several bodies for a block, the one nearest to the template counts.
-/

namespace Letterpress

/-- A template without its ancestors. -/
structure Template.Sheet where
  name : String
  content : String
  /-- The document a styled template is filled in on. -/
  base : Option Document := none

structure Template where
  own : Template.Sheet
  /-- The ancestors, nearest first. -/
  ancestors : List Template.Sheet := []

namespace Template

namespace Sheet

/-- The text of a document is the template's content, a line for each paragraph. -/
def ofDocument (name : String) (d : Document) : Sheet := ⟨name, d.plainText, some d⟩

def nodes (s : Sheet) : List (Node Place) := parseText s.content

/-- The parent named first. -/
def parent? (s : Sheet) : Option String := Node.findParent? s.nodes

/-- Names, sorted and each once. -/
def nameSet (names : List String) : List String := (KeyMap.ofList (names.map fun n => (n, ()))).keys

def «variables» (s : Sheet) : List String :=
  nameSet ((Node.flattenAll s.nodes).filterMap Node.placeholderName?)

/-- The arguments of the pairs with a keyword. -/
def arguments (s : Sheet) (keyword : Keyword) : List String :=
  nameSet ((Node.flattenAll s.nodes).filterMap (Node.argument? keyword))

def conditions (s : Sheet) : List String := s.arguments .condition

def lists (s : Sheet) : List String := s.arguments .loop

def blocks (s : Sheet) : List String := s.arguments .block

end Sheet

def name (t : Template) : String := t.own.name

def parent? (t : Template) : Option Template :=
  match t.ancestors with
  | [] => none
  | s :: rest => some ⟨s, rest⟩

/-- The template and its ancestors, nearest first. -/
def chain (t : Template) : List Sheet := t.own :: t.ancestors

/-- The outermost ancestor. -/
def outermost (t : Template) : Sheet := t.ancestors.getLast?.getD t.own

/-- The nearest document to fill in on. -/
def base? (t : Template) : Option Document := t.chain.findSome? Sheet.base

def definitionsOf (sheets : List Sheet) : Definitions Place :=
  sheets.flatMap fun s => Node.blocks s.nodes

def definitions (t : Template) : Definitions Place := definitionsOf t.chain

/-- What a template without a document shows. -/
def resolved (t : Template) : List (Node Place) := t.definitions.expand t.outermost.nodes

/-- The body that counts for a block. -/
def block? (t : Template) (name : String) : Option (List (Node Place)) :=
  let d := t.definitions
  (d.lookup name).map (d.expandBody name)

/-- The templates that come before the one with the document. -/
def derived (t : Template) : List Sheet := t.chain.takeWhile (·.base.isNone)

/-- Bodies for the blocks in the document, from the templates that come before its own. -/
def overrides (t : Template) : Definitions Place :=
  let d := t.definitions
  (definitionsOf t.derived).map fun (name, body) => (name, d.expandBody name body)

/-- A short description. -/
def summary (t : Template) : String :=
  let parent := match t.parent? with
    | some p => "Some(" ++ Text.quoted p.name ++ ")"
    | none => "None"
  "Template \x7b name: " ++ Text.quoted t.name ++ ", has_base: " ++ toString t.own.base.isSome ++
    ", parent: " ++ parent ++ ", blocks: \x7b" ++
    ", ".intercalate (t.own.blocks.map Text.quoted) ++ "\x7d, .. \x7d"

end Template

end Letterpress
