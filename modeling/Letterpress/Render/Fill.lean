import Letterpress.Render.Scope
import Letterpress.Template.Parser

/-!
# Filling in a template

What is kept of a template keeps its marks, and what is filled in stands for the tag it replaces.
-/

namespace Letterpress

open Template

variable {μ : Type}

/-- A part of what a template becomes. -/
inductive Filled (μ : Type) where
  | kept (g : Glyph μ)
  /-- A text in place of a tag. -/
  | value (text : String) (tag : List (Glyph μ))

namespace Filled

def chars : Filled μ → List Char
  | kept g => [g.char]
  | value text _ => text.toList

def text (filled : List (Filled μ)) : String := String.ofList (filled.flatMap chars)

end Filled

/-- What stands in place of a block, if it is not the block's body. -/
abbrev BlockText := Scope → String → Option String

namespace Template.Node

mutual

def fill (blockText : BlockText) : Scope → Node μ → List (Filled μ)
  | _, text glyphs => glyphs.map .kept
  | s, placeholder name raw =>
    match s.value? name, s.missing with
    | some value, _ => [.value value raw]
    | none, .keep => raw.map .kept
    | none, .empty => []
  | _, inherits _ _ => []
  | _, stray raw => raw.map .kept
  | s, pair .condition name _ body _ => if s.holds name then fillAll blockText s body else []
  | s, pair .loop name opening body closing =>
    match s.list? name with
    | some items => (s.over false items).flatMap fun s => fillAll blockText s body
    | none => (opening ++ sourceAll body ++ closing).map .kept
  | s, pair .block name opening body _ =>
    match blockText s name with
    | some instead => [.value instead opening]
    | none => fillAll blockText s body

def fillAll (blockText : BlockText) : Scope → List (Node μ) → List (Filled μ)
  | _, [] => []
  | s, node :: rest => fill blockText s node ++ fillAll blockText s rest

end

mutual

/-- The text of a node, with every block's own body. -/
def renderNode : Scope → Node μ → String
  | _, text glyphs => textOf glyphs
  | s, placeholder name raw =>
    match s.value? name, s.missing with
    | some value, _ => value
    | none, .keep => textOf raw
    | none, .empty => ""
  | _, inherits _ _ => ""
  | _, stray raw => textOf raw
  | s, pair .condition name _ body _ => if s.holds name then render s body else ""
  | s, pair .loop name opening body closing =>
    match s.list? name with
    | some items => String.join ((s.over false items).map fun s => render s body)
    | none => textOf (opening ++ sourceAll body ++ closing)
  | s, pair .block _ _ body _ => render s body

def render : Scope → List (Node μ) → String
  | _, [] => ""
  | s, node :: rest => renderNode s node ++ render s rest

end

mutual

/-- The node as it is written, with its conditions decided. -/
def judge (s : Scope) : Node μ → List (Glyph μ)
  | pair keyword name opening body closing =>
    if keyword = .condition then if s.holds name then judgeAll s body else []
    else opening ++ sourceAll body ++ closing
  | text glyphs => glyphs
  | placeholder _ raw => raw
  | inherits _ raw => raw
  | stray raw => raw

def judgeAll (s : Scope) : List (Node μ) → List (Glyph μ)
  | [] => []
  | node :: rest => judge s node ++ judgeAll s rest

end

end Template.Node

end Letterpress
