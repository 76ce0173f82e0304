import Letterpress.Render.Table
import Letterpress.Template

/-!
# Rendering templates

A styled template is filled in on a copy of its document. Any other becomes text first, and then a
document with a paragraph for each line.
-/

namespace Letterpress

open Template

namespace Element

mutual

def fill (blockText : BlockText) (s : Scope) : Element → Element
  | paragraph p => paragraph (p.fill blockText s)
  | table t => table (t.fill blockText s)
  | control properties content => control properties (fillAll blockText s content)
  | setup s => setup s
  | bookmarkStart b => bookmarkStart b
  | bookmarkEnd id => bookmarkEnd id

def fillAll (blockText : BlockText) (s : Scope) : List Element → List Element
  | [] => []
  | e :: rest => fill blockText s e :: fillAll blockText s rest

end

end Element

namespace Document

def fill (blockText : BlockText) (s : Scope) (d : Document) : Document :=
  { d with body := ⟨Element.fillAll blockText s d.body.elements⟩ }

/-- The lines of a text without the blank ones at its start and its end. -/
def shownLines (text : String) : List String :=
  let lines := (Text.lines text).dropWhile Text.allBlank
  (lines.reverse.dropWhile Text.allBlank).reverse

/-- The paragraph of a line, if it gets one. -/
def paragraphOfLine? (settings : Settings) (line : String) : Option Paragraph :=
  let p? : Option Paragraph :=
    if !Text.allBlank line then some (.ofText line)
    else if settings.keepBlankLines then some {}
    else none
  p?.map fun p =>
    match settings.paragraphStyle with
    | some style => p.setStyle style
    | none => p

/-- A document with a paragraph for each line. -/
def ofText (settings : Settings) (text : String) : Document :=
  ((shownLines text).filterMap (paragraphOfLine? settings)).foldl
    (fun d p => d.add (.paragraph p)) new

end Document

namespace Template

/-- The text in place of a block of the template's document. -/
def overrideText (t : Template) : BlockText :=
  let overrides := t.overrides
  fun s name => (overrides.lookup name).map (Node.render s)

def renderText (t : Template) (settings : Settings) (filling : Filling) : String :=
  Node.render ⟨filling, settings.missing, []⟩ t.resolved

def render (t : Template) (settings : Settings) (filling : Filling) : Document :=
  match t.base? with
  | some base => base.fill t.overrideText ⟨filling, settings.missing, []⟩
  | none => .ofText settings (t.renderText settings filling)

end Template

end Letterpress
