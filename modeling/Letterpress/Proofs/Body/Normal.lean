import Letterpress.Body.Reading
import Letterpress.Body.Writing
import Letterpress.Proofs.Markup.Captured

/-!
# What writing keeps

A body in its normal form is what is read from a written body. A body can be written and read back
if the markup it holds is in the form in which markup is kept.
-/

namespace Letterpress

open Markup Markup.Content

/-- A highlight or an underline `none` is absent. -/
def RunProperties.normalize (p : RunProperties) : RunProperties :=
  { p with highlight := unlessNone p.highlight, underline := unlessNone p.underline }

/-- A bookmark mark has no formatting. -/
def Run.normalize (r : Run) : Run :=
  { r with properties := if r.isMark then {} else r.properties.normalize }

def Paragraph.normalize (p : Paragraph) : Paragraph := { p with runs := p.runs.map Run.normalize }

/-- A cell has a paragraph. -/
def Cell.normalize (c : Cell) : Cell :=
  { c with
    paragraphs := if c.paragraphs.isEmpty then [{}] else c.paragraphs.map Paragraph.normalize }

def Row.normalize (r : Row) : Row := { r with cells := r.cells.map Cell.normalize }

def Table.normalize (t : Table) : Table := { t with rows := t.rows.map Row.normalize }

namespace Element

mutual

def normalize : Element → Element
  | paragraph p => paragraph p.normalize
  | table t => table t.normalize
  | setup s => setup s
  | control properties content => control properties (normalizeAll content)
  | bookmarkStart b => bookmarkStart b
  | bookmarkEnd id => bookmarkEnd id

def normalizeAll : List Element → List Element
  | [] => []
  | e :: rest => normalize e :: normalizeAll rest

end

end Element

/-- The last of the section setups in the body itself stands alone and at the end. -/
def Body.normalize (b : Body) : Body :=
  ⟨Element.normalizeAll (b.elements.filter (·.setup?.isNone)) ++ (b.section?.map .setup).toList⟩

/-- A graphic is an element with a start and an end tag. -/
def Run.keeps (r : Run) : Bool :=
  match r.content with
  | .drawing markup => isElement (isGraphic ·.label) markup
  | _ => true

/-- Whether markup is absent or that of one element with a label. -/
def keepsNamed (label : String) (markup : Option String) : Bool :=
  markup.all fun s => isElement (·.label = label) s || isEmptyTag (·.label = label) s

def TableProperties.keeps (p : TableProperties) : Bool :=
  keepsNamed "tblBorders" p.borders && keepsNamed "tblCellMar" p.margins &&
    keepsNamed "tblLook" p.look

def CellProperties.keeps (p : CellProperties) : Bool :=
  keepsNamed "tcBorders" p.borders && keepsNamed "shd" p.shading

def Paragraph.keeps (p : Paragraph) : Bool := p.runs.all Run.keeps

def Cell.keeps (c : Cell) : Bool := c.properties.keeps && c.paragraphs.all Paragraph.keeps

def Table.keeps (t : Table) : Bool := t.properties.keeps && t.rows.all (·.cells.all Cell.keeps)

namespace Element

mutual

def keeps : Element → Bool
  | paragraph p => p.keeps
  | table t => t.keeps
  | control _ content => keepsAll content
  | setup _ => true
  | bookmarkStart _ => true
  | bookmarkEnd _ => true

def keepsAll : List Element → Bool
  | [] => true
  | e :: rest => keeps e && keepsAll rest

end

end Element

/-- Whether all markup in the body is in the form in which markup is kept. -/
def Body.keeps (b : Body) : Bool := Element.keepsAll b.elements

end Letterpress
