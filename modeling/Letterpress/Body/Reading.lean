import Letterpress.Body.Element
import Letterpress.Part

/-!
# Reading a body

Elements are known by their local names. What is not known is passed over, but it has to be closed.
-/

namespace Letterpress

open Markup Markup.Content

/-- The text in an element, without that of the elements in it. -/
def readText : Content → Except PartFault String :=
  foldChildren (fun s child =>
    match child with
    | .text content => (Markup.readText content).mapError .markup |>.map (s ++ ·)
    | .cdata content => .ok (s ++ Text.replacing content)
    | .element _ inner => do
      inner.skip
      pure s
    | .empty _ => .ok s) ""

def Break.ofTag (tag : Tag) : Break :=
  match tag.value? "type" with
  | some "page" => page
  | some "column" => column
  | _ => line

/-- What a tag alone puts into a run. -/
def RunContent.ofTag? (tag : Tag) : Option RunContent :=
  match tag.label with
  | "t" => some (text "")
  | "tab" => some tab
  | "br" => some (.break (.ofTag tag))
  | "cr" => some (.break .line)
  | "fldChar" => ((tag.value? "fldCharType").bind FieldMark.ofWord?).map fieldMark
  | "footnoteReference" => (tag.uint32? "id").map footnote
  | "endnoteReference" => (tag.uint32? "id").map endnote
  | _ => none

/-- A value that is not `none`. -/
def unlessNone (value : Option String) : Option String := value.filter (· ≠ "none")

def Fonts.ofTag (tag : Tag) : Fonts where
  ascii := tag.value? "ascii"
  highAnsi := tag.value? "hAnsi"
  eastAsia := tag.value? "eastAsia"
  complex := tag.value? "cs"
  hint := tag.value? "hint"

def RunProperties.apply (p : RunProperties) (tag : Tag) : RunProperties :=
  match tag.label with
  | "rStyle" => { p with style := tag.value? "val" }
  | "rFonts" => { p with fonts := some (.ofTag tag) }
  | "b" => { p with bold := tag.isOn }
  | "i" => { p with italic := tag.isOn }
  | "strike" => { p with strike := tag.isOn }
  | "color" => { p with color := tag.value? "val" }
  | "sz" => { p with size := tag.uint32? "val" }
  | "highlight" => { p with highlight := unlessNone (tag.value? "val") }
  | "u" => { p with underline := unlessNone (tag.value? "val") }
  | "vertAlign" => { p with baseline := (tag.value? "val").bind Baseline.ofWord? }
  | _ => p

def RunProperties.read : Content → Except PartFault RunProperties := foldTags apply {}

def isGraphic (label : String) : Bool :=
  label = "drawing" || label = "pict" || label = "object" || label = "AlternateContent"

/-- What is in a run element: the formatting that counts for all of it, and the contents. -/
structure RunParts where
  properties : RunProperties := {}
  contents : List RunContent := []

namespace RunParts

def add (p : RunParts) (contents : List RunContent) : RunParts :=
  { p with contents := p.contents ++ contents }

def child (p : RunParts) : Child → Except PartFault RunParts
  | .element tag inner => do
    if tag.label = "rPr" then pure { p with properties := ← RunProperties.read inner }
    else if tag.label = "t" then pure (p.add [.text (← readText inner)])
    else if tag.label = "instrText" then pure (p.add [.fieldCode (← readText inner)])
    else if isGraphic tag.label then pure (p.add [.drawing (← elementText tag inner)])
    else
      inner.skip
      pure (p.add (RunContent.ofTag? tag).toList)
  | .empty tag =>
    if tag.label = "instrText" then .ok (p.add [.fieldCode ""])
    else .ok (p.add (RunContent.ofTag? tag).toList)
  | _ => .ok p

/-- One run for each content. -/
def runs (p : RunParts) (link : Option Hyperlink) : List Run :=
  p.contents.map fun content => { properties := p.properties, content, link }

def read : Content → Except PartFault RunParts := foldChildren child {}

end RunParts

def Bookmark.ofTag? (tag : Tag) : Option Bookmark :=
  (tag.uint32? "id").map fun id => ⟨id, (tag.value? "name").getD ""⟩

/-- The bookmark mark that a tag between runs stands for. -/
def Run.ofMark? (link : Option Hyperlink) (tag : Tag) : Option Run :=
  let content : Option RunContent := match tag.label with
    | "bookmarkStart" => (Bookmark.ofTag? tag).map .bookmarkStart
    | "bookmarkEnd" => (tag.uint32? "id").map .bookmarkEnd
    | _ => none
  content.map fun content => { content, link }

/-- Whether an element only groups the runs in it. -/
def isRunGroup (label : String) : Bool :=
  label = "ins" || label = "smartTag" || label = "fldSimple" || label = "customXml" ||
    label = "sdt" || label = "sdtContent"

/-- The runs of a content inside `link`. Groups of runs are left out, a hyperlink stays on its
runs. -/
def readRuns (link : Option Hyperlink) : Content → Except PartFault (List Run)
  | .done => .ok []
  | .cut fault => .error (.ofCut fault)
  | .element tag inner rest => do
    let runs ←
      if tag.label = "r" then (RunParts.read inner).map (·.runs link)
      else if tag.label = "hyperlink" then
        readRuns (some ⟨tag.value? "id", tag.value? "anchor"⟩) inner
      else if isRunGroup tag.label then readRuns link inner
      else do
        inner.skip
        pure (Run.ofMark? link tag).toList
    pure (runs ++ (← readRuns link rest))
  | .empty tag rest => do pure ((Run.ofMark? link tag).toList ++ (← readRuns link rest))
  | .text _ rest => readRuns link rest
  | .cdata _ rest => readRuns link rest
  | .aside _ rest => readRuns link rest

def PageReference.ofTag? (tag : Tag) : Option PageReference := do
  pure ⟨← Pages.ofWord? ((tag.value? "type").getD "default"), ← tag.value? "id"⟩

def PageMargins.ofTag (tag : Tag) : PageMargins where
  top := (tag.int32? "top").getD 0
  right := (tag.uint32? "right").getD 0
  bottom := (tag.int32? "bottom").getD 0
  left := (tag.uint32? "left").getD 0
  header := (tag.uint32? "header").getD 0
  footer := (tag.uint32? "footer").getD 0
  gutter := (tag.uint32? "gutter").getD 0

def PageSize.ofTag (tag : Tag) : PageSize where
  width := (tag.uint32? "w").getD 0
  height := (tag.uint32? "h").getD 0
  landscape := tag.value? "orient" = some "landscape"

def Section.apply (s : Section) (tag : Tag) : Section :=
  match tag.label with
  | "headerReference" => { s with headers := s.headers ++ (PageReference.ofTag? tag).toList }
  | "footerReference" => { s with footers := s.footers ++ (PageReference.ofTag? tag).toList }
  | "pgSz" => { s with pageSize := some (.ofTag tag) }
  | "pgMar" => { s with margins := some (.ofTag tag) }
  | "pgNumType" => { s with numbering := some ⟨tag.value? "fmt", tag.uint32? "start"⟩ }
  | "cols" => { s with columns := some ⟨(tag.uint32? "num").getD 1, tag.uint32? "space"⟩ }
  | "titlePg" => { s with titlePage := tag.isOn }
  | "docGrid" => { s with linePitch := tag.uint32? "linePitch" }
  | _ => s

def Section.read : Content → Except PartFault Section := foldTags apply {}

def Spacing.ofTag (tag : Tag) : Spacing where
  before := tag.uint32? "before"
  after := tag.uint32? "after"
  line := tag.uint32? "line"
  lineRule := tag.value? "lineRule"

/-- The strict names of the sides count where the usual ones are absent. -/
def Indentation.ofTag (tag : Tag) : Indentation where
  left := (tag.int32? "left").or (tag.int32? "start")
  right := (tag.int32? "right").or (tag.int32? "end")
  firstLine := tag.uint32? "firstLine"
  hanging := tag.uint32? "hanging"

/-- The properties of a paragraph while they are read: the list and the level come apart. -/
structure ParagraphParts where
  properties : ParagraphProperties := {}
  list : Option UInt32 := none
  level : Option UInt32 := none

namespace ParagraphParts

def set (p : ParagraphParts) (f : ParagraphProperties → ParagraphProperties) : ParagraphParts :=
  { p with properties := f p.properties }

def apply (p : ParagraphParts) (tag : Tag) : ParagraphParts :=
  match tag.label with
  | "pStyle" => p.set ({ · with style := tag.value? "val" })
  | "keepNext" => p.set ({ · with keepNext := tag.isOn })
  | "keepLines" => p.set ({ · with keepLines := tag.isOn })
  | "pageBreakBefore" => p.set ({ · with pageBreakBefore := tag.isOn })
  | "ilvl" => { p with level := tag.uint32? "val" }
  | "numId" => { p with list := tag.uint32? "val" }
  | "spacing" => p.set ({ · with spacing := some (.ofTag tag) })
  | "ind" => p.set ({ · with indentation := some (.ofTag tag) })
  | "jc" => p.set ({ · with alignment := (tag.value? "val").bind Alignment.ofWord? })
  | _ => p

/-- The properties in a content; those of a list place count as if they stood in it. -/
def read (p : ParagraphParts) : Content → Except PartFault ParagraphParts
  | .done => .ok p
  | .cut fault => .error (.ofCut fault)
  | .element tag inner rest => do
    if tag.label = "numPr" then read (← read p inner) rest
    else if tag.label = "sectPr" then
      let s ← Section.read inner
      read (p.set ({ · with sectionEnd := some s })) rest
    else
      inner.skip
      read (p.apply tag) rest
  | .empty tag rest => read (p.apply tag) rest
  | .text _ rest => read p rest
  | .cdata _ rest => read p rest
  | .aside _ rest => read p rest

def paragraphProperties (p : ParagraphParts) : ParagraphProperties :=
  { p.properties with numbering := p.list.map fun list => ⟨list, p.level.getD 0⟩ }

end ParagraphParts

def ParagraphProperties.read (c : Content) : Except PartFault ParagraphProperties :=
  (ParagraphParts.read {} c).map ParagraphParts.paragraphProperties

def Paragraph.child (p : Paragraph) : Child → Except PartFault Paragraph
  | .element tag inner => do
    if tag.label = "pPr" then pure { p with properties := ← ParagraphProperties.read inner }
    else pure { p with runs := p.runs ++ (← readRuns none (.element tag inner .done)) }
  | .empty tag => .ok { p with runs := p.runs ++ (Run.ofMark? none tag).toList }
  | _ => .ok p

def Paragraph.read : Content → Except PartFault Paragraph := foldChildren child {}

/-! ### Tables and elements -/

def Width.ofTag (tag : Tag) : Width :=
  ⟨(tag.uint32? "w").getD 0, .ofWord ((tag.value? "type").getD "")⟩

/-- The properties that a tag sets, or the ones that its whole element is kept for. -/
def applyOrKeep {σ : Type} (apply : σ → Tag → σ) (keep? : Tag → Option (String → σ → σ)) (s : σ) :
    Child → Except PartFault σ
  | .element tag inner => do
    match keep? tag with
    | some keep => pure (keep (← elementText tag inner) s)
    | none =>
      inner.skip
      pure (apply s tag)
  | .empty tag => do
    match keep? tag with
    | some keep => pure (keep (← emptyText tag) s)
    | none => pure (apply s tag)
  | _ => .ok s

namespace TableProperties

def apply (p : TableProperties) (tag : Tag) : TableProperties :=
  match tag.label with
  | "tblStyle" => { p with style := tag.value? "val" }
  | "tblW" => { p with width := some (.ofTag tag) }
  | "jc" => { p with alignment := (tag.value? "val").bind Alignment.ofWord? }
  | "tblLayout" => { p with fixed := tag.value? "type" = some "fixed" }
  | _ => p

def keep? (tag : Tag) : Option (String → TableProperties → TableProperties) :=
  match tag.label with
  | "tblBorders" => some fun s p => { p with borders := some s }
  | "tblCellMar" => some fun s p => { p with margins := some s }
  | "tblLook" => some fun s p => { p with look := some s }
  | _ => none

def read : Content → Except PartFault TableProperties := foldChildren (applyOrKeep apply keep?) {}

end TableProperties

namespace CellProperties

def apply (p : CellProperties) (tag : Tag) : CellProperties :=
  match tag.label with
  | "tcW" => { p with width := some (.ofTag tag) }
  | "gridSpan" => { p with span := tag.uint32? "val" }
  | "vMerge" =>
    { p with merge := some (if tag.value? "val" = some "restart" then .restart else .continue) }
  | "vAlign" => { p with alignment := tag.value? "val" }
  | _ => p

def keep? (tag : Tag) : Option (String → CellProperties → CellProperties) :=
  match tag.label with
  | "tcBorders" => some fun s p => { p with borders := some s }
  | "shd" => some fun s p => { p with shading := some s }
  | _ => none

def read : Content → Except PartFault CellProperties := foldChildren (applyOrKeep apply keep?) {}

end CellProperties

def RowProperties.apply (p : RowProperties) (tag : Tag) : RowProperties :=
  match tag.label with
  | "cantSplit" => { p with cantSplit := tag.isOn }
  | "trHeight" => { p with height := tag.uint32? "val" }
  | "tblHeader" => { p with header := tag.isOn }
  | _ => p

def RowProperties.read : Content → Except PartFault RowProperties := foldTags apply {}

def Cell.child (c : Cell) : Child → Except PartFault Cell
  | .element tag inner => do
    if tag.label = "tcPr" then pure { c with properties := ← CellProperties.read inner }
    else if tag.label = "p" then pure { c with paragraphs := c.paragraphs ++ [← Paragraph.read inner] }
    else
      inner.skip
      pure c
  | .empty tag => .ok (if tag.label = "p" then { c with paragraphs := c.paragraphs ++ [{}] } else c)
  | _ => .ok c

def Cell.read : Content → Except PartFault Cell := foldChildren child {}

def Row.child (r : Row) : Child → Except PartFault Row
  | .element tag inner => do
    if tag.label = "trPr" then pure { r with properties := ← RowProperties.read inner }
    else if tag.label = "tc" then pure { r with cells := r.cells ++ [← Cell.read inner] }
    else
      inner.skip
      pure r
  | _ => .ok r

def Row.read : Content → Except PartFault Row := foldChildren child {}

/-- The widths of a grid's columns. -/
def readGrid : Content → Except PartFault (List UInt32) :=
  foldTags (fun grid tag =>
    if tag.label = "gridCol" then grid ++ [(tag.uint32? "w").getD 0] else grid) []

def Table.child (t : Table) : Child → Except PartFault Table
  | .element tag inner => do
    if tag.label = "tblPr" then pure { t with properties := ← TableProperties.read inner }
    else if tag.label = "tblGrid" then pure { t with grid := ← readGrid inner }
    else if tag.label = "tr" then pure { t with rows := t.rows ++ [← Row.read inner] }
    else
      inner.skip
      pure t
  | _ => .ok t

def Table.read : Content → Except PartFault Table := foldChildren child {}

def ControlProperties.apply (p : ControlProperties) (tag : Tag) : ControlProperties :=
  match tag.label with
  | "id" => { p with id := tag.int64? "val" }
  | "alias" => { p with «alias» := tag.value? "val" }
  | "tag" => { p with tag := tag.value? "val" }
  | "docPartGallery" => { p with gallery := tag.value? "val" }
  | "docPartUnique" => { p with unique := tag.isOn }
  | _ => p

/-- The properties in a content; those of a building block count as if they stood in it. -/
def ControlProperties.read (p : ControlProperties) : Content → Except PartFault ControlProperties
  | .done => .ok p
  | .cut fault => .error (.ofCut fault)
  | .element tag inner rest => do
    if tag.label = "docPartObj" then read (← read p inner) rest
    else
      inner.skip
      read (p.apply tag) rest
  | .empty tag rest => read (p.apply tag) rest
  | .text _ rest => read p rest
  | .cdata _ rest => read p rest
  | .aside _ rest => read p rest

/-- The bookmark mark that a tag between elements stands for. -/
def Element.ofMark? (tag : Tag) : Option Element :=
  match tag.label with
  | "bookmarkStart" => (Bookmark.ofTag? tag).map .bookmarkStart
  | "bookmarkEnd" => (tag.uint32? "id").map .bookmarkEnd
  | _ => none

/-- What an empty tag between elements stands for. -/
def Element.ofEmpty? (tag : Tag) : Option Element :=
  match tag.label with
  | "p" => some (.paragraph {})
  | "sectPr" => some (.setup {})
  | _ => ofMark? tag

namespace Element

mutual

def readAll : Content → Except PartFault (List Element)
  | .done => .ok []
  | .cut fault => .error (.ofCut fault)
  | .element tag inner rest => do
    let here ←
      if tag.label = "p" then (Paragraph.read inner).map fun p => [.paragraph p]
      else if tag.label = "tbl" then (Table.read inner).map fun t => [.table t]
      else if tag.label = "sectPr" then (Section.read inner).map fun s => [.setup s]
      else if tag.label = "sdt" then
        (readControl {} [] inner).map fun c => [.control c.1 c.2]
      else do
        inner.skip
        pure (ofMark? tag).toList
    pure (here ++ (← readAll rest))
  | .empty tag rest => do pure ((ofEmpty? tag).toList ++ (← readAll rest))
  | .text _ rest => readAll rest
  | .cdata _ rest => readAll rest
  | .aside _ rest => readAll rest

/-- The properties and the content of a control. -/
def readControl (p : ControlProperties) (content : List Element) :
    Content → Except PartFault (ControlProperties × List Element)
  | .done => .ok (p, content)
  | .cut fault => .error (.ofCut fault)
  | .element tag inner rest => do
    if tag.label = "sdtPr" then readControl (← ControlProperties.read {} inner) content rest
    else if tag.label = "sdtContent" then readControl p (← readAll inner) rest
    else
      inner.skip
      readControl p content rest
  | .empty _ rest => readControl p content rest
  | .text _ rest => readControl p content rest
  | .cdata _ rest => readControl p content rest
  | .aside _ rest => readControl p content rest

end

end Element

/-! ### The main part -/

/-- A main part: the attributes of its root, and its body. -/
structure MainPart where
  attributes : List (String × String) := []
  body : Body := {}

namespace MainPart

/-- A main part while it is read; the last body counts. -/
structure Partial where
  attributes : List (String × String) := []
  body : Option Body := none

/-- Reads the elements of the root and around it. A text may end inside the root. -/
def Partial.read (m : Partial) : Content → Except PartFault Partial
  | .done => .ok m
  | .cut none => .ok m
  | .cut (some fault) => .error (.markup fault)
  | .element tag inner rest => do
    if tag.label = "document" then read (← read { m with attributes := tag.texts } inner) rest
    else if tag.label = "body" then
      let elements ← Element.readAll inner
      read { m with body := some ⟨elements⟩ } rest
    else
      inner.skip
      read m rest
  | .empty tag rest => read (if tag.label = "body" then { m with body := some {} } else m) rest
  | .text _ rest => read m rest
  | .cdata _ rest => read m rest
  | .aside _ rest => read m rest

def read (source : List Text.Symbol) : Except PartFault MainPart := do
  let m ← Partial.read {} (Content.read source)
  match m.body with
  | some body => pure ⟨m.attributes, body⟩
  | none => throw .noBody

end MainPart

end Letterpress
