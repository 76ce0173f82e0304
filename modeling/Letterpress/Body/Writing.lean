import Letterpress.Body.Element
import Letterpress.Markup.Piece
import Letterpress.Number.Decimal
import Letterpress.Text.Blank

/-!
# Writing a body

A body is written element by element; its section setup comes last. Some values have no written
form: a body that holds one is refused.
-/

namespace Letterpress

open Markup Markup.Piece Number

inductive Unwritable where
  | headingLevel (level : UInt32)
  | sizeZero
  | spanZero
  | rowWithoutCells (index : Nat)
  | columnsZero
  deriving DecidableEq, Repr

def Unwritable.message : Unwritable → String
  | headingLevel level => "heading level " ++ showUInt32 level ++ " outside 1..=9"
  | sizeZero => "font size of zero"
  | spanZero => "grid span of zero"
  | rowWithoutCells index => "table row " ++ toString index ++ " has no cells"
  | columnsZero => "section with zero columns"

abbrev Writing := Except Unwritable (List Piece)

/-- What is written for a value that may be absent. -/
def ifGiven {α : Type} (value : Option α) (f : α → List Piece) : List Piece :=
  match value with
  | some a => f a
  | none => []

def ifOn (on : Bool) (pieces : List Piece) : List Piece := if on then pieces else []

/-- An empty element with one value. -/
def valued (name value : String) : List Piece := [.empty name [("w:val", value)]]

def kept (markup : Option String) : List Piece := ifGiven markup fun s => [.verbatim s]

def PageReference.pieces (name : String) (r : PageReference) : Piece :=
  .empty name [("w:type", r.pages.word), ("r:id", r.relationship)]

def PageSize.pieces (s : PageSize) : List Piece :=
  [.empty "w:pgSz" ([("w:w", showUInt32 s.width), ("w:h", showUInt32 s.height)] ++
    if s.landscape then [("w:orient", "landscape")] else [])]

def PageMargins.pieces (m : PageMargins) : List Piece :=
  [.empty "w:pgMar"
    [("w:top", showInt32 m.top), ("w:right", showUInt32 m.right),
     ("w:bottom", showInt32 m.bottom), ("w:left", showUInt32 m.left),
     ("w:header", showUInt32 m.header), ("w:footer", showUInt32 m.footer),
     ("w:gutter", showUInt32 m.gutter)]]

def PageNumbering.pieces (n : PageNumbering) : List Piece :=
  [.empty "w:pgNumType" (given "w:fmt" n.format ++ given "w:start" (n.start.map showUInt32))]

def Columns.pieces (c : Columns) : Writing :=
  if c.count = 0 then .error .columnsZero
  else .ok [.empty "w:cols" (("w:num", showUInt32 c.count) :: given "w:space" (c.space.map showUInt32))]

def Section.pieces (s : Section) : Writing := do
  let columns ← match s.columns with
    | some c => c.pieces
    | none => pure []
  pure (element "w:sectPr" []
    (s.headers.map (PageReference.pieces "w:headerReference") ++
      s.footers.map (PageReference.pieces "w:footerReference") ++
      ifGiven s.pageSize PageSize.pieces ++ ifGiven s.margins PageMargins.pieces ++
      ifGiven s.numbering PageNumbering.pieces ++ columns ++
      ifOn s.titlePage [.empty "w:titlePg" []] ++
      ifGiven s.linePitch fun n => [.empty "w:docGrid" [("w:linePitch", showUInt32 n)]]))

def Bookmark.pieces (b : Bookmark) : List Piece :=
  [.empty "w:bookmarkStart" [("w:id", showUInt32 b.id), ("w:name", b.name)]]

def bookmarkEndPieces (id : UInt32) : List Piece :=
  [.empty "w:bookmarkEnd" [("w:id", showUInt32 id)]]

def Fonts.pieces (f : Fonts) : List Piece :=
  [.empty "w:rFonts" (given "w:ascii" f.ascii ++ given "w:hAnsi" f.highAnsi ++
    given "w:eastAsia" f.eastAsia ++ given "w:cs" f.complex ++ given "w:hint" f.hint)]

def RunProperties.pieces (p : RunProperties) : Writing :=
  if p.isEmpty then .ok []
  else if p.size = some 0 then .error .sizeZero
  else .ok (element "w:rPr" []
    (ifGiven p.style (valued "w:rStyle") ++ ifGiven p.fonts Fonts.pieces ++
      ifOn p.bold [.empty "w:b" [], .empty "w:bCs" []] ++
      ifOn p.italic [.empty "w:i" [], .empty "w:iCs" []] ++
      ifOn p.strike [.empty "w:strike" []] ++ ifGiven p.color (valued "w:color") ++
      ifGiven (p.size.map showUInt32) (fun n => valued "w:sz" n ++ valued "w:szCs" n) ++
      ifGiven p.highlight (valued "w:highlight") ++ ifGiven p.underline (valued "w:u") ++
      ifGiven p.baseline fun b => valued "w:vertAlign" b.word))

/-- Whether a text begins or ends with a blank, which has to be kept. -/
def touchesBlank (s : String) : Bool :=
  let cs := s.toList
  (cs.head?.any Text.isBlank) || (cs.getLast?.any Text.isBlank)

def preserving : List (String × String) := [("xml:space", "preserve")]

def RunContent.pieces : RunContent → List Piece
  | text s => element "w:t" (if touchesBlank s then preserving else []) [.text s]
  | drawing markup => [.verbatim markup]
  | fieldMark m => [.empty "w:fldChar" [("w:fldCharType", m.word)]]
  | fieldCode code => element "w:instrText" preserving [.text code]
  | .break .line => [.empty "w:br" []]
  | .break b => [.empty "w:br" [("w:type", b.word)]]
  | tab => [.empty "w:tab" []]
  | footnote id => [.empty "w:footnoteReference" [("w:id", showUInt32 id)]]
  | endnote id => [.empty "w:endnoteReference" [("w:id", showUInt32 id)]]
  | bookmarkStart b => b.pieces
  | bookmarkEnd id => bookmarkEndPieces id

/-- A bookmark mark is written bare. -/
def Run.pieces (r : Run) : Writing := do
  if r.isMark then pure r.content.pieces
  else pure (element "w:r" [] ((← r.properties.pieces) ++ r.content.pieces))

def Hyperlink.pieces (l : Hyperlink) : Piece :=
  .opening "w:hyperlink" (given "r:id" l.relationship ++ given "w:anchor" l.anchor)

/-- What is written between two runs, for their links to differ. -/
def linkPieces (before behind : Option Hyperlink) : List Piece :=
  if before = behind then []
  else ifGiven before (fun _ => [.closing "w:hyperlink"]) ++ ifGiven behind fun l => [l.pieces]

/-- The runs behind a run with this link. Runs with equal links share one element. -/
def runsPieces (link : Option Hyperlink) : List Run → Writing
  | [] => .ok (linkPieces link none)
  | r :: rest => do
    let here ← r.pieces
    pure (linkPieces link r.link ++ here ++ (← runsPieces r.link rest))

/-- The level in the name of a heading style. -/
def headingLevel? (style : String) : Option UInt32 :=
  if "Heading".toList.isPrefixOf style.toList then
    (unsigned? UInt32.size (style.toList.drop 7)).map UInt32.ofNat
  else none

/-- There are headings of level 1 to 9 only. -/
def checkStyle (style : String) : Except Unwritable Unit :=
  match headingLevel? style with
  | some level => if 1 ≤ level ∧ level ≤ 9 then .ok () else .error (.headingLevel level)
  | none => .ok ()

def ListPlace.pieces (l : ListPlace) : List Piece :=
  element "w:numPr" [] (valued "w:ilvl" (showUInt32 l.level) ++ valued "w:numId" (showUInt32 l.list))

def Spacing.pieces (s : Spacing) : List Piece :=
  [.empty "w:spacing" (given "w:before" (s.before.map showUInt32) ++
    given "w:after" (s.after.map showUInt32) ++ given "w:line" (s.line.map showUInt32) ++
    given "w:lineRule" s.lineRule)]

def Indentation.pieces (i : Indentation) : List Piece :=
  [.empty "w:ind" (given "w:left" (i.left.map showInt32) ++ given "w:right" (i.right.map showInt32) ++
    given "w:firstLine" (i.firstLine.map showUInt32) ++
    given "w:hanging" (i.hanging.map showUInt32))]

def ParagraphProperties.pieces (p : ParagraphProperties) : Writing := do
  if p.isEmpty then pure []
  else
    match p.style with
    | some style => checkStyle style
    | none => pure ()
    let sectionEnd ← match p.sectionEnd with
      | some s => s.pieces
      | none => pure []
    pure (element "w:pPr" []
      (ifGiven p.style (valued "w:pStyle") ++ ifOn p.keepNext [.empty "w:keepNext" []] ++
        ifOn p.keepLines [.empty "w:keepLines" []] ++
        ifOn p.pageBreakBefore [.empty "w:pageBreakBefore" []] ++
        ifGiven p.numbering ListPlace.pieces ++ ifGiven p.spacing Spacing.pieces ++
        ifGiven p.indentation Indentation.pieces ++
        ifGiven p.alignment (fun a => valued "w:jc" a.word) ++ sectionEnd))

def Paragraph.pieces (p : Paragraph) : Writing := do
  let properties ← p.properties.pieces
  pure (element "w:p" [] (properties ++ (← runsPieces none p.runs)))

def paragraphsPieces : List Paragraph → Writing
  | [] => .ok []
  | p :: rest => do
    let here ← p.pieces
    pure (here ++ (← paragraphsPieces rest))

/-! ### Tables and elements -/

def Width.pieces (name : String) (w : Width) : List Piece :=
  [.empty name [("w:w", showUInt32 w.value), ("w:type", w.unit.word)]]

def TableProperties.pieces (p : TableProperties) : List Piece :=
  element "w:tblPr" []
    (ifGiven p.style (valued "w:tblStyle") ++ ifGiven p.width (Width.pieces "w:tblW") ++
      ifGiven p.alignment (fun a => valued "w:jc" a.word) ++ kept p.borders ++
      ifOn p.fixed [.empty "w:tblLayout" [("w:type", "fixed")]] ++ kept p.margins ++ kept p.look)

def RowProperties.pieces (p : RowProperties) : List Piece :=
  if p = {} then []
  else element "w:trPr" []
    (ifOn p.cantSplit [.empty "w:cantSplit" []] ++
      ifGiven (p.height.map showUInt32) (valued "w:trHeight") ++
      ifOn p.header [.empty "w:tblHeader" []])

def VerticalMerge.pieces : VerticalMerge → List Piece
  | restart => valued "w:vMerge" "restart"
  | .continue => [.empty "w:vMerge" []]

def CellProperties.pieces (p : CellProperties) : Writing :=
  if p = {} then .ok []
  else if p.span = some 0 then .error .spanZero
  else .ok (element "w:tcPr" []
    (ifGiven p.width (Width.pieces "w:tcW") ++
      ifGiven (p.span.map showUInt32) (valued "w:gridSpan") ++
      ifGiven p.merge VerticalMerge.pieces ++ kept p.borders ++ kept p.shading ++
      ifGiven p.alignment (valued "w:vAlign")))

/-- A cell without paragraphs is written with an empty one. -/
def Cell.pieces (c : Cell) : Writing := do
  let properties ← c.properties.pieces
  let paragraphs ← paragraphsPieces c.paragraphs
  pure (element "w:tc" []
    (properties ++ (if c.paragraphs.isEmpty then [.empty "w:p" []] else []) ++ paragraphs))

def cellsPieces : List Cell → Writing
  | [] => .ok []
  | c :: rest => do
    let here ← c.pieces
    pure (here ++ (← cellsPieces rest))

def Row.pieces (r : Row) (index : Nat) : Writing := do
  if r.cells.isEmpty then throw (.rowWithoutCells index)
  else pure (element "w:tr" [] (r.properties.pieces ++ (← cellsPieces r.cells)))

/-- The rows from `index` on. -/
def rowsPieces (index : Nat) : List Row → Writing
  | [] => .ok []
  | r :: rest => do
    let here ← r.pieces index
    pure (here ++ (← rowsPieces (index + 1) rest))

def gridPieces (grid : List UInt32) : List Piece :=
  element "w:tblGrid" [] (grid.map fun n => .empty "w:gridCol" [("w:w", showUInt32 n)])

def Table.pieces (t : Table) : Writing := do
  pure (element "w:tbl" [] (t.properties.pieces ++ gridPieces t.grid ++ (← rowsPieces 0 t.rows)))

def ControlProperties.pieces (p : ControlProperties) : List Piece :=
  element "w:sdtPr" []
    (ifGiven p.alias (valued "w:alias") ++ ifGiven p.tag (valued "w:tag") ++
      ifGiven (p.id.map showInt64) (valued "w:id") ++
      ifOn (p.gallery.isSome || p.unique)
        (element "w:docPartObj" []
          (ifGiven p.gallery (valued "w:docPartGallery") ++
            ifOn p.unique [.empty "w:docPartUnique" []])))

def lineEnd : Piece := .text "\n"

namespace Element

mutual

def pieces : Element → Writing
  | paragraph p => p.pieces
  | table t => t.pieces
  | setup s => s.pieces
  | control properties content => do
    pure (Piece.element "w:sdt" []
      (properties.pieces ++ Piece.element "w:sdtContent" [] (← piecesOf content)))
  | bookmarkStart b => .ok b.pieces
  | bookmarkEnd id => .ok (bookmarkEndPieces id)

/-- The elements, a line each. -/
def piecesOf : List Element → Writing
  | [] => .ok []
  | e :: rest => do
    let here ← pieces e
    pure (here ++ lineEnd :: (← piecesOf rest))

end

end Element

namespace Body

def pieces (b : Body) : Writing := do
  let elements ← Element.piecesOf (b.elements.filter (·.setup?.isNone))
  let setup ← match b.section? with
    | some s => (s.pieces).map (· ++ [lineEnd])
    | none => pure []
  pure (element "w:body" [] (lineEnd :: elements ++ setup))

/-- The body's element. -/
def xml (b : Body) : Except Unwritable String := b.pieces.map join

end Body

/-! ### The main part -/

/-- The namespaces of a main part that does not declare them itself. -/
def defaultNamespaces : List (String × String) :=
  [("xmlns:w", "http://schemas.openxmlformats.org/wordprocessingml/2006/main"),
   ("xmlns:r", "http://schemas.openxmlformats.org/officeDocument/2006/relationships"),
   ("xmlns:wp", "http://schemas.openxmlformats.org/drawingml/2006/wordprocessingDrawing"),
   ("xmlns:a", "http://schemas.openxmlformats.org/drawingml/2006/main"),
   ("xmlns:pic", "http://schemas.openxmlformats.org/drawingml/2006/picture"),
   ("xmlns:mc", "http://schemas.openxmlformats.org/markup-compatibility/2006"),
   ("xmlns:v", "urn:schemas-microsoft-com:vml"),
   ("xmlns:o", "urn:schemas-microsoft-com:office:office")]

/-- The attributes of the root, completed by the namespaces they lack. -/
def rootAttributes (attributes : List (String × String)) : List (String × String) :=
  attributes ++ defaultNamespaces.filter fun n => !attributes.any (·.1 = n.1)

def declaration : String := "<?xml version=\"1.0\" encoding=\"UTF-8\" standalone=\"yes\"?>\n"

/-- The main part around a body. -/
def mainPartXml (b : Body) (attributes : List (String × String)) : Except Unwritable String := do
  let body ← b.pieces
  pure (join (.verbatim declaration ::
    element "w:document" (rootAttributes attributes) (lineEnd :: body ++ [lineEnd])))

end Letterpress
