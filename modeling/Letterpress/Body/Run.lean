import Letterpress.Measure

/-!
# Runs

A run is a stretch of a paragraph with one formatting and one thing in it. Bookmark marks between
runs count as runs.
-/

namespace Letterpress

/-- The fonts for each kind of script. -/
structure Fonts where
  ascii : Option String := none
  highAnsi : Option String := none
  eastAsia : Option String := none
  complex : Option String := none
  hint : Option String := none
  deriving DecidableEq, Repr

/-- The same font for every script. -/
def Fonts.all (name : String) : Fonts := ⟨some name, some name, some name, some name, none⟩

inductive Baseline where
  | normal
  | raised
  | lowered
  deriving DecidableEq, Repr

def Baseline.word : Baseline → String
  | normal => "baseline"
  | raised => "superscript"
  | lowered => "subscript"

def Baseline.ofWord? (s : String) : Option Baseline :=
  [normal, raised, lowered].find? (·.word = s)

structure RunProperties where
  style : Option String := none
  fonts : Option Fonts := none
  bold : Bool := false
  italic : Bool := false
  strike : Bool := false
  color : Option String := none
  /-- In half points. -/
  size : Option UInt32 := none
  highlight : Option String := none
  underline : Option String := none
  baseline : Option Baseline := none
  deriving DecidableEq, Repr

def RunProperties.isEmpty (p : RunProperties) : Bool := p = {}

def withoutHash (color : String) : String := String.ofList (color.toList.dropWhile (· = '#'))

/-- A formatting in the words of an author: a size in points, a color with or without a hash. -/
structure TextFormat where
  bold : Bool := false
  italic : Bool := false
  size : Option Points := none
  color : Option String := none
  font : Option String := none

def TextFormat.properties (f : TextFormat) : RunProperties where
  bold := f.bold
  italic := f.italic
  size := (f.size.filter Points.isPositive).map Points.halves
  color := (f.color.map withoutHash).filter (· ≠ "")
  fonts := f.font.map Fonts.all

/-- The marks that a field's code and its result stand between. -/
inductive FieldMark where
  | first
  | middle
  | last
  deriving DecidableEq, Repr

def FieldMark.word : FieldMark → String
  | first => "begin"
  | middle => "separate"
  | last => "end"

def FieldMark.ofWord? (s : String) : Option FieldMark :=
  [first, middle, last].find? (·.word = s)

inductive Break where
  | line
  | page
  | column
  deriving DecidableEq, Repr

def Break.word : Break → String
  | line => "textWrapping"
  | page => "page"
  | column => "column"

structure Bookmark where
  id : UInt32
  name : String
  deriving DecidableEq, Repr

inductive RunContent where
  | text (s : String)
  /-- A graphic, kept as its markup. -/
  | drawing (markup : String)
  | fieldMark (m : FieldMark)
  | fieldCode (code : String)
  | break (b : Break)
  | tab
  | footnote (id : UInt32)
  | endnote (id : UInt32)
  | bookmarkStart (b : Bookmark)
  | bookmarkEnd (id : UInt32)
  deriving DecidableEq, Repr

/-- Where a run leads to: out of the document by a relationship, or to a bookmark in it. -/
structure Hyperlink where
  relationship : Option String := none
  anchor : Option String := none
  deriving DecidableEq, Repr

structure Run where
  properties : RunProperties := {}
  content : RunContent
  link : Option Hyperlink := none
  deriving DecidableEq, Repr

/-- The relationship of the picture in a graphic. -/
def embedded? (markup : String) : Option String :=
  let rec behind : List Char → Option (List Char)
    | [] => none
    | c :: rest =>
      if "r:embed=\"".toList.isPrefixOf (c :: rest) then some (rest.drop 8) else behind rest
  (behind markup.toList).bind fun rest =>
    if rest.contains '"' then some (String.ofList (rest.takeWhile (· ≠ '"'))) else none

namespace Run

def ofContent (content : RunContent) : Run := { content }

def ofText (s : String) : Run := ofContent (.text s)

/-- A text that leads to a relationship. -/
def linked (s relationship : String) : Run :=
  { content := .text s, link := some { relationship := some relationship } }

def text? (r : Run) : Option String :=
  match r.content with
  | .text s => some s
  | _ => none

def isText (r : Run) : Bool := r.text?.isSome

/-- Whether the run is a bookmark mark. -/
def isMark (r : Run) : Bool :=
  match r.content with
  | .bookmarkStart _ => true
  | .bookmarkEnd _ => true
  | _ => false

def setText (r : Run) (s : String) : Run := { r with content := .text s }

def setBold (r : Run) (on : Bool) : Run := { r with properties := { r.properties with bold := on } }

def setItalic (r : Run) (on : Bool) : Run :=
  { r with properties := { r.properties with italic := on } }

def setSize (r : Run) (size : Points) : Run :=
  { r with properties := { r.properties with size := some size.halves } }

def setColor (r : Run) (color : String) : Run :=
  { r with properties := { r.properties with color := some (withoutHash color) } }

def setFont (r : Run) (name : String) : Run :=
  { r with properties := { r.properties with fonts := some (Fonts.all name) } }

def setStyle (r : Run) (style : String) : Run :=
  { r with properties := { r.properties with style := some style } }

end Run

end Letterpress
