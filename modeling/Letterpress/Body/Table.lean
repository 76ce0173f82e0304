import Letterpress.Body.Paragraph

/-!
# Tables

A table is rows of cells, a cell is paragraphs. Borders, margins and shading are kept as their
markup.
-/

namespace Letterpress

inductive WidthUnit where
  | auto
  | twips
  | percent
  | none
  deriving DecidableEq, Repr

namespace WidthUnit

def word : WidthUnit → String
  | auto => "auto"
  | twips => "dxa"
  | percent => "pct"
  | none => "nil"

/-- An unknown word means an automatic width. -/
def ofWord (s : String) : WidthUnit :=
  ([twips, percent, none].find? (·.word = s)).getD auto

end WidthUnit

structure Width where
  value : UInt32
  unit : WidthUnit
  deriving DecidableEq, Repr

structure TableProperties where
  style : Option String := none
  width : Option Width := none
  alignment : Option Alignment := none
  borders : Option String := none
  fixed : Bool := false
  margins : Option String := none
  look : Option String := none
  deriving DecidableEq, Repr

structure RowProperties where
  cantSplit : Bool := false
  height : Option UInt32 := none
  header : Bool := false
  deriving DecidableEq, Repr

/-- Whether a cell starts a merge with the cells below it or goes on with one. -/
inductive VerticalMerge where
  | restart
  | continue
  deriving DecidableEq, Repr

def VerticalMerge.word : VerticalMerge → String
  | restart => "restart"
  | .continue => "continue"

structure CellProperties where
  width : Option Width := none
  span : Option UInt32 := none
  merge : Option VerticalMerge := none
  borders : Option String := none
  shading : Option String := none
  alignment : Option String := none
  deriving DecidableEq, Repr

structure Cell where
  properties : CellProperties := {}
  paragraphs : List Paragraph := []
  deriving DecidableEq

structure Row where
  properties : RowProperties := {}
  cells : List Cell := []
  deriving DecidableEq

structure Table where
  properties : TableProperties := {}
  grid : List UInt32 := []
  rows : List Row := []
  deriving DecidableEq

namespace Cell

def ofText (s : String) : Cell := { paragraphs := [.ofText s] }

def text (c : Cell) : String := "\n".intercalate (c.paragraphs.map Paragraph.text)

/-- One paragraph with the text; the first paragraph's properties and the first text's formatting
stay. -/
def setText (c : Cell) (s : String) : Cell :=
  let p := c.paragraphs.head?.getD {}
  let properties := ((p.runs.find? Run.isText).map Run.properties).getD {}
  { c with paragraphs := [{ p with runs := [{ properties, content := .text s }] }] }

end Cell

namespace Row

def ofTexts (texts : List String) : Row := { cells := texts.map Cell.ofText }

def paragraphs (r : Row) : List Paragraph := r.cells.flatMap Cell.paragraphs

end Row

/-- An index beyond a table. -/
structure OutOfRange where
  what : String
  index : Nat
  size : Nat
  deriving DecidableEq, Repr

namespace Table

/-- The width of an A4 page between margins of one inch, in twips. -/
def fullWidth : UInt32 := 9026

/-- The width of each of equal columns; their number is taken as a word. -/
def columnWidth (columns : Nat) : UInt32 := fullWidth / UInt32.ofNat columns

/-- A table of empty cells with columns of one width; there is at least one column. -/
def ofSize (rows columns : Nat) : Table :=
  let columns := max columns 1
  let width := columnWidth columns
  let cell : Cell := { properties := { width := some ⟨width, .twips⟩ }, paragraphs := [{}] }
  { properties := { width := some ⟨0, .auto⟩ }, grid := List.replicate columns width,
    rows := List.replicate rows { cells := List.replicate columns cell } }

/-- A table with columns of one width, unless their number is zero as a word: the width cannot be
divided by it then. -/
def ofSize? (rows columns : Nat) : Option Table :=
  if UInt32.ofNat (max columns 1) = 0 then none else some (ofSize rows columns)

/-- The widest row's cells, or the grid's columns if there is no row. -/
def columnCount (t : Table) : Nat :=
  ((t.rows.map (·.cells.length)).max?).getD t.grid.length

def cell? (t : Table) (row column : Nat) : Option Cell :=
  t.rows[row]?.bind fun r => r.cells[column]?

def cellText? (t : Table) (row column : Nat) : Option String := (t.cell? row column).map Cell.text

/-- Changes a cell, if it is there. -/
def modifyCell (t : Table) (row column : Nat) (f : Cell → Cell) : Table :=
  { t with rows := t.rows.modify row fun r => { r with cells := r.cells.modify column f } }

def setCellText (t : Table) (row column : Nat) (s : String) : Except OutOfRange Table :=
  match t.rows[row]? with
  | none => .error ⟨"row", row, t.rows.length⟩
  | some r =>
    if column < r.cells.length then .ok (t.modifyCell row column (·.setText s))
    else .error ⟨"column", column, r.cells.length⟩

def appendRow (t : Table) (texts : List String) : Table :=
  { t with rows := t.rows ++ [.ofTexts texts] }

def insertRow (t : Table) (index : Nat) (r : Row) : Except OutOfRange Table :=
  if index > t.rows.length then .error ⟨"row", index, t.rows.length⟩
  else .ok { t with rows := t.rows.insertIdx index r }

/-- Takes a row out, if it is there. -/
def removeRow (t : Table) (index : Nat) : Option Row × Table :=
  (t.rows[index]?, { t with rows := t.rows.eraseIdx index })

def paragraphs (t : Table) : List Paragraph := t.rows.flatMap Row.paragraphs

end Table

end Letterpress
