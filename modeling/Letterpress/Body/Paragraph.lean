import Letterpress.Body.Run
import Letterpress.Body.Section

/-!
# Paragraphs
-/

namespace Letterpress

inductive Alignment where
  | left
  | center
  | right
  | both
  deriving DecidableEq, Repr

namespace Alignment

def word : Alignment → String
  | left => "left"
  | center => "center"
  | right => "right"
  | both => "both"

/-- Reads the strict spellings too. -/
def ofWord? (s : String) : Option Alignment :=
  if s = "left" ∨ s = "start" then some left
  else if s = "center" then some center
  else if s = "right" ∨ s = "end" then some right
  else if s = "both" ∨ s = "distribute" then some both
  else none

end Alignment

/-- Lengths are in twips; a line is counted in 240ths if its rule is `auto`. -/
structure Spacing where
  before : Option UInt32 := none
  after : Option UInt32 := none
  line : Option UInt32 := none
  lineRule : Option String := none
  deriving DecidableEq, Repr

structure Indentation where
  left : Option Int32 := none
  right : Option Int32 := none
  firstLine : Option UInt32 := none
  hanging : Option UInt32 := none
  deriving DecidableEq

/-- A place in a numbered list. -/
structure ListPlace where
  list : UInt32
  level : UInt32
  deriving DecidableEq, Repr

structure ParagraphProperties where
  style : Option String := none
  keepNext : Bool := false
  keepLines : Bool := false
  pageBreakBefore : Bool := false
  numbering : Option ListPlace := none
  spacing : Option Spacing := none
  indentation : Option Indentation := none
  alignment : Option Alignment := none
  /-- The setup of the section that ends with the paragraph. -/
  sectionEnd : Option Section := none
  deriving DecidableEq

def ParagraphProperties.isEmpty (p : ParagraphProperties) : Bool := p = {}

structure Paragraph where
  properties : ParagraphProperties := {}
  runs : List Run := []
  deriving DecidableEq

namespace Paragraph

def add (p : Paragraph) (r : Run) : Paragraph := { p with runs := p.runs ++ [r] }

def addText (p : Paragraph) (s : String) : Paragraph := p.add (.ofText s)

def addFormatted (p : Paragraph) (s : String) (f : TextFormat) : Paragraph :=
  p.add { properties := f.properties, content := .text s }

def ofText (s : String) : Paragraph := ({} : Paragraph).addText s

/-- The texts of the runs that hold text. -/
def text (p : Paragraph) : String := String.join (p.runs.filterMap Run.text?)

/-- Whether nothing but empty texts is in the paragraph. -/
def isEmpty (p : Paragraph) : Bool := p.runs.all (·.text? = some "")

def setStyle (p : Paragraph) (style : String) : Paragraph :=
  { p with properties := { p.properties with style := some style } }

def setAlignment (p : Paragraph) (a : Alignment) : Paragraph :=
  { p with properties := { p.properties with alignment := some a } }

def setSpacing (p : Paragraph) (before after : Points) (line : Option Points) : Paragraph :=
  let spacing : Spacing :=
    { before := some before.twips, after := some after.twips, line := line.map Points.lineUnits,
      lineRule := line.map fun _ => "auto" }
  { p with properties := { p.properties with spacing := some spacing } }

def setIndentation (p : Paragraph) (i : Indentation) : Paragraph :=
  { p with properties := { p.properties with indentation := some i } }

def setNumbering (p : Paragraph) (n : ListPlace) : Paragraph :=
  { p with properties := { p.properties with numbering := some n } }

end Paragraph

end Letterpress
