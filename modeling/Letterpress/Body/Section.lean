/-!
# Sections

The page setup of a stretch of the body. Lengths are in twips.
-/

namespace Letterpress

structure PageSize where
  width : UInt32
  height : UInt32
  landscape : Bool
  deriving DecidableEq, Repr

structure PageMargins where
  top : Int32
  right : UInt32
  bottom : Int32
  left : UInt32
  header : UInt32
  footer : UInt32
  gutter : UInt32
  deriving DecidableEq

/-- The pages of a section that a header or footer stands on. -/
inductive Pages where
  | others
  | first
  | even
  deriving DecidableEq, Repr

def Pages.word : Pages → String
  | others => "default"
  | first => "first"
  | even => "even"

def Pages.ofWord? (s : String) : Option Pages :=
  [others, first, even].find? (·.word = s)

/-- A header or footer, given by the relationship that leads to it. -/
structure PageReference where
  pages : Pages
  relationship : String
  deriving DecidableEq, Repr

structure Columns where
  count : UInt32
  space : Option UInt32
  deriving DecidableEq, Repr

structure PageNumbering where
  format : Option String
  start : Option UInt32
  deriving DecidableEq, Repr

structure Section where
  headers : List PageReference := []
  footers : List PageReference := []
  pageSize : Option PageSize := none
  margins : Option PageMargins := none
  numbering : Option PageNumbering := none
  columns : Option Columns := none
  titlePage : Bool := false
  linePitch : Option UInt32 := none
  deriving DecidableEq

namespace Section

/-- An upright A4 page with margins of one inch. -/
def a4 : Section where
  pageSize := some ⟨11906, 16838, false⟩
  margins := some ⟨1440, 1440, 1440, 1440, 720, 720, 0⟩
  columns := some ⟨1, some 720⟩
  linePitch := some 360

/-- Turns an upright page to its side. -/
def toLandscape (s : Section) : Section :=
  match s.pageSize with
  | some ⟨width, height, false⟩ => { s with pageSize := some ⟨height, width, true⟩ }
  | _ => s

def reference? (references : List PageReference) (pages : Pages) : Option PageReference :=
  references.find? (·.pages = pages)

/-- Replaces the first reference for these pages, or adds one. -/
def setReference (pages : Pages) (relationship : String) :
    List PageReference → List PageReference
  | [] => [⟨pages, relationship⟩]
  | r :: rest =>
    if r.pages = pages then ⟨pages, relationship⟩ :: rest
    else r :: setReference pages relationship rest

def header? (s : Section) (pages : Pages) : Option PageReference := reference? s.headers pages

def footer? (s : Section) (pages : Pages) : Option PageReference := reference? s.footers pages

def setHeader (s : Section) (pages : Pages) (relationship : String) : Section :=
  { s with headers := setReference pages relationship s.headers }

def setFooter (s : Section) (pages : Pages) (relationship : String) : Section :=
  { s with footers := setReference pages relationship s.footers }

end Section

end Letterpress
