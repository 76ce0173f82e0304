import Letterpress.Body.Table

/-!
# The body of a document

A row of elements. Of the section setups that stand in it themselves, the last one counts.
-/

namespace Letterpress

/-- The properties of a content control; a gallery names the building block it holds. -/
structure ControlProperties where
  id : Option Int64 := none
  «alias» : Option String := none
  tag : Option String := none
  gallery : Option String := none
  unique : Bool := false
  deriving DecidableEq

inductive Element where
  | paragraph (p : Paragraph)
  | table (t : Table)
  | setup (s : Section)
  /-- A content control around other elements. -/
  | control (properties : ControlProperties) (content : List Element)
  | bookmarkStart (b : Bookmark)
  | bookmarkEnd (id : UInt32)

/-- A control for a building block. -/
def ControlProperties.ofGallery (id : Int64) (gallery : String) : ControlProperties :=
  { id := some id, gallery := some gallery, unique := true }

namespace Element

mutual

/-- The paragraphs in reading order. -/
def paragraphs : Element → List Paragraph
  | paragraph p => [p]
  | table t => t.paragraphs
  | control _ content => paragraphsOf content
  | setup _ => []
  | bookmarkStart _ => []
  | bookmarkEnd _ => []

def paragraphsOf : List Element → List Paragraph
  | [] => []
  | e :: rest => paragraphs e ++ paragraphsOf rest

end

def paragraph? : Element → Option Paragraph
  | paragraph p => some p
  | _ => none

def table? : Element → Option Table
  | table t => some t
  | _ => none

def setup? : Element → Option Section
  | setup s => some s
  | _ => none

end Element

structure Body where
  elements : List Element := []

namespace Body

def push (b : Body) (e : Element) : Body := ⟨b.elements ++ [e]⟩

/-- Puts an element before `index`, or at the end. -/
def insert (b : Body) (index : Nat) (e : Element) : Body :=
  ⟨b.elements.insertIdx (min index b.elements.length) e⟩

/-- Takes an element out, if it is there. -/
def remove (b : Body) (index : Nat) : Option Element × Body :=
  (b.elements[index]?, ⟨b.elements.eraseIdx index⟩)

def paragraphs (b : Body) : List Paragraph := b.elements.filterMap Element.paragraph?

def tables (b : Body) : List Table := b.elements.filterMap Element.table?

/-- The section setup that counts. -/
def section? (b : Body) : Option Section := b.elements.reverse.findSome? Element.setup?

def setSection (b : Body) (s : Section) : Body :=
  ⟨b.elements.filter (·.setup?.isNone) ++ [.setup s]⟩

/-- Changes the paragraph that has `index` others before it. -/
def modifyParagraph (f : Paragraph → Paragraph) : Nat → List Element → List Element
  | _, [] => []
  | 0, .paragraph p :: rest => .paragraph (f p) :: rest
  | index + 1, .paragraph p :: rest => .paragraph p :: modifyParagraph f index rest
  | index, e :: rest => e :: modifyParagraph f index rest

/-- Changes the table that has `index` others before it. -/
def modifyTable (f : Table → Table) : Nat → List Element → List Element
  | _, [] => []
  | 0, .table t :: rest => .table (f t) :: rest
  | index + 1, .table t :: rest => .table t :: modifyTable f index rest
  | index, e :: rest => e :: modifyTable f index rest

/-- The text of every paragraph, a line each. -/
def plainText (b : Body) : String :=
  "\n".intercalate ((Element.paragraphsOf b.elements).map Paragraph.text)

end Body

end Letterpress
