import Letterpress.Body.Table
import Letterpress.Render.Paragraph

/-!
# Filling in a table

The first row with a tag that opens a loop is filled in once for each item of the list, without the
loop's tags. In it conditions ask the item only. All other rows are filled in once.
-/

namespace Letterpress

open Template

def Template.Tag.loop? : Tag → Option String
  | .opens .loop list => some list
  | _ => none

namespace Row

def mapParagraphs (f : Paragraph → Paragraph) (r : Row) : Row :=
  { r with cells := r.cells.map fun c => { c with paragraphs := c.paragraphs.map f } }

def fill (blockText : BlockText) (s : Scope) (r : Row) : Row :=
  r.mapParagraphs (·.fill blockText s)

/-- The list that the first tag to open a loop names. -/
def loop? (r : Row) : Option String :=
  (r.paragraphs.flatMap Paragraph.tags).findSome? (·.2.tag.loop?)

end Row

/-- Where a tag stands in a row. -/
structure Spot where
  cell : Nat
  paragraph : Nat
  row : Nat
  span : Span
  deriving DecidableEq

/-- Whether a tag opens the loop over the list, or may close it. -/
def opensLoop? (list : String) : Tag → Option Bool
  | .opens .loop name => if name = list then some true else none
  | .closes .loop => some false
  | _ => none

namespace Row

/-- The tags that open the loop over the list or may close it. -/
def loopTags (list : String) (r : Row) : List (Bool × Spot) :=
  r.cells.zipIdx.flatMap fun (c, cell) =>
    c.paragraphs.zipIdx.flatMap fun (p, paragraph) =>
      p.tags.filterMap fun (row, t) =>
        (opensLoop? list t.tag).map fun opens => (opens, ⟨cell, paragraph, row, t.span⟩)

/-- The first tag that opens the loop, and the last one behind it that closes a loop. -/
def loopEnds (list : String) (r : Row) : Option (Spot × Option Spot) :=
  match (r.loopTags list).dropWhile (!·.1) with
  | [] => none
  | (_, first) :: rest => some (first, (rest.filter (!·.1)).getLast?.map (·.2))

def cut (r : Row) (spot : Spot) : Row :=
  { r with cells := r.cells.modify spot.cell fun c =>
      { c with paragraphs := c.paragraphs.modify spot.paragraph (·.cut spot.row spot.span) } }

/-- The row without the loop's tags. What is cut first does not move what is cut then. -/
def withoutLoop (list : String) (r : Row) : Row :=
  match r.loopEnds list with
  | none => r
  | some (first, none) => r.cut first
  | some (first, some last) => (r.cut last).cut first

/-- The rows of a loop; there are none if the list is unknown. -/
def unroll (blockText : BlockText) (s : Scope) (list : String) (r : Row) : List Row :=
  match s.list? list with
  | some items =>
    let r := r.withoutLoop list
    (s.over true items).map fun s => r.fill blockText s
  | none => []

end Row

namespace Table

def fillRows (blockText : BlockText) (s : Scope) : List Row → List Row
  | [] => []
  | r :: rest =>
    match r.loop? with
    | some list => r.unroll blockText s list ++ rest.map (·.fill blockText s)
    | none => r.fill blockText s :: fillRows blockText s rest

def fill (blockText : BlockText) (s : Scope) (t : Table) : Table :=
  { t with rows := fillRows blockText s t.rows }

end Table

end Letterpress
