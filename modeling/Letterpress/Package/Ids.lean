import Letterpress.Part

/-!
# Fresh ids

Every kind of thing that is referred to by number has a space of ids of its own. Ids are issued in
increasing order; one that is met in a part is never issued. A space is exhausted when its greatest
id is issued or met.
-/

namespace Letterpress

inductive IdSpace where
  | relationship
  | footnote
  | endnote
  | bookmark
  | numbering
  | abstractNumbering
  | drawing
  deriving DecidableEq, Repr

namespace IdSpace

def name : IdSpace → String
  | relationship => "Relationship"
  | footnote => "Footnote"
  | endnote => "Endnote"
  | bookmark => "Bookmark"
  | numbering => "Numbering"
  | abstractNumbering => "AbstractNumbering"
  | drawing => "Drawing"

/-- The first id; notes before it separate notes from text. -/
def first : IdSpace → UInt32
  | bookmark => 0
  | abstractNumbering => 0
  | _ => 1

end IdSpace

/-- The id each space issues next, absent if it is exhausted. -/
structure Ids where
  relationship : Option UInt32 := some IdSpace.relationship.first
  footnote : Option UInt32 := some IdSpace.footnote.first
  endnote : Option UInt32 := some IdSpace.endnote.first
  bookmark : Option UInt32 := some IdSpace.bookmark.first
  numbering : Option UInt32 := some IdSpace.numbering.first
  abstractNumbering : Option UInt32 := some IdSpace.abstractNumbering.first
  drawing : Option UInt32 := some IdSpace.drawing.first
  deriving DecidableEq, Repr

/-- The id behind another one. -/
def nextId (id : UInt32) : Option UInt32 := if id = 4294967295 then none else some (id + 1)

/-- The number of a relationship id such as `rId7`. -/
def relationshipNumber? (id : String) : Option UInt32 :=
  match id.toList with
  | 'r' :: 'I' :: 'd' :: n => (Number.unsigned? UInt32.size n).map UInt32.ofNat
  | 'R' :: 'I' :: 'd' :: n => (Number.unsigned? UInt32.size n).map UInt32.ofNat
  | 'r' :: 'i' :: 'd' :: n => (Number.unsigned? UInt32.size n).map UInt32.ofNat
  | _ => none

def relationshipId (n : UInt32) : String := "rId" ++ Number.showUInt32 n

namespace Ids

/-- The id a space issues next. -/
def peek (ids : Ids) : IdSpace → Option UInt32
  | .relationship => ids.relationship
  | .footnote => ids.footnote
  | .endnote => ids.endnote
  | .bookmark => ids.bookmark
  | .numbering => ids.numbering
  | .abstractNumbering => ids.abstractNumbering
  | .drawing => ids.drawing

def set (ids : Ids) (space : IdSpace) (next : Option UInt32) : Ids :=
  match space with
  | .relationship => { ids with relationship := next }
  | .footnote => { ids with footnote := next }
  | .endnote => { ids with endnote := next }
  | .bookmark => { ids with bookmark := next }
  | .numbering => { ids with numbering := next }
  | .abstractNumbering => { ids with abstractNumbering := next }
  | .drawing => { ids with drawing := next }

@[simp] theorem peek_set_self (ids : Ids) (space : IdSpace) (next : Option UInt32) :
    (ids.set space next).peek space = next := by
  cases space <;> rfl

theorem peek_set_of_ne (ids : Ids) {space other : IdSpace} (next : Option UInt32)
    (h : other ≠ space) : (ids.set space next).peek other = ids.peek other := by
  cases space <;> cases other <;> first | rfl | exact absurd rfl h

/-- Issues an id, unless the space is exhausted. -/
def issue? (ids : Ids) (space : IdSpace) : Option (UInt32 × Ids) :=
  (ids.peek space).map fun id => (id, ids.set space (nextId id))

/-- Notes that an id is in use. -/
def observe (ids : Ids) (space : IdSpace) (id : UInt32) : Ids :=
  match ids.peek space with
  | none => ids
  | some next => if next ≤ id then ids.set space (nextId id) else ids

def issueRelationship? (ids : Ids) : Option (String × Ids) :=
  (ids.issue? .relationship).map fun (n, ids) => (relationshipId n, ids)

/-- Notes a relationship id; one of another shape cannot be issued. -/
def observeRelationship (ids : Ids) (id : String) : Ids :=
  match relationshipNumber? id with
  | some n => ids.observe .relationship n
  | none => ids

/-- The space and the attribute of the id that an element declares or refers to. -/
def declared? (label : String) : Option (IdSpace × String) :=
  match label with
  | "bookmarkStart" => some (.bookmark, "id")
  | "bookmarkEnd" => some (.bookmark, "id")
  | "footnote" => some (.footnote, "id")
  | "footnoteReference" => some (.footnote, "id")
  | "endnote" => some (.endnote, "id")
  | "endnoteReference" => some (.endnote, "id")
  | "num" => some (.numbering, "numId")
  | "abstractNum" => some (.abstractNumbering, "abstractNumId")
  | "docPr" => some (.drawing, "id")
  | _ => none

/-- Notes the id of an element; a negative one cannot be issued. -/
def observeTag (ids : Ids) (tag : Markup.Tag) : Ids :=
  match declared? tag.label with
  | none => ids
  | some (space, name) =>
    match tag.uint32? name with
    | some id => ids.observe space id
    | none => ids

/-- Notes every id in a text, up to its fault if it has one. -/
def observeAll (ids : Ids) (source : List Text.Symbol) : Ids × Option Markup.Fault :=
  let events := Markup.scan source
  (events.list.foldl (fun ids event =>
    match event with
    | .opening tag => ids.observeTag tag
    | .empty tag => ids.observeTag tag
    | _ => ids) ids, events.fault)

end Ids

end Letterpress
