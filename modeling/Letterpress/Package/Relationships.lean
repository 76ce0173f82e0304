import Letterpress.Package.Ids
import Letterpress.Markup.Piece

/-!
# Relationships

A part leads to other parts and to places outside by relationships. Their ids differ; their order
stays.
-/

namespace Letterpress

open Markup

structure Relationship where
  id : String
  type : String
  target : String
  external : Bool
  deriving DecidableEq, Repr

namespace Relationship

def ofTag? (tag : Tag) : Option Relationship := do
  let id ← tag.value? "Id"
  let target ← tag.value? "Target"
  pure ⟨id, (tag.value? "Type").getD "", target, tag.value? "TargetMode" = some "External"⟩

def pieces (r : Relationship) : List Piece :=
  [.text "  ",
   .empty "Relationship"
    ([("Id", r.id), ("Type", r.type), ("Target", r.target)] ++
      if r.external then [("TargetMode", "External")] else []),
   .text "\n"]

end Relationship

structure Relationships where
  entries : List Relationship := []
  deriving DecidableEq, Repr

namespace RelationshipType

def office (name : String) : String :=
  "http://schemas.openxmlformats.org/officeDocument/2006/relationships/" ++ name

def officeDocument : String := office "officeDocument"
def hyperlink : String := office "hyperlink"
def image : String := office "image"
def styles : String := office "styles"
def numbering : String := office "numbering"
def footnotes : String := office "footnotes"
def endnotes : String := office "endnotes"
def header : String := office "header"

def coreProperties : String :=
  "http://schemas.openxmlformats.org/package/2006/relationships/metadata/core-properties"

end RelationshipType

namespace Relationships

def replaceOrAdd (r : Relationship) : List Relationship → List Relationship
  | [] => [r]
  | s :: rest => if s.id = r.id then r :: rest else s :: replaceOrAdd r rest

/-- Adds an entry, in the place of the one with its id if there is one. -/
def put (rs : Relationships) (r : Relationship) : Relationships := ⟨replaceOrAdd r rs.entries⟩

def isWebAddress (target : String) : Bool :=
  "http://".toList.isPrefixOf target.toList || "https://".toList.isPrefixOf target.toList

/-- Hyperlinks to the web lead outside. -/
def insert (rs : Relationships) (id type target : String) : Relationships :=
  rs.put ⟨id, type, target, type = RelationshipType.hyperlink && isWebAddress target⟩

def find? (rs : Relationships) (id : String) : Option Relationship :=
  rs.entries.find? (·.id = id)

def contains (rs : Relationships) (id : String) : Bool := (rs.find? id).isSome

def erase (rs : Relationships) (id : String) : Relationships :=
  ⟨rs.entries.eraseP (·.id = id)⟩

def firstOfType? (rs : Relationships) (type : String) : Option Relationship :=
  rs.entries.find? (·.type = type)

/-- The greatest number of an id such as `rId7`. -/
def greatestNumber? (rs : Relationships) : Option UInt32 :=
  (rs.entries.filterMap fun r => relationshipNumber? r.id).max?

def readEvents (rs : Relationships) (fault : Option Markup.Fault) :
    List Event → Except PartFault Relationships
  | [] =>
    match fault with
    | some fault => .error (.markup fault)
    | none => .ok rs
  | event :: rest =>
    match (match event with
      | .opening tag => some tag
      | .empty tag => some tag
      | _ => none).filter (·.label = "Relationship") with
    | none => readEvents rs fault rest
    | some tag =>
      match Relationship.ofTag? tag with
      | some r => readEvents (rs.put r) fault rest
      | none => .error .incompleteRelationship

def read (source : List Text.Symbol) : Except PartFault Relationships :=
  let events := scan source
  readEvents {} events.fault events.list

def relationshipsNamespace : String :=
  "http://schemas.openxmlformats.org/package/2006/relationships"

def xml (rs : Relationships) : String :=
  Piece.join (.verbatim "<?xml version=\"1.0\" encoding=\"UTF-8\" standalone=\"yes\"?>\n" ::
    Piece.element "Relationships" [("xmlns", relationshipsNamespace)]
      (.text "\n" :: rs.entries.flatMap Relationship.pieces))

end Relationships

end Letterpress
