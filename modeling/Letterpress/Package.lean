import Letterpress.Failure
import Letterpress.KeyMap
import Letterpress.Package.ContentTypes
import Letterpress.Package.Relationships

/-!
# Packages

A package is its parts by path, and three lists that are kept apart from them: the types of the
parts, the relationships of the package and those of its main part. It is stored as an archive, in
which the lists are parts too.
-/

namespace Letterpress

/-- Named entries in a row. -/
structure Archive where
  entries : List (String × ByteArray) := []

structure Package where
  parts : KeyMap ByteArray := .empty
  types : ContentTypes
  relationships : Relationships
  mainRelationships : Relationships := {}
  mainPart : String

/-- A path without slashes before it. -/
def withoutSlash (path : String) : String := String.ofList (path.toList.dropWhile (· = '/'))

/-- The folder of a path and the name in it. -/
def splitPath? (path : String) : Option (String × String) :=
  let cs := path.toList.reverse
  if cs.contains '/' then
    some (String.ofList ((cs.dropWhile (· ≠ '/')).drop 1).reverse,
      String.ofList (cs.takeWhile (· ≠ '/')).reverse)
  else none

/-- The folder of a path, empty at the root. -/
def folder (path : String) : String := ((splitPath? path).map (·.1)).getD ""

/-- Where the relationships of a part are stored. -/
def relationshipsPathOf (part : String) : String :=
  match splitPath? part with
  | some (folder, file) => folder ++ "/_rels/" ++ file ++ ".rels"
  | none => "_rels/" ++ part ++ ".rels"

namespace Package

def typesPath : String := "[Content_Types].xml"

def relationshipsPath : String := "_rels/.rels"

def defaultMainPart : String := "word/document.xml"

/-- A package without parts. -/
def ofMainPart (path : String) : Package :=
  let mainPart := withoutSlash path
  { types := .forDocument mainPart
    relationships := ({} : Relationships).insert "rId1" RelationshipType.officeDocument mainPart
    mainPart }

def mainRelationshipsPath (p : Package) : String := relationshipsPathOf p.mainPart

def get? (p : Package) (path : String) : Option ByteArray := p.parts.find? path

/-- A part as a text, if it is there. -/
def text (p : Package) (path : String) : Except Failure (Option String) :=
  match p.get? path with
  | none => .ok none
  | some bytes =>
    match Text.text? (Text.Symbol.read bytes) with
    | some s => .ok (some s)
    | none => .error (.part path .notText)

def put (p : Package) (path : String) (contents : ByteArray) : Package :=
  { p with parts := p.parts.insert path contents }

def putText (p : Package) (path contents : String) : Package := p.put path contents.toUTF8

/-- Takes a part out, and the type given to it. -/
def remove (p : Package) (path : String) : Option ByteArray × Package :=
  match p.get? path with
  | none => (none, p)
  | some contents =>
    (some contents, { p with parts := p.parts.erase path, types := p.types.eraseOverride path })

/-- Drops a part's contents, which are written anew. -/
def dropContents (p : Package) (path : String) : Package :=
  { p with parts := p.parts.erase path }

def contains (p : Package) (path : String) : Bool := p.parts.contains path

def paths (p : Package) : List String := p.parts.keys

def setType (p : Package) (path type : String) : Package :=
  { p with types := p.types.addOverride path type }

def setDefaultType (p : Package) (extension type : String) : Package :=
  { p with types := p.types.addDefault extension type }

/-- A relationship id of the package that is not in use. -/
def freshRelationshipId (p : Package) : String :=
  relationshipId (p.relationships.greatestNumber?.getD 0 + 1)

def addRelationship (p : Package) (id type target : String) : Package :=
  { p with relationships := p.relationships.insert id type target }

def addMainRelationship (p : Package) (id type target : String) : Package :=
  { p with mainRelationships := p.mainRelationships.insert id type target }

def eraseMainRelationship (p : Package) (id : String) : Package :=
  { p with mainRelationships := p.mainRelationships.erase id }

/-! ### Archives -/

/-- Reads a list that may be absent. -/
def readList {α : Type} (parts : KeyMap ByteArray) (path : String) (absent : Except Failure α)
    (read : List Text.Symbol → Except PartFault α) : Except Failure α :=
  match parts.find? path with
  | none => absent
  | some bytes => (read (Text.Symbol.read bytes)).mapError (.part path)

/-- Unpacks an archive. Folders are no parts. -/
def ofArchive (a : Archive) : Except Failure Package := do
  let parts := KeyMap.ofList (a.entries.filter fun e => e.1.toList.getLast? ≠ some '/')
  let types ← readList parts typesPath (.error (.missingPart typesPath)) ContentTypes.read
  let parts := parts.erase typesPath
  let relationships ← readList parts relationshipsPath (.ok {}) Relationships.read
  let parts := parts.erase relationshipsPath
  let mainPart := ((relationships.firstOfType? RelationshipType.officeDocument).map fun r =>
    withoutSlash r.target).getD defaultMainPart
  let path := relationshipsPathOf mainPart
  let mainRelationships ← readList parts path (.ok {}) Relationships.read
  pure { parts := parts.erase path, types, relationships, mainRelationships, mainPart }

/-- What is written in place of stored parts. -/
def generated (p : Package) (contents : List (String × ByteArray)) : KeyMap ByteArray :=
  KeyMap.ofList (contents ++
    [(typesPath, p.types.xml.toUTF8), (relationshipsPath, p.relationships.xml.toUTF8),
     (p.mainRelationshipsPath, p.mainRelationships.xml.toUTF8)])

/-- The archive of the parts and of `contents`, in the order of their paths. -/
def archive (p : Package) (contents : List (String × ByteArray)) : Archive :=
  ⟨(p.parts.merge (p.generated contents)).entries⟩

end Package

end Letterpress
