import Letterpress.Body.Reading
import Letterpress.Package

/-!
# Documents

A document is a package, the body of its main part and the ids it may issue. Ids that are in use
anywhere in the opened package's main part, or in the parts it leads to, are never issued.
-/

namespace Letterpress

/-- A source of the styles part. -/
structure StyleCatalog where
  ids : List String
  xml : String

structure Document where
  package : Package
  body : Body := {}
  ids : Ids := {}
  /-- The attributes of the main part's root. -/
  attributes : List (String × String) := []
  styles : Option StyleCatalog := none

namespace Document

def stylesPath : String := "word/styles.xml"

def segments (path : String) : List String :=
  (path.toList.splitOn '/').map String.ofList

/-- Walks a target from a folder, given by its segments from the last on. -/
def walk (folder : List String) : List String → List String
  | [] => folder
  | ".." :: rest => walk folder.tail rest
  | "." :: rest => walk folder rest
  | "" :: rest => walk folder rest
  | segment :: rest => walk (segment :: folder) rest

/-- The path of a target, as seen from a folder. -/
def resolveTarget (folder target : String) : String :=
  match target.toList with
  | '/' :: path => String.ofList path
  | _ =>
    let start := ((segments folder).filter (· ≠ "")).reverse
    "/".intercalate (walk start (segments target)).reverse

/-- The target of a path, as seen from a folder. -/
def relativeTarget (folder path : String) : String :=
  if folder = "" then path
  else
    let before := folder.toList ++ ['/']
    if before.isPrefixOf path.toList then String.ofList (path.toList.drop before.length)
    else "/" ++ path

def mainFolder (d : Document) : String := folder d.package.mainPart

/-- Heading sizes in half points go down from 32 to 22. -/
def headingSize (level : Nat) : Nat := max 22 (32 - 2 * (level - 1))

def headingStyle (level : Nat) : String :=
  "<w:style w:type=\"paragraph\" w:styleId=\"Heading" ++ toString level ++ "\">" ++
  "<w:name w:val=\"heading " ++ toString level ++
  "\"/><w:basedOn w:val=\"Normal\"/><w:next w:val=\"Normal\"/><w:qFormat/>" ++
  "<w:pPr><w:keepNext/><w:spacing w:before=\"240\" w:after=\"60\"/><w:outlineLvl w:val=\"" ++
  toString (level - 1) ++ "\"/></w:pPr>" ++
  "<w:rPr><w:b/><w:sz w:val=\"" ++ toString (headingSize level) ++ "\"/></w:rPr></w:style>"

/-- The styles of a new document: plain text and nine levels of headings. -/
def defaultStyles : String :=
  declaration ++
  "<w:styles xmlns:w=\"http://schemas.openxmlformats.org/wordprocessingml/2006/main\">" ++
  "<w:style w:type=\"paragraph\" w:default=\"1\" w:styleId=\"Normal\"><w:name w:val=\"Normal\"/><w:qFormat/></w:style>" ++
  String.join ((List.range 9).map fun n => headingStyle (n + 1)) ++ "</w:styles>"

/-- An empty A4 document. -/
def new : Document where
  package := (Package.ofMainPart Package.defaultMainPart)
    |>.putText stylesPath defaultStyles
    |>.setType stylesPath ContentType.styles
    |>.addMainRelationship "rId1" RelationshipType.styles "styles.xml"
  body := ⟨[.setup .a4]⟩
  ids := ({} : Ids).observeRelationship "rId1"

/-! ### Opening and writing -/

def isXmlPath (path : String) : Bool := ".xml".toList.isSuffixOf path.toList

/-- Notes a relationship's id, and the ids in the part it leads to. -/
def observeLinked (p : Package) (ids : Ids) (r : Relationship) : Ids :=
  let ids := ids.observeRelationship r.id
  if r.external then ids
  else
    let path := resolveTarget (folder p.mainPart) r.target
    match p.get? path with
    | some contents =>
      if isXmlPath path then (ids.observeAll (Text.Symbol.read contents)).1 else ids
    | none => ids

def ofPackage (p : Package) : Except Failure Document := do
  let path := p.mainPart
  match p.get? path with
  | none => throw (.missingPart path)
  | some contents =>
    let source := Text.Symbol.read contents
    let p := p.dropContents path
    let main ← (MainPart.read source).mapError (.part path)
    match ({} : Ids).observeAll source with
    | (_, some fault) => throw (.part path (.markup fault))
    | (ids, none) =>
      pure { package := p, body := main.body, attributes := main.attributes,
             ids := p.mainRelationships.entries.foldl (observeLinked p) ids }

def ofArchive (a : Archive) : Except Failure Document := do ofPackage (← Package.ofArchive a)

/-- The main part. -/
def xml (d : Document) : Except Failure String :=
  (mainPartXml d.body d.attributes).mapError fun why =>
    .during "serialize" d.package.mainPart (.unwritable why)

/-- Where the styles are stored, if the main part leads to them. -/
def stylesPath? (d : Document) : Option String :=
  (d.package.mainRelationships.firstOfType? RelationshipType.styles).map fun r =>
    resolveTarget d.mainFolder r.target

/-- The styles a catalog supplies, where they are stored. -/
def catalogStyles (d : Document) : List (String × ByteArray) :=
  match d.styles, d.stylesPath? with
  | some catalog, some path => [(path, catalog.xml.toUTF8)]
  | _, _ => []

def archive (d : Document) : Except Failure Archive := do
  let main ← d.xml
  pure (d.package.archive ((d.package.mainPart, main.toUTF8) :: d.catalogStyles))

/-! ### Building -/

def add (d : Document) (e : Element) : Document := { d with body := d.body.push e }

def insert (d : Document) (index : Nat) (e : Element) : Document :=
  { d with body := d.body.insert index e }

def remove (d : Document) (index : Nat) : Option Element × Document :=
  let (e, body) := d.body.remove index
  (e, { d with body })

def addParagraph (d : Document) (text : String) : Document := d.add (.paragraph (.ofText text))

def addFormatted (d : Document) (text : String) (f : TextFormat) : Document :=
  d.add (.paragraph (({} : Paragraph).addFormatted text f))

/-- Levels go from 1 to 9. -/
def headingLevel (level : Int) : Int := if level < 1 then 1 else min level 9

def addHeading (d : Document) (text : String) (level : Int) : Document :=
  d.add (.paragraph ((Paragraph.ofText text).setStyle ("Heading" ++ toString (headingLevel level))))

/-- Adds an empty table, if there is one of this size. -/
def addTable? (d : Document) (rows columns : Nat) : Option Document :=
  (Table.ofSize? rows columns).map fun t => d.add (.table t)

def setSection (d : Document) (s : Section) : Document := { d with body := d.body.setSection s }

def plainText (d : Document) : String := d.body.plainText

/-- Opens a bookmark at the end of the body. -/
def startBookmark (d : Document) (name : String) : Except Failure (Bookmark × Document) :=
  match d.ids.issue? .bookmark with
  | none => .error (.exhausted .bookmark)
  | some (id, ids) => .ok (⟨id, name⟩, { d with ids }.add (.bookmarkStart ⟨id, name⟩))

def endBookmark (d : Document) (b : Bookmark) : Document := d.add (.bookmarkEnd b.id)

/-- Leads the main part to a target, by a fresh id. -/
def addRelationship (d : Document) (type target : String) : Except Failure (String × Document) :=
  match d.ids.issueRelationship? with
  | none => .error (.exhausted .relationship)
  | some (id, ids) =>
    .ok (id, { d with ids, package := d.package.addMainRelationship id type target })

/-- A document with a new part and its type. -/
def putPart (d : Document) (path : String) (contents : ByteArray) (type : String) : Document :=
  { d with package := (d.package.put path contents).setType path type }

/-- An operation that fails keeps what it did before. -/
abbrev Kept (α : Type) := Except Failure α × Document

/-- Adds a part. With a type of relationship the main part leads to it, by the id that is
answered. -/
def addPart (d : Document) (path : String) (contents : ByteArray) (type : String)
    (relationship : Option String) : Kept (Option String) :=
  let path := withoutSlash path
  let d := d.putPart path contents type
  match relationship with
  | none => (.ok none, d)
  | some relationship =>
    match d.addRelationship relationship (relativeTarget d.mainFolder path) with
    | .ok (id, d) => (.ok (some id), d)
    | .error f => (.error f, d)

/-- Lets a catalog supply the styles. -/
def setStyleCatalog (d : Document) (catalog : StyleCatalog) : Kept Unit :=
  match d.stylesPath? with
  | some _ => (.ok (), { d with styles := some catalog })
  | none =>
    let d := { d with package := d.package.setType stylesPath ContentType.styles }
    match d.addRelationship RelationshipType.styles (relativeTarget d.mainFolder stylesPath) with
    | .ok (_, d) => (.ok (), { d with styles := some catalog })
    | .error f => (.error f, d)

end Document

end Letterpress
