import Letterpress.Part
import Letterpress.Markup.Piece

/-!
# Content types

The type of a part is the one given to it, or else the one given to its extension. Extensions are
in lower case, without dots before them; names of parts begin with a slash.
-/

namespace Letterpress

open Markup

structure ContentTypes where
  /-- Extensions and their types. -/
  defaults : List (String × String) := []
  /-- Parts and their types. -/
  overrides : List (String × String) := []
  deriving DecidableEq, Repr

namespace ContentType

def relationships : String := "application/vnd.openxmlformats-package.relationships+xml"
def xml : String := "application/xml"
def document : String :=
  "application/vnd.openxmlformats-officedocument.wordprocessingml.document.main+xml"
def styles : String := "application/vnd.openxmlformats-officedocument.wordprocessingml.styles+xml"

end ContentType

namespace ContentTypes

def partName (path : String) : String :=
  if path.toList.head? = some '/' then path else "/" ++ path

def extensionName (extension : String) : String :=
  String.ofList ((extension.toList.dropWhile (· = '.')).map Char.toLower)

/-- What stands behind the last dot. -/
def extension? (path : String) : Option String :=
  let cs := path.toList.reverse
  if cs.contains '.' then some (String.ofList ((cs.takeWhile (· ≠ '.')).reverse.map Char.toLower))
  else none

def replaceOrAdd (key type : String) : List (String × String) → List (String × String)
  | [] => [(key, type)]
  | e :: rest => if e.1 = key then (key, type) :: rest else e :: replaceOrAdd key type rest

def addDefault (c : ContentTypes) (extension type : String) : ContentTypes :=
  { c with defaults := replaceOrAdd (extensionName extension) type c.defaults }

def addOverride (c : ContentTypes) (path type : String) : ContentTypes :=
  { c with overrides := replaceOrAdd (partName path) type c.overrides }

def override? (c : ContentTypes) (path : String) : Option String :=
  c.overrides.lookup (partName path)

def eraseOverride (c : ContentTypes) (path : String) : ContentTypes :=
  { c with overrides := c.overrides.eraseP (·.1 = partName path) }

def type? (c : ContentTypes) (path : String) : Option String :=
  (c.override? path).or ((extension? (partName path)).bind fun e => c.defaults.lookup e)

/-- What every document needs. -/
def forDocument (mainPart : String) : ContentTypes :=
  (({} : ContentTypes).addDefault "rels" ContentType.relationships |>.addDefault "xml" ContentType.xml)
    |>.addOverride mainPart ContentType.document

def apply (c : ContentTypes) (tag : Tag) : Except PartFault ContentTypes :=
  if tag.label = "Default" then
    match tag.value? "Extension", tag.value? "ContentType" with
    | some extension, some type => .ok (c.addDefault extension type)
    | _, _ => .error .incompleteDefault
  else if tag.label = "Override" then
    match tag.value? "PartName", tag.value? "ContentType" with
    | some name, some type => .ok (c.addOverride name type)
    | _, _ => .error .incompleteOverride
  else .ok c

def readEvents (c : ContentTypes) (fault : Option Markup.Fault) :
    List Event → Except PartFault ContentTypes
  | [] =>
    match fault with
    | some fault => .error (.markup fault)
    | none => .ok c
  | .opening tag :: rest => do readEvents (← c.apply tag) fault rest
  | .empty tag :: rest => do readEvents (← c.apply tag) fault rest
  | _ :: rest => readEvents c fault rest

def read (source : List Text.Symbol) : Except PartFault ContentTypes :=
  let events := scan source
  readEvents {} events.fault events.list

def typesNamespace : String := "http://schemas.openxmlformats.org/package/2006/content-types"

def xml (c : ContentTypes) : String :=
  Piece.join (.verbatim "<?xml version=\"1.0\" encoding=\"UTF-8\" standalone=\"yes\"?>\n" ::
    Piece.element "Types" [("xmlns", typesNamespace)]
      (c.defaults.map (fun e => .empty "Default" [("Extension", e.1), ("ContentType", e.2)]) ++
        c.overrides.map fun e => .empty "Override" [("PartName", e.1), ("ContentType", e.2)]))

end ContentTypes

end Letterpress
