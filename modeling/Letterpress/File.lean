import Letterpress.Document

/-!
# Stored files

An archive that is written here is stored as its entries. How other bytes are read as an archive is
a parameter.
-/

namespace Letterpress

/-- What is stored under the path of a file. -/
inductive File where
  | missing
  | bytes (contents : ByteArray)
  | archive (a : Archive)

namespace File

def text (f : File) : Except FileFault String :=
  match f with
  | missing => .error .missing
  | bytes contents =>
    match Text.text? (Text.Symbol.read contents) with
    | some s => .ok s
    | none => .error .notText
  | archive _ => .error .notText

/-- The archive in a file, `unzip` being what reads bytes as an archive. -/
def archive? (unzip : ByteArray → Option Archive) (f : File) (path : String) :
    Except Failure Archive :=
  match f with
  | missing => .error (.during "open" path (.file .missing))
  | bytes contents =>
    match unzip contents with
    | some a => .ok a
    | none => .error .archive
  | archive a => .ok a

def document (unzip : ByteArray → Option Archive) (f : File) (path : String) :
    Except Failure Document := do
  Document.ofArchive (← f.archive? unzip path)

end File

/-- The extension of a file, unless its name begins with the only dot. -/
def extension? (path : String) : Option String :=
  let name := path.toList.reverse.takeWhile (· ≠ '/')
  let behind := name.takeWhile (· ≠ '.')
  let before := (name.dropWhile (· ≠ '.')).drop 1
  if before.isEmpty then none else some (String.ofList behind.reverse)

/-- Whether a file is a document by its extension. -/
def isDocumentPath (path : String) : Bool :=
  match extension? path with
  | some e =>
    let e := String.ofList (e.toList.map Char.toLower)
    e = "docx" || e = "dotx"
  | none => false

end Letterpress
