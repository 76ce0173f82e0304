import Letterpress.File
import Letterpress.Render
import Letterpress.Template.Check

/-!
# The engine

An engine keeps templates by name. A template that names a parent gets the one that is kept under
that name when it is loaded, if there is any; later loads do not change it.
-/

namespace Letterpress

structure Engine where
  settings : Settings := {}
  cache : KeyMap Template := .empty

/-- Settings from a file. -/
def Settings.ofFile (path : String) (f : File) : Except TemplateFailure Settings :=
  match f.text with
  | .error fault => .error (.during "read_config" path (.file fault))
  | .ok text =>
    match Settings.read? text with
    | some s => .ok s
    | none => .error (.during "parse_config" path .settings)

namespace Engine

/-- The template of a sheet, with the ancestors it gets. -/
def inherit (e : Engine) (s : Template.Sheet) : Template :=
  match s.parent?.bind e.cache.find? with
  | some parent => ⟨s, parent.chain⟩
  | none => ⟨s, []⟩

/-- Keeps a template, checked if the settings say so. -/
def register (e : Engine) (s : Template.Sheet) : Except TemplateFailure (Template × Engine) := do
  if e.settings.validateOnLoad then (Template.check s.content).mapError .invalid
  let t := e.inherit s
  pure (t, { e with cache := e.cache.insert s.name t })

def load (e : Engine) (name content : String) : Except TemplateFailure (Template × Engine) :=
  (e.register ⟨name, content, none⟩).mapError (.during "load_template" name)

def loadDocument (e : Engine) (name : String) (d : Document) :
    Except TemplateFailure (Template × Engine) :=
  (e.register (.ofDocument name d)).mapError (.during "load_template_from_document" name)

/-- Loads a file: a document by its extension, anything else as text. -/
def loadFile (e : Engine) (unzip : ByteArray → Option Archive) (name path : String) (f : File) :
    Except TemplateFailure (Template × Engine) :=
  if isDocumentPath path then
    match f.document unzip path with
    | .ok d => e.loadDocument name d
    | .error cause => .error (.during "load_template_file" name (.document cause))
  else
    match f.text with
    | .ok content => e.load name content
    | .error fault => .error (.during "load_template_file" path (.file fault))

def get (e : Engine) (name : String) : Except TemplateFailure Template :=
  match e.cache.find? name with
  | some t => .ok t
  | none => .error (.notFound name)

/-- Takes a template out, if it is there. -/
def remove (e : Engine) (name : String) : Option Template × Engine :=
  (e.cache.find? name, { e with cache := e.cache.erase name })

def clear (e : Engine) : Engine := { e with cache := .empty }

def names (e : Engine) : List String := e.cache.keys

def renderTemplate (e : Engine) (t : Template) (filling : Filling) : Document :=
  t.render e.settings filling

def renderDocument (e : Engine) (name : String) (filling : Filling) :
    Except TemplateFailure Document := do
  pure (e.renderTemplate (← e.get name) filling)

def renderText (e : Engine) (name : String) (filling : Filling) : Except TemplateFailure String := do
  pure ((← e.get name).renderText e.settings filling)

/-- The text of one block of a template. -/
def renderBlock (e : Engine) (name block : String) (filling : Filling) :
    Except TemplateFailure String := do
  match (← e.get name).block? block with
  | some body => pure (Template.Node.render ⟨filling, e.settings.missing, []⟩ body)
  | none => throw (.noBlock name block)

/-- Checks the source of a template. -/
def validate (e : Engine) (name : String) : Except TemplateFailure Unit := do
  (Template.check (← e.get name).own.content).mapError .invalid

end Engine

end Letterpress
