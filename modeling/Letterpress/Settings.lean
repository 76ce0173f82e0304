import Letterpress.Toml.Reader

/-!
# Settings of an engine
-/

namespace Letterpress

/-- What a placeholder becomes that nothing fills. -/
inductive Missing where
  | keep
  | empty
  deriving DecidableEq, Repr

def Missing.word : Missing → String
  | keep => "keep"
  | empty => "empty"

def Missing.ofWord? (s : String) : Option Missing := [keep, empty].find? (·.word = s)

structure Settings where
  missing : Missing := .keep
  /-- The style of the paragraphs made from text. -/
  paragraphStyle : Option String := none
  /-- Blank lines of text become empty paragraphs. -/
  keepBlankLines : Bool := true
  validateOnLoad : Bool := false
  deriving DecidableEq, Repr

namespace Settings

/-- A word, or a table with the word as its only key and nothing in it. -/
def missing? : Toml → Option Missing
  | .string s => Missing.ofWord? s
  | .table _ [(key, value)] =>
    match value with
    | .table _ [] => Missing.ofWord? key
    | .array [] => Missing.ofWord? key
    | _ => none
  | _ => none

def style? : Toml → Option String
  | .string s => some s
  | _ => none

def switch? : Toml → Option Bool
  | .boolean b => some b
  | _ => none

/-- A setting that may be absent, but not of another type. -/
def given? {α : Type} (t : Toml) (key : String) (read : Toml → Option α) (absent : α) : Option α :=
  match Keyed.find? key t.entries with
  | some value => read value
  | none => some absent

/-- The settings of a document; keys that are no settings are left out. -/
def ofToml? (t : Toml) : Option Settings := do
  pure { missing := ← given? t "missing_variable" missing? .keep
         paragraphStyle := ← given? t "paragraph_style" (fun v => (style? v).map some) none
         keepBlankLines := ← given? t "keep_blank_lines" switch? true
         validateOnLoad := ← given? t "validate_on_load" switch? false }

def read? (text : String) : Option Settings := (Toml.read text).bind ofToml?

end Settings

end Letterpress
