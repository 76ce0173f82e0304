import Letterpress.KeyMap

/-!
# TOML documents

A document is a table of tables and values. A table is opened once: by a header, by the dotted keys
in one place, or by a header for a table inside it until its own header comes.
-/

namespace Letterpress

namespace Toml

/-- How a table came to be. -/
inductive Origin where
  | header
  /-- By a header for a table in it. -/
  | implied
  /-- By a dotted key. -/
  | dotted
  | inline
  deriving DecidableEq, Repr

end Toml

inductive Toml where
  | string (s : String)
  | boolean (b : Bool)
  /-- A number, a date or a time. -/
  | scalar
  | array (items : List Toml)
  | table (origin : Toml.Origin) (entries : List (String × Toml))
  /-- A row of tables, opened one by one. -/
  | tables (rows : List (List (String × Toml)))
  deriving Inhabited

namespace Toml

/-- Whether a table may still be opened by a header. -/
def Origin.isOpen : Origin → Bool
  | implied => true
  | dotted => true
  | _ => false

/-- Changes the table that a path leads to, and makes those on the way that are missing. A path of
dotted keys does not lead through tables with a header of their own, and none leads into an inline
table. -/
def alter (t : Toml) (byKeys : Bool) (path : List String) (f : Toml → Option Toml) : Option Toml :=
  match path, t with
  | [], t => f t
  | key :: path, table origin entries => do
    let child ← match Keyed.find? key entries with
      | none => (table (if byKeys then .dotted else .implied) []).alter byKeys path f
      | some (table o inner) =>
        if o = .inline ∨ (byKeys ∧ !o.isOpen) then none else (table o inner).alter byKeys path f
      | some (tables rows) =>
        match rows.getLast? with
        | none => none
        | some last =>
          match (table .header last).alter byKeys path f with
          | some (table _ entries) => some (tables (rows.dropLast ++ [entries]))
          | _ => none
      | some _ => none
    some (table origin (Keyed.insert key child entries))
  | _ :: _, _ => none
termination_by structural path

/-- Puts a value under a key that is new. A dotted key puts it into a table made by dotted keys
only. -/
def put (t : Toml) (path : List String) (key : String) (value : Toml) : Option Toml :=
  t.alter true path fun t =>
    match t with
    | table origin entries =>
      if (origin == .dotted) == path.isEmpty then none
      else if (Keyed.find? key entries).isSome then none
      else some (table origin (Keyed.insert key value entries))
    | _ => none

/-- Opens a table by its header. -/
def openTable (t : Toml) (path : List String) (key : String) : Option Toml :=
  t.alter false path fun t =>
    match t with
    | table origin entries =>
      match Keyed.find? key entries with
      | none => some (table origin (Keyed.insert key (table .header []) entries))
      | some (table .implied inner) =>
        some (table origin (Keyed.insert key (table .header inner) entries))
      | some _ => none
    | _ => none

/-- Opens the next table of a row. -/
def openRow (t : Toml) (path : List String) (key : String) : Option Toml :=
  t.alter false path fun t =>
    match t with
    | table origin entries =>
      match Keyed.find? key entries with
      | none => some (table origin (Keyed.insert key (tables [[]]) entries))
      | some (tables rows) => some (table origin (Keyed.insert key (tables (rows ++ [[]])) entries))
      | some _ => none
    | _ => none

/-- The entries of a table, or none. -/
def entries : Toml → List (String × Toml)
  | table _ entries => entries
  | _ => []

def isEmpty : Toml → Bool
  | array items => items.isEmpty
  | table _ entries => entries.isEmpty
  | tables rows => rows.isEmpty
  | _ => false

end Toml

end Letterpress
