import Letterpress.Template.Failure
import Letterpress.Text.Lowercase

/-!
# Fillings

What a template is filled with: variables, lists and conditions, each with names of their own. A
filling is read from an object with these three fields, any of them absent, or from a list of them,
which may be shorter.
-/

namespace Letterpress

structure Filling where
  «variables» : KeyMap Json := .empty
  lists : KeyMap (List Json) := .empty
  conditions : KeyMap Bool := .empty

namespace Filling

def setVariable (f : Filling) (name : String) (value : Json) : Filling :=
  { f with «variables» := f.variables.insert name value }

def setVariables (f : Filling) (values : List (String × Json)) : Filling :=
  { f with «variables» := f.variables.insertAll values }

def setList (f : Filling) (name : String) (items : List Json) : Filling :=
  { f with lists := f.lists.insert name items }

def setCondition (f : Filling) (name : String) (value : Bool) : Filling :=
  { f with conditions := f.conditions.insert name value }

/-- What is in either; on a common name `other` wins. -/
def merge (f other : Filling) : Filling :=
  ⟨f.variables.merge other.variables, f.lists.merge other.lists,
    f.conditions.merge other.conditions⟩

def isEmpty (f : Filling) : Bool :=
  f.variables.isEmpty && f.lists.isEmpty && f.conditions.isEmpty

/-- The filling as JSON. -/
def compact (f : Filling) : String :=
  let lists := f.lists.entries.map fun e => (e.1, Json.array e.2)
  let conditions := f.conditions.entries.map fun e => (e.1, Json.bool e.2)
  (Json.object [("variables", .object f.variables.entries), ("lists", .object lists),
    ("conditions", .object conditions)]).compact

/-- The fields of an object as variables, with their names in lower case. -/
def ofValue (value : Json) : Except TemplateFailure Filling :=
  match value.fields? with
  | some fields => .ok (({} : Filling).setVariables (fields.map fun e => (Text.lowercase e.1, e.2)))
  | none => .error (.invalid ⟨"data_type", value.kind, "expected a struct or map"⟩)

/-! ### From values and from text -/

def list? : Json → Option (List Json)
  | .array items => some items
  | _ => none

def condition? : Json → Option Bool
  | .bool b => some b
  | _ => none

/-- The entries of an object, each read as one type. -/
def mapOf? {α : Type} (read : Json → Option α) (value : Json) : Option (KeyMap α) := do
  let entries ← (← value.fields?).mapM fun e => do pure (e.1, ← read e.2)
  pure (KeyMap.ofList entries)

/-- A field that may be absent. -/
def fieldOf? {α : Type} (read : Json → Option α) (value : Option Json) :
    Option (KeyMap α) :=
  match value with
  | none => some .empty
  | some value => mapOf? read value

def ofParts? (values lists conditions : Option Json) : Option Filling := do
  pure ⟨← fieldOf? some values, ← fieldOf? list? lists, ← fieldOf? condition? conditions⟩

def ofJson? (value : Json) : Option Filling :=
  match value with
  | .object fields =>
    let field (name : String) := Keyed.find? name fields
    ofParts? (field "variables") (field "lists") (field "conditions")
  | .array items =>
    if items.length ≤ 3 then ofParts? items[0]? items[1]? items[2]? else none
  | _ => none

open Json (Reader Fault)

def readCondition : Reader Bool := fun input =>
  match Json.skipBlanks input with
  | 't' :: rest => do pure (true, ← Json.word ['r', 'u', 'e'] rest)
  | 'f' :: rest => do pure (false, ← Json.word ['a', 'l', 's', 'e'] rest)
  | input => .error (Json.mismatchOf input)

/-- Reads a list of values that may have `depth` levels. -/
def readItems (depth : Nat) : Reader (List Json) := fun input =>
  match Json.skipBlanks input with
  | '[' :: rest => do
    let (items, rest) ← Json.arrayOf [] (fun items input => do
      let (item, rest) ← Json.value true depth input
      pure (item :: items, rest)) rest
    pure (items.reverse, rest)
  | input => .error (Json.mismatchOf input)

def readMap {α : Type} (item : Reader α) : Reader (KeyMap α) := fun input =>
  match Json.skipBlanks input with
  | '{' :: rest =>
    Json.objectOf true KeyMap.empty (fun m key input => do
      let (a, rest) ← item input
      pure (m.insert key a, rest)) rest
  | input => .error (Json.mismatchOf input)

/-- A filling while it is read. -/
structure Partial where
  «variables» : Option (KeyMap Json) := none
  lists : Option (KeyMap (List Json)) := none
  conditions : Option (KeyMap Bool) := none

namespace Partial

def filling (p : Partial) : Filling :=
  ⟨p.variables.getD .empty, p.lists.getD .empty, p.conditions.getD .empty⟩

def readVariables (p : Partial) : Reader Partial := fun input => do
  let (m, rest) ← readMap (Json.value true (Json.deepest - 2)) input
  pure ({ p with «variables» := some m }, rest)

def readLists (p : Partial) : Reader Partial := fun input => do
  let (m, rest) ← readMap (readItems (Json.deepest - 3)) input
  pure ({ p with lists := some m }, rest)

def readConditions (p : Partial) : Reader Partial := fun input => do
  let (m, rest) ← readMap readCondition input
  pure ({ p with conditions := some m }, rest)

/-- Reads a field; one that is there already is refused. -/
def readField (p : Partial) (key : String) : Reader Partial := fun input =>
  match key with
  | "variables" => if p.variables.isSome then .error .mismatch else p.readVariables input
  | "lists" => if p.lists.isSome then .error .mismatch else p.readLists input
  | "conditions" => if p.conditions.isSome then .error .mismatch else p.readConditions input
  | _ => do
    let (_, rest) ← Json.ignored input
    pure (p, rest)

/-- Reads the next item of a list, if there is one, and tells so. -/
def readItem (first : Bool) (p : Partial) (item : Partial → Reader Partial) :
    Reader (Bool × Partial) := fun input => do
  match ← Json.nextItem first input with
  | (true, rest) =>
    let (p, rest) ← item p rest
    pure ((true, p), rest)
  | (false, rest) => pure ((false, p), rest)

/-- Reads the end of a list. -/
def readEnd (input : List Char) : Except Fault (List Char) :=
  match Json.skipBlanks input with
  | [] => .error .early
  | ']' :: rest => .ok rest
  | _ => .error .malformed

def readItems (input : List Char) : Except Fault (Partial × List Char) := do
  let ((more, p), rest) ← readItem true {} readVariables input
  if !more then pure (p, rest)
  else
    let ((more, p), rest) ← readItem false p readLists rest
    if !more then pure (p, rest)
    else
      let ((more, p), rest) ← readItem false p readConditions rest
      if !more then pure (p, rest) else pure (p, ← readEnd rest)

end Partial

def reader : Reader Filling := fun input => do
  match Json.skipBlanks input with
  | '{' :: rest =>
    let (p, rest) ← Json.objectOf true ({} : Partial) Partial.readField rest
    pure (p.filling, rest)
  | '[' :: rest =>
    let (p, rest) ← Partial.readItems rest
    pure (p.filling, rest)
  | input => throw (Json.mismatchOf input)

def read (text : String) : Except Fault Filling := Json.readAll reader text

end Filling

end Letterpress
