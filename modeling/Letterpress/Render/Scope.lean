import Letterpress.Filling
import Letterpress.Settings

/-!
# What names mean

Inside a loop a name means a field of the item, then what it means around the loop. Conditions do
not look further than the innermost item if it has fields.
-/

namespace Letterpress

/-- One pass of a loop. -/
structure Pass where
  item : Json
  index : Nat
  /-- The number of passes. -/
  count : Nat
  /-- Conditions ask the item only. -/
  itemOnly : Bool

/-- What a template is filled with at one point. -/
structure Scope where
  filling : Filling
  missing : Missing
  /-- The passes of the loops around, innermost first. -/
  passes : List Pass := []

namespace Pass

def isFirst (p : Pass) : Bool := p.index = 0

def isLast (p : Pass) : Bool := p.index + 1 = p.count

def value? (p : Pass) (name : String) : Option String :=
  if name = "this" then some p.item.display
  else if name = "@index" then some (toString p.index)
  else if name = "@first" then some (toString p.isFirst)
  else if name = "@last" then some (toString p.isLast)
  else (p.item.field? name).map Json.display

end Pass

namespace Scope

/-- The text of a placeholder. -/
def value? (s : Scope) (name : String) : Option String :=
  (s.passes.findSome? (·.value? name)).or ((s.filling.variables.find? name).map Json.display)

/-- Whether a condition given by the filling holds; it does not if none is given. -/
def given (s : Scope) (name : String) : Bool := (s.filling.conditions.find? name).getD false

def holds (s : Scope) (name : String) : Bool :=
  match s.passes with
  | [] => s.given name
  | p :: _ =>
    if name = "@first" then p.isFirst
    else if name = "@last" then p.isLast
    else
      match p.item.fields? with
      | some fields => ((Keyed.find? name fields).map Json.holds).getD false
      | none => !p.itemOnly && s.given name

/-- The list in a field of the innermost item. -/
def itemList? (s : Scope) (name : String) : Option (List Json) :=
  s.passes.head?.bind fun p => (p.item.field? name).bind Filling.list?

def list? (s : Scope) (name : String) : Option (List Json) :=
  (s.itemList? name).or (s.filling.lists.find? name)

/-- The scopes of the passes over a list. -/
def «over» (s : Scope) (itemOnly : Bool) (items : List Json) : List Scope :=
  items.zipIdx.map fun (item, index) =>
    { s with passes := ⟨item, index, items.length, itemOnly⟩ :: s.passes }

end Scope

end Letterpress
