import Letterpress.Template.Node

/-!
# Replacing the bodies of blocks

The first definition of a name replaces the bodies of the blocks of that name. In what replaces a
body the name has no definition any more, so blocks that contain each other come to an end.
-/

namespace Letterpress.Template

variable {μ : Type}

namespace Node

mutual

/-- Replaces the bodies of the blocks that `body?` has one for. -/
def replace (body? : String → Option (List (Node μ))) : Node μ → Node μ
  | pair keyword argument opening body closing =>
    match (if keyword = .block then body? argument else none) with
    | some body => pair keyword argument opening body closing
    | none => pair keyword argument opening (replaceAll body? body) closing
  | text glyphs => text glyphs
  | placeholder name raw => placeholder name raw
  | inherits parent raw => inherits parent raw
  | stray raw => stray raw

def replaceAll (body? : String → Option (List (Node μ))) : List (Node μ) → List (Node μ)
  | [] => []
  | node :: rest => replace body? node :: replaceAll body? rest

end

end Node

/-- Bodies of blocks by name. -/
abbrev Definitions (μ : Type) := List (String × List (Node μ))

namespace Definitions

def without (name : String) (d : Definitions μ) : Definitions μ := d.filter (·.1 ≠ name)

/-- Expands with at most `depth` replacements inside each other. -/
def expandWithin : Nat → Definitions μ → List (Node μ) → List (Node μ)
  | 0, _, nodes => nodes
  | depth + 1, d, nodes =>
    Node.replaceAll (fun name => (d.lookup name).map (expandWithin depth (d.without name))) nodes

/-- Every replacement uses up a definition, so there are no more than these inside each other. -/
def expand (d : Definitions μ) (nodes : List (Node μ)) : List (Node μ) :=
  expandWithin d.length d nodes

/-- The expanded body of a block. -/
def expandBody (d : Definitions μ) (name : String) (body : List (Node μ)) : List (Node μ) :=
  (d.without name).expand body

end Definitions

end Letterpress.Template
