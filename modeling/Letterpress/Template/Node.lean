import Letterpress.Template.Lexer

/-!
# Parsed templates
-/

namespace Letterpress.Template

inductive Node (μ : Type) where
  | text (glyphs : List (Glyph μ))
  | placeholder (name : String) (raw : List (Glyph μ))
  | inherits (parent : String) (raw : List (Glyph μ))
  /-- A tag that opens, the tag that closes it, and what is between them. -/
  | pair (keyword : Keyword) (argument : String) (opening : List (Glyph μ)) (body : List (Node μ))
    (closing : List (Glyph μ))
  /-- A tag that opens or closes and has no partner. -/
  | stray (raw : List (Glyph μ))

namespace Node

variable {μ : Type}

mutual

/-- The node as it is written. -/
def source : Node μ → List (Glyph μ)
  | text glyphs => glyphs
  | placeholder _ raw => raw
  | inherits _ raw => raw
  | pair _ _ opening body closing => opening ++ sourceAll body ++ closing
  | stray raw => raw

def sourceAll : List (Node μ) → List (Glyph μ)
  | [] => []
  | node :: rest => source node ++ sourceAll rest

end

def sourceText (nodes : List (Node μ)) : String := textOf (sourceAll nodes)

def span (node : Node Place) : Span := spanOf node.source

mutual

/-- The node and the nodes inside it, in the order they are written. -/
def flatten : Node μ → List (Node μ)
  | pair keyword argument opening body closing =>
    pair keyword argument opening body closing :: flattenAll body
  | text glyphs => [text glyphs]
  | placeholder name raw => [placeholder name raw]
  | inherits parent raw => [inherits parent raw]
  | stray raw => [stray raw]

def flattenAll : List (Node μ) → List (Node μ)
  | [] => []
  | node :: rest => flatten node ++ flattenAll rest

end

theorem flattenAll_eq_flatMap (nodes : List (Node μ)) : flattenAll nodes = nodes.flatMap flatten := by
  induction nodes with
  | nil => rfl
  | cons node rest ih => rw [flattenAll, ih, List.flatMap_cons]

theorem flattenAll_append (a b : List (Node μ)) :
    flattenAll (a ++ b) = flattenAll a ++ flattenAll b := by
  simp only [flattenAll_eq_flatMap, List.flatMap_append]

theorem mem_flattenAll_reverse {n : Node μ} {nodes : List (Node μ)} :
    n ∈ flattenAll nodes.reverse ↔ n ∈ flattenAll nodes := by
  simp only [flattenAll_eq_flatMap, List.mem_flatMap, List.mem_reverse]

def parent? : Node μ → Option String
  | inherits parent _ => some parent
  | _ => none

def placeholderName? : Node μ → Option String
  | placeholder name _ => some name
  | _ => none

/-- The argument of a pair with the keyword. -/
def argument? (keyword : Keyword) : Node μ → Option String
  | pair k argument _ _ _ => if k = keyword then some argument else none
  | _ => none

/-- A block's name and body. -/
def block? : Node μ → Option (String × List (Node μ))
  | pair .block name _ body _ => some (name, body)
  | _ => none

/-- The blocks with their bodies, also those inside others. -/
def blocks (nodes : List (Node μ)) : List (String × List (Node μ)) :=
  (flattenAll nodes).filterMap block?

/-- The first block of a name. -/
def findBlock? (name : String) (nodes : List (Node μ)) : Option (Node μ) :=
  (flattenAll nodes).find? (·.argument? .block = some name)

/-- The first parent named. -/
def findParent? (nodes : List (Node μ)) : Option String := (flattenAll nodes).findSome? parent?

end Node

end Letterpress.Template
