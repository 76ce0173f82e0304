import Letterpress.Markup.Content

/-!
# Parts of a package

What can be wrong with a part, and the walk over the children of one of its elements.
-/

namespace Letterpress

open Markup

inductive PartFault where
  | markup (fault : Markup.Fault)
  /-- An element is left open. -/
  | unfinished
  | noBody
  /-- A fragment to be kept as it is written is no text. -/
  | fragmentNotText
  | notText
  | incompleteRelationship
  | incompleteDefault
  | incompleteOverride
  deriving DecidableEq, Repr

namespace PartFault

def reason : PartFault → String
  | markup fault => fault.message
  | unfinished => "unexpected end of part"
  | noBody => "no w:body element"
  | fragmentNotText => "captured fragment is not UTF-8"
  | notText => "part is not valid UTF-8"
  | incompleteRelationship => "Relationship without Id or Target"
  | incompleteDefault => "Default without Extension or ContentType"
  | incompleteOverride => "Override without PartName or ContentType"

def isMarkup : PartFault → Bool
  | markup _ => true
  | _ => false

/-- The fault of a part, named by its path. -/
def message (fault : PartFault) (part : String) : String :=
  (if fault.isMarkup then "XML error in " else "Invalid structure in ") ++ part ++ ": " ++ fault.reason

/-- A content that is cut off leaves its element open. -/
def ofCut : Option Markup.Fault → PartFault
  | some fault => markup fault
  | none => unfinished

end PartFault

namespace Markup.Content

/-- One child of an element. -/
inductive Child where
  | element (tag : Tag) (inner : Content)
  | empty (tag : Tag)
  | text (content : List Text.Symbol)
  | cdata (content : List Text.Symbol)

variable {σ : Type}

/-- Takes the children in turn, up to the end tag. -/
def foldChildren (f : σ → Child → Except PartFault σ) : σ → Content → Except PartFault σ
  | s, done => .ok s
  | _, cut fault => .error (.ofCut fault)
  | s, element tag inner rest => do foldChildren f (← f s (.element tag inner)) rest
  | s, empty tag rest => do foldChildren f (← f s (.empty tag)) rest
  | s, text content rest => do foldChildren f (← f s (.text content)) rest
  | s, cdata content rest => do foldChildren f (← f s (.cdata content)) rest
  | s, aside _ rest => foldChildren f s rest

/-- Passes over a content. -/
def skip (c : Content) : Except PartFault Unit :=
  match c.cut? with
  | some fault => .error (.ofCut fault)
  | none => .ok ()

/-- Takes the tags of the children in turn and passes over what is in them. -/
def foldTags (f : σ → Tag → σ) : σ → Content → Except PartFault σ :=
  foldChildren fun s child =>
    match child with
    | .element tag inner => do
      inner.skip
      pure (f s tag)
    | .empty tag => pure (f s tag)
    | _ => pure s

/-- An element as it is written. -/
def elementText (tag : Tag) (inner : Content) : Except PartFault String := do
  inner.skip
  match Text.text? (element tag inner done).source with
  | some s => pure s
  | none => throw .fragmentNotText

/-- An empty element as it is written. -/
def emptyText (tag : Tag) : Except PartFault String :=
  match Text.text? (emptySource tag) with
  | some s => .ok s
  | none => .error .fragmentNotText

end Markup.Content

end Letterpress
