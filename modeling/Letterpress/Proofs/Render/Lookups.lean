import Mathlib.Data.List.Forall2
import Letterpress.Render.Fill

/-!
# What is asked of a filling

Filling in asks a filling for the names in the tags of a template, and for nothing else. So what two
fillings make of a template differs at its placeholders alone, if they give the lists and the
conditions in it alike.
-/

namespace Letterpress

open Template

variable {μ : Type}

theorem forall₂_flatMap {α β : Type} {R : β → β → Prop} {f g : α → List β} {l : List α}
    (h : ∀ a ∈ l, List.Forall₂ R (f a) (g a)) : List.Forall₂ R (l.flatMap f) (l.flatMap g) := by
  induction l with
  | nil => exact .nil
  | cons a rest ih =>
    rw [List.flatMap_cons, List.flatMap_cons]
    exact List.rel_append (h a (List.mem_cons_self ..))
      (ih fun a ha => h a (List.mem_cons_of_mem _ ha))

namespace Scope

variable {f g : Filling} {missing : Missing} {passes : List Pass} {name : String}

theorem value?_congr (h : f.variables.find? name = g.variables.find? name) :
    (⟨f, missing, passes⟩ : Scope).value? name = (⟨g, missing, passes⟩ : Scope).value? name := by
  simp only [value?, h]

theorem holds_congr (h : f.conditions.find? name = g.conditions.find? name) :
    (⟨f, missing, passes⟩ : Scope).holds name = (⟨g, missing, passes⟩ : Scope).holds name := by
  simp only [holds, given, h]

theorem list?_congr (h : f.lists.find? name = g.lists.find? name) :
    (⟨f, missing, passes⟩ : Scope).list? name = (⟨g, missing, passes⟩ : Scope).list? name := by
  simp only [list?, itemList?, h]

end Scope

namespace Template.Node

/-- What two fillings have to do with each other at one node, for what they make of it to be related
by `R`. It does not matter what is inside the node. -/
structure Answered (R : Filled μ → Filled μ → Prop) (blockText : BlockText) (f g : Filling)
    (missing : Missing) (node : Node μ) : Prop where
  values : ∀ name ∈ node.placeholderName?, ∀ passes,
    List.Forall₂ R (fill blockText ⟨f, missing, passes⟩ node)
      (fill blockText ⟨g, missing, passes⟩ node)
  lists : ∀ name ∈ node.argument? .loop, f.lists.find? name = g.lists.find? name
  conditions : ∀ name ∈ node.argument? .condition,
    f.conditions.find? name = g.conditions.find? name
  blocks : ∀ name ∈ node.argument? .block, ∀ passes,
    blockText ⟨f, missing, passes⟩ name = blockText ⟨g, missing, passes⟩ name

variable {R : Filled μ → Filled μ → Prop} {blockText : BlockText} {f g : Filling}
  {missing : Missing}

mutual

theorem forall₂_fill (hR : ∀ x, R x x) : ∀ (node : Node μ) (passes : List Pass),
    (∀ n ∈ node.flatten, n.Answered R blockText f g missing) →
      List.Forall₂ R (fill blockText ⟨f, missing, passes⟩ node)
        (fill blockText ⟨g, missing, passes⟩ node)
  | text _, _, _ | inherits _ _, _, _ | stray _, _, _ => by
    simp only [fill]
    exact List.forall₂_same.mpr fun x _ => hR x
  | placeholder name raw, passes, h =>
    (h _ (List.mem_singleton_self _)).values name rfl passes
  | pair .condition name opening body closing, passes, h => by
    have here := (h _ (List.mem_cons_self ..)).conditions name rfl
    simp only [fill, Scope.holds_congr here]
    split
    · exact forall₂_fillAll hR body passes fun n hn => h n (List.mem_cons_of_mem _ hn)
    · exact .nil
  | pair .loop name opening body closing, passes, h => by
    have here := (h _ (List.mem_cons_self ..)).lists name rfl
    simp only [fill, Scope.list?_congr here]
    split
    · simp only [Scope.over, List.flatMap_map]
      exact forall₂_flatMap fun _ _ =>
        forall₂_fillAll hR body _ fun n hn => h n (List.mem_cons_of_mem _ hn)
    · exact List.forall₂_same.mpr fun x _ => hR x
  | pair .block name opening body closing, passes, h => by
    have here := (h _ (List.mem_cons_self ..)).blocks name rfl passes
    simp only [fill, here]
    split
    · exact List.forall₂_same.mpr fun x _ => hR x
    · exact forall₂_fillAll hR body passes fun n hn => h n (List.mem_cons_of_mem _ hn)

/-- What two fillings make of nodes is related if it is at each node. -/
theorem forall₂_fillAll (hR : ∀ x, R x x) : ∀ (nodes : List (Node μ)) (passes : List Pass),
    (∀ n ∈ flattenAll nodes, n.Answered R blockText f g missing) →
      List.Forall₂ R (fillAll blockText ⟨f, missing, passes⟩ nodes)
        (fillAll blockText ⟨g, missing, passes⟩ nodes)
  | [], _, _ => .nil
  | node :: rest, passes, h => by
    obtain ⟨hnode, hrest⟩ := List.forall_mem_append.mp h
    exact List.rel_append (forall₂_fill hR node passes hnode) (forall₂_fillAll hR rest passes hrest)

end

end Template.Node

end Letterpress
