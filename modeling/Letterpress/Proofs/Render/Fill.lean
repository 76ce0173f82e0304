import Letterpress.Proofs.Template.Marks
import Letterpress.Proofs.Template.Places
import Letterpress.Render.Paragraph

/-!
# What a template is filled in to

Filling in commutes with changing marks, every value stands for a tag that is written, and deciding
the conditions of a text without any leaves the text as it is.
-/

namespace Letterpress

open Template

/-- What is between braces in the text of a tag, with the braces. -/
def tagText (inner : String) : String := "\x7b\x7b" ++ inner ++ "\x7d\x7d"

variable {μ ν : Type}

namespace Filled

def map (f : μ → ν) : Filled μ → Filled ν
  | kept g => kept (g.map f)
  | value text tag => value text (tag.map (Glyph.map f))

@[simp] theorem chars_map (f : μ → ν) (x : Filled μ) : (x.map f).chars = x.chars := by
  cases x <;> rfl

theorem map_kept (f : μ → ν) (gs : List (Glyph μ)) :
    (gs.map Filled.kept).map (map f) = (gs.map (Glyph.map f)).map .kept := by
  simp [map]

theorem flatMap_chars_map_kept (gs : List (Glyph μ)) :
    (gs.map kept).flatMap Filled.chars = Template.chars gs := by
  rw [List.flatMap_map]
  exact List.map_eq_flatMap.symm

theorem text_map_kept (gs : List (Glyph μ)) : text (gs.map kept) = textOf gs :=
  congrArg String.ofList (flatMap_chars_map_kept gs)

theorem text_append (a b : List (Filled μ)) : text (a ++ b) = text a ++ text b := by
  rw [text, List.flatMap_append, String.ofList_append, text, text]

theorem text_flatMap {α : Type} (l : List α) (f : α → List (Filled μ)) :
    text (l.flatMap f) = String.join (l.map fun a => text (f a)) := by
  induction l with
  | nil => rfl
  | cons a rest ih => rw [List.flatMap_cons, text_append, ih, List.map_cons, String.join_cons]

end Filled

namespace Template.Node

variable (blockText : BlockText) (f : μ → ν)

mutual

theorem fill_map : ∀ (s : Scope) (node : Node μ),
    fill blockText s (node.map f) = (fill blockText s node).map (Filled.map f)
  | s, text glyphs => by simp only [map, fill, Filled.map_kept]
  | s, placeholder name raw => by
    simp only [map, fill]
    cases s.value? name with
    | some value => rfl
    | none => cases s.missing <;> simp [Filled.map]
  | _, inherits _ _ => rfl
  | s, stray raw => by simp only [map, fill, Filled.map_kept]
  | s, pair .condition name opening body closing => by
    simp only [map, fill]
    cases s.holds name with
    | true => exact fillAll_map s body
    | false => rfl
  | s, pair .loop name opening body closing => by
    simp only [map, fill]
    cases s.list? name with
    | some items => simp [List.map_flatMap, fun s' => fillAll_map s' body]
    | none => simp only [sourceAll_mapAll, ← List.map_append, Filled.map_kept]
  | s, pair .block name opening body closing => by
    simp only [map, fill]
    cases blockText s name with
    | some instead => rfl
    | none => exact fillAll_map s body

theorem fillAll_map : ∀ (s : Scope) (nodes : List (Node μ)),
    fillAll blockText s (mapAll f nodes) = (fillAll blockText s nodes).map (Filled.map f)
  | _, [] => rfl
  | s, node :: rest => by
    simp only [mapAll, fillAll, List.map_append, fill_map s node, fillAll_map s rest]

end

mutual

theorem renderNode_eq_text : ∀ (s : Scope) (node : Node μ),
    renderNode s node = Filled.text (fill (fun _ _ => none) s node)
  | _, text glyphs => by rw [renderNode, fill, Filled.text_map_kept]
  | s, placeholder name raw => by
    rw [renderNode, fill]
    cases s.value? name with
    | some value => simp [Filled.text, Filled.chars]
    | none =>
      cases s.missing with
      | keep => exact (Filled.text_map_kept raw).symm
      | empty => rfl
  | _, inherits _ _ => rfl
  | _, stray raw => by rw [renderNode, fill, Filled.text_map_kept]
  | s, pair .condition name opening body closing => by
    rw [renderNode, fill]
    cases s.holds name with
    | true => exact render_eq_text s body
    | false => rfl
  | s, pair .loop name opening body closing => by
    rw [renderNode, fill]
    cases s.list? name with
    | some items =>
      simp only [Filled.text_flatMap]
      exact congrArg String.join (List.map_congr_left fun s' _ => render_eq_text s' body)
    | none => exact (Filled.text_map_kept _).symm
  | s, pair .block _ _ body _ => by
    rw [renderNode, fill]
    exact render_eq_text s body

/-- The text of nodes is that of what they are filled in to, every block with its own body. -/
theorem render_eq_text : ∀ (s : Scope) (nodes : List (Node μ)),
    render s nodes = Filled.text (fillAll (fun _ _ => none) s nodes)
  | _, [] => rfl
  | s, node :: rest => by
    rw [render, fillAll, Filled.text_append, renderNode_eq_text s node, render_eq_text s rest]

end

/-- The tag that a value could stand for is not empty. -/
def IsTagged : Node μ → Prop
  | placeholder _ raw => raw ≠ []
  | pair _ _ opening _ _ => opening ≠ []
  | _ => True

theorem isTagged_of_mem_parse {gs : List (Glyph μ)} : ∀ n ∈ flattenAll (parse gs), n.IsTagged :=
  forall_mem_parseLexemes (T := fun t => t.raw ≠ [])
    ⟨fun _ => trivial, fun _ _ h => h, fun _ _ _ => trivial, fun _ _ _ _ _ h _ => h,
      fun _ _ => trivial⟩
    fun _ ht => (isWritten_of_mem_lex ht).raw_ne_nil

/-- Whether every value that could be put in at a node has a property. It does not matter what is
inside the node. -/
def Puts (P : Filled μ → Prop) : Node μ → Prop
  | placeholder _ raw => ∀ text, P (.value text raw)
  | pair .block _ opening _ _ => ∀ text, P (.value text opening)
  | _ => True

section

variable {P : Filled μ → Prop}

mutual

theorem forall_mem_fill (hkept : ∀ g, P (.kept g)) : ∀ (s : Scope) (node : Node μ),
    (∀ n ∈ node.flatten, n.Puts P) → ∀ x ∈ fill blockText s node, P x
  | s, .text glyphs, _ => by simpa only [fill, List.forall_mem_map] using fun g _ => hkept g
  | s, placeholder name raw, h => by
    have hput : ∀ text, P (.value text raw) := h _ (List.mem_singleton_self _)
    simp only [fill]
    split
    · simpa using hput _
    · simpa only [List.forall_mem_map] using fun g _ => hkept g
    · exact List.forall_mem_nil _
  | _, inherits _ _, _ => List.forall_mem_nil _
  | s, stray raw, _ => by simpa only [fill, List.forall_mem_map] using fun g _ => hkept g
  | s, pair .condition name opening body closing, h => by
    simp only [fill]
    split
    · exact forall_mem_fillAll hkept s body fun n hn => h n (List.mem_cons_of_mem _ hn)
    · exact List.forall_mem_nil _
  | s, pair .loop name opening body closing, h => by
    simp only [fill]
    split
    · intro x hx
      obtain ⟨s', -, hx⟩ := List.mem_flatMap.mp hx
      exact forall_mem_fillAll hkept s' body (fun n hn => h n (List.mem_cons_of_mem _ hn)) x hx
    · simpa only [List.forall_mem_map] using fun g _ => hkept g
  | s, pair .block name opening body closing, h => by
    have hput : ∀ text, P (.value text opening) := h _ (List.mem_cons_self ..)
    simp only [fill]
    split
    · simpa using hput _
    · exact forall_mem_fillAll hkept s body fun n hn => h n (List.mem_cons_of_mem _ hn)

/-- What holds of every glyph that is kept, and of the values at each node, holds of all that is
filled in. -/
theorem forall_mem_fillAll (hkept : ∀ g, P (.kept g)) : ∀ (s : Scope) (nodes : List (Node μ)),
    (∀ n ∈ flattenAll nodes, n.Puts P) → ∀ x ∈ fillAll blockText s nodes, P x
  | _, [], _ => List.forall_mem_nil _
  | s, node :: rest, h => by
    obtain ⟨hnode, hrest⟩ := List.forall_mem_append.mp h
    exact List.forall_mem_append.mpr
      ⟨forall_mem_fill hkept s node hnode, forall_mem_fillAll hkept s rest hrest⟩

end

end

theorem tag_ne_nil_of_mem_fillAll {text : String} {tag : List (Glyph μ)} (s : Scope)
    (nodes : List (Node μ)) (ht : ∀ n ∈ flattenAll nodes, n.IsTagged)
    (h : .value text tag ∈ fillAll blockText s nodes) : tag ≠ [] := by
  have hputs : ∀ n ∈ flattenAll nodes,
      n.Puts fun x => ∀ text tag, x = .value text tag → tag ≠ [] := by
    intro n hn
    have htag := ht n hn
    match n, htag with
    | placeholder _ raw, htag | pair .block _ raw _ _, htag =>
      rintro _ _ _ ⟨⟩
      exact htag
    | .text _, _ | inherits _ _, _ | stray _, _ | pair .condition _ _ _ _, _
    | pair .loop _ _ _ _, _ => trivial
  exact forall_mem_fillAll blockText (fun _ _ _ h => (nomatch h)) s nodes hputs _ h text tag rfl

/-! ### Texts without conditions -/

theorem judgeAll_eq_sourceAll {s : Scope} {nodes : List (Node μ)}
    (h : ∀ n ∈ flattenAll nodes, n.argument? .condition = none) :
    judgeAll s nodes = sourceAll nodes := by
  induction nodes with
  | nil => rfl
  | cons node rest ih =>
    rw [judgeAll, sourceAll, ih fun n hn => h n (by simp [flattenAll, hn])]
    congr 1
    cases node with
    | pair keyword name opening body closing =>
      have hk : keyword ≠ .condition := by
        rintro rfl
        exact absurd (h (pair .condition name opening body closing) (by simp [flattenAll, flatten]))
          (by simp [argument?])
      simp [judge, source, hk]
    | text | placeholder | inherits | stray => rfl

end Template.Node

/-- Whether a tag opens a condition. -/
def Template.Tag.opensCondition : Tag → Bool
  | .opens .condition _ => true
  | _ => false

theorem Template.Node.argument?_condition_of_mem_parse {gs : List (Glyph μ)}
    (h : ∀ t ∈ tokensOf (lex gs), t.tag.opensCondition = false) :
    ∀ n ∈ flattenAll (parse gs), n.argument? .condition = none :=
  forall_mem_parseLexemes (T := fun t => t.tag.opensCondition = false)
    ⟨fun _ => rfl, fun _ _ _ => rfl, fun _ _ _ => rfl,
      fun keyword argument opening body closing ho _ => by
        cases keyword <;> simp_all [Node.argument?, Tag.opensCondition],
      fun _ _ => rfl⟩ h

/-- Whether a tag in the text opens a condition. -/
def holdsCondition (text : String) : Bool := (tokenize text).any (·.tag.opensCondition)

theorem judged_eq_self {s : Scope} {text : String} (h : holdsCondition text = false) :
    judged s text = text := by
  have hnone : ∀ t ∈ tokensOf (lex (placed text)), t.tag.opensCondition = false := fun t ht => by
    simpa using List.any_eq_false.mp h t ht
  have hn := Node.argument?_condition_of_mem_parse hnone
  rw [judged, parseText, Node.judgeAll_eq_sourceAll hn, sourceAll_parse, textOf_placed]

end Letterpress
