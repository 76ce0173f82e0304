import Letterpress.Engine
import Letterpress.Proofs.Render.Fill
import Letterpress.Proofs.Render.Lookups
import Letterpress.Proofs.Results
import Letterpress.Proofs.Template.Resolution

/-!
# The names in a template

A template tells the names of its variables, lists and conditions. Without a document, what it and
its ancestors are filled in to depends on nothing else in a filling: replacing bodies of blocks brings
in no name that none of them has.
-/

namespace Letterpress

open Template

variable {μ : Type}

namespace Template

/-- Whether a fact about a node does not depend on what is inside the node. -/
def Node.IsOuter (P : Node μ → Prop) : Prop :=
  ∀ keyword argument opening body body' closing,
    P (.pair keyword argument opening body closing) →
      P (.pair keyword argument opening body' closing)

/-- What holds of all nodes, and of those in the bodies that are put in, holds of all nodes that come
of it. -/
theorem Resolves.forall_mem {P : Node μ → Prop} (hP : Node.IsOuter P)
    {nearest? : String → Option (List (Node μ))}
    (hnearest : ∀ name given, nearest? name = some given → ∀ n ∈ Node.flattenAll given, P n)
    {path : List String} {nodes nodes' : List (Node μ)} (h : Resolves nearest? path nodes nodes')
    (hnodes : ∀ n ∈ Node.flattenAll nodes, P n) : ∀ n ∈ Node.flattenAll nodes', P n := by
  have pair : ∀ {keyword argument opening body body' closing rest rest'},
      (∀ n ∈ Node.flattenAll (.pair keyword argument opening body closing :: rest), P n) →
        (∀ n ∈ Node.flattenAll body', P n) →
          ((∀ n ∈ Node.flattenAll rest, P n) → ∀ n ∈ Node.flattenAll rest', P n) →
            ∀ n ∈ Node.flattenAll (.pair keyword argument opening body' closing :: rest'), P n := by
    intro keyword argument opening body body' closing rest rest' hall hbody hrest
    obtain ⟨hfirst, hothers⟩ := List.forall_mem_append.mp hall
    have hpair := hP _ _ _ _ body' _ (hfirst _ (List.mem_cons_self ..))
    exact List.forall_mem_append.mpr ⟨List.forall_mem_cons.mpr ⟨hpair, hbody⟩, hrest hothers⟩
  have inner : ∀ {keyword argument opening body closing rest},
      (∀ n ∈ Node.flattenAll (.pair keyword argument opening body closing :: rest), P n) →
        ∀ n ∈ Node.flattenAll body, P n := by
    intro keyword argument opening body closing rest hall n hn
    exact hall n (List.mem_append_left _ (List.mem_cons_of_mem _ hn))
  induction h with
  | nil => exact hnodes
  | leaf hnode _ ih =>
    obtain ⟨hfirst, hrest⟩ := List.forall_mem_append.mp hnodes
    exact List.forall_mem_append.mpr ⟨hfirst, ih hrest⟩
  | group _ _ _ ihbody ihrest => exact pair hnodes (ihbody (inner hnodes)) ihrest
  | nearest _ hgiven _ _ ihbody ihrest =>
    exact pair hnodes (ihbody (hnearest _ _ hgiven)) ihrest
  | nested _ _ _ ihbody ihrest => exact pair hnodes (ihbody (inner hnodes)) ihrest

section

variable {t : Template} {P : Node Place → Prop}

theorem forall_mem_of_mem_definitions (h : ∀ s ∈ t.chain, ∀ n ∈ Node.flattenAll s.nodes, P n)
    {name : String} {body : List (Node Place)} (hbody : (name, body) ∈ t.definitions) :
    ∀ n ∈ Node.flattenAll body, P n := by
  obtain ⟨s, hs, hmem⟩ := List.mem_flatMap.mp hbody
  exact fun n hn => h s hs n (Node.flattenAll_subset_of_mem_blocks hmem hn)

/-- What a template and its ancestors are made of, the template shows. -/
theorem forall_mem_resolved (hP : Node.IsOuter P)
    (h : ∀ s ∈ t.chain, ∀ n ∈ Node.flattenAll s.nodes, P n) :
    ∀ n ∈ Node.flattenAll t.resolved, P n :=
  t.resolves_resolved.forall_mem hP
    (fun _ _ hgiven => forall_mem_of_mem_definitions h (Definitions.mem_of_lookup hgiven))
    (h _ t.outermost_mem_chain)

theorem forall_mem_block (hP : Node.IsOuter P)
    (h : ∀ s ∈ t.chain, ∀ n ∈ Node.flattenAll s.nodes, P n) {name : String}
    {body : List (Node Place)} (hbody : t.block? name = some body) :
    ∀ n ∈ Node.flattenAll body, P n := by
  obtain ⟨given, hgiven, rfl⟩ := Option.map_eq_some_iff.mp hbody
  have hmem := Definitions.mem_of_lookup hgiven
  have hresolves :=
    resolves_expand t.blocks_subset_definitions [name] given (t.blocks_subset_definitions _ hmem)
  rw [← Definitions.without_outside, Definitions.outside_nil] at hresolves
  exact hresolves.forall_mem hP
    (fun _ _ hgiven => forall_mem_of_mem_definitions h (Definitions.mem_of_lookup hgiven))
    (forall_mem_of_mem_definitions h hmem)

end

end Template

/-- Whether fillings give the names in templates alike. -/
structure Filling.AgreeOn (sheets : List Template.Sheet) (f g : Filling) : Prop where
  «variables» : ∀ s ∈ sheets, ∀ name ∈ s.variables,
    f.variables.find? name = g.variables.find? name
  lists : ∀ s ∈ sheets, ∀ name ∈ s.lists, f.lists.find? name = g.lists.find? name
  conditions : ∀ s ∈ sheets, ∀ name ∈ s.conditions,
    f.conditions.find? name = g.conditions.find? name

namespace Template.Node

theorem isOuter_answered {blockText : BlockText} {f g : Filling} {missing : Missing} :
    IsOuter (Answered (μ := μ) Eq blockText f g missing) := fun _ _ _ _ _ _ h =>
  ⟨fun _ hname => (nomatch hname), h.lists, h.conditions, h.blocks⟩

theorem answered_of_agreeOn {sheets : List Sheet} {f g : Filling} (h : f.AgreeOn sheets g)
    (missing : Missing) {s : Sheet} (hs : s ∈ sheets) {node : Node Place}
    (hnode : node ∈ flattenAll s.nodes) :
    node.Answered Eq (fun _ _ => none) f g missing where
  values name hname passes := by
    match node, hname with
    | placeholder name raw, rfl =>
      have here := h.variables s hs name (s.mem_variables hnode rfl)
      rw [fill, fill, Scope.value?_congr here]
      exact List.forall₂_same.mpr fun _ _ => rfl
  lists name hname := h.lists s hs name (s.mem_arguments hnode hname)
  conditions name hname := h.conditions s hs name (s.mem_arguments hnode hname)
  blocks _ _ _ := rfl

theorem render_congr {f g : Filling} {missing : Missing} {nodes : List (Node μ)}
    (h : ∀ n ∈ flattenAll nodes, n.Answered Eq (fun _ _ => none) f g missing) :
    render ⟨f, missing, []⟩ nodes = render ⟨g, missing, []⟩ nodes := by
  have heq := forall₂_fillAll (fun _ => rfl) nodes [] h
  rw [List.forall₂_eq_eq_eq] at heq
  rw [render_eq_text, render_eq_text, heq]

end Template.Node

namespace Engine

/-- A text template gives the same with fillings that agree on the names in it and its ancestors. -/
theorem render_eq_of_agreeOn {e : Engine} {name : String} {t : Template} (h : e.get name = .ok t)
    (hbase : ∀ s ∈ t.chain, s.base = none) {f g : Filling} (hfg : f.AgreeOn t.chain g) :
    e.renderText name f = e.renderText name g ∧
      e.renderDocument name f = e.renderDocument name g ∧
        ∀ block, e.renderBlock name block f = e.renderBlock name block g := by
  have hanswered : ∀ s ∈ t.chain, ∀ n ∈ Node.flattenAll s.nodes,
      n.Answered Eq (fun _ _ => none) f g e.settings.missing :=
    fun s hs n hn => Node.answered_of_agreeOn hfg _ hs hn
  have htext : t.renderText e.settings f = t.renderText e.settings g :=
    Node.render_congr (forall_mem_resolved Node.isOuter_answered hanswered)
  have hnone : t.base? = none := List.findSome?_eq_none_iff.mpr hbase
  refine ⟨?_, ?_, fun block => ?_⟩
  · simp only [renderText, h, ok_bind, htext]
  · simp only [renderDocument, h, ok_bind, renderTemplate, Template.render, hnone, htext]
  · simp only [renderBlock, h, ok_bind]
    cases hblock : t.block? block with
    | none => rfl
    | some body =>
      have hbody := forall_mem_block Node.isOuter_answered hanswered hblock
      simp only [Node.render_congr hbody]

/-- A page and its base, and fillings that differ in names that stand in no tag of the kind. -/
theorem render_eq_of_agreeOn_page :
    let base := tagText "#block \"head\"" ++ "-" ++ tagText "/block" ++ tagText "#each rows" ++
      tagText "n" ++ tagText "x" ++ tagText "/each"
    let page := tagText "extends \"base\"" ++ tagText "#block \"head\"" ++ tagText "#if vip" ++
      tagText "title" ++ tagText "/if" ++ tagText "/block" ++ tagText "two words"
    let t : Template := ⟨⟨"page", page, none⟩, [⟨"base", base, none⟩]⟩
    let e : Engine := { cache := KeyMap.empty.insert "page" t }
    let f : Filling := ⟨KeyMap.ofList [("title", .string "T"), ("x", .null)],
      KeyMap.ofList [("rows", [.object [("n", .integer 1)], .bool true])],
      KeyMap.ofList [("vip", true)]⟩
    let g : Filling :=
      ((f.setVariable "words" (.integer 2)).setList "n" []).setCondition "title" false
    e.get "page" = .ok t ∧ (∀ s ∈ t.chain, s.base = none) ∧ f.AgreeOn t.chain g ∧
      e.renderText "page" f = .ok ("T1" ++ tagText "n") ∧
        e.renderText "page" f = e.renderText "page" g ∧
          e.renderDocument "page" f = e.renderDocument "page" g ∧
            ∀ block, e.renderBlock "page" block f = e.renderBlock "page" block g := by
  intro base page t e f g
  have hget : e.get "page" = .ok t := by simp [get, e]
  have hbase : ∀ s ∈ t.chain, s.base = none := by simp [t, chain]
  have hvariables : ∀ s ∈ t.chain, ∀ name ∈ s.variables, name ≠ "words" := by decide +kernel
  have hlists : ∀ s ∈ t.chain, ∀ name ∈ s.lists, name ≠ "n" := by decide +kernel
  have hconditions : ∀ s ∈ t.chain, ∀ name ∈ s.conditions, name ≠ "title" := by decide +kernel
  have hfg : f.AgreeOn t.chain g :=
    ⟨fun s hs name hname => (KeyMap.find?_insert_of_ne _ _ (hvariables s hs name hname)).symm,
      fun s hs name hname => (KeyMap.find?_insert_of_ne _ _ (hlists s hs name hname)).symm,
      fun s hs name hname => (KeyMap.find?_insert_of_ne _ _ (hconditions s hs name hname)).symm⟩
  exact ⟨hget, hbase, hfg, by decide +kernel, render_eq_of_agreeOn hget hbase hfg⟩

end Engine

end Letterpress
