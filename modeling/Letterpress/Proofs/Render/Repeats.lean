import Letterpress.Proofs.Render.Lines
import Letterpress.Proofs.Template.Spans

/-!
# Blocks of one name

In a template without a parent, the first block of a name gives its body to every other one that is
in no block of the name. So the template stays as it is exactly if each of these is the first one or
is empty, as the first one is then, too: at two places, no other body is the same. What is shown
stays the same if the bodies are alike. Blocks in blocks of their own name are never replaced.
-/

namespace Letterpress.Template

variable {μ ν : Type}

namespace Node

/-- The text or tag that a node begins with. -/
def lead : Node μ → List (Glyph μ)
  | text glyphs => glyphs
  | placeholder _ raw => raw
  | inherits _ raw => raw
  | pair _ _ opening _ _ => opening
  | stray raw => raw

theorem lead_subset_source (node : Node μ) : node.lead ⊆ node.source := by
  cases node with
  | pair => exact fun g hg => List.mem_append_left _ (List.mem_append_left _ hg)
  | text | placeholder | inherits | stray => exact List.Subset.refl _

theorem lead_replace (body? : String → Option (List (Node μ))) (node : Node μ) :
    (replace body? node).lead = node.lead := by
  cases node with
  | pair =>
    rw [replace]
    split <;> rfl
  | text | placeholder | inherits | stray => rfl

theorem Spells.exists_lead {node : Node μ} {ls : List (Lexeme μ)} (h : node.Spells ls) :
    ∃ l ∈ ls, l.source = node.lead := by
  match node, h with
  | text _, h | placeholder _ _, h | inherits _ _, h | stray _, ⟨_, _, h⟩
  | pair _ _ _ _ _, ⟨_, _, h⟩ =>
    cases h
    exact ⟨_, List.mem_cons_self .., rfl⟩

theorem lead_ne_nil_of_mem {gs : List (Glyph μ)} : ∀ n ∈ flattenAll (parse gs), n.lead ≠ [] := by
  intro n hn
  obtain ⟨part, hpart, hwithin⟩ := (spellsAll_parseLexemes (lex gs)).exists_of_mem n hn
  obtain ⟨l, hl, hlead⟩ := hpart.exists_lead
  exact hlead ▸ (isSound_of_mem_lex l (hwithin.subset hl)).source_ne_nil

/-- Expanded, nodes begin with what they began with. -/
theorem not_disjoint_expand (d : Definitions μ) {nodes : List (Node μ)} (hne : nodes ≠ [])
    (hlead : ∀ n ∈ nodes, n.lead ≠ []) :
    ¬ (sourceAll nodes).Disjoint (sourceAll (d.expand nodes)) := by
  obtain ⟨node, rest, rfl⟩ := List.exists_cons_of_ne_nil hne
  obtain ⟨g, hg⟩ := List.exists_mem_of_ne_nil _ (hlead node (List.mem_cons_self ..))
  intro hdisjoint
  refine hdisjoint (List.mem_append_left _ (lead_subset_source _ hg)) ?_
  rw [Definitions.expand_eq, replaceAll]
  rw [← lead_replace fun name => (d.lookup name).map (d.expandBody name)] at hg
  exact List.mem_append_left _ (lead_subset_source _ hg)

theorem mem_flattenAll_of_mem_body {b : Block μ} {around : List String} {nodes : List (Node μ)}
    (hb : b ∈ blocksInAll around nodes) : ∀ n ∈ b.body, n ∈ flattenAll nodes := by
  have hdefinition : b.definition ∈ blocks nodes :=
    map_definition_blocksInAll around nodes ▸ List.mem_map_of_mem hb
  exact fun n hn => flattenAll_subset_of_mem_blocks hdefinition (mem_flattenAll_of_mem hn)

end Node

theorem nodup_placedFrom (p : Place) (cs : List Char) : (placedFrom p cs).Nodup := by
  induction cs generalizing p with
  | nil => exact .nil
  | cons c rest ih =>
    refine List.nodup_cons.mpr ⟨fun hmem => ?_, ih _⟩
    have hlater := (offset_of_mem_placedFrom hmem).1
    have hc := c.utf8Size_pos
    simp only [Place.next] at hlater
    omega

section

variable (f : μ → ν)

def Block.map (b : Block μ) : Block ν := ⟨b.around, b.name, Node.mapAll f b.body⟩

namespace Node

mutual

theorem blocksIn_map : ∀ (around : List String) (node : Node μ),
    blocksIn around (node.map f) = (blocksIn around node).map (Block.map f)
  | _, text _ | _, placeholder _ _ | _, inherits _ _ | _, stray _ => rfl
  | around, pair .condition _ _ body _ | around, pair .loop _ _ body _ =>
    blocksInAll_mapAll around body
  | around, pair .block name _ body _ =>
    congrArg (Block.mk around name (mapAll f body) :: ·) (blocksInAll_mapAll (name :: around) body)

theorem blocksInAll_mapAll : ∀ (around : List String) (nodes : List (Node μ)),
    blocksInAll around (mapAll f nodes) = (blocksInAll around nodes).map (Block.map f)
  | _, [] => rfl
  | around, node :: rest => by
    rw [mapAll, blocksInAll, blocksIn_map around node, blocksInAll_mapAll around rest,
      blocksInAll, List.map_append]

end

section

variable {body? : String → Option (List (Node μ))} {body?' : String → Option (List (Node ν))}

mutual

theorem replace_map (h : ∀ name, body?' name = (body? name).map (mapAll f)) :
    ∀ node : Node μ, replace body?' (node.map f) = (replace body? node).map f
  | text _ | placeholder _ _ | inherits _ _ | stray _ => rfl
  | pair keyword argument _ body _ => by
    rw [map, replace, replace]
    by_cases hkeyword : keyword = .block
    · rw [if_pos hkeyword, if_pos hkeyword, h]
      cases body? argument with
      | some given => rfl
      | none => rw [Option.map_none, map, replaceAll_mapAll h body]
    · rw [if_neg hkeyword, if_neg hkeyword, map, replaceAll_mapAll h body]

theorem replaceAll_mapAll (h : ∀ name, body?' name = (body? name).map (mapAll f)) :
    ∀ nodes : List (Node μ), replaceAll body?' (mapAll f nodes) = mapAll f (replaceAll body? nodes)
  | [] => rfl
  | node :: rest => by
    rw [mapAll, replaceAll, replace_map h node, replaceAll_mapAll h rest, replaceAll, mapAll]

end

end

end Node

namespace Definitions

def mapMarks (d : Definitions μ) : Definitions ν := d.map fun b => (b.1, Node.mapAll f b.2)

theorem lookup_mapMarks (d : Definitions μ) (name : String) :
    (d.mapMarks f).lookup name = (d.lookup name).map (Node.mapAll f) :=
  lookup_map (fun _ => Node.mapAll f) name d

theorem without_mapMarks (d : Definitions μ) (name : String) :
    (d.mapMarks f).without name = (d.without name).mapMarks f := by
  rw [without, mapMarks, List.filter_map]
  rfl

theorem expandWithin_mapMarks (depth : Nat) (d : Definitions μ) (nodes : List (Node μ)) :
    expandWithin depth (d.mapMarks f) (Node.mapAll f nodes) =
      Node.mapAll f (expandWithin depth d nodes) := by
  induction depth generalizing d nodes with
  | zero => rfl
  | succ depth ih =>
    rw [expandWithin, expandWithin]
    refine Node.replaceAll_mapAll f (fun name => ?_) nodes
    rw [lookup_mapMarks, without_mapMarks]
    cases d.lookup name with
    | none => rfl
    | some body => exact congrArg some (ih _ body)

/-- Expanding commutes with changing the marks. -/
theorem expand_mapMarks (d : Definitions μ) (nodes : List (Node μ)) :
    (d.mapMarks f).expand (Node.mapAll f nodes) = Node.mapAll f (d.expand nodes) := by
  rw [expand, expand, ← expandWithin_mapMarks]
  congr 1
  simp [mapMarks]

end Definitions

end

namespace Node

mutual

/-- Whether nodes are the same but for the marks of their glyphs. -/
def alike : Node μ → Node μ → Bool
  | text a, text b => chars a = chars b
  | placeholder name a, placeholder name' b => name = name' && chars a = chars b
  | inherits parent a, inherits parent' b => parent = parent' && chars a = chars b
  | pair keyword argument opening body closing, pair keyword' argument' opening' body' closing' =>
    keyword = keyword' && argument = argument' && chars opening = chars opening' &&
      alikeAll body body' && chars closing = chars closing'
  | stray a, stray b => chars a = chars b
  | _, _ => false

def alikeAll : List (Node μ) → List (Node μ) → Bool
  | [], [] => true
  | a :: as, b :: bs => alike a b && alikeAll as bs
  | _, _ => false

end

mutual

theorem map_eq_of_alike : ∀ {a b : Node μ}, alike a b → a.map (fun _ => ()) = b.map (fun _ => ())
  | text _, b, h | placeholder _ _, b, h | inherits _ _, b, h | stray _, b, h => by
    cases b <;> simp_all [alike, map, map_eq_bare]
  | pair _ _ _ body _, b, h => by
    cases b with
    | pair _ _ _ body' _ =>
      simp only [alike, Bool.and_eq_true, decide_eq_true_eq] at h
      obtain ⟨⟨⟨⟨rfl, rfl⟩, hopening⟩, hbody⟩, hclosing⟩ := h
      simp only [map, map_eq_bare, hopening, hclosing, mapAll_eq_of_alikeAll hbody]
    | text | placeholder | inherits | stray => cases h

theorem mapAll_eq_of_alikeAll : ∀ {as bs : List (Node μ)}, alikeAll as bs →
    mapAll (fun _ => ()) as = mapAll (fun _ => ()) bs
  | [], [], _ => rfl
  | [], _ :: _, h | _ :: _, [], h => nomatch h
  | _ :: _, _ :: _, h => by
    obtain ⟨hnode, hrest⟩ := Bool.and_eq_true_iff.mp h
    rw [mapAll, mapAll, map_eq_of_alike hnode, mapAll_eq_of_alikeAll hrest]

end

end Node

/-! ### Templates without a parent -/

/-- The blocks that are in no block of their own name, each behind the first block of the name. -/
def Sheet.firsts (s : Sheet) : List (Block Place × Block Place) :=
  let blocks := Node.blocksInAll [] s.nodes
  (blocks.filter fun b => b.IsOuter).filterMap fun b =>
    (blocks.find? (·.name = b.name)).map fun first => (first, b)

variable {s : Sheet} {first b : Block Place}

theorem Sheet.mem_firsts : (first, b) ∈ s.firsts ↔
    b ∈ Node.blocksInAll [] s.nodes ∧ b.IsOuter ∧
      (Node.blocksInAll [] s.nodes).find? (·.name = b.name) = some first := by
  simp [firsts, and_assoc]

/-- A block that is not the first of its name has nothing in common with it, unless it is inside of
a block of the name. -/
theorem Sheet.eq_or_disjoint (h : (first, b) ∈ s.firsts) :
    first = b ∨ (Node.sourceAll first.body).Disjoint (Node.sourceAll b.body) := by
  obtain ⟨hb, houter, hfirst⟩ := mem_firsts.mp h
  have hnodup : (Node.sourceAll s.nodes).Nodup := by
    rw [nodes, parseText, sourceAll_parse]
    exact nodup_placedFrom ..
  have hapart := Node.pairwise_blocksInAll [] s.nodes hnodup
  obtain ⟨hname, before, behind, hblocks, hbefore⟩ := List.find?_eq_some_iff_append.mp hfirst
  rw [hblocks] at hb hapart
  rcases List.mem_append.mp hb with hb | hb
  · -- none before the first one has its name
    simpa using hbefore b hb
  rcases List.mem_cons.mp hb with hb | hb
  · exact .inl hb.symm
  · rcases List.rel_of_pairwise_cons (List.pairwise_append.mp hapart).2.1 hb with hinside | hapart
    · rw [of_decide_eq_true hname] at hinside
      exact absurd hinside houter
    · exact .inr hapart

section

variable {t : Template} (ht : t.parent? = none)

include ht

theorem resolved_of_parent? : t.resolved = t.definitions.expand t.own.nodes := by
  rw [resolved, (t.outermost_of_parent? ht).1]

theorem lookup_of_parent? (name : String) : t.definitions.lookup name =
    ((Node.blocksInAll [] t.own.nodes).find? (·.name = name)).map Block.body := by
  rw [(t.outermost_of_parent? ht).2, Node.lookup_blocks_eq_find? []]

/-- A block that is in no block of its own name has the body of the first one of the name. -/
theorem exists_first_of_mem_resolved : ∀ b ∈ Node.blocksInAll [] t.resolved, b.IsOuter →
    ∃ first, (Node.blocksInAll [] t.own.nodes).find? (·.name = b.name) = some first ∧
      b.body = Call.expanded t.definitions ⟨first.body, b.name :: b.around⟩ := by
  intro b hb houter
  obtain ⟨given, hgiven, hbody⟩ := t.body_eq_of_mem_resolved hb houter
  rw [lookup_of_parent? ht] at hgiven
  obtain ⟨first, hfirst, rfl⟩ := Option.map_eq_some_iff.mp hgiven
  exact ⟨first, hfirst, hbody⟩

theorem exists_mem_firsts (hb : b ∈ Node.blocksInAll [] t.own.nodes) (houter : b.IsOuter) :
    ∃ first, (first, b) ∈ t.own.firsts ∧ t.definitions.lookup b.name = some first.body := by
  have hsome : ((Node.blocksInAll [] t.own.nodes).find? (·.name = b.name)).isSome :=
    List.find?_isSome.mpr ⟨b, hb, by simp⟩
  obtain ⟨first, hfind⟩ := Option.isSome_iff_exists.mp hsome
  refine ⟨first, Sheet.mem_firsts.mpr ⟨hb, houter, hfind⟩, ?_⟩
  rw [lookup_of_parent? ht, hfind, Option.map_some]

/-- A body that a second block keeps although the first one's is put in its place is empty: what is
put in begins with a glyph of the first one. -/
theorem eq_or_nil_of_resolved_eq (hsame : t.resolved = t.own.nodes)
    (hp : (first, b) ∈ t.own.firsts) : first = b ∨ first.body = [] ∧ b.body = [] := by
  obtain ⟨hb, houter, hfind⟩ := Sheet.mem_firsts.mp hp
  obtain ⟨first', hfind', hexpanded⟩ := exists_first_of_mem_resolved ht b (hsame ▸ hb) houter
  cases hfind.symm.trans hfind'
  refine (Sheet.eq_or_disjoint hp).imp_right fun hdisjoint => ?_
  by_cases hempty : first.body = []
  · exact ⟨hempty, by rw [hexpanded, hempty]; exact Definitions.expand_nil _⟩
  · rw [hexpanded] at hdisjoint
    refine absurd hdisjoint (Node.not_disjoint_expand _ hempty fun n hn => ?_)
    exact Node.lead_ne_nil_of_mem n
      (Node.mem_flattenAll_of_mem_body (List.mem_of_find?_eq_some hfind) n hn)

theorem resolved_eq_of_eq_or_nil
    (h : ∀ p ∈ t.own.firsts, p.1 = p.2 ∨ p.1.body = [] ∧ p.2.body = []) :
    t.resolved = t.own.nodes := by
  rw [resolved_of_parent? ht, ← Definitions.outside_nil t.definitions]
  refine expand_eq_self _ _ fun b hb houter => ?_
  obtain ⟨first, hp, hgiven⟩ := exists_mem_firsts ht hb houter
  rcases h _ hp with heq | ⟨hempty, hempty'⟩
  · rw [hgiven, show first = b from heq]
  · rw [hgiven, hempty, hempty']

/-- Without their marks, alike bodies are the same, and so is all that is resolved. -/
theorem mapAll_resolved_of_alike
    (h : ∀ p ∈ t.own.firsts, Node.alikeAll p.1.body p.2.body) :
    Node.mapAll (fun _ => ()) t.resolved = Node.mapAll (fun _ => ()) t.own.nodes := by
  rw [resolved_of_parent? ht, ← Definitions.expand_mapMarks,
    ← Definitions.outside_nil (t.definitions.mapMarks fun _ => ())]
  refine expand_eq_self _ _ fun unmarked hunmarked houter => ?_
  rw [Node.blocksInAll_mapAll] at hunmarked
  obtain ⟨b, hb, rfl⟩ := List.mem_map.mp hunmarked
  obtain ⟨first, hp, hgiven⟩ := exists_mem_firsts ht hb houter
  rw [Definitions.lookup_mapMarks]
  exact (congrArg (Option.map _) hgiven).trans
    (congrArg some (Node.mapAll_eq_of_alikeAll (h _ hp)))

end

/-- What a template shows if the first block of a name counts. -/
structure ShowsFirsts (t : Template) : Prop where
  /-- A block that is in no block of its own name has the body of the first one of the name. -/
  body_eq : ∀ b ∈ Node.blocksInAll [] t.resolved, b.IsOuter → ∃ first,
    (Node.blocksInAll [] t.own.nodes).find? (·.name = b.name) = some first ∧
      b.body = Call.expanded t.definitions ⟨first.body, b.name :: b.around⟩
  /-- All stays as it is exactly if each of them is that one, or both are empty. -/
  resolved_iff : t.resolved = t.own.nodes ↔
    ∀ p ∈ t.own.firsts, p.1 = p.2 ∨ p.1.body = [] ∧ p.2.body = []
  /-- If the bodies are alike, the template shows what is written in it. -/
  text : (∀ p ∈ t.own.firsts, Node.alikeAll p.1.body p.2.body) → ∀ settings filling,
    t.renderText settings filling = Node.render ⟨filling, settings.missing, []⟩ t.own.nodes

theorem showsFirsts {t : Template} (ht : t.parent? = none) : t.ShowsFirsts := by
  refine ⟨exists_first_of_mem_resolved ht,
    ⟨fun hsame _ hp => eq_or_nil_of_resolved_eq ht hsame hp, resolved_eq_of_eq_or_nil ht⟩,
    fun h settings filling => ?_⟩
  rw [renderText, ← Node.render_mapAll _ (fun _ => ()), mapAll_resolved_of_alike ht h,
    Node.render_mapAll]

/-- A block in a block of its name, and two blocks with the same body. -/
theorem showsFirsts_alike :
    let block := fun name body => tagText ("#block \"" ++ name ++ "\"") ++ body ++ tagText "/block"
    let t : Template := ⟨⟨"t", block "a" ("1" ++ block "a" "2") ++ block "b" (tagText "x") ++
      block "b" (tagText "x"), none⟩, []⟩
    t.parent? = none ∧ t.ShowsFirsts ∧ (∀ p ∈ t.own.firsts, Node.alikeAll p.1.body p.2.body) ∧
      t.renderText {} (Filling.setVariable {} "x" (.string "3")) = "1233" := by
  intro block t
  exact ⟨rfl, showsFirsts rfl, by decide +kernel, by decide +kernel⟩

/-- The second one of two blocks shows the body of the first. -/
theorem resolved_ne_nodes :
    let block := fun body => tagText "#block \"a\"" ++ body ++ tagText "/block"
    let t : Template := ⟨⟨"t", block "x" ++ block "y", none⟩, []⟩
    t.parent? = none ∧ t.resolved ≠ t.own.nodes ∧ t.renderText {} {} = "xx" ∧
      Node.render ⟨{}, .keep, []⟩ t.own.nodes = "xy" := by
  intro block t
  refine ⟨rfl, fun h => ?_, by decide +kernel, by decide +kernel⟩
  exact absurd (congrArg Node.sourceText h) (by decide +kernel)

end Letterpress.Template
