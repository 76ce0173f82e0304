import Letterpress.Engine
import Letterpress.Proofs.Render.Fill
import Letterpress.Proofs.Results
import Letterpress.Proofs.Template.Around

/-!
# Blocks of templates that inherit

A block shows only where an ancestor has one of its name. So a template whose blocks are none of its
ancestors' shows what its parent shows. A block that is in no other block shows the same in the
whole template and by itself, and for a document, too, if it is defined before the document's owner.
-/

namespace Letterpress

open Template

variable {μ : Type}

namespace Template

/-- Bodies for more names do not change what is resolved. -/
theorem Resolves.mono {nearest? more? : String → Option (List (Node μ))} {path : List String}
    {nodes nodes' : List (Node μ)} (h : Resolves nearest? path nodes nodes')
    (hmore : ∀ name given, nearest? name = some given → more? name = some given) :
    Resolves more? path nodes nodes' := by
  induction h with
  | nil => exact .nil
  | leaf hnode _ ih => exact .leaf hnode ih
  | group hkeyword _ _ ihbody ihrest => exact .group hkeyword ihbody ihrest
  | nearest hname hgiven _ _ ihbody ihrest =>
    exact .nearest hname (hmore _ _ hgiven) ihbody ihrest
  | nested hname _ _ ihbody ihrest => exact .nested hname ihbody ihrest

theorem Sheet.mem_blocks {s : Sheet} {name : String} :
    name ∈ s.blocks ↔ ∃ body, (name, body) ∈ Node.blocks s.nodes := by
  constructor
  · intro h
    obtain ⟨node, hnode, hname⟩ := List.mem_filterMap.mp (mem_nameSet.mp h)
    match node, hname with
    | .pair .block _ _ body _, rfl => exact ⟨body, List.mem_filterMap.mpr ⟨_, hnode, rfl⟩⟩
  · rintro ⟨body, h⟩
    obtain ⟨node, hnode, hblock⟩ := List.mem_filterMap.mp h
    match node, hblock with
    | .pair .block _ _ _ _, rfl => exact mem_arguments hnode rfl

/-- Whether no ancestor has a block of a name that the template has one of. -/
def IsInert (t : Template) : Prop := ∀ s ∈ t.ancestors, ∀ name ∈ t.own.blocks, name ∉ s.blocks

instance (t : Template) : Decidable t.IsInert :=
  inferInstanceAs (Decidable (∀ s ∈ t.ancestors, ∀ name ∈ t.own.blocks, name ∉ s.blocks))

section

variable {t p : Template}

theorem chain_of_parent? (h : t.parent? = some p) :
    t.chain = t.own :: p.chain ∧ t.outermost = p.outermost := by
  obtain ⟨own, ancestors⟩ := t
  cases ancestors with
  | nil => cases h
  | cons s rest =>
    cases h
    exact ⟨rfl, by simp [outermost, List.getLast?_cons]⟩

theorem definitions_of_parent? (h : t.parent? = some p) :
    t.definitions = Node.blocks t.own.nodes ++ p.definitions := by
  rw [definitions, (chain_of_parent? h).1, definitionsOf, List.flatMap_cons]
  rfl

/-- The blocks of an inert template do not get in front of what is defined for its parent. -/
theorem IsInert.lookup_definitions (hinert : t.IsInert) (hparent : t.parent? = some p)
    {name : String} {given : List (Node Place)} (hgiven : p.definitions.lookup name = some given) :
    t.definitions.lookup name = some given := by
  have hancestors : t.ancestors = p.chain := (List.cons.inj (chain_of_parent? hparent).1).2
  obtain ⟨s, hs, hmem⟩ := List.mem_flatMap.mp (Definitions.mem_of_lookup hgiven)
  have hname : name ∉ t.own.blocks := fun hown =>
    hinert s (hancestors ▸ hs) name hown (Sheet.mem_blocks.mpr ⟨given, hmem⟩)
  have hnone : (Node.blocks t.own.nodes).lookup name = none := by
    refine List.lookup_eq_none_iff.mpr fun b hb => ?_
    have hne : name ≠ b.1 := fun heq => hname (Sheet.mem_blocks.mpr ⟨b.2, heq ▸ hb⟩)
    simpa using hne
  rw [definitions_of_parent? hparent, List.lookup_append, hnone]
  exact hgiven

theorem IsInert.resolved_eq (hinert : t.IsInert) (hparent : t.parent? = some p) :
    t.resolved = p.resolved := by
  have hresolves := p.resolves_resolved.mono fun _ _ => hinert.lookup_definitions hparent
  rw [hresolves.eq_expand, Definitions.outside_nil, resolved, (chain_of_parent? hparent).2]

end

/-! ### Blocks by themselves -/

namespace Node

theorem flatten_eq (node : Node μ) : node.flatten = node :: flattenAll (node.body?.getD []) := by
  cases node <;> rfl

theorem blocksIn_subset_of_mem {node : Node μ} {nodes : List (Node μ)} (h : node ∈ nodes)
    (around : List String) : blocksIn around node ⊆ blocksInAll around nodes := by
  induction nodes with
  | nil => exact absurd h List.not_mem_nil
  | cons first rest ih =>
    rw [blocksInAll]
    rcases List.mem_cons.mp h with rfl | h
    · exact List.subset_append_left ..
    · exact List.Subset.trans (ih h) (List.subset_append_right ..)

/-- Whether there is one block of a name, and it is in no condition, loop or other block. -/
structure IsLone (name : String) (nodes : List (Node μ)) : Prop where
  once : (flattenAll nodes).countP (fun n => n.argument? .block = some name) = 1
  outside : ∀ n ∈ nodes, ∀ inner ∈ flattenAll (n.body?.getD []), inner.argument? .block ≠ some name

theorem IsLone.exists_split {name : String} {nodes : List (Node μ)} (h : IsLone name nodes) :
    ∃ before node behind, nodes = before ++ node :: behind ∧ node.argument? .block = some name ∧
      ∀ n ∈ flattenAll (before ++ behind), n.argument? .block ≠ some name := by
  obtain ⟨n, hn, hname⟩ := List.countP_pos_iff.mp (h.once ▸ Nat.one_pos)
  rw [flattenAll_eq_flatMap] at hn
  obtain ⟨node, hnode, hn⟩ := List.mem_flatMap.mp hn
  rw [flatten_eq] at hn
  have hnode' : node.argument? .block = some name := by
    rcases List.mem_cons.mp hn with rfl | hn
    · exact of_decide_eq_true hname
    · exact absurd (of_decide_eq_true hname) (h.outside node hnode n hn)
  obtain ⟨before, behind, rfl⟩ := List.append_of_mem hnode
  refine ⟨before, node, behind, rfl, hnode', ?_⟩
  have honce := h.once
  rw [flattenAll_append, flattenAll, flatten_eq, List.cons_append, List.countP_append,
    List.countP_cons_of_pos (by simpa using hnode'), List.countP_append] at honce
  have hnone : (flattenAll (before ++ behind)).countP
      (fun n => n.argument? .block = some name) = 0 := by
    rw [flattenAll_append, List.countP_append]
    omega
  exact fun n hn => by simpa using List.countP_eq_zero.mp hnone n hn

theorem render_append (s : Scope) (a b : List (Node μ)) :
    render s (a ++ b) = render s a ++ render s b := by
  induction a with
  | nil => exact (String.empty_append).symm
  | cons node rest ih => rw [List.cons_append, render, ih, render, String.append_assoc]

/-- A block shows what its body shows. -/
theorem render_block (s : Scope) (name : String) (opening closing : List (Glyph μ))
    (body : List (Node μ)) : render s [pair .block name opening body closing] = render s body := by
  simp [render, renderNode]

end Node

variable {t : Template}

theorem block?_of_around_eq_nil {name : String} {body : List (Node Place)}
    (hb : ⟨[], name, body⟩ ∈ Node.blocksInAll [] t.resolved) : t.block? name = some body := by
  obtain ⟨given, hgiven, hbody⟩ := t.body_eq_of_mem_resolved hb (by simp [Block.IsOuter])
  rw [Call.expanded, ← Definitions.without_outside, Definitions.outside_nil] at hbody
  rw [block?, hgiven]
  exact congrArg some hbody.symm

/-- A block that is defined before the document's owner has the same body for the document. -/
theorem overrides_of_mem_derived {name : String} (h : ∃ s ∈ t.derived, name ∈ s.blocks) :
    ∃ body, t.overrides.lookup name = some body ∧ t.block? name = some body := by
  obtain ⟨s, hs, hname⟩ := h
  obtain ⟨body, hbody⟩ := Sheet.mem_blocks.mp hname
  have hmem : (name, body) ∈ definitionsOf t.derived := List.mem_flatMap.mpr ⟨s, hs, hbody⟩
  obtain ⟨given, hgiven⟩ := Definitions.exists_lookup_of_mem hmem
  have hdefinitions : t.definitions =
      definitionsOf t.derived ++ definitionsOf (t.chain.dropWhile (·.base.isNone)) := by
    rw [definitionsOf, definitionsOf, ← List.flatMap_append, derived,
      List.takeWhile_append_dropWhile]
    rfl
  have hlookup : t.definitions.lookup name = some given := by
    rw [hdefinitions, List.lookup_append, hgiven]
    rfl
  refine ⟨t.definitions.expandBody name given, ?_, ?_⟩
  · rw [lookup_overrides, hgiven, Option.map_some]
  · rw [block?, hlookup, Option.map_some]

end Template

namespace Engine

/-- What it is for the parent of a template to show the same. -/
structure ShowsParent (t p : Template) : Prop where
  resolved : t.resolved = p.resolved
  text : ∀ (e : Engine) (name parent : String), e.get name = .ok t → e.get parent = .ok p →
    ∀ filling, e.renderText name filling = e.renderText parent filling
  document : (∀ s ∈ t.chain, s.base = none) → ∀ (e : Engine) (filling : Filling),
    e.renderTemplate t filling = e.renderTemplate p filling ∧
      ∀ name parent, e.get name = .ok t → e.get parent = .ok p →
        e.renderDocument name filling = e.renderDocument parent filling

theorem showsParent {t p : Template} (hparent : t.parent? = some p) (hinert : t.IsInert) :
    ShowsParent t p := by
  have hresolved := hinert.resolved_eq hparent
  have htext : ∀ settings filling, t.renderText settings filling = p.renderText settings filling :=
    fun settings filling => by rw [Template.renderText, Template.renderText, hresolved]
  refine ⟨hresolved, fun e name parent hget hget' filling => ?_, fun hbase e filling => ?_⟩
  · rw [renderText, renderText, hget, hget', ok_bind, ok_bind, htext]
  · have hown : t.base? = none := List.findSome?_eq_none_iff.mpr hbase
    have hp : p.base? = none := List.findSome?_eq_none_iff.mpr fun s hs =>
      hbase s ((chain_of_parent? hparent).1 ▸ List.mem_cons_of_mem _ hs)
    have hrender : e.renderTemplate t filling = e.renderTemplate p filling := by
      simp only [renderTemplate, Template.render, hown, hp, htext]
    refine ⟨hrender, fun name parent hget hget' => ?_⟩
    rw [renderDocument, renderDocument, hget, hget', ok_bind, ok_bind, hrender]

/-- The child has a block in a block and in a condition, and the parent has a block of its own, in
the body of another. -/
theorem showsParent_extra :
    let block := fun name body => tagText ("#block \"" ++ name ++ "\"") ++ body ++ tagText "/block"
    let p : Template :=
      ⟨⟨"parent", tagText "extends \"base\"" ++ block "a" ("new" ++ block "b" "er"), none⟩,
        [⟨"base", "<" ++ block "a" "old" ++ ">", none⟩]⟩
    let t : Template := ⟨⟨"child", tagText "extends \"parent\"" ++ "lost" ++
      tagText "#if c" ++ block "x" (block "y" "lost") ++ tagText "/if", none⟩, p.chain⟩
    let e : Engine := { cache := (KeyMap.empty.insert "parent" p).insert "child" t }
    t.parent? = some p ∧ t.IsInert ∧ (∀ s ∈ t.chain, s.base = none) ∧ e.get "child" = .ok t ∧
      e.get "parent" = .ok p ∧ ShowsParent t p ∧ e.renderText "child" {} = .ok "<newer>" := by
  intro block p t e
  have hinert : t.IsInert := by decide +kernel
  have hparent : t.parent? = some p := rfl
  have hbase : ∀ s ∈ t.chain, s.base = none := by simp [t, p, Template.chain]
  have hget : e.get "parent" = .ok p := by simp [get, e, KeyMap.find?_insert_of_ne]
  exact ⟨hparent, hinert, hbase, by simp [get, e], hget, showsParent hparent hinert,
    by decide +kernel⟩

/-- What it is for a block to show the same in the whole template and by itself. -/
structure BlocksAgree (e : Engine) (name : String) (t : Template) : Prop where
  /-- A block that is in no other block has the body that it has by itself. -/
  body : ∀ b ∈ Node.blocksInAll [] t.resolved, b.around = [] → t.block? b.name = some b.body
  /-- The only block of a name shows what is between what is shown before and behind it. -/
  part : ∀ block, Node.IsLone block t.resolved → ∃ before node behind,
    t.resolved = before ++ node :: behind ∧ node.argument? .block = some block ∧
      (∀ n ∈ Node.flattenAll (before ++ behind), n.argument? .block ≠ some block) ∧
        ∀ filling, let s : Scope := ⟨filling, e.settings.missing, []⟩
          e.renderBlock name block filling = .ok (Node.render s [node]) ∧
            e.renderText name filling =
              .ok (Node.render s before ++ Node.render s [node] ++ Node.render s behind)
  /-- Where a template before the document's owner defines a block, the document gets its body. -/
  override : ∀ block, (∃ s ∈ t.derived, block ∈ s.blocks) →
    ∃ body, t.overrides.lookup block = some body ∧ t.block? block = some body

theorem blocksAgree {e : Engine} {name : String} {t : Template} (hget : e.get name = .ok t) :
    BlocksAgree e name t := by
  refine ⟨fun ⟨_, _, _⟩ hb haround => ?_, fun block hlone => ?_,
    fun block => overrides_of_mem_derived⟩
  · cases haround
    exact block?_of_around_eq_nil hb
  · obtain ⟨before, node, behind, hsplit, hname, hothers⟩ := hlone.exists_split
    refine ⟨before, node, behind, hsplit, hname, hothers, fun filling => ?_⟩
    match node, hname with
    | .pair .block _ opening body closing, rfl =>
      have hnode : .pair .block block opening body closing ∈ t.resolved := by simp [hsplit]
      have hmem : ⟨[], block, body⟩ ∈ Node.blocksInAll [] t.resolved :=
        Node.blocksIn_subset_of_mem hnode [] (List.mem_cons_self ..)
      constructor
      · rw [renderBlock, hget, ok_bind, block?_of_around_eq_nil hmem, Node.render_block]
        rfl
      · rw [renderText, hget, String.append_assoc, ← Node.render_append, ← Node.render_append,
          List.singleton_append, ← hsplit]
        rfl

/-- A letter with a block that a template extending it gives another body. -/
theorem blocksAgree_letter :
    let block := fun body => tagText "#block \"to\"" ++ body ++ tagText "/block"
    let d : Document := Document.new.addParagraph ("Dear " ++ block "all" ++ "!")
    let t : Template := ⟨⟨"child", tagText "extends \"letter\"" ++
      block (tagText "name" ++ tagText "#if c" ++ " and all" ++ tagText "/if"), none⟩,
        [.ofDocument "letter" d]⟩
    let e : Engine := { cache := KeyMap.empty.insert "child" t }
    let filling := (Filling.setVariable {} "name" (.string "Ada")).setCondition "c" true
    e.get "child" = .ok t ∧ BlocksAgree e "child" t ∧ Node.IsLone "to" t.resolved ∧
      (∃ s ∈ t.derived, "to" ∈ s.blocks) ∧
        e.renderBlock "child" "to" filling = .ok "Ada and all" ∧
          e.renderText "child" filling = .ok "Dear Ada and all!" := by
  intro block d t e filling
  have hget : e.get "child" = .ok t := by simp [get, e]
  have hlone : Node.IsLone "to" t.resolved := ⟨by decide +kernel, by decide +kernel⟩
  exact ⟨hget, blocksAgree hget, hlone, by decide +kernel, by decide +kernel, by decide +kernel⟩

end Engine

end Letterpress
