import Letterpress.Proofs.Template.Calls

/-!
# Blocks and the blocks around them

Where a block stands is told by the names of the blocks around it. In resolved nodes, a block that
is in no block of its own name has what the body that counts is expanded to, where its own name and
the names around it are not replaced any more. Where no glyph stands twice, the later one of two
blocks is inside the earlier one, or their bodies have nothing in common.
-/

namespace Letterpress.Template

variable {μ : Type}

/-- A block, with the names of the blocks around it, innermost first. -/
structure Block (μ : Type) where
  around : List String
  name : String
  body : List (Node μ)

namespace Block

/-- Whether a block is in no block of its own name. -/
def IsOuter (b : Block μ) : Prop := b.name ∉ b.around

instance (b : Block μ) : Decidable b.IsOuter := inferInstanceAs (Decidable (_ ∉ _))

def definition (b : Block μ) : String × List (Node μ) := (b.name, b.body)

end Block

namespace Node

mutual

/-- The blocks in the order they are written, if there are blocks of these names around them. -/
def blocksIn (around : List String) : Node μ → List (Block μ)
  | pair .block name _ body _ => ⟨around, name, body⟩ :: blocksInAll (name :: around) body
  | pair .condition _ _ body _ => blocksInAll around body
  | pair .loop _ _ body _ => blocksInAll around body
  | text _ => []
  | placeholder _ _ => []
  | inherits _ _ => []
  | stray _ => []

def blocksInAll (around : List String) : List (Node μ) → List (Block μ)
  | [] => []
  | node :: rest => blocksIn around node ++ blocksInAll around rest

end

variable {around : List String}

theorem blocksIn_leaf {node : Node μ} (h : node.isPair = false) : blocksIn around node = [] := by
  cases node with
  | pair => cases h
  | text | placeholder | inherits | stray => rfl

theorem blocksIn_group {keyword : Keyword} {argument : String} {opening closing : List (Glyph μ)}
    {body : List (Node μ)} (h : keyword ≠ .block) :
    blocksIn around (pair keyword argument opening body closing) = blocksInAll around body := by
  cases keyword with
  | block => exact absurd rfl h
  | condition | loop => rfl

mutual

theorem map_definition_blocksIn : ∀ (around : List String) (node : Node μ),
    (blocksIn around node).map Block.definition = (flatten node).filterMap block?
  | _, text _ | _, placeholder _ _ | _, inherits _ _ | _, stray _ => rfl
  | around, pair .condition _ _ body _ | around, pair .loop _ _ body _ =>
    map_definition_blocksInAll around body
  | around, pair .block name _ body _ =>
    congrArg ((name, body) :: ·) (map_definition_blocksInAll (name :: around) body)

theorem map_definition_blocksInAll : ∀ (around : List String) (nodes : List (Node μ)),
    (blocksInAll around nodes).map Block.definition = blocks nodes
  | _, [] => rfl
  | around, node :: rest => by
    rw [blocksInAll, List.map_append, map_definition_blocksIn around node,
      map_definition_blocksInAll around rest, blocks_cons]

end

/-- The body that is defined for a name is that of the first block of the name. -/
theorem lookup_blocks_eq_find? (around : List String) (name : String) (nodes : List (Node μ)) :
    (blocks nodes).lookup name =
      ((blocksInAll around nodes).find? (·.name = name)).map Block.body := by
  rw [← map_definition_blocksInAll around]
  induction blocksInAll around nodes with
  | nil => rfl
  | cons b rest ih =>
    by_cases h : b.name = name
    · subst h
      simp [Block.definition]
    · have hne : (name == b.name) = false := by simpa using Ne.symm h
      simpa [Block.definition, List.lookup_cons, h, hne] using ih

theorem sourceAll_subset_source {keyword : Keyword} {argument : String}
    {opening closing : List (Glyph μ)} {body : List (Node μ)} :
    sourceAll body ⊆ (pair keyword argument opening body closing).source :=
  fun _ hg => List.mem_append_left _ (List.mem_append_right _ hg)

mutual

theorem of_mem_blocksIn {b : Block μ} : ∀ {around : List String} {node : Node μ},
    b ∈ blocksIn around node → around ⊆ b.around ∧ sourceAll b.body ⊆ node.source
  | _, text _, h | _, placeholder _ _, h | _, inherits _ _, h | _, stray _, h =>
    absurd h List.not_mem_nil
  | _, pair .condition _ _ _ _, h | _, pair .loop _ _ _ _, h => by
    obtain ⟨haround, hsource⟩ := of_mem_blocksInAll h
    exact ⟨haround, List.Subset.trans hsource sourceAll_subset_source⟩
  | _, pair .block _ _ _ _, h => by
    rcases List.mem_cons.mp h with rfl | h
    · exact ⟨List.Subset.refl _, sourceAll_subset_source⟩
    · obtain ⟨haround, hsource⟩ := of_mem_blocksInAll h
      exact ⟨List.Subset.trans (List.subset_cons_self ..) haround,
        List.Subset.trans hsource sourceAll_subset_source⟩

/-- What is around nodes is around the blocks in them, and their bodies are parts of the nodes. -/
theorem of_mem_blocksInAll {b : Block μ} : ∀ {around : List String} {nodes : List (Node μ)},
    b ∈ blocksInAll around nodes → around ⊆ b.around ∧ sourceAll b.body ⊆ sourceAll nodes
  | _, [], h => absurd h List.not_mem_nil
  | _, _ :: _, h => by
    rcases List.mem_append.mp h with h | h
    · obtain ⟨haround, hsource⟩ := of_mem_blocksIn h
      exact ⟨haround, List.Subset.trans hsource (List.subset_append_left ..)⟩
    · obtain ⟨haround, hsource⟩ := of_mem_blocksInAll h
      exact ⟨haround, List.Subset.trans hsource (List.subset_append_right ..)⟩

end

/-- Whether the later one of two blocks is inside the earlier, or has nothing in common with it. -/
def Apart (a b : Block μ) : Prop :=
  a.name ∈ b.around ∨ (sourceAll a.body).Disjoint (sourceAll b.body)

mutual

theorem pairwise_blocksIn : ∀ (around : List String) (node : Node μ), node.source.Nodup →
    (blocksIn around node).Pairwise Apart
  | _, text _, _ | _, placeholder _ _, _ | _, inherits _ _, _ | _, stray _, _ => .nil
  | around, pair .condition _ _ body _, h | around, pair .loop _ _ body _, h =>
    pairwise_blocksInAll around body (List.nodup_append.mp (List.nodup_append.mp h).1).2.1
  | around, pair .block name _ body _, h => by
    refine .cons (fun b hb => .inl ?_) (pairwise_blocksInAll (name :: around) body
      (List.nodup_append.mp (List.nodup_append.mp h).1).2.1)
    exact (of_mem_blocksInAll hb).1 (List.mem_cons_self ..)

theorem pairwise_blocksInAll : ∀ (around : List String) (nodes : List (Node μ)),
    (sourceAll nodes).Nodup → (blocksInAll around nodes).Pairwise Apart
  | _, [], _ => .nil
  | around, node :: rest, h => by
    obtain ⟨hnode, hrest, hapart⟩ := List.nodup_append'.mp h
    refine List.pairwise_append.mpr ⟨pairwise_blocksIn around node hnode,
      pairwise_blocksInAll around rest hrest, fun a ha b hb => .inr ?_⟩
    exact fun g hga hgb => hapart ((of_mem_blocksIn ha).2 hga) ((of_mem_blocksInAll hb).2 hgb)

end

end Node

/-! ### Expanding -/

variable {d : Definitions μ}

theorem Definitions.outside_congr {path around : List String}
    (h : ∀ name, name ∈ path ↔ name ∈ around) : d.outside path = d.outside around := by
  simp only [outside, h]

open Node

/-- A block of resolved nodes that is in no block of its own name has the body that counts. -/
theorem Resolves.body_eq {path : List String} {nodes nodes' : List (Node μ)}
    (h : Resolves (List.lookup · d) path nodes nodes') : ∀ {around : List String},
      (∀ name, name ∈ path ↔ name ∈ around) → ∀ b ∈ blocksInAll around nodes', b.IsOuter →
        ∃ given, d.lookup b.name = some given ∧
          b.body = Call.expanded d ⟨given, b.name :: b.around⟩ := by
  induction h with
  | nil => exact fun _ => List.forall_mem_nil _
  | leaf hnode _ ih =>
    intro around hpath b hb
    rw [blocksInAll, blocksIn_leaf hnode] at hb
    exact ih hpath b hb
  | group hkeyword _ _ ihbody ihrest =>
    intro around hpath b hb
    rw [blocksInAll, blocksIn_group hkeyword] at hb
    rcases List.mem_append.mp hb with hb | hb
    · exact ihbody hpath b hb
    · exact ihrest hpath b hb
  | @nearest path name _ _ given _ _ _ _ hname hgiven hbody _ ihbody ihrest =>
    intro around hpath b hb
    have hpath' : ∀ other, other ∈ name :: path ↔ other ∈ name :: around := by simp [hpath]
    rcases List.mem_append.mp hb with hb | hb
    · rcases List.mem_cons.mp hb with rfl | hb
      · intro _
        refine ⟨given, hgiven, ?_⟩
        rw [Call.expanded, ← Definitions.outside_congr hpath']
        exact hbody.eq_expand
      · exact ihbody hpath' b hb
    · exact ihrest hpath b hb
  | @nested path name _ _ _ _ _ _ hname _ _ ihbody ihrest =>
    intro around hpath b hb
    rcases List.mem_append.mp hb with hb | hb
    · rcases List.mem_cons.mp hb with rfl | hb
      · exact fun houter => absurd ((hpath name).mp hname) houter
      · -- the path does not grow here: the name of a nested block is on it already
        refine ihbody (fun other => ?_) b hb
        have hmem := (hpath name).mp hname
        rw [hpath, List.mem_cons]
        exact ⟨.inr, fun h => h.elim (· ▸ hmem) id⟩
    · exact ihrest hpath b hb

/-- Nodes stay as they are if every block that is in no block of its own name has the body that is
defined. -/
theorem expand_eq_self : ∀ (around : List String) (nodes : List (Node μ)),
    (∀ b ∈ blocksInAll around nodes, b.IsOuter → d.lookup b.name = some b.body) →
      (d.outside around).expand nodes = nodes
  | _, [], _ => Definitions.expand_nil _
  | around, .text _ :: rest, h | around, .placeholder _ _ :: rest, h
  | around, .inherits _ _ :: rest, h | around, .stray _ :: rest, h => by
    rw [Definitions.expand_leaf rfl, expand_eq_self around rest h]
  | around, .pair .condition _ _ body _ :: rest, h | around, .pair .loop _ _ body _ :: rest, h => by
    obtain ⟨hbody, hrest⟩ := List.forall_mem_append.mp h
    rw [Definitions.expand_group (by simp), expand_eq_self around body hbody,
      expand_eq_self around rest hrest]
  | around, .pair .block name _ body _ :: rest, h => by
    obtain ⟨hnode, hrest⟩ := List.forall_mem_append.mp h
    obtain ⟨hblock, hbody⟩ := List.forall_mem_cons.mp hnode
    have ihbody := expand_eq_self (name :: around) body hbody
    have ihrest := expand_eq_self around rest hrest
    by_cases hname : name ∈ around
    · -- inside of its own name nothing more is left out, so the block is only gone through
      rw [Definitions.outside_cons (.inl hname)] at ihbody
      rw [Definitions.expand_nested (Definitions.lookup_outside_of_mem hname), ihbody, ihrest]
    · have hlookup := (Definitions.lookup_outside_of_not_mem hname).trans (hblock hname)
      rw [Definitions.expand_nearest hlookup, Definitions.expandBody, Definitions.without_outside,
        ihbody, ihrest]

variable (t : Template)

theorem body_eq_of_mem_resolved {b : Block Place} (hb : b ∈ blocksInAll [] t.resolved)
    (houter : b.IsOuter) : ∃ given, t.definitions.lookup b.name = some given ∧
      b.body = Call.expanded t.definitions ⟨given, b.name :: b.around⟩ :=
  t.resolves_resolved.body_eq (fun _ => Iff.rfl) b hb houter

theorem outermost_of_parent? (ht : t.parent? = none) :
    t.outermost = t.own ∧ t.definitions = Node.blocks t.own.nodes := by
  obtain ⟨own, ancestors⟩ := t
  cases ancestors with
  | nil => exact ⟨rfl, List.flatMap_singleton ..⟩
  | cons s rest => cases ht

/-- A template without a parent in which no two blocks have the same name shows what is in it. -/
theorem resolved_eq_nodes (ht : t.ancestors = [])
    (hd : ((Node.blocks t.own.nodes).map Prod.fst).Nodup) : t.resolved = t.own.nodes := by
  obtain ⟨houtermost, hdefinitions⟩ := t.outermost_of_parent? (by rw [parent?, ht])
  rw [resolved, houtermost, hdefinitions, ← Definitions.outside_nil (Node.blocks t.own.nodes)]
  refine expand_eq_self _ _ fun b hb _ => Definitions.lookup_of_mem hd ?_
  exact map_definition_blocksInAll [] t.own.nodes ▸ List.mem_map_of_mem hb

end Letterpress.Template
