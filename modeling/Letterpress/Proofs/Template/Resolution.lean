import Letterpress.Proofs.KeyMap
import Letterpress.Template

/-!
# How templates are resolved

What a template without a document shows is the outermost ancestor, and in every block that is not
inside a block of its own name stands what the nearest definition of the block is resolved to. A
block inside a block of its own name keeps its body. `Resolves` says so without counting
replacements, and each way to resolve comes to the same end: the names of the blocks around the
nodes are what the definitions in use are without.
-/

namespace Letterpress.Template

variable {μ : Type}

namespace Node

def isPair : Node μ → Bool
  | pair _ _ _ _ _ => true
  | _ => false

def body? : Node μ → Option (List (Node μ))
  | pair _ _ _ body _ => some body
  | _ => none

mutual

theorem flatten_subset_of_mem {keyword : Keyword} {argument : String}
    {opening closing : List (Glyph μ)} {body : List (Node μ)} : ∀ {node : Node μ},
      pair keyword argument opening body closing ∈ flatten node → flattenAll body ⊆ flatten node
  | text _, h | placeholder _ _, h | inherits _ _, h | stray _, h => by simp [flatten] at h
  | pair _ _ _ inner _, h => by
    rw [flatten] at h ⊢
    rcases List.mem_cons.mp h with heq | h
    · cases heq
      exact List.subset_cons_self ..
    · exact List.Subset.trans (flattenAll_subset_of_mem h) (List.subset_cons_self ..)

theorem flattenAll_subset_of_mem {keyword : Keyword} {argument : String}
    {opening closing : List (Glyph μ)} {body : List (Node μ)} : ∀ {nodes : List (Node μ)},
      pair keyword argument opening body closing ∈ flattenAll nodes →
        flattenAll body ⊆ flattenAll nodes
  | [], h => absurd h List.not_mem_nil
  | _ :: _, h => by
    rw [flattenAll] at h ⊢
    rcases List.mem_append.mp h with h | h
    · exact List.Subset.trans (flatten_subset_of_mem h) (List.subset_append_left ..)
    · exact List.Subset.trans (flattenAll_subset_of_mem h) (List.subset_append_right ..)

end

theorem blocks_cons (node : Node μ) (rest : List (Node μ)) :
    blocks (node :: rest) = (flatten node).filterMap block? ++ blocks rest := by
  rw [blocks, flattenAll, List.filterMap_append, blocks]

theorem blocks_subset_of_mem {name : String} {body nodes : List (Node μ)}
    (h : (name, body) ∈ blocks nodes) : blocks body ⊆ blocks nodes := by
  obtain ⟨node, hnode, hblock⟩ := List.mem_filterMap.mp h
  match node, hblock with
  | pair .block _ _ _ _, rfl => exact List.filterMap_subset _ (flattenAll_subset_of_mem hnode)

theorem flattenAll_subset_of_mem_blocks {name : String} {body nodes : List (Node μ)}
    (h : (name, body) ∈ blocks nodes) : flattenAll body ⊆ flattenAll nodes := by
  obtain ⟨node, hnode, hblock⟩ := List.mem_filterMap.mp h
  match node, hblock with
  | pair .block _ _ _ _, rfl => exact flattenAll_subset_of_mem hnode

/-- The first block of a name is the first of the name among all blocks. -/
theorem lookup_blocks (name : String) (nodes : List (Node μ)) :
    (blocks nodes).lookup name = (findBlock? name nodes).bind body? := by
  rw [blocks, findBlock?]
  induction flattenAll nodes with
  | nil => rfl
  | cons node rest ih =>
    match node with
    | text _ | placeholder _ _ | inherits _ _ | stray _ => exact ih
    | pair .condition _ _ _ _ | pair .loop _ _ _ _ => exact ih
    | pair .block argument _ _ _ =>
      by_cases h : argument = name
      · subst h
        simp [block?, argument?, body?]
      · have hne : (name == argument) = false := by simpa using Ne.symm h
        simpa [block?, argument?, List.lookup_cons, h, hne] using ih

mutual

theorem replace_none : ∀ node : Node μ, replace (fun _ => none) node = node
  | text _ | placeholder _ _ | inherits _ _ | stray _ => rfl
  | pair _ _ _ body _ => by simp [replace, replaceAll_none body]

theorem replaceAll_none : ∀ nodes : List (Node μ), replaceAll (fun _ => none) nodes = nodes
  | [] => rfl
  | node :: rest => by rw [replaceAll, replace_none node, replaceAll_none rest]

end

end Node

namespace Definitions

variable {d : Definitions μ}

/-- The definitions of the names that are not on the path. -/
def outside (path : List String) (d : Definitions μ) : Definitions μ := d.filter (·.1 ∉ path)

@[simp] theorem outside_nil (d : Definitions μ) : d.outside [] = d := by simp [outside]

theorem without_outside (name : String) (path : List String) (d : Definitions μ) :
    (d.outside path).without name = d.outside (name :: path) := by
  simp [outside, without, List.filter_filter]

theorem lookup_filter (p : String → Bool) (name : String) (d : Definitions μ) :
    (d.filter (p ·.1)).lookup name = if p name then d.lookup name else none := by
  induction d with
  | nil => simp
  | cons b rest ih =>
    obtain ⟨key, body⟩ := b
    by_cases hkey : name = key
    · subst hkey
      cases hp : p name <;> simp [hp, ih]
    · have hne : (name == key) = false := by simpa using hkey
      cases hp : p key <;> simp [hp, ih, List.lookup_cons, hne]

theorem lookup_map {ν : Type} (f : String → List (Node μ) → List (Node ν)) (name : String)
    (d : Definitions μ) :
    List.lookup name (d.map fun b => (b.1, f b.1 b.2)) = (d.lookup name).map (f name) := by
  induction d with
  | nil => rfl
  | cons b rest ih =>
    obtain ⟨key, body⟩ := b
    by_cases hkey : name = key
    · subst hkey
      simp
    · have hne : (name == key) = false := by simpa using hkey
      simpa [List.lookup_cons, hne] using ih

theorem lookup_outside_of_mem {path : List String} {name : String} (h : name ∈ path) :
    (d.outside path).lookup name = none := by
  rw [outside, lookup_filter (fun key => decide (key ∉ path))]
  simp [h]

theorem lookup_outside_of_not_mem {path : List String} {name : String} (h : name ∉ path) :
    (d.outside path).lookup name = d.lookup name := by
  rw [outside, lookup_filter (fun key => decide (key ∉ path))]
  simp [h]

theorem mem_of_lookup {name : String} {body : List (Node μ)} (h : d.lookup name = some body) :
    (name, body) ∈ d := by
  obtain ⟨before, behind, rfl, -⟩ := List.lookup_eq_some_iff.mp h
  exact List.mem_append_right _ (List.mem_cons_self ..)

theorem exists_lookup_of_mem {name : String} {body : List (Node μ)} (h : (name, body) ∈ d) :
    ∃ given, d.lookup name = some given := by
  cases hlookup : d.lookup name with
  | some given => exact ⟨given, rfl⟩
  | none => exact absurd (List.lookup_eq_none_iff.mp hlookup _ h) (by simp)

theorem length_without_lt {name : String} {body : List (Node μ)} (h : d.lookup name = some body) :
    (d.without name).length < d.length :=
  List.length_filter_lt_length_iff_exists.mpr ⟨_, mem_of_lookup h, by simp⟩

/-- How many replacements are allowed does not matter if there is one for each definition. -/
theorem expandWithin_eq {a b : Nat} {d : Definitions μ} (ha : d.length ≤ a) (hb : d.length ≤ b) :
    expandWithin a d = expandWithin b d := by
  induction a generalizing b d with
  | zero =>
    obtain rfl : d = [] := List.eq_nil_of_length_eq_zero (by omega)
    funext nodes
    cases b with
    | zero => rfl
    | succ b => exact (Node.replaceAll_none nodes).symm
  | succ a ih =>
    funext nodes
    cases b with
    | zero =>
      obtain rfl : d = [] := List.eq_nil_of_length_eq_zero (by omega)
      exact Node.replaceAll_none nodes
    | succ b =>
      have hbody : (fun name => (d.lookup name).map (expandWithin a (d.without name))) =
          fun name => (d.lookup name).map (expandWithin b (d.without name)) := by
        funext name
        cases hlookup : d.lookup name with
        | none => rfl
        | some body =>
          have := length_without_lt hlookup
          rw [ih (b := b) (by omega) (by omega)]
      rw [expandWithin, expandWithin, hbody]

/-- Definitions replace bodies by what is expanded without the name. -/
theorem expand_eq (d : Definitions μ) (nodes : List (Node μ)) :
    d.expand nodes =
      Node.replaceAll (fun name => (d.lookup name).map (d.expandBody name)) nodes := by
  rw [expand, expandWithin_eq (b := d.length + 1) (Nat.le_refl _) (by omega), expandWithin]
  congr
  funext name
  cases hlookup : d.lookup name with
  | none => rfl
  | some body =>
    have := length_without_lt hlookup
    rw [Option.map_some, Option.map_some, expandBody, expand,
      expandWithin_eq (a := d.length) (by omega) (Nat.le_refl _)]

theorem expand_nil (d : Definitions μ) : d.expand [] = [] := by rw [expand_eq, Node.replaceAll]

theorem expand_leaf {node : Node μ} (h : node.isPair = false) (rest : List (Node μ)) :
    d.expand (node :: rest) = node :: d.expand rest := by
  rw [expand_eq, Node.replaceAll, ← expand_eq]
  cases node <;> first | rfl | cases h

section

variable {keyword : Keyword} {argument name : String} {opening closing : List (Glyph μ)}
  {body given rest : List (Node μ)}

theorem expand_group (h : keyword ≠ .block) :
    d.expand (.pair keyword argument opening body closing :: rest) =
      .pair keyword argument opening (d.expand body) closing :: d.expand rest := by
  rw [expand_eq, Node.replaceAll, ← expand_eq, Node.replace, if_neg h, ← expand_eq]

theorem expand_nested (h : d.lookup name = none) :
    d.expand (.pair .block name opening body closing :: rest) =
      .pair .block name opening (d.expand body) closing :: d.expand rest := by
  rw [expand_eq, Node.replaceAll, ← expand_eq, Node.replace, if_pos rfl, h, Option.map_none,
    ← expand_eq]

theorem expand_nearest (h : d.lookup name = some given) :
    d.expand (.pair .block name opening body closing :: rest) =
      .pair .block name opening (d.expandBody name given) closing :: d.expand rest := by
  rw [expand_eq, Node.replaceAll, ← expand_eq, Node.replace, if_pos rfl, h, Option.map_some]

end

end Definitions

/-! ### Resolving -/

/-- What nodes are resolved to if the blocks around them have the names on the path, and `nearest?`
tells the body that counts for a name. -/
inductive Resolves (nearest? : String → Option (List (Node μ))) :
    List String → List (Node μ) → List (Node μ) → Prop
  | nil {path} : Resolves nearest? path [] []
  | leaf {path node rest rest'} (hnode : node.isPair = false)
      (hrest : Resolves nearest? path rest rest') :
      Resolves nearest? path (node :: rest) (node :: rest')
  | group {path keyword argument opening body body' closing rest rest'}
      (hkeyword : keyword ≠ .block) (hbody : Resolves nearest? path body body')
      (hrest : Resolves nearest? path rest rest') :
      Resolves nearest? path (.pair keyword argument opening body closing :: rest)
        (.pair keyword argument opening body' closing :: rest')
  /-- Elsewhere than inside its own name, a block has the body that counts. -/
  | nearest {path name opening body given given' closing rest rest'} (hname : name ∉ path)
      (hgiven : nearest? name = some given) (hbody : Resolves nearest? (name :: path) given given')
      (hrest : Resolves nearest? path rest rest') :
      Resolves nearest? path (.pair .block name opening body closing :: rest)
        (.pair .block name opening given' closing :: rest')
  /-- Inside its own name, a block has the body it is written with. -/
  | nested {path name opening body body' closing rest rest'} (hname : name ∈ path)
      (hbody : Resolves nearest? path body body') (hrest : Resolves nearest? path rest rest') :
      Resolves nearest? path (.pair .block name opening body closing :: rest)
        (.pair .block name opening body' closing :: rest')

variable {d : Definitions μ} {path : List String} {nodes nodes' : List (Node μ)}

/-- What is resolved is resolved to itself. -/
theorem Resolves.again {nearest? : String → Option (List (Node μ))}
    (h : Resolves nearest? path nodes nodes') : Resolves nearest? path nodes' nodes' := by
  induction h with
  | nil => exact .nil
  | leaf hnode _ ih => exact .leaf hnode ih
  | group hkeyword _ _ ihbody ihrest => exact .group hkeyword ihbody ihrest
  | nearest hname hgiven hbody _ _ ihrest => exact .nearest hname hgiven hbody ihrest
  | nested hname _ _ ihbody ihrest => exact .nested hname ihbody ihrest

theorem Resolves.eq_expand (h : Resolves (List.lookup · d) path nodes nodes') :
    nodes' = (d.outside path).expand nodes := by
  induction h with
  | nil => exact (Definitions.expand_nil _).symm
  | leaf hnode _ ih => rw [Definitions.expand_leaf hnode, ih]
  | group hkeyword _ _ ihbody ihrest => rw [Definitions.expand_group hkeyword, ihbody, ihrest]
  | nearest hname hgiven _ _ ihbody ihrest =>
    rw [← Definitions.lookup_outside_of_not_mem hname] at hgiven
    rw [Definitions.expand_nearest hgiven, Definitions.expandBody, Definitions.without_outside,
      ihbody, ihrest]
  | nested hname _ _ ihbody ihrest =>
    rw [Definitions.expand_nested (Definitions.lookup_outside_of_mem hname), ihbody, ihrest]

/-- Blocks that are all defined can be resolved: with each definition put in there is one fewer to
put in inside of it, and within a body the nodes get fewer. -/
theorem resolves_expand (hd : ∀ b ∈ d, Node.blocks b.2 ⊆ d) (path : List String) :
    ∀ nodes : List (Node μ), Node.blocks nodes ⊆ d →
      Resolves (List.lookup · d) path nodes ((d.outside path).expand nodes)
  | [], _ => by
    rw [Definitions.expand_nil]
    exact .nil
  | .text _ :: rest, h | .placeholder _ _ :: rest, h | .inherits _ _ :: rest, h
  | .stray _ :: rest, h => by
    rw [Definitions.expand_leaf rfl]
    exact .leaf rfl (resolves_expand hd path rest h)
  | .pair keyword name opening body closing :: rest, h => by
    obtain ⟨hnode, hrest⟩ := List.append_subset.mp (Node.blocks_cons _ rest ▸ h)
    have ihrest := resolves_expand hd path rest hrest
    by_cases hkeyword : keyword = .block
    · subst hkeyword
      obtain ⟨hmem, hbody⟩ := List.cons_subset.mp hnode
      by_cases hname : name ∈ path
      · rw [Definitions.expand_nested (Definitions.lookup_outside_of_mem hname)]
        exact .nested hname (resolves_expand hd path body hbody) ihrest
      · obtain ⟨given, hgiven⟩ := Definitions.exists_lookup_of_mem hmem
        have hlookup := (Definitions.lookup_outside_of_not_mem hname).trans hgiven
        have hfewer : (d.outside (name :: path)).length < (d.outside path).length := by
          rw [← Definitions.without_outside]
          exact Definitions.length_without_lt hlookup
        rw [Definitions.expand_nearest hlookup, Definitions.expandBody, Definitions.without_outside]
        exact .nearest hname hgiven (resolves_expand hd (name :: path) given
          (hd _ (Definitions.mem_of_lookup hgiven))) ihrest
    · have hbody : Node.blocks body ⊆ d := by
        cases keyword with
        | block => exact absurd rfl hkeyword
        | condition => exact hnode
        | loop => exact hnode
      rw [Definitions.expand_group hkeyword]
      exact .group hkeyword (resolves_expand hd path body hbody) ihrest
termination_by nodes => ((d.outside path).length, sizeOf nodes)

theorem Definitions.lookup_of_mem (hd : (d.map Prod.fst).Nodup) {name : String}
    {body : List (Node μ)} (h : (name, body) ∈ d) : d.lookup name = some body := by
  obtain ⟨before, behind, rfl⟩ := List.append_of_mem h
  rw [List.map_append, List.map_cons, List.nodup_append] at hd
  refine List.lookup_eq_some_iff.mpr ⟨before, behind, rfl, fun b hb => ?_⟩
  simpa using (hd.2.2 _ (List.mem_map_of_mem hb) _ (List.mem_cons_self ..)).symm

/-! ### Templates -/

theorem Sheet.mem_nameSet {names : List String} {name : String} :
    name ∈ nameSet names ↔ name ∈ names := by
  rw [nameSet, KeyMap.ofList, KeyMap.mem_keys_insertAll]
  simp [KeyMap.keys, KeyMap.empty]

theorem Sheet.mem_variables {s : Sheet} {node : Node Place} {name : String}
    (h : node ∈ Node.flattenAll s.nodes) (hname : node.placeholderName? = some name) :
    name ∈ s.variables :=
  mem_nameSet.mpr (List.mem_filterMap.mpr ⟨node, h, hname⟩)

theorem Sheet.mem_arguments {s : Sheet} {node : Node Place} {keyword : Keyword} {name : String}
    (h : node ∈ Node.flattenAll s.nodes) (hname : node.argument? keyword = some name) :
    name ∈ s.arguments keyword :=
  mem_nameSet.mpr (List.mem_filterMap.mpr ⟨node, h, hname⟩)

variable (t : Template)

/-- The body of the first block of a name in the nearest template that has one. -/
def nearest? (name : String) : Option (List (Node Place)) :=
  t.chain.findSome? fun s => (Node.findBlock? name s.nodes).bind Node.body?

theorem lookup_definitionsOf (sheets : List Sheet) (name : String) :
    (definitionsOf sheets).lookup name =
      sheets.findSome? fun s => (Node.findBlock? name s.nodes).bind Node.body? := by
  rw [definitionsOf]
  induction sheets with
  | nil => rfl
  | cons s rest ih =>
    rw [List.flatMap_cons, List.lookup_append, Node.lookup_blocks, ih, List.findSome?_cons]
    cases (Node.findBlock? name s.nodes).bind Node.body? <;> rfl

theorem lookup_definitions (name : String) : t.definitions.lookup name = t.nearest? name :=
  lookup_definitionsOf t.chain name

theorem outermost_mem_chain : t.outermost ∈ t.chain := by
  rw [outermost, chain]
  cases h : t.ancestors.getLast? with
  | none => exact List.mem_cons_self ..
  | some s => exact List.mem_cons_of_mem _ (List.mem_of_getLast? h)

/-- The blocks inside of what is defined in a template are defined in it, too. -/
theorem blocks_subset_definitions : ∀ b ∈ t.definitions, Node.blocks b.2 ⊆ t.definitions := by
  intro b hb
  obtain ⟨s, hs, hb⟩ := List.mem_flatMap.mp hb
  intro c hc
  exact List.mem_flatMap.mpr ⟨s, hs, Node.blocks_subset_of_mem hb hc⟩

theorem resolves_resolved :
    Resolves (List.lookup · t.definitions) [] t.outermost.nodes t.resolved := by
  have houtermost : Node.blocks t.outermost.nodes ⊆ t.definitions := fun _ hb =>
    List.mem_flatMap.mpr ⟨_, t.outermost_mem_chain, hb⟩
  have hresolves := resolves_expand t.blocks_subset_definitions [] _ houtermost
  rwa [Definitions.outside_nil] at hresolves

/-- What a template shows is its outermost ancestor resolved, and nothing else is. Resolved once
more, it stays as it is. -/
theorem resolves_iff_eq_resolved :
    (∀ nodes, Resolves t.nearest? [] t.outermost.nodes nodes ↔ nodes = t.resolved) ∧
      (∀ nodes, Resolves t.nearest? [] t.resolved nodes ↔ nodes = t.resolved) ∧
        t.definitions.expand t.resolved = t.resolved := by
  have hnearest : t.nearest? = fun name => t.definitions.lookup name :=
    funext fun name => (t.lookup_definitions name).symm
  have houtermost : Node.blocks t.outermost.nodes ⊆ t.definitions := fun b hb =>
    List.mem_flatMap.mpr ⟨_, t.outermost_mem_chain, hb⟩
  have hresolves := resolves_expand t.blocks_subset_definitions [] _ houtermost
  have unique : ∀ {nodes nodes'}, Resolves t.nearest? [] nodes nodes' →
      nodes' = t.definitions.expand nodes := by
    intro nodes nodes' h
    rw [hnearest] at h
    simpa using h.eq_expand
  rw [Definitions.outside_nil, ← hnearest] at hresolves
  have hagain : Resolves t.nearest? [] t.resolved t.resolved := hresolves.again
  refine ⟨fun nodes => ⟨unique, ?_⟩, fun nodes => ⟨fun h => ?_, ?_⟩, (unique hagain).symm⟩
  · rintro rfl
    exact hresolves
  · exact (unique h).trans (unique hagain).symm
  · rintro rfl
    exact hagain

end Letterpress.Template
