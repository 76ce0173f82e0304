import Mathlib.Data.List.Nodup
import Mathlib.Order.WellFounded
import Letterpress.Proofs.Template.Resolution

/-!
# Resolving comes to an end

To resolve nodes, what is inside each pair is resolved first. Inside a block that is the body that
counts, or, if the block is inside one of its own name, the body it is written with. A body that
counts is no part of what it is put into, and can contain the block it is for, or another one whose
body contains it in turn. But there is one name less to replace inside of it, and a body that is not
replaced is smaller than what it is in. So calls end, and there is only one answer to them.
-/

namespace Letterpress.Template

variable {μ : Type}

/-- What there is to resolve: nodes, and the names of the blocks around them. -/
structure Call (μ : Type) where
  nodes : List (Node μ)
  path : List String

/-- The call for what is inside a pair, if there are blocks of the names on the path around it. -/
def Call.inside (nearest? : String → Option (List (Node μ))) (path : List String)
    (keyword : Keyword) (argument : String) (body : List (Node μ)) : Call μ :=
  if keyword = .block then
    ⟨(if argument ∈ path then none else nearest? argument).getD body, argument :: path⟩
  else ⟨body, path⟩

/-- The node with what `answer` resolves the inside to. -/
def Node.resolveWith (nearest? : String → Option (List (Node μ)))
    (answer : Call μ → List (Node μ)) (path : List String) : Node μ → Node μ
  | pair keyword argument opening body closing =>
    pair keyword argument opening (answer (Call.inside nearest? path keyword argument body)) closing
  | text glyphs => text glyphs
  | placeholder name raw => placeholder name raw
  | inherits parent raw => inherits parent raw
  | stray raw => stray raw

/-- Whether every call is answered node by node, with the answers to the calls inside. -/
def Answers (nearest? : String → Option (List (Node μ))) (answer : Call μ → List (Node μ)) : Prop :=
  ∀ c, answer c = c.nodes.map (Node.resolveWith nearest? answer c.path)

/-- Which calls a call makes itself, and the name whose body is replaced for it, if it is. -/
inductive Calls (nearest? : String → Option (List (Node μ))) (outer : Call μ) :
    List String → Call μ → Prop
  | group {keyword argument opening body closing}
      (hnode : .pair keyword argument opening body closing ∈ outer.nodes)
      (hkeyword : keyword ≠ .block) : Calls nearest? outer [] ⟨body, outer.path⟩
  | nearest {name opening body given closing}
      (hnode : .pair .block name opening body closing ∈ outer.nodes) (hname : name ∉ outer.path)
      (hgiven : nearest? name = some given) :
      Calls nearest? outer [name] ⟨given, name :: outer.path⟩
  | written {name opening body closing}
      (hnode : .pair .block name opening body closing ∈ outer.nodes)
      (hname : name ∈ outer.path ∨ nearest? name = none) :
      Calls nearest? outer [] ⟨body, name :: outer.path⟩

/-- Calls inside each other, from the outermost to the innermost, and the names whose bodies are
replaced on the way. -/
inductive Descends (nearest? : String → Option (List (Node μ))) :
    Call μ → List String → Call μ → Prop
  | here {c} : Descends nearest? c [] c
  | further {outer names inner more last} (hcalls : Calls nearest? outer names inner)
      (hrest : Descends nearest? inner more last) : Descends nearest? outer (names ++ more) last

variable {nearest? : String → Option (List (Node μ))} {d : Definitions μ}

theorem calls_inside {outer : Call μ} {keyword : Keyword} {argument : String}
    {opening closing : List (Glyph μ)} {body : List (Node μ)}
    (h : .pair keyword argument opening body closing ∈ outer.nodes) :
    ∃ names, Calls nearest? outer names (.inside nearest? outer.path keyword argument body) := by
  unfold Call.inside
  split
  · next hkeyword =>
    subst hkeyword
    by_cases hname : argument ∈ outer.path
    · rw [if_pos hname]
      exact ⟨[], .written h (.inl hname)⟩
    · rw [if_neg hname]
      cases hgiven : nearest? argument with
      | none => exact ⟨[], .written h (.inr hgiven)⟩
      | some given => exact ⟨[argument], .nearest h hname hgiven⟩
  · next hkeyword => exact ⟨[], .group h hkeyword⟩

theorem Calls.path_subset {outer inner : Call μ} {names : List String}
    (h : Calls nearest? outer names inner) : outer.path ⊆ inner.path := by
  cases h with
  | group => exact List.Subset.refl _
  | nearest | written => exact List.subset_cons_self ..

/-- Where a body is replaced, its name was not on the path, and now it is. -/
theorem Calls.names {outer inner : Call μ} {names : List String}
    (h : Calls nearest? outer names inner) : names.Nodup ∧ ∀ name ∈ names,
      name ∉ outer.path ∧ name ∈ inner.path ∧ ∃ given, nearest? name = some given := by
  cases h with
  | group | written => exact ⟨.nil, List.forall_mem_nil _⟩
  | nearest _ hname hgiven =>
    exact ⟨List.nodup_singleton _,
      List.forall_mem_singleton.mpr ⟨hname, List.mem_cons_self .., _, hgiven⟩⟩

/-- On the way inwards, no name is replaced again. -/
theorem Descends.names {outer inner : Call μ} {names : List String}
    (h : Descends nearest? outer names inner) : names.Nodup ∧ ∀ name ∈ names,
      name ∉ outer.path ∧ ∃ given, nearest? name = some given := by
  induction h with
  | here => exact ⟨.nil, List.forall_mem_nil _⟩
  | further hcalls _ ih =>
    obtain ⟨hnodup, hnames⟩ := hcalls.names
    obtain ⟨hmore, hothers⟩ := ih
    refine ⟨hnodup.append hmore fun name hname hother => ?_, List.forall_mem_append.mpr
      ⟨fun name hname => ?_, fun name hname => ?_⟩⟩
    · exact (hothers name hother).1 (hnames name hname).2.1
    · exact ⟨(hnames name hname).1, (hnames name hname).2.2⟩
    · exact ⟨fun hmem => (hothers name hname).1 (hcalls.path_subset hmem), (hothers name hname).2⟩

theorem sizeOf_body_lt {keyword : Keyword} {argument : String} {opening closing : List (Glyph μ)}
    {body nodes : List (Node μ)} (h : .pair keyword argument opening body closing ∈ nodes) :
    sizeOf body < sizeOf nodes := by
  have hnode := List.sizeOf_lt_of_mem h
  rw [Node.pair.sizeOf_spec] at hnode
  omega

namespace Definitions

theorem length_outside_cons_le (name : String) (path : List String) :
    (d.outside (name :: path)).length ≤ (d.outside path).length := by
  rw [← without_outside]
  exact List.length_filter_le ..

theorem length_outside_cons_lt {name : String} {path : List String} {given : List (Node μ)}
    (hname : name ∉ path) (h : d.lookup name = some given) :
    (d.outside (name :: path)).length < (d.outside path).length := by
  rw [← without_outside]
  exact length_without_lt ((lookup_outside_of_not_mem hname).trans h)

/-- A name that is outside already, or has no definition, leaves the others as they are. -/
theorem outside_cons {name : String} {path : List String}
    (h : name ∈ path ∨ d.lookup name = none) : d.outside (name :: path) = d.outside path := by
  refine List.filter_congr fun b hb => ?_
  have hne : b.1 = name → b.1 ∈ path := by
    rintro rfl
    refine h.resolve_right fun hnone => ?_
    obtain ⟨given, hgiven⟩ := exists_lookup_of_mem hb
    rw [hgiven] at hnone
    cases hnone
  simpa [not_imp_not] using hne

end Definitions

/-- What gets less from call to call: the definitions in use, and with as many of them, the nodes. -/
noncomputable def Call.rank (d : Definitions μ) (c : Call μ) : Nat × Nat :=
  ((d.outside c.path).length, sizeOf c.nodes)

theorem Calls.rank_lt {outer inner : Call μ} {names : List String}
    (h : Calls (List.lookup · d) outer names inner) :
    Prod.Lex Nat.lt Nat.lt (inner.rank d) (outer.rank d) := by
  cases h with
  | group hnode => exact .right _ (sizeOf_body_lt hnode)
  | nearest _ hname hgiven => exact .left _ _ (Definitions.length_outside_cons_lt hname hgiven)
  | written hnode => exact .right' _ (Definitions.length_outside_cons_le ..) (sizeOf_body_lt hnode)

theorem wellFounded_calls (d : Definitions μ) : WellFounded fun inner outer : Call μ =>
    ∃ names, Calls (List.lookup · d) outer names inner :=
  Subrelation.wf (fun ⟨_, h⟩ => Calls.rank_lt h)
    (InvImage.wf (Call.rank d) (WellFounded.prod_lex Nat.lt_wfRel.wf Nat.lt_wfRel.wf))

/-- What the definitions of the names that are not on the path expand the nodes to. -/
def Call.expanded (d : Definitions μ) (c : Call μ) : List (Node μ) :=
  (d.outside c.path).expand c.nodes

theorem answers_expanded (d : Definitions μ) : Answers (List.lookup · d) (Call.expanded d) := by
  rintro ⟨nodes, path⟩
  rw [Call.expanded]
  induction nodes with
  | nil => exact Definitions.expand_nil _
  | cons node rest ih =>
    rw [List.map_cons, ← ih]
    cases node with
    | text | placeholder | inherits | stray => exact Definitions.expand_leaf rfl _
    | pair keyword name opening body closing =>
      rw [Node.resolveWith, Call.inside]
      split
      · next hkeyword =>
        subst hkeyword
        by_cases hname : name ∈ path
        · rw [Definitions.expand_nested (Definitions.lookup_outside_of_mem hname), if_pos hname,
            Call.expanded, Definitions.outside_cons (.inl hname)]
          rfl
        · have hlookup := Definitions.lookup_outside_of_not_mem (d := d) hname
          rw [if_neg hname]
          cases hgiven : d.lookup name with
          | none =>
            rw [Definitions.expand_nested (hlookup.trans hgiven), Call.expanded,
              Definitions.outside_cons (.inr hgiven)]
            rfl
          | some given =>
            rw [Definitions.expand_nearest (hlookup.trans hgiven), Definitions.expandBody,
              Definitions.without_outside]
            rfl
      · next hkeyword => exact Definitions.expand_group hkeyword

theorem Answers.unique {answer answer' : Call μ → List (Node μ)} (h : Answers nearest? answer)
    (h' : Answers nearest? answer')
    (hwf : WellFounded fun inner outer : Call μ => ∃ names, Calls nearest? outer names inner) :
    answer = answer' := by
  funext c
  induction c using hwf.induction with
  | _ c ih =>
    rw [h c, h' c]
    refine List.map_congr_left fun node hnode => ?_
    cases node with
    | text | placeholder | inherits | stray => rfl
    | pair keyword argument opening body closing =>
      rw [Node.resolveWith, Node.resolveWith, ih _ (calls_inside hnode)]

/-! ### Templates -/

theorem exists_mem_blocks {t : Template} {name : String} {given : List (Node Place)}
    (h : t.nearest? name = some given) : ∃ s ∈ t.chain, name ∈ s.blocks := by
  obtain ⟨s, hs, hgiven⟩ := List.exists_of_findSome?_eq_some h
  obtain ⟨node, hnode, -⟩ := Option.bind_eq_some_iff.mp hgiven
  have hname := List.find?_some hnode
  exact ⟨s, hs, Sheet.mem_arguments (List.mem_of_find?_eq_some hnode) (by simpa using hname)⟩

theorem lookup_overrides (t : Template) (name : String) :
    t.overrides.lookup name =
      ((definitionsOf t.derived).lookup name).map (t.definitions.expandBody name) :=
  Definitions.lookup_map t.definitions.expandBody name _

/-- What it is for a template, with its ancestors, to be resolved in the end. -/
structure Ends (t : Template) : Prop where
  /-- No calls inside each other go on for ever, whatever they begin with. -/
  wellFounded : WellFounded fun inner outer : Call Place =>
    ∃ names, Calls t.nearest? outer names inner
  /-- Among calls inside each other, a body is replaced once for a name, and only for the name of a
  block that the template or an ancestor has. -/
  once : ∀ outer names inner, Descends t.nearest? outer names inner →
    names.Nodup ∧ ∀ name ∈ names, name ∉ outer.path ∧ ∃ s ∈ t.chain, name ∈ s.blocks
  /-- There is one way to answer all calls. -/
  answers : ∀ answer, Answers t.nearest? answer ↔ answer = Call.expanded t.definitions
  /-- What is shown is the answer for the outermost ancestor. -/
  resolved : t.resolved = Call.expanded t.definitions ⟨t.outermost.nodes, []⟩
  /-- The body of a block is the answer for the one that counts. -/
  block : ∀ name, t.block? name =
    (t.nearest? name).map fun body => Call.expanded t.definitions ⟨body, [name]⟩
  /-- The body of a block in the document is the answer for the nearest one from the templates that
  come before it. -/
  override : ∀ name, t.overrides.lookup name =
    (t.derived.findSome? fun s => (Node.findBlock? name s.nodes).bind Node.body?).map
      fun body => Call.expanded t.definitions ⟨body, [name]⟩

theorem resolution_ends (t : Template) : t.Ends := by
  have hnearest : t.nearest? = fun name => t.definitions.lookup name :=
    funext fun name => (t.lookup_definitions name).symm
  have hwf : WellFounded fun inner outer : Call Place =>
      ∃ names, Calls t.nearest? outer names inner := by
    rw [hnearest]
    exact wellFounded_calls t.definitions
  have hanswers : Answers t.nearest? (Call.expanded t.definitions) := by
    rw [hnearest]
    exact answers_expanded t.definitions
  have hbody : ∀ name body, t.definitions.expandBody name body =
      Call.expanded t.definitions ⟨body, [name]⟩ := by
    intro name body
    rw [Definitions.expandBody, Call.expanded, ← Definitions.without_outside,
      Definitions.outside_nil]
  refine ⟨hwf, fun outer names inner h => ?_, fun answer => ⟨fun h => h.unique hanswers hwf, ?_⟩,
    ?_, fun name => ?_, fun name => ?_⟩
  · obtain ⟨hnodup, hnames⟩ := h.names
    refine ⟨hnodup, fun name hname => ⟨(hnames name hname).1, ?_⟩⟩
    obtain ⟨given, hgiven⟩ := (hnames name hname).2
    exact exists_mem_blocks hgiven
  · rintro rfl
    exact hanswers
  · rw [resolved, Call.expanded, Definitions.outside_nil]
  · rw [block?, ← lookup_definitions]
    exact congrFun (congrArg Option.map (funext (hbody name))) _
  · rw [lookup_overrides, lookup_definitionsOf]
    exact congrFun (congrArg Option.map (funext (hbody name))) _

end Letterpress.Template
