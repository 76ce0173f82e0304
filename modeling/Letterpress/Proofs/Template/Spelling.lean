import Letterpress.Template.Parser

/-!
# What a parsed template spells

Pairing the tags moves nothing and drops nothing: node by node, a parsed template spells the row of
lexemes it was parsed from. Only a stray has forgotten which tag it is. So every node, at any depth,
spells a stretch of the lexemes.
-/

namespace Letterpress.Template

variable {μ : Type}

/-- Whether a tag opens or closes something. -/
def Tag.isPaired : Tag → Bool
  | opens _ _ => true
  | closes _ => true
  | placeholder _ => false
  | inherits _ => false

namespace Node

mutual

/-- Whether a node is made of these lexemes. -/
def Spells : Node μ → List (Lexeme μ) → Prop
  | text glyphs, ls => ls = [.text glyphs]
  | placeholder name raw, ls => ls = [.token ⟨.placeholder name, raw⟩]
  | inherits parent raw, ls => ls = [.token ⟨.inherits parent, raw⟩]
  | pair keyword argument opening body closing, ls => ∃ inner, SpellsAll body inner ∧
      ls = .token ⟨.opens keyword argument, opening⟩ :: inner ++ [.token ⟨.closes keyword, closing⟩]
  | stray raw, ls => ∃ tag : Tag, tag.isPaired ∧ ls = [.token ⟨tag, raw⟩]

def SpellsAll : List (Node μ) → List (Lexeme μ) → Prop
  | [], ls => ls = []
  | node :: rest, ls => ∃ first more, Spells node first ∧ SpellsAll rest more ∧ ls = first ++ more

end

theorem Spells.singleton {node : Node μ} {ls : List (Lexeme μ)} (h : node.Spells ls) :
    SpellsAll [node] ls :=
  ⟨ls, [], h, rfl, (List.append_nil ls).symm⟩

theorem SpellsAll.append {a b : List (Node μ)} {ls more : List (Lexeme μ)} (ha : SpellsAll a ls)
    (hb : SpellsAll b more) : SpellsAll (a ++ b) (ls ++ more) := by
  induction a generalizing ls with
  | nil => rw [show ls = [] from ha]; exact hb
  | cons node rest ih =>
    obtain ⟨first, behind, hnode, hrest, rfl⟩ := ha
    exact ⟨first, behind ++ more, hnode, ih hrest, List.append_assoc ..⟩

end Node

/-- Whether open tags and the nodes before them are made of these lexemes. -/
def Open.SpellsAll : List (Open μ) → List (Lexeme μ) → Prop
  | [], ls => ls = []
  | o :: rest, ls => ∃ outer before, SpellsAll rest outer ∧
      Node.SpellsAll o.before.reverse before ∧
        ls = outer ++ before ++ [.token ⟨.opens o.keyword o.argument, o.raw⟩]

namespace Parsing

/-- Whether what has been parsed is made of these lexemes. -/
def Spells (p : Parsing μ) (ls : List (Lexeme μ)) : Prop :=
  ∃ outer inner, Open.SpellsAll p.stack outer ∧ Node.SpellsAll p.nodes.reverse inner ∧
    ls = outer ++ inner

theorem Spells.push {p : Parsing μ} {ls more : List (Lexeme μ)} {node : Node μ} (h : p.Spells ls)
    (hnode : node.Spells more) : (p.push node).Spells (ls ++ more) := by
  obtain ⟨outer, inner, hstack, hnodes, rfl⟩ := h
  refine ⟨outer, inner ++ more, hstack, ?_, List.append_assoc ..⟩
  rw [Parsing.push, List.reverse_cons]
  exact hnodes.append hnode.singleton

/-- A tag that is given up is a stray among the nodes of the tag around it. -/
theorem Spells.strand {o : Open μ} {stack : List (Open μ)} {nodes : List (Node μ)}
    {ls : List (Lexeme μ)} (h : Spells ⟨nodes, o :: stack⟩ ls) :
      Spells ⟨o.strand nodes, stack⟩ ls := by
  obtain ⟨_, inner, ⟨outer, before, hstack, hbefore, rfl⟩, hnodes, rfl⟩ := h
  have hstray : Node.Spells (.stray o.raw) [.token ⟨.opens o.keyword o.argument, o.raw⟩] :=
    ⟨_, rfl, rfl⟩
  refine ⟨outer, before ++ [.token ⟨.opens o.keyword o.argument, o.raw⟩] ++ inner, hstack, ?_, ?_⟩
  · rw [Open.strand, List.reverse_append, List.reverse_cons]
    exact (hbefore.append hstray.singleton).append hnodes
  · simp only [List.append_assoc]

theorem Spells.closeNearest {keyword : Keyword} {raw : List (Glyph μ)} {p : Parsing μ}
    {ls : List (Lexeme μ)} : ∀ {stack : List (Open μ)} {nodes : List (Node μ)},
      Spells ⟨nodes, stack⟩ ls → Open.closeNearest keyword raw nodes stack = some p →
        p.Spells (ls ++ [.token ⟨.closes keyword, raw⟩])
  | [], _, _, hp => by simp [Open.closeNearest] at hp
  | o :: rest, nodes, h, hp => by
    unfold Open.closeNearest at hp
    split at hp
    · next hk =>
      cases hp
      obtain ⟨_, inner, ⟨outer, before, hstack, hbefore, rfl⟩, hnodes, rfl⟩ := h
      have hpair : Node.Spells (.pair o.keyword o.argument o.raw nodes.reverse raw)
          (.token ⟨.opens o.keyword o.argument, o.raw⟩ :: inner ++
            [.token ⟨.closes keyword, raw⟩]) :=
        ⟨inner, hnodes, by rw [hk]⟩
      refine ⟨outer, before ++ (.token ⟨.opens o.keyword o.argument, o.raw⟩ :: inner ++
        [.token ⟨.closes keyword, raw⟩]), hstack, ?_, by simp only [List.append_assoc,
          List.cons_append, List.nil_append]⟩
      rw [Open.close, List.reverse_cons]
      exact hbefore.append hpair.singleton
    · exact closeNearest h.strand hp

theorem Spells.step {p : Parsing μ} {ls : List (Lexeme μ)} (h : p.Spells ls) (l : Lexeme μ) :
    (p.step l).Spells (ls ++ [l]) := by
  match l with
  | .text glyphs => exact h.push rfl
  | .token ⟨.placeholder name, raw⟩ => exact h.push rfl
  | .token ⟨.inherits parent, raw⟩ => exact h.push rfl
  | .token ⟨.opens keyword argument, raw⟩ =>
    obtain ⟨outer, inner, hstack, hnodes, rfl⟩ := h
    exact ⟨_, [], ⟨outer, inner, hstack, hnodes, rfl⟩, rfl, (List.append_nil _).symm⟩
  | .token ⟨.closes keyword, raw⟩ =>
    simp only [Parsing.step]
    cases hp : Open.closeNearest keyword raw p.nodes p.stack with
    | none => exact h.push ⟨.closes keyword, rfl, rfl⟩
    | some q => exact h.closeNearest hp

theorem Spells.finish {p : Parsing μ} {ls : List (Lexeme μ)} (h : p.Spells ls) :
    Node.SpellsAll p.finish ls := by
  obtain ⟨nodes, stack⟩ := p
  induction stack generalizing nodes with
  | nil =>
    obtain ⟨_, inner, hnil, hnodes, rfl⟩ := h
    rw [show _ = [] from hnil]
    exact hnodes
  | cons o rest ih => exact ih _ h.strand

end Parsing

/-- A parsed template spells what it was parsed from. -/
theorem spellsAll_parseLexemes (ls : List (Lexeme μ)) : Node.SpellsAll (parseLexemes ls) ls := by
  have steps : ∀ (more : List (Lexeme μ)) (p : Parsing μ) (ls : List (Lexeme μ)), p.Spells ls →
      (more.foldl Parsing.step p).Spells (ls ++ more) := by
    intro more
    induction more with
    | nil => intro p ls h; simpa using h
    | cons l more ih =>
      intro p ls h
      rw [List.foldl_cons, List.append_cons]
      exact ih _ _ (h.step l)
  exact (steps ls {} [] ⟨[], [], rfl, rfl, rfl⟩).finish

/-! ### What follows for the nodes -/

namespace Node

mutual

theorem Spells.source : ∀ {node : Node μ} {ls : List (Lexeme μ)}, node.Spells ls →
    node.source = ls.flatMap Lexeme.source
  | text _, _, h | placeholder _ _, _, h | inherits _ _, _, h => by
    cases h
    exact (List.append_nil _).symm
  | stray _, _, ⟨_, _, h⟩ => by
    cases h
    exact (List.append_nil _).symm
  | pair _ _ _ _ _, _, ⟨_, hbody, h⟩ => by
    cases h
    simp [Node.source, hbody.source, Lexeme.source]

theorem SpellsAll.source : ∀ {nodes : List (Node μ)} {ls : List (Lexeme μ)}, SpellsAll nodes ls →
    sourceAll nodes = ls.flatMap Lexeme.source
  | [], _, h => by cases h; rfl
  | _ :: _, _, ⟨_, _, hnode, hrest, h⟩ => by
    cases h
    rw [sourceAll, hnode.source, hrest.source, List.flatMap_append]

end

mutual

theorem Spells.exists_of_mem : ∀ {node : Node μ} {ls : List (Lexeme μ)}, node.Spells ls →
    ∀ n ∈ node.flatten, ∃ part, n.Spells part ∧ part <:+: ls
  | text _, ls, h, _, hn | placeholder _ _, ls, h, _, hn | inherits _ _, ls, h, _, hn
  | stray _, ls, h, _, hn => by
    cases List.mem_singleton.mp hn
    exact ⟨ls, h, List.infix_refl _⟩
  | pair _ _ _ _ _, ls, h, n, hn => by
    rcases List.mem_cons.mp hn with rfl | hn
    · exact ⟨ls, h, List.infix_refl _⟩
    · obtain ⟨inner, hbody, rfl⟩ := h
      obtain ⟨part, hpart, hwithin⟩ := hbody.exists_of_mem n hn
      exact ⟨part, hpart, hwithin.trans ⟨[_], [_], rfl⟩⟩

/-- A node at any depth spells a stretch of what all spell. -/
theorem SpellsAll.exists_of_mem : ∀ {nodes : List (Node μ)} {ls : List (Lexeme μ)},
    SpellsAll nodes ls → ∀ n ∈ flattenAll nodes, ∃ part, n.Spells part ∧ part <:+: ls
  | [], _, _, _, hn => absurd hn List.not_mem_nil
  | _ :: _, _, ⟨first, more, hnode, hrest, h⟩, n, hn => by
    cases h
    rcases List.mem_append.mp hn with hn | hn
    · obtain ⟨part, hpart, hwithin⟩ := hnode.exists_of_mem n hn
      exact ⟨part, hpart, hwithin.trans (List.prefix_append first more).isInfix⟩
    · obtain ⟨part, hpart, hwithin⟩ := hrest.exists_of_mem n hn
      exact ⟨part, hpart, hwithin.trans (List.suffix_append first more).isInfix⟩

end

end Node

end Letterpress.Template
