import Mathlib.Data.List.Infix
import Letterpress.Proofs.Template.Marks
import Letterpress.Proofs.Template.Spelling

/-!
# Templates one after the other

A text that leaves no tag open is read by itself, whatever stands behind it, as long as that does
not begin with a brace. Where no tag is without a partner, tags are paired by themselves, too. So
two texts are parsed to the nodes of both in a row; only plain texts that meet become one.
-/

namespace Letterpress.Template

variable {μ : Type}

/-- Whether two braces that close come behind any two that open. -/
def IsClosed (cs : List Char) : Prop :=
  ∀ rest, rest <:+ cs → ['{', '{'] <+: rest → ['}', '}'] <:+: rest

instance (cs : List Char) : Decidable (IsClosed cs) :=
  decidable_of_iff (∀ rest ∈ cs.tails, ['{', '{'] <+: rest → ['}', '}'] <:+: rest) (by
    simp only [List.mem_tails, IsClosed])

theorem IsClosed.of_suffix {cs rest : List Char} (h : IsClosed cs) (hrest : rest <:+ cs) :
    IsClosed rest :=
  fun _ hsuffix => h _ (hsuffix.trans hrest)

namespace Lexeme

/-- Lexemes in a row. A text at the end of the first ones is put before the others. -/
def join : List (Lexeme μ) → List (Lexeme μ) → List (Lexeme μ)
  | [], more => more
  | [text glyphs], more => prepend glyphs more
  | l :: rest, more => l :: join rest more

theorem prepend_append (a b : List (Glyph μ)) (ls : List (Lexeme μ)) :
    prepend (a ++ b) ls = prepend a (prepend b ls) := by
  cases a <;> cases b <;> rcases ls with _ | ⟨_ | _, _⟩ <;> simp [prepend]

theorem join_prepend (glyphs : List (Glyph μ)) (ls more : List (Lexeme μ)) :
    join (prepend glyphs ls) more = prepend glyphs (join ls more) := by
  match glyphs, ls with
  | [], ls => rfl
  | g :: glyphs, [] => rfl
  | g :: glyphs, [text inner] => exact prepend_append (g :: glyphs) inner more
  | g :: glyphs, text inner :: l :: rest => rfl
  | g :: glyphs, token t :: rest => cases rest <;> rfl

theorem join_append {last : List (Lexeme μ)} (h : last ≠ []) (first more : List (Lexeme μ)) :
    join (first ++ last) more = first ++ join last more := by
  induction first with
  | nil => rfl
  | cons l first ih =>
    rw [List.cons_append, join, ih, List.cons_append]
    intro _ _ hnil
    exact h (List.append_eq_nil_iff.mp hnil).2

theorem join_settle (tag : Option Tag) (raw : List (Glyph μ)) (ls more : List (Lexeme μ)) :
    join (settle tag raw ls) more = settle tag raw (join ls more) := by
  cases tag with
  | none => exact join_prepend raw ls more
  | some tag => cases ls <;> rfl

end Lexeme

/-- Whether no tag is open at the end: the one that is being read comes to an end, too. -/
def Reading.IsClosed (cs : List Char) : Reading μ → Prop
  | text => Template.IsClosed cs
  | tag _ _ _ => Template.IsClosed cs ∧ ['}', '}'] <:+: cs

theorem Reading.IsClosed.isClosed {r : Reading μ} {cs : List Char} (h : r.IsClosed cs) :
    Template.IsClosed cs := by
  cases r with
  | text => exact h
  | tag extra braces content => exact h.1

/-- What is read of a text that leaves no tag open does not depend on what stands behind it. -/
theorem lexFrom_append {r : Reading μ} {gs : List (Glyph μ)} (hr : r.IsClosed (chars gs))
    {g : Glyph μ} (hg : g.char ≠ '{' ∧ g.char ≠ '}') (more : List (Glyph μ)) :
    lexFrom r (gs ++ g :: more) = Lexeme.join (lexFrom r gs) (lexFrom .text (g :: more)) := by
  -- The reader looks at most two glyphs ahead, for braces; `g` is none, so it is as good as the end.
  fun_induction lexFrom r gs with
  | case1 r =>
    cases r with
    | text => rfl
    | tag extra braces content => simp [Reading.IsClosed, chars] at hr
  | case2 r a =>
    cases r with
    | text =>
      rw [List.singleton_append, lexFrom.eq_def]
      simp [hg.1, Lexeme.join, Reading.held, Lexeme.prepend]
    | tag extra braces content =>
      have := hr.2.length_le
      simp [chars] at this
  | case3 r a b rest h ih =>
    have hclosing : ['}', '}'] <:+: chars rest := by
      have := hr.isClosed _ (List.suffix_refl _) (by simp [chars, h])
      simpa [chars, h, List.infix_cons_iff] using this
    have hrest : IsClosed (chars rest) := hr.isClosed.of_suffix ⟨[a.char, b.char], rfl⟩
    rw [Lexeme.join_prepend, List.cons_append, List.cons_append, lexFrom.eq_def]
    simp only [h, and_self, ↓reduceIte]
    congr 1
    cases rest with
    | nil => simp [chars] at hclosing
    | cons c rest =>
      obtain ⟨ihOpen, ihPlain⟩ := ih
      rw [List.cons_append]
      by_cases hc : c.char = '{'
      · simp only [hc, ↓reduceIte]
        refine ihOpen ⟨hrest.of_suffix ⟨[c.char], rfl⟩, ?_⟩
        simpa [chars, hc, List.infix_cons_iff] using hclosing
      · simp only [hc, ↓reduceIte]
        exact ihPlain ⟨hrest, hclosing⟩
  | case4 a b rest h ih =>
    rw [Lexeme.join_prepend, List.cons_append, List.cons_append, lexFrom.eq_def]
    simp only [h, ↓reduceIte]
    rw [← List.cons_append, ih (hr.of_suffix ⟨[a.char], rfl⟩)]
  | case5 a b rest h braces content hclose tag raw ih =>
    have hrest : IsClosed (chars rest) := hr.1.of_suffix ⟨[a.char, b.char], rfl⟩
    rw [Lexeme.join_settle, ← ih hrest, List.cons_append, List.cons_append, lexFrom.eq_def]
    simp [hclose, raw, tag]
  | case6 a b h braces content hclose tag raw e ih =>
    -- The tag ends at the seam. A third brace behind it would belong to it.
    have hnil : IsClosed (chars ([] : List (Glyph μ))) :=
      hr.1.of_suffix ⟨[a.char, b.char], rfl⟩
    rw [Lexeme.join_prepend, Lexeme.join_settle, ← ih hnil, List.cons_append, List.cons_append,
      lexFrom.eq_def]
    simp [hclose, hg, raw, tag]
  | case7 a b h braces content hclose tag raw e c rest hc ih =>
    have hrest : IsClosed (chars rest) := hr.1.of_suffix ⟨[a.char, b.char, c.char], rfl⟩
    rw [Lexeme.join_settle, ← ih hrest, List.cons_append, List.cons_append, List.cons_append,
      lexFrom.eq_def]
    simp [hclose, hc, raw, tag]
  | case8 a b h braces content hclose tag raw e c rest hc ih =>
    have hrest : IsClosed (chars (c :: rest)) := hr.1.of_suffix ⟨[a.char, b.char], rfl⟩
    rw [Lexeme.join_prepend, Lexeme.join_settle, ← ih hrest, List.cons_append, List.cons_append,
      List.cons_append, lexFrom.eq_def]
    simp [hclose, hc, raw, tag]
  | case9 a b rest h extra braces content hclose ih =>
    have hclosing : ['}', '}'] <:+: chars (b :: rest) :=
      (List.infix_cons_iff.mp hr.2).resolve_left (by simpa [chars, eq_comm] using hclose)
    rw [← ih ⟨hr.1.of_suffix ⟨[a.char], rfl⟩, hclosing⟩, List.cons_append, List.cons_append,
      lexFrom.eq_def]
    simp only [h, hclose, ↓reduceIte]

theorem lex_cons {g : Glyph μ} (hg : g.char ≠ '{') (gs : List (Glyph μ)) :
    lex (g :: gs) = Lexeme.prepend [g] (lex gs) := by
  cases gs with
  | nil => rfl
  | cons a gs =>
    rw [lex, lexFrom.eq_def]
    simp only [hg, false_and, ↓reduceIte]
    rfl

theorem lex_append {gs more : List (Glyph μ)} (h : IsClosed (chars gs)) {g : Glyph μ}
    (hg : g.char ≠ '{' ∧ g.char ≠ '}') :
    lex (gs ++ g :: more) = Lexeme.join (lex gs) (Lexeme.prepend [g] (lex more)) := by
  rw [← lex_cons hg.1]
  exact lexFrom_append (r := .text) h hg more

/-! ### Pairing the tags -/

namespace Node

def isText : Node μ → Bool
  | text _ => true
  | _ => false

def isStray : Node μ → Bool
  | stray _ => true
  | _ => false

/-- Whether every tag that opens or closes has a partner. -/
def Paired (nodes : List (Node μ)) : Prop := ∀ n ∈ flattenAll nodes, n.isStray = false

instance (nodes : List (Node μ)) : Decidable (Paired nodes) :=
  inferInstanceAs (Decidable (∀ n ∈ flattenAll nodes, n.isStray = false))

theorem paired_cons {node : Node μ} {rest : List (Node μ)} :
    Paired (node :: rest) ↔ (∀ n ∈ node.flatten, n.isStray = false) ∧ Paired rest :=
  List.forall_mem_append

/-- Puts text before nodes. Two texts never follow each other. -/
def prepend (glyphs : List (Glyph μ)) (nodes : List (Node μ)) : List (Node μ) :=
  match glyphs, nodes with
  | [], nodes => nodes
  | glyphs, text more :: rest => text (glyphs ++ more) :: rest
  | glyphs, rest => text glyphs :: rest

/-- Nodes in a row. A text at the end of the first ones is put before the others. -/
def join : List (Node μ) → List (Node μ) → List (Node μ)
  | [], more => more
  | [text glyphs], more => prepend glyphs more
  | node :: rest, more => node :: join rest more

/-- Only a text is spelled by a text, and any other node begins and ends with a tag. -/
theorem Spells.exists_tags {node : Node μ} {ls : List (Lexeme μ)} (h : node.Spells ls)
    (hn : node.isText = false) :
    (∃ t rest, ls = .token t :: rest) ∧ ∃ rest t, ls = rest ++ [.token t] := by
  match node, h with
  | placeholder name raw, h | inherits parent raw, h =>
    cases h
    exact ⟨⟨_, _, rfl⟩, [], _, rfl⟩
  | stray raw, ⟨tag, _, h⟩ =>
    cases h
    exact ⟨⟨_, _, rfl⟩, [], _, rfl⟩
  | pair _ _ _ _ _, ⟨inner, _, h⟩ =>
    cases h
    exact ⟨⟨_, _, rfl⟩, _, _, rfl⟩

theorem Spells.ne_nil {node : Node μ} {ls : List (Lexeme μ)} (h : node.Spells ls) : ls ≠ [] := by
  cases hn : node.isText with
  | true =>
    match node, h with
    | text glyphs, rfl => exact List.cons_ne_nil _ _
  | false =>
    obtain ⟨⟨t, rest, rfl⟩, -⟩ := h.exists_tags hn
    exact List.cons_ne_nil _ _

theorem Paired.prepend {nodes : List (Node μ)} (h : Paired nodes) (glyphs : List (Glyph μ)) :
    Paired (prepend glyphs nodes) := by
  unfold Node.prepend
  split
  · exact h
  · exact paired_cons.mpr ⟨by simp [flatten, isStray], (paired_cons.mp h).2⟩
  · exact paired_cons.mpr ⟨by simp [flatten, isStray], h⟩

theorem Paired.join {nodes more : List (Node μ)} (h : Paired nodes) (hmore : Paired more) :
    Paired (join nodes more) := by
  fun_induction Node.join nodes more with
  | case1 more => exact hmore
  | case2 glyphs more => exact hmore.prepend glyphs
  | case3 node rest more hnode ih =>
    obtain ⟨hnode, hrest⟩ := paired_cons.mp h
    exact paired_cons.mpr ⟨hnode, ih hrest hmore⟩

theorem SpellsAll.prepend {nodes : List (Node μ)} {ls : List (Lexeme μ)} (h : SpellsAll nodes ls)
    (glyphs : List (Glyph μ)) : SpellsAll (prepend glyphs nodes) (Lexeme.prepend glyphs ls) := by
  cases glyphs with
  | nil => exact h
  | cons g glyphs =>
    cases nodes with
    | nil =>
      cases h
      exact ⟨[.text (g :: glyphs)], [], rfl, rfl, rfl⟩
    | cons node rest =>
      obtain ⟨first, more, hnode, hrest, rfl⟩ := h
      cases hn : node.isText with
      | true =>
        match node, hnode with
        | text inner, rfl => exact ⟨[.text (g :: glyphs ++ inner)], more, rfl, hrest, rfl⟩
      | false =>
        obtain ⟨⟨t, behind, rfl⟩, -⟩ := hnode.exists_tags hn
        have hprepend : Node.prepend (g :: glyphs) (node :: rest) =
            text (g :: glyphs) :: node :: rest := by
          cases node <;> first | rfl | cases hn
        rw [hprepend]
        exact ⟨[.text (g :: glyphs)], _, rfl, ⟨_, _, hnode, hrest, rfl⟩, rfl⟩

theorem SpellsAll.join {nodes more : List (Node μ)} {ls behind : List (Lexeme μ)}
    (h : SpellsAll nodes ls) (hmore : SpellsAll more behind) :
    SpellsAll (join nodes more) (Lexeme.join ls behind) := by
  fun_induction Node.join nodes more generalizing ls with
  | case1 more =>
    cases h
    exact hmore
  | case2 glyphs more =>
    obtain ⟨_, _, h, hnil, rfl⟩ := h
    cases h
    cases hnil
    exact hmore.prepend glyphs
  | case3 node rest more hnode ih =>
    obtain ⟨first, last, hfirst, hlast, rfl⟩ := h
    refine ⟨first, _, hfirst, ih hlast hmore, ?_⟩
    cases rest with
    | nil =>
      cases hlast
      have htext : node.isText = false := by
        cases node <;> first | rfl | exact (hnode _ rfl rfl).elim
      obtain ⟨-, init, t, rfl⟩ := hfirst.exists_tags htext
      rw [List.append_nil, Lexeme.join_append (List.cons_ne_nil _ _), List.append_assoc]
      rfl
    | cons next rest =>
      obtain ⟨_, _, hnext, -, rfl⟩ := hlast
      exact Lexeme.join_append (List.append_ne_nil_of_left_ne_nil hnext.ne_nil _) _ _

mutual

theorem Spells.foldl_step : ∀ {node : Node μ} {ls : List (Lexeme μ)}, node.Spells ls →
    (∀ n ∈ node.flatten, n.isStray = false) → ∀ p : Parsing μ,
      ls.foldl Parsing.step p = p.push node
  | text _, _, h, _, _ | placeholder _ _, _, h, _, _ | inherits _ _, _, h, _, _ => by
    cases h
    rfl
  | stray _, _, _, hn, _ => nomatch hn _ (List.mem_singleton_self _)
  | pair keyword argument opening body closing, _, ⟨inner, hbody, h⟩, hn, p => by
    cases h
    have hinner := hbody.foldl_step (fun n h => hn n (List.mem_cons_of_mem _ h))
      ⟨[], ⟨keyword, argument, opening, p.nodes⟩ :: p.stack⟩
    have hopened : (.token ⟨.opens keyword argument, opening⟩ :: inner).foldl Parsing.step p =
        inner.foldl Parsing.step ⟨[], ⟨keyword, argument, opening, p.nodes⟩ :: p.stack⟩ := rfl
    rw [List.foldl_append, hopened, hinner]
    simp [Parsing.step, Open.closeNearest, Open.close, Parsing.push]

/-- Where no tag is without a partner, lexemes add the nodes that they spell, and the tags that are
open stay so. -/
theorem SpellsAll.foldl_step : ∀ {nodes : List (Node μ)} {ls : List (Lexeme μ)},
    SpellsAll nodes ls → Paired nodes → ∀ p : Parsing μ,
      ls.foldl Parsing.step p = ⟨nodes.reverse ++ p.nodes, p.stack⟩
  | [], _, h, _, p => by
    cases h
    rfl
  | node :: rest, _, ⟨_, _, hnode, hrest, h⟩, hn, p => by
    cases h
    obtain ⟨hn, hns⟩ := paired_cons.mp hn
    rw [List.foldl_append, hnode.foldl_step hn, hrest.foldl_step hns, Parsing.push,
      List.reverse_cons, List.append_assoc]
    rfl

end

end Node

/-! ### Texts one after the other -/

/-- Where every tag has a partner, nodes are what is parsed from what they spell. -/
theorem parseLexemes_eq_of_spellsAll {nodes : List (Node μ)} {ls : List (Lexeme μ)}
    (h : Node.SpellsAll nodes ls) (hn : Node.Paired nodes) : parseLexemes ls = nodes := by
  rw [parseLexemes, h.foldl_step hn]
  simp [Parsing.finish]

/-- A text that is closed and paired is parsed by itself. -/
theorem parse_append {gs more : List (Glyph μ)} (hclosed : IsClosed (chars gs))
    (hpaired : Node.Paired (parse gs)) (hmore : Node.Paired (parse more)) {g : Glyph μ}
    (hg : g.char ≠ '{' ∧ g.char ≠ '}') :
    parse (gs ++ g :: more) = Node.join (parse gs) (Node.prepend [g] (parse more)) := by
  have hspells : Node.SpellsAll (Node.join (parse gs) (Node.prepend [g] (parse more)))
      (lex (gs ++ g :: more)) := by
    rw [lex_append hclosed hg]
    exact (spellsAll_parseLexemes _).join ((spellsAll_parseLexemes _).prepend _)
  exact parseLexemes_eq_of_spellsAll hspells (hpaired.join (hmore.prepend _))

end Letterpress.Template
