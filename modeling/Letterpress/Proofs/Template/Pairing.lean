import Mathlib.Data.List.Nodup
import Letterpress.Proofs.Template.Spans
import Letterpress.Proofs.Template.Tokens

/-!
# How the tags are paired

Pairs lie apart or inside each other, and every tag that opens or closes belongs to one node alone.
Tags are not left without a partner for nothing: among nodes side by side none opens what a later
one closes, and none inside a pair could have been the pair's own.
-/

namespace Letterpress.Template

variable {μ : Type}

/-- The keyword of a tag that opens or closes. -/
def Tag.keyword? : Tag → Option Keyword
  | opens keyword _ => some keyword
  | closes keyword => some keyword
  | placeholder _ => none
  | inherits _ => none

namespace Node

/-- Which tag a stray is. Its text tells. -/
def strayTag? : Node μ → Option Tag
  | stray raw => Tag.ofWritten? (chars raw)
  | _ => none

/-- The tags a pair or a stray is made of. -/
def ends : Node μ → List (Token μ)
  | pair keyword argument opening _ closing =>
    [⟨.opens keyword argument, opening⟩, ⟨.closes keyword, closing⟩]
  | stray raw => ((Tag.ofWritten? (chars raw)).map (⟨·, raw⟩)).toList
  | _ => []

mutual

theorem Spells.perm_ends : ∀ {node : Node μ} {ls : List (Lexeme μ)}, node.Spells ls →
    (∀ t ∈ tokensOf ls, t.IsWritten) →
      (node.flatten.flatMap ends).Perm ((tokensOf ls).filter (·.tag.isPaired))
  | text _, _, h, _ | placeholder _ _, _, h, _ | inherits _ _, _, h, _ => by
    cases h
    exact .refl _
  | stray raw, _, ⟨tag, hpaired, h⟩, hw => by
    cases h
    have hwritten : Token.IsWritten ⟨tag, raw⟩ := hw _ (List.mem_singleton_self _)
    have hends : (stray raw).ends = [⟨tag, raw⟩] := by
      rw [ends, hwritten.ofWritten? hpaired]
      rfl
    rw [flatten, List.flatMap_singleton, hends, tokensOf_cons_token,
      List.filter_cons_of_pos (by exact hpaired)]
    exact .refl _
  | pair keyword argument opening body closing, _, ⟨inner, hbody, h⟩, hw => by
    cases h
    have hinner := hbody.perm_ends fun t ht => hw t (by simp [ht])
    rw [List.cons_append, tokensOf_cons_token, tokensOf_append, List.filter_cons_of_pos (by rfl),
      List.filter_append]
    have hback : ((tokensOf inner).filter (·.tag.isPaired) ++
        (tokensOf [.token ⟨.closes keyword, closing⟩]).filter (·.tag.isPaired)).Perm
          (⟨.closes keyword, closing⟩ :: (flattenAll body).flatMap ends) :=
      (List.perm_append_singleton _ _).trans (hinner.symm.cons _)
    exact (hback.cons _).symm

/-- The tags that make up the nodes are those that open or close, each of them once. -/
theorem SpellsAll.perm_ends : ∀ {nodes : List (Node μ)} {ls : List (Lexeme μ)}, SpellsAll nodes ls →
    (∀ t ∈ tokensOf ls, t.IsWritten) →
      ((flattenAll nodes).flatMap ends).Perm ((tokensOf ls).filter (·.tag.isPaired))
  | [], _, h, _ => by
    cases h
    exact .refl _
  | _ :: _, _, ⟨_, _, hnode, hrest, h⟩, hw => by
    cases h
    rw [tokensOf_append] at hw ⊢
    rw [flattenAll, List.flatMap_append, List.filter_append]
    exact (hnode.perm_ends fun t ht => hw t (List.mem_append_left _ ht)).append
      (hrest.perm_ends fun t ht => hw t (List.mem_append_right _ ht))

end

end Node

/-- Where lists hold nothing twice, what they hold is in one of them only. -/
theorem existsUnique_mem_of_nodup {α β : Type} {f : α → List β} {as : List α} {b : β}
    (h : (as.flatMap f).Nodup) (hb : b ∈ as.flatMap f) :
    ∃! i : Fin as.length, b ∈ f (as.get i) := by
  have hapart := List.pairwise_iff_getElem.mp (List.nodup_flatMap.mp h).2
  obtain ⟨a, ha, hb⟩ := List.mem_flatMap.mp hb
  obtain ⟨i, rfl⟩ := List.get_of_mem ha
  refine ⟨i, hb, fun j hj => ?_⟩
  rcases Nat.lt_trichotomy j i with hlt | heq | hgt
  · exact (hapart j i j.2 i.2 hlt hj hb).elim
  · exact Fin.ext heq
  · exact (hapart i j i.2 j.2 hgt hb hj).elim

theorem nodup_tokenize (s : String) : (tokenize s).Nodup := by
  obtain ⟨hspan, hpairs⟩ := ordered_tokenize s
  refine hpairs.imp_of_mem fun {a b} ha _ hab heq => ?_
  subst heq
  exact absurd (hspan a ha) (Nat.not_lt.mpr hab)

namespace Node

/-- Whether a node lies between the two tags of a pair. -/
def IsBetween (n : Node Place) : Node Place → Prop
  | pair _ _ opening _ closing =>
    (spanOf opening).stop ≤ n.span.start ∧ n.span.stop ≤ (spanOf closing).start
  | _ => False

/-- Whether a node ends before another begins, or is a pair with the other between its tags. -/
def Clears (a b : Node Place) : Prop := a.span.stop ≤ b.span.start ∨ b.IsBetween a

/-- Whether nodes that clear each other lie in a part of the text. -/
structure ClearIn (start stop : Nat) (nodes : List (Node Place)) : Prop where
  within : ∀ n ∈ nodes, start ≤ n.span.start ∧ n.span.stop ≤ stop
  clears : nodes.Pairwise Clears

theorem ClearIn.append {start middle stop : Nat} {a b : List (Node Place)}
    (ha : ClearIn start middle a) (hb : ClearIn middle stop b) (hstart : start ≤ middle)
    (hstop : middle ≤ stop) : ClearIn start stop (a ++ b) := by
  refine ⟨List.forall_mem_append.mpr ⟨fun n hn => ?_, fun n hn => ?_⟩, ?_⟩
  · exact ⟨(ha.within n hn).1, Nat.le_trans (ha.within n hn).2 hstop⟩
  · exact ⟨Nat.le_trans hstart (hb.within n hn).1, (hb.within n hn).2⟩
  · exact List.pairwise_append.mpr ⟨ha.clears, hb.clears, fun n hn m hm =>
      .inl (Nat.le_trans (ha.within n hn).2 (hb.within m hm).1)⟩

mutual

theorem Spells.clearIn {s : String} : ∀ {node : Node Place} {ls : List (Lexeme Place)},
    node.Spells ls → (∀ l ∈ ls, l.IsSound) → ∀ {before behind : List (Glyph Place)},
      placed s = before ++ node.source ++ behind →
        ClearIn (byteSize before) (byteSize before + byteSize node.source) node.flatten
  | text glyphs, _, h, hs, before, behind, hplaced
  | placeholder _ glyphs, _, h, hs, before, behind, hplaced
  | inherits _ glyphs, _, h, hs, before, behind, hplaced
  | stray glyphs, _, h, hs, before, behind, hplaced => by
    have hspan := spanOf_stretch hplaced (h.source_ne_nil hs)
    refine ⟨List.forall_mem_singleton.mpr ?_, List.pairwise_singleton _ _⟩
    rw [span, hspan]
    exact ⟨Nat.le_refl _, Nat.le_refl _⟩
  | pair keyword argument opening body closing, _, h, hs, before, behind, hplaced => by
    have hspan : (pair keyword argument opening body closing).span = _ :=
      spanOf_stretch hplaced (h.source_ne_nil hs)
    obtain ⟨inner, hbody, rfl⟩ := h
    rw [List.cons_append, List.forall_mem_cons, List.forall_mem_append,
      List.forall_mem_singleton] at hs
    obtain ⟨hopening, hinner, hclosing⟩ := hs
    rw [source] at hplaced
    obtain ⟨atOpening, atBody, atClosing⟩ := stretches_of_pair hplaced
    have hclear := hbody.clearIn hinner atBody
    have hstop := spanOf_stretch atOpening hopening.source_ne_nil
    have hstart := spanOf_stretch atClosing hclosing.source_ne_nil
    simp only [byteSize_append] at hclear hstart
    refine ⟨List.forall_mem_cons.mpr ⟨?_, fun n hn => ?_⟩, List.pairwise_cons.mpr
      ⟨fun n hn => .inr ?_, hclear.clears⟩⟩
    · rw [hspan]
      exact ⟨Nat.le_refl _, Nat.le_refl _⟩
    · have := hclear.within n hn
      simp only [source, byteSize_append]
      omega
    · show (spanOf opening).stop ≤ _ ∧ _ ≤ (spanOf closing).start
      rw [hstop, hstart]
      exact hclear.within n hn

theorem SpellsAll.clearIn {s : String} : ∀ {nodes : List (Node Place)} {ls : List (Lexeme Place)},
    SpellsAll nodes ls → (∀ l ∈ ls, l.IsSound) → ∀ {before behind : List (Glyph Place)},
      placed s = before ++ sourceAll nodes ++ behind →
        ClearIn (byteSize before) (byteSize before + byteSize (sourceAll nodes)) (flattenAll nodes)
  | [], _, _, _, _, _, _ => ⟨List.forall_mem_nil _, .nil⟩
  | node :: rest, _, ⟨first, more, hnode, hrest, h⟩, hs, before, behind, hplaced => by
    cases h
    obtain ⟨hfirst, hmore⟩ := List.forall_mem_append.mp hs
    obtain ⟨atNode, atRest⟩ := stretches_of_cons hplaced
    have hrest := hrest.clearIn hmore atRest
    rw [sourceAll]
    simp only [byteSize_append] at hrest ⊢
    rw [← Nat.add_assoc]
    exact (hnode.clearIn hfirst atNode).append hrest (Nat.le_add_right ..) (Nat.le_add_right ..)

end

/-! ### What is left over -/

/-- Whether no stray opens what a later one closes. -/
def Exhausted (nodes : List (Node μ)) : Prop :=
  nodes.Pairwise fun a b => ∀ keyword argument, a.strayTag? = some (.opens keyword argument) →
    b.strayTag? ≠ some (.closes keyword)

/-- Whether a pair leaves nothing over inside that could be paired, with each other or with itself. -/
def IsTight : Node μ → Prop
  | pair keyword _ _ body _ =>
    Exhausted body ∧ ∀ n ∈ body, ∀ tag, n.strayTag? = some tag → tag.keyword? ≠ some keyword
  | _ => True

/-- What nodes before an open tag, or behind the last one, look like: a tag that opens is not given
up before its level ends. -/
structure IsPending (nodes : List (Node μ)) : Prop where
  not_opens : ∀ n ∈ nodes, ∀ keyword argument, n.strayTag? ≠ some (.opens keyword argument)
  tight : ∀ n ∈ flattenAll nodes, n.IsTight

/-- What the nodes of a level, last first, look like while open tags are given up. -/
structure IsEnding (nodes : List (Node μ)) : Prop where
  exhausted : Exhausted nodes.reverse
  tight : ∀ n ∈ flattenAll nodes, n.IsTight

theorem exhausted_of_not_opens {nodes : List (Node μ)}
    (h : ∀ n ∈ nodes, ∀ keyword argument, n.strayTag? ≠ some (.opens keyword argument)) :
    Exhausted nodes :=
  List.pairwise_of_forall_mem_list fun a ha _ _ keyword argument hopens =>
    absurd hopens (h a ha keyword argument)

theorem IsPending.isEnding {nodes : List (Node μ)} (h : IsPending nodes) : IsEnding nodes :=
  ⟨exhausted_of_not_opens fun n hn => h.not_opens n (List.mem_reverse.mp hn), h.tight⟩

theorem isPending_nil : IsPending ([] : List (Node μ)) :=
  ⟨List.forall_mem_nil _, List.forall_mem_nil _⟩

theorem IsPending.cons {node : Node μ} {nodes : List (Node μ)} (h : IsPending nodes)
    (hopens : ∀ keyword argument, node.strayTag? ≠ some (.opens keyword argument))
    (htight : ∀ n ∈ node.flatten, n.IsTight) : IsPending (node :: nodes) :=
  ⟨List.forall_mem_cons.mpr ⟨hopens, h.not_opens⟩, List.forall_mem_append.mpr ⟨htight, h.tight⟩⟩

end Node

namespace Open

/-- Whether open tags wait for a partner: none behind them closes their keyword. `behind` are the
nodes behind the first of them. -/
def Wait : List (Node μ) → List (Open μ) → Prop
  | _, [] => True
  | behind, o :: rest =>
    (Tag.ofWritten? (chars o.raw) = some (.opens o.keyword o.argument) ∧
      (∀ n ∈ behind, n.strayTag? ≠ some (.closes o.keyword)) ∧ Node.IsPending o.before) ∧
        Wait (behind ++ o.before) rest

/-- What stands behind open tags can change as long as no tag that closes one of them is added. -/
theorem Wait.transfer {behind behind' : List (Node μ)} {stack : List (Open μ)}
    (h : ∀ n ∈ behind', ∀ o ∈ stack, n.strayTag? = some (.closes o.keyword) → n ∈ behind)
    (hw : Wait behind stack) : Wait behind' stack := by
  induction stack generalizing behind behind' with
  | nil => trivial
  | cons o rest ih =>
    obtain ⟨⟨hraw, hcloses, hbefore⟩, hrest⟩ := hw
    refine ⟨⟨hraw, fun n hn hclose => ?_, hbefore⟩, ih (fun n hn o' ho' hclose => ?_) hrest⟩
    · exact hcloses n (h n hn o (List.mem_cons_self ..) hclose) hclose
    · rcases List.mem_append.mp hn with hn | hn
      · exact List.mem_append_left _ (h n hn o' (List.mem_cons_of_mem _ ho') hclose)
      · exact List.mem_append_right _ hn

theorem strayTag?_raw {o : Open μ} {behind : List (Node μ)} {rest : List (Open μ)}
    (h : Wait behind (o :: rest)) :
    (Node.stray o.raw).strayTag? = some (.opens o.keyword o.argument) :=
  h.1.1

theorem Wait.strand {o : Open μ} {nodes : List (Node μ)} {rest : List (Open μ)}
    (h : Wait nodes (o :: rest)) : Wait (o.strand nodes) rest := by
  refine h.2.transfer fun n hn o' _ hclose => ?_
  rcases List.mem_append.mp hn with hn | hn
  · exact List.mem_append_left _ hn
  · rcases List.mem_cons.mp hn with rfl | hn
    · rw [strayTag?_raw h] at hclose
      cases hclose
    · exact List.mem_append_right _ hn

theorem isEnding_strand {o : Open μ} {nodes : List (Node μ)} {rest : List (Open μ)}
    (hn : Node.IsEnding nodes) (h : Wait nodes (o :: rest)) : Node.IsEnding (o.strand nodes) := by
  obtain ⟨⟨hraw, hcloses, hbefore⟩, -⟩ := h
  constructor
  · -- Nothing before the tag opens anything, and nothing behind it closes its keyword.
    rw [Open.strand, List.reverse_append, List.reverse_cons]
    refine List.pairwise_append.mpr ⟨List.pairwise_append.mpr ⟨hbefore.isEnding.exhausted,
      List.pairwise_singleton _ _, fun a ha _ _ keyword argument hopens => ?_⟩, hn.exhausted,
        fun a ha b hb keyword argument hopens => ?_⟩
    · exact absurd hopens (hbefore.not_opens a (List.mem_reverse.mp ha) keyword argument)
    · rcases List.mem_append.mp ha with ha | ha
      · exact absurd hopens (hbefore.not_opens a (List.mem_reverse.mp ha) keyword argument)
      · cases List.mem_singleton.mp ha
        have hsame : some (Tag.opens o.keyword o.argument) = some (.opens keyword argument) :=
          hraw.symm.trans hopens
        cases hsame
        exact hcloses b (List.mem_reverse.mp hb)
  · rw [Open.strand, Node.flattenAll_append]
    exact List.forall_mem_append.mpr ⟨hn.tight, List.forall_mem_cons.mpr ⟨trivial, hbefore.tight⟩⟩

theorem keyword_ne_of_closeNearest {keyword : Keyword} {raw : List (Glyph μ)}
    {nodes : List (Node μ)} {stack : List (Open μ)}
    (h : closeNearest keyword raw nodes stack = none) : ∀ o ∈ stack, o.keyword ≠ keyword := by
  induction stack generalizing nodes with
  | nil => exact List.forall_mem_nil _
  | cons o rest ih =>
    rw [closeNearest] at h
    split at h
    · cases h
    · next hne => exact List.forall_mem_cons.mpr ⟨hne, ih h⟩

end Open

namespace Parsing

/-- Whether nothing has been left over that could still be paired. -/
structure IsPending (p : Parsing μ) : Prop where
  nodes : Node.IsPending p.nodes
  stack : Open.Wait p.nodes p.stack

theorem IsPending.push {p : Parsing μ} {node : Node μ} (h : p.IsPending)
    (hopens : ∀ keyword argument, node.strayTag? ≠ some (.opens keyword argument))
    (hcloses : ∀ o ∈ p.stack, node.strayTag? ≠ some (.closes o.keyword))
    (htight : ∀ n ∈ node.flatten, n.IsTight) : (p.push node).IsPending := by
  refine ⟨h.nodes.cons hopens htight, h.stack.transfer fun n hn o ho hclose => ?_⟩
  rcases List.mem_cons.mp hn with rfl | hn
  · exact absurd hclose (hcloses o ho)
  · exact hn

/-- The tags that a closing tag goes past are left over inside the new pair. None of them has its
keyword. -/
theorem isPending_of_closeNearest {keyword : Keyword} {raw : List (Glyph μ)}
    {nodes : List (Node μ)} {stack : List (Open μ)} {p : Parsing μ}
    (h : Open.closeNearest keyword raw nodes stack = some p) (hn : Node.IsEnding nodes)
    (hopens : ∀ n ∈ nodes, ∀ argument, n.strayTag? ≠ some (.opens keyword argument))
    (hw : Open.Wait nodes stack) : p.IsPending := by
  -- Through the open tags, last first: each that is gone past is one more stray in the new body.
  induction stack generalizing nodes with
  | nil => cases h
  | cons o rest ih =>
    rw [Open.closeNearest] at h
    split at h
    · next hkeyword =>
      cases h
      obtain ⟨⟨-, hcloses, hbefore⟩, hrest⟩ := hw
      have htight : (Node.pair o.keyword o.argument o.raw nodes.reverse raw).IsTight := by
        refine ⟨hn.exhausted, fun n hmem tag htag heq => ?_⟩
        have hmem := List.mem_reverse.mp hmem
        cases tag with
        | opens k argument =>
          cases heq
          exact hopens n hmem argument (hkeyword ▸ htag)
        | closes k =>
          cases heq
          exact hcloses n hmem htag
        | placeholder name => cases heq
        | inherits parent => cases heq
      refine ⟨hbefore.cons (fun _ _ heq => nomatch heq) (List.forall_mem_cons.mpr
        ⟨htight, fun n hmem => hn.tight n (Node.mem_flattenAll_reverse.mp hmem)⟩), ?_⟩
      refine hrest.transfer fun n hmem o' _ hclose => ?_
      rcases List.mem_cons.mp hmem with rfl | hmem
      · cases hclose
      · exact List.mem_append_right _ hmem
    · next hne =>
      have hraw := Open.strayTag?_raw hw
      refine ih h (Open.isEnding_strand hn hw) ?_ hw.strand
      refine List.forall_mem_append.mpr ⟨hopens, List.forall_mem_cons.mpr ⟨fun argument heq => ?_,
        fun n hmem argument => hw.1.2.2.not_opens n hmem keyword argument⟩⟩
      rw [hraw] at heq
      cases heq
      exact hne rfl

theorem IsPending.step {p : Parsing μ} (h : p.IsPending) {l : Lexeme μ} (hl : l.IsSound) :
    (p.step l).IsPending := by
  have leaf : ∀ node : Node μ, node.strayTag? = none → node.flatten = [node] → node.IsTight →
      (p.push node).IsPending := by
    intro node hstray hflatten htight
    refine h.push (by simp [hstray]) (by simp [hstray]) ?_
    rw [hflatten]
    exact List.forall_mem_singleton.mpr htight
  match l, hl with
  | .text glyphs, _ => exact leaf _ rfl rfl trivial
  | .token ⟨.placeholder name, raw⟩, _ => exact leaf _ rfl rfl trivial
  | .token ⟨.inherits parent, raw⟩, _ => exact leaf _ rfl rfl trivial
  | .token ⟨.opens keyword argument, raw⟩, hl =>
    have hraw : Tag.ofWritten? (chars raw) = some (.opens keyword argument) :=
      Token.IsWritten.ofWritten? hl rfl
    exact ⟨Node.isPending_nil, ⟨hraw, List.forall_mem_nil _, h.nodes⟩, h.stack⟩
  | .token ⟨.closes keyword, raw⟩, hl =>
    have hraw : (Node.stray raw).strayTag? = some (.closes keyword) :=
      Token.IsWritten.ofWritten? hl rfl
    simp only [Parsing.step]
    cases hp : Open.closeNearest keyword raw p.nodes p.stack with
    | some q =>
      exact isPending_of_closeNearest hp h.nodes.isEnding
        (fun n hn argument => h.nodes.not_opens n hn keyword argument) h.stack
    | none =>
      refine h.push (by simp [hraw]) (fun o ho heq => ?_) (List.forall_mem_singleton.mpr trivial)
      rw [hraw] at heq
      cases heq
      exact Open.keyword_ne_of_closeNearest hp o ho rfl

theorem IsPending.foldl_step {p : Parsing μ} (h : p.IsPending) {ls : List (Lexeme μ)}
    (hs : ∀ l ∈ ls, l.IsSound) : (ls.foldl Parsing.step p).IsPending := by
  induction ls generalizing p with
  | nil => exact h
  | cons l ls ih =>
    obtain ⟨hl, hls⟩ := List.forall_mem_cons.mp hs
    exact ih (h.step hl) hls

theorem IsPending.finish {p : Parsing μ} (h : p.IsPending) :
    Node.Exhausted p.finish ∧ ∀ n ∈ Node.flattenAll p.finish, n.IsTight := by
  have ending : ∀ (stack : List (Open μ)) (nodes : List (Node μ)), Node.IsEnding nodes →
      Open.Wait nodes stack →
        Node.IsEnding (stack.foldl (fun nodes o => o.strand nodes) nodes) := by
    intro stack
    induction stack with
    | nil => intro nodes hn _; exact hn
    | cons o rest ih => intro nodes hn hw; exact ih _ (Open.isEnding_strand hn hw) hw.strand
  have hend := ending p.stack p.nodes h.nodes.isEnding h.stack
  exact ⟨hend.exhausted, fun n hn => hend.tight n (Node.mem_flattenAll_reverse.mp hn)⟩

end Parsing

/-- Parsing leaves no two tags over that could be partners. -/
theorem isTight_parseLexemes {ls : List (Lexeme μ)} (hs : ∀ l ∈ ls, l.IsSound) :
    Node.Exhausted (parseLexemes ls) ∧ ∀ n ∈ Node.flattenAll (parseLexemes ls), n.IsTight :=
  have hstart : Parsing.IsPending ({} : Parsing μ) := ⟨Node.isPending_nil, trivial⟩
  (hstart.foldl_step hs).finish

/-! ### Parsed templates -/

namespace Node

/-- What it is for nodes to pair the tags of a text. -/
structure PairUp (s : String) (nodes : List (Node Place)) : Prop where
  /-- A pair is a tag that opens and a later one that closes the same keyword. -/
  made : ∀ keyword argument opening body closing,
    pair keyword argument opening body closing ∈ flattenAll nodes →
      ⟨.opens keyword argument, opening⟩ ∈ tokenize s ∧ ⟨.closes keyword, closing⟩ ∈ tokenize s ∧
        (spanOf opening).stop ≤ (spanOf closing).start
  /-- A stray is a tag that opens or closes. -/
  left : ∀ raw, stray raw ∈ flattenAll nodes →
    ∃ tag : Tag, tag.isPaired ∧ ⟨tag, raw⟩ ∈ tokenize s ∧ (stray raw).ends = [⟨tag, raw⟩]
  /-- Of two nodes, the earlier one ends before the other begins, or has it between its tags. -/
  nested : (flattenAll nodes).Pairwise Clears
  /-- Every tag that opens or closes is in one pair, or is one stray. -/
  once : ∀ t ∈ tokenize s, t.tag.isPaired →
    ∃! i : Fin (flattenAll nodes).length, t ∈ ((flattenAll nodes).get i).ends
  /-- Outside of pairs, no stray opens what a later one closes. -/
  exhausted : Exhausted nodes
  /-- Nor does one inside a pair, and no stray there has the pair's keyword. -/
  tight : ∀ keyword argument opening body closing,
    pair keyword argument opening body closing ∈ flattenAll nodes →
      Exhausted body ∧ ∀ n ∈ body, ∀ tag, n.strayTag? = some tag → tag.keyword? ≠ some keyword

end Node

theorem pairUp_parseText (s : String) : Node.PairUp s (parseText s) := by
  have spells : Node.SpellsAll (parseText s) (lex (placed s)) := spellsAll_parseLexemes _
  have written : ∀ t ∈ tokenize s, t.IsWritten := fun t ht => isWritten_of_mem_lex ht
  have sound : ∀ l ∈ lex (placed s), l.IsSound := isSound_of_mem_lex
  obtain ⟨hexhausted, htight⟩ := isTight_parseLexemes sound
  refine ⟨?_, ?_, ?_, ?_, hexhausted, ?_⟩
  · intro keyword argument opening body closing hpair
    obtain ⟨part, ⟨inner, _, rfl⟩, hwithin⟩ := spells.exists_of_mem _ hpair
    have htags : [⟨.opens keyword argument, opening⟩, ⟨.closes keyword, closing⟩].Sublist
        (tokenize s) := by
      refine List.Sublist.trans ?_ (hwithin.sublist.filterMap Lexeme.token?)
      simp [Lexeme.token?]
    have horder := (ordered_tokenize s).2.sublist htags
    exact ⟨htags.subset (by simp), htags.subset (by simp),
      List.rel_of_pairwise_cons horder (List.mem_singleton_self _)⟩
  · intro raw hstray
    obtain ⟨part, ⟨tag, hpaired, rfl⟩, hwithin⟩ := spells.exists_of_mem _ hstray
    have hmem : ⟨tag, raw⟩ ∈ tokenize s := mem_tokensOf_of_mem hwithin (List.mem_singleton_self _)
    refine ⟨tag, hpaired, hmem, ?_⟩
    rw [Node.ends, (written _ hmem).ofWritten? hpaired]
    rfl
  · have hplaced : placed s = [] ++ Node.sourceAll (parseText s) ++ [] := by
      rw [parseText, sourceAll_parse, List.append_nil, List.nil_append]
    exact (spells.clearIn sound hplaced).clears
  · intro t ht hpaired
    have hperm := spells.perm_ends written
    have hnodup : ((tokenize s).filter (·.tag.isPaired)).Nodup := (nodup_tokenize s).filter _
    exact existsUnique_mem_of_nodup (hperm.nodup_iff.mpr hnodup)
      (hperm.mem_iff.mpr (List.mem_filter.mpr ⟨ht, hpaired⟩))
  · exact fun keyword argument opening body closing hpair => htight _ hpair

end Letterpress.Template
