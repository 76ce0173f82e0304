import Mathlib.Order.Bounds.Basic
import Letterpress.Proofs.Template.Joining
import Letterpress.Proofs.Template.Source
import Letterpress.Template.Check

/-!
# What the check accepts

The check counts braces and goes through the tags once, and stops at the first tag that closes what
was not opened last. Parsing never stops, and goes past open tags to find one that fits. Both agree
where it matters: a text passes if its braces match and parsing leaves no tag without a partner.
-/

namespace Letterpress.Template

variable {μ : Type}

/-- How many times a word can be found in a text if no two finds overlap: the text is cut at them. -/
def apartCounts (word cs : List Char) : Set Nat :=
  {n | ∃ gaps : List (List Char), gaps.length = n + 1 ∧ word.intercalate gaps = cs}

theorem countTwice_cons_cons (brace a b : Char) (cs : List Char) :
    countTwice brace (a :: b :: cs) =
      if a = brace ∧ b = brace then countTwice brace cs + 1 else countTwice brace (b :: cs) := by
  rw [countTwice]

/-- A character in front adds a find at most. -/
theorem countTwice_cons (brace a : Char) (cs : List Char) :
    countTwice brace cs ≤ countTwice brace (a :: cs) ∧
      countTwice brace (a :: cs) ≤ countTwice brace cs + 1 := by
  induction cs generalizing a with
  | nil => exact ⟨Nat.le_refl _, Nat.zero_le _⟩
  | cons b cs ih =>
    obtain ⟨hle, hlt⟩ := ih b
    rw [countTwice_cons_cons]
    split
    · exact ⟨hlt, Nat.succ_le_succ hle⟩
    · exact ⟨Nat.le_refl _, Nat.le_succ _⟩

theorem countTwice_append (brace : Char) (front cs : List Char) :
    countTwice brace cs ≤ countTwice brace (front ++ cs) := by
  induction front with
  | nil => exact Nat.le_refl _
  | cons a front ih => exact Nat.le_trans ih (countTwice_cons brace a _).1

theorem countTwice_mem (brace : Char) (cs : List Char) :
    countTwice brace cs ∈ apartCounts [brace, brace] cs := by
  fun_induction countTwice brace cs with
  | case1 a b rest h ih =>
    obtain ⟨gaps, hlength, rfl⟩ := ih
    have hgaps : gaps ≠ [] := fun hnil => by simp [hnil] at hlength
    refine ⟨[] :: gaps, by simp [hlength], ?_⟩
    rw [List.intercalate_cons_of_ne_nil hgaps, h.1, h.2]
    rfl
  | case2 a b rest h ih =>
    obtain ⟨gaps, hlength, hgaps⟩ := ih
    match gaps, hlength, hgaps with
    | [gap], hlength, hgaps =>
      rw [List.intercalate_singleton] at hgaps
      exact ⟨[a :: gap], by simpa using hlength, by rw [List.intercalate_singleton, hgaps]⟩
    | gap :: next :: gaps, hlength, hgaps =>
      rw [List.intercalate_cons_cons] at hgaps
      refine ⟨(a :: gap) :: next :: gaps, by simpa using hlength, ?_⟩
      rw [List.intercalate_cons_cons, ← hgaps]
      rfl
  | case3 cs => exact ⟨[cs], rfl, List.intercalate_singleton⟩

/-- Counted from the start, a find is never a loss. -/
theorem isGreatest_countTwice (brace : Char) (cs : List Char) :
    IsGreatest (apartCounts [brace, brace] cs) (countTwice brace cs) := by
  refine ⟨countTwice_mem brace cs, ?_⟩
  rintro n ⟨gaps, hlength, rfl⟩
  -- Behind the first gap stands a find, and what is in the gap takes none away.
  induction gaps generalizing n with
  | nil => cases hlength
  | cons gap gaps ih =>
    cases gaps with
    | nil =>
      cases Nat.succ.inj hlength
      exact Nat.zero_le _
    | cons next gaps =>
      have hfewer : (next :: gaps).length = n - 1 + 1 := by
        simp only [List.length_cons] at hlength ⊢
        omega
      have hrest := @ih (n - 1) hfewer
      rw [List.intercalate_cons_cons, List.append_assoc]
      calc n ≤ countTwice brace ([brace, brace].intercalate (next :: gaps)) + 1 := by omega
        _ = countTwice brace ([brace, brace] ++ [brace, brace].intercalate (next :: gaps)) := by
          rw [List.cons_append, List.singleton_append, countTwice_cons_cons, if_pos ⟨rfl, rfl⟩]
        _ ≤ _ := countTwice_append ..

/-! ### Going through the tags -/

theorem checkPairs_passed {t : Token Place} (h : t.tag.isPaired = false)
    (stack : List (Keyword × Token Place)) (ts : List (Token Place)) :
    checkPairs stack (t :: ts) = checkPairs stack ts := by
  obtain ⟨tag, raw⟩ := t
  cases tag with
  | opens keyword argument => cases h
  | closes keyword => cases h
  | placeholder name => cases stack <;> rfl
  | inherits parent => cases stack <;> rfl

theorem checkPairs_opens (keyword : Keyword) (argument : String) (raw : List (Glyph Place))
    (stack : List (Keyword × Token Place)) (ts : List (Token Place)) :
    checkPairs stack (⟨.opens keyword argument, raw⟩ :: ts) =
      checkPairs ((keyword, ⟨.opens keyword argument, raw⟩) :: stack) ts := by
  cases stack <;> rfl

theorem checkPairs_closes (keyword : Keyword) (opening : Token Place) (raw : List (Glyph Place))
    (stack : List (Keyword × Token Place)) (ts : List (Token Place)) :
    checkPairs ((keyword, opening) :: stack) (⟨.closes keyword, raw⟩ :: ts) =
      checkPairs stack ts := by
  rw [checkPairs]
  exact if_pos rfl

theorem exists_of_checkPairs_closes {keyword : Keyword} {raw : List (Glyph Place)}
    {stack : List (Keyword × Token Place)} {ts : List (Token Place)}
    (h : checkPairs stack (⟨.closes keyword, raw⟩ :: ts) = .ok ()) :
    ∃ opening rest, stack = (keyword, opening) :: rest ∧ checkPairs rest ts = .ok () := by
  match stack with
  | [] => cases h
  | (k, opening) :: rest =>
    rw [checkPairs] at h
    dsimp only at h
    split at h
    · next hk => exact ⟨opening, rest, by rw [hk], h⟩
    · cases h

namespace Node

mutual

theorem Spells.checkPairs : ∀ {node : Node Place} {ls : List (Lexeme Place)}, node.Spells ls →
    (∀ n ∈ node.flatten, n.isStray = false) → ∀ (stack : List (Keyword × Token Place))
      (ts : List (Token Place)),
        Template.checkPairs stack (tokensOf ls ++ ts) = Template.checkPairs stack ts
  | text _, _, h, _, _, _ => by
    cases h
    rfl
  | placeholder _ _, _, h, _, _, _ | inherits _ _, _, h, _, _, _ => by
    cases h
    exact checkPairs_passed rfl _ _
  | stray _, _, _, hn, _, _ => nomatch hn _ (List.mem_singleton_self _)
  | pair keyword argument opening body closing, _, ⟨inner, hbody, h⟩, hn, stack, ts => by
    cases h
    have hinner := hbody.checkPairs (fun n h => hn n (List.mem_cons_of_mem _ h))
    rw [List.cons_append, tokensOf_cons_token, tokensOf_append, List.cons_append,
      List.append_assoc, checkPairs_opens, hinner]
    exact checkPairs_closes ..

/-- Tags that all have partners leave the check where it was. -/
theorem SpellsAll.checkPairs : ∀ {nodes : List (Node Place)} {ls : List (Lexeme Place)},
    SpellsAll nodes ls → Paired nodes → ∀ (stack : List (Keyword × Token Place))
      (ts : List (Token Place)),
        Template.checkPairs stack (tokensOf ls ++ ts) = Template.checkPairs stack ts
  | [], _, h, _, _, _ => by
    cases h
    rfl
  | _ :: _, _, ⟨_, _, hnode, hrest, h⟩, hn, stack, ts => by
    cases h
    obtain ⟨hn, hns⟩ := paired_cons.mp hn
    rw [tokensOf_append, List.append_assoc, hnode.checkPairs hn, hrest.checkPairs hns]

end

end Node

namespace Parsing

/-- Whether the check, with these tags open, is where parsing is, and no tag has been given up. -/
structure Follows (p : Parsing μ) (stack : List (Keyword × Token Place)) : Prop where
  keywords : p.stack.map Open.keyword = stack.map Prod.fst
  nodes : Node.Paired p.nodes
  before : ∀ o ∈ p.stack, Node.Paired o.before

theorem Follows.push {p : Parsing μ} {stack : List (Keyword × Token Place)} (h : p.Follows stack)
    {node : Node μ} (hnode : ∀ n ∈ node.flatten, n.isStray = false) :
    (p.push node).Follows stack :=
  ⟨h.keywords, Node.paired_cons.mpr ⟨hnode, h.nodes⟩, h.before⟩

/-- A tag that the check lets close is the partner of the tag opened last. -/
theorem Follows.close {p : Parsing μ} {keyword : Keyword} {opening : Token Place}
    {stack : List (Keyword × Token Place)} (h : p.Follows ((keyword, opening) :: stack))
    (raw : List (Glyph μ)) : (p.step (.token ⟨.closes keyword, raw⟩)).Follows stack := by
  obtain ⟨nodes, _ | ⟨o, rest⟩⟩ := p
  · cases h.keywords
  · obtain ⟨hkeyword, hkeywords⟩ := List.cons.inj h.keywords
    obtain ⟨hbefore, hrest⟩ := List.forall_mem_cons.mp h.before
    have hstep : Parsing.step ⟨nodes, o :: rest⟩ (.token ⟨.closes keyword, raw⟩) =
        ⟨o.close nodes raw, rest⟩ := by
      simp only [Parsing.step, Open.closeNearest, if_pos hkeyword, Option.getD_some]
    rw [hstep]
    refine ⟨hkeywords, Node.paired_cons.mpr ⟨List.forall_mem_cons.mpr ⟨rfl, fun n hn => ?_⟩,
      hbefore⟩, hrest⟩
    exact h.nodes n (Node.mem_flattenAll_reverse.mp hn)

/-- What the check lets pass to the end leaves no tag open and none without a partner. -/
theorem Follows.paired_finish {ls : List (Lexeme Place)} :
    ∀ {p : Parsing Place} {stack : List (Keyword × Token Place)}, p.Follows stack →
      checkPairs stack (tokensOf ls) = .ok () → Node.Paired (ls.foldl Parsing.step p).finish := by
  induction ls with
  | nil =>
    intro p stack h hok
    cases stack with
    | cons => cases hok
    | nil =>
      have hnil : p.stack = [] := List.map_eq_nil_iff.mp h.keywords
      rw [List.foldl_nil, Parsing.finish, hnil]
      exact fun n hn => h.nodes n (Node.mem_flattenAll_reverse.mp hn)
  | cons l ls ih =>
    intro p stack h hok
    cases l with
    | text glyphs => exact ih (h.push (List.forall_mem_singleton.mpr rfl)) hok
    | token t =>
      obtain ⟨tag, raw⟩ := t
      rw [tokensOf_cons_token] at hok
      cases tag with
      | placeholder | inherits =>
        rw [checkPairs_passed rfl] at hok
        exact ih (h.push (List.forall_mem_singleton.mpr rfl)) hok
      | opens keyword argument =>
        rw [checkPairs_opens] at hok
        refine ih ⟨?_, List.forall_mem_nil _, List.forall_mem_cons.mpr ⟨h.nodes, h.before⟩⟩ hok
        exact congrArg (keyword :: ·) h.keywords
      | closes keyword =>
        obtain ⟨opening, rest, rfl, hrest⟩ := exists_of_checkPairs_closes hok
        exact ih (h.close raw) hrest

end Parsing

theorem checkPairs_eq_ok_iff (ls : List (Lexeme Place)) :
    checkPairs [] (tokensOf ls) = .ok () ↔ Node.Paired (parseLexemes ls) := by
  constructor
  · intro hok
    have hstart : Parsing.Follows ({} : Parsing Place) [] :=
      ⟨rfl, List.forall_mem_nil _, List.forall_mem_nil _⟩
    exact hstart.paired_finish hok
  · intro hpaired
    rw [← List.append_nil (tokensOf ls), (spellsAll_parseLexemes ls).checkPairs hpaired]
    rfl

/-- A text passes the check if its braces match and every tag that opens or closes has a partner. -/
theorem check_eq_ok_iff (s : String) :
    check s = .ok () ↔
      (∃ n, IsGreatest (apartCounts ['{', '{'] s.toList) n ∧
        IsGreatest (apartCounts ['}', '}'] s.toList) n) ∧ Node.Paired (parseText s) := by
  have hopening := isGreatest_countTwice '{' s.toList
  have hclosing := isGreatest_countTwice '}' s.toList
  have hcounts : (∃ n, IsGreatest (apartCounts ['{', '{'] s.toList) n ∧
      IsGreatest (apartCounts ['}', '}'] s.toList) n) ↔
        countTwice '{' s.toList = countTwice '}' s.toList := by
    constructor
    · rintro ⟨n, hn, hn'⟩
      exact (hopening.unique hn).trans (hn'.unique hclosing)
    · exact fun heq => ⟨_, hopening, heq ▸ hclosing⟩
  rw [hcounts, check]
  by_cases heq : countTwice '{' s.toList = countTwice '}' s.toList
  · simp only [heq, ne_eq, not_true_eq_false, ↓reduceIte, true_and]
    exact checkPairs_eq_ok_iff _
  · simp [heq]

end Letterpress.Template
