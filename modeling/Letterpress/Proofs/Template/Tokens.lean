import Mathlib.Data.List.DropRight
import Letterpress.Proofs.Template.Marks
import Letterpress.Proofs.Template.Places

/-!
# Which tags are found

The reader goes through a text once, and begins anew wherever braces open. What it finds can be told
without it. A tag stands out by what is between its braces and by the braces around: of braces in a
row that open, three are taken at a time, and the last two or three of them are the tag's own. The
tags that stand out are found, and no others.
-/

namespace Letterpress.Template

variable {μ : Type}

@[simp] theorem chars_nil : chars ([] : List (Glyph μ)) = [] := rfl

@[simp] theorem chars_cons (g : Glyph μ) (gs : List (Glyph μ)) :
    chars (g :: gs) = g.char :: chars gs :=
  rfl

/-- How many braces that open stand at the end. -/
def openRun (cs : List Char) : Nat := (cs.rtakeWhile (· = '{')).length

@[simp] theorem openRun_nil : openRun [] = 0 := by simp [openRun]

theorem openRun_concat (cs : List Char) : openRun (cs ++ ['{']) = openRun cs + 1 := by
  rw [openRun, List.rtakeWhile_concat_pos _ _ _ (by simp), List.length_append]
  rfl

theorem openRun_concat_of_ne {c : Char} (h : c ≠ '{') (cs : List Char) :
    openRun (cs ++ [c]) = 0 := by
  rw [openRun, List.rtakeWhile_concat_neg _ _ _ (by simpa using h)]
  rfl

/-- Characters in front count only if there are nothing but braces behind them. -/
theorem openRun_append (front cs : List Char) :
    openRun (front ++ cs) = openRun cs ∨
      (∀ c ∈ cs, c = '{') ∧ openRun (front ++ cs) = openRun front + openRun cs := by
  induction cs using List.reverseRecOn with
  | nil => exact .inr ⟨by simp, by simp⟩
  | append_singleton cs c ih =>
    rw [← List.append_assoc]
    by_cases hc : c = '{'
    · subst hc
      rw [openRun_concat, openRun_concat]
      rcases ih with h | ⟨hall, h⟩
      · exact .inl (by rw [h])
      · exact .inr ⟨by simpa [or_imp, forall_and] using hall, by omega⟩
    · exact .inl (by rw [openRun_concat_of_ne hc, openRun_concat_of_ne hc])

theorem openRun_eq_zero {cs : List Char} (h : cs.getLast? ≠ some '{') : openRun cs = 0 := by
  rcases List.eq_nil_or_concat cs with rfl | ⟨front, c, rfl⟩
  · exact openRun_nil
  · rw [List.concat_eq_append] at h ⊢
    exact openRun_concat_of_ne (by simpa using h) front

theorem pair_infix_concat {c a b : Char} {cs : List Char} :
    [c, c] <:+: cs ++ [a, b] ↔ [c, c] <:+: cs ++ [a] ∨ a = c ∧ b = c := by
  have hlast : [c, c] <:+ cs ++ [a, b] ↔ a = c ∧ b = c := by
    constructor
    · intro h
      have hends := List.suffix_of_suffix_length_le h (List.suffix_append cs [a, b]) (by simp)
      have hsame := hends.eq_of_length (by simp)
      simp only [List.cons.injEq, and_true] at hsame
      exact ⟨hsame.1.symm, hsame.2.symm⟩
    · rintro ⟨rfl, rfl⟩
      exact List.suffix_append cs _
  rw [List.append_cons cs a [b], List.infix_concat_iff, ← List.append_cons, hlast, or_comm]

theorem not_pair_infix_take_one (c : Char) (cs : List Char) : ¬[c, c] <:+: cs.take 1 := by
  intro h
  have hlength := h.length_le
  simp only [List.length_take, List.length_cons, List.length_nil] at hlength
  omega

theorem not_pair_infix_of_not_mem {c : Char} {cs : List Char} (h : c ∉ cs) :
    ¬[c, c] <:+: cs :=
  fun hin => h (hin.subset (List.mem_cons_self ..))

theorem not_pair_infix_concat {c : Char} {cs : List Char} (h : c ∉ cs) :
    ¬[c, c] <:+: cs ++ [c] := by
  intro hin
  have hcount := hin.sublist.count_le c
  simp [List.count_eq_zero_of_not_mem h] at hcount

/-- Whether the braces on both sides of a tag's content are its own, if `before` braces that open
stand in a row before them. -/
inductive Tag.Delimits (tag : Tag) (before : Nat) (behind : List Char) :
    List Char → List Char → Prop
  | two (hbefore : before % 3 = 0) : Delimits tag before behind ['{', '{'] ['}', '}']
  | three (hbefore : before % 3 = 0) (htag : tag.isPlaceholder) :
      Delimits tag before behind ['{', '{', '{'] ['}', '}', '}']
  /-- Three braces that are not closed by three leave their first one to the text. -/
  | inner (hbefore : before % 3 = 1) (hbehind : behind.head? ≠ some '}') :
      Delimits tag before behind ['{', '{'] ['}', '}']

/-- Whether a tag is written as such, and the texts before it and behind it take none of its
braces. -/
def Token.StandsOut (t : Token μ) (before behind : List Char) : Prop :=
  ∃ braces content ends, chars t.raw = braces ++ content ++ ends ∧
    Tag.ofContent? content = some t.tag ∧ ¬['{', '{'] <:+: content ∧
      ¬['}', '}'] <:+: content ++ ['}'] ∧ t.tag.Delimits (openRun before) behind braces ends

/-- Whether a tag stands out somewhere in a text. -/
def Token.StandsOutIn (t : Token μ) (gs : List (Glyph μ)) : Prop :=
  ∃ before behind, gs = before ++ t.raw ++ behind ∧ t.StandsOut (chars before) (chars behind)

theorem exists_trim_cons {c : Char} (h : Text.isBlank c = false) (cs : List Char) :
    ∃ rest, Text.trim (c :: cs) = c :: rest := by
  have hstart : Text.trimStart (c :: cs) = c :: cs := by simp [Text.trimStart, h]
  rw [Text.trim, hstart, Text.trimEnd, List.reverse_cons]
  rcases List.eq_nil_or_concat (cs.reverse.dropWhile Text.isBlank) with hnil | ⟨front, d, hfront⟩
  · exact ⟨[], by simp [List.dropWhile_append, hnil, h]⟩
  · exact ⟨(front ++ [d]).reverse, by simp [List.dropWhile_append, hfront]⟩

/-- The content of a tag does not begin with a brace. -/
theorem Tag.head?_of_ofContent? {content : List Char} {tag : Tag}
    (h : ofContent? content = some tag) : content.head? ≠ some '{' := by
  intro hhead
  obtain ⟨cs, rfl⟩ := List.head?_eq_some_iff.mp hhead
  obtain ⟨rest, hrest⟩ := exists_trim_cons (show Text.isBlank '{' = false by decide) cs
  have hword : (Text.splitWord ('{' :: rest)).1.head? = some '{' := by
    simp [Text.splitWord, Text.trimStart, show Text.isBlank '{' = false by decide]
  have hname : isName ('{' :: rest) = false := rfl
  rw [ofContent?, hrest] at h
  split at h
  · next heq => cases heq
  · next heq => cases heq
  · dsimp only at h
    rw [if_neg (fun heq => by rw [heq] at hword; cases hword), hname] at h
    cases h

@[simp] theorem tokensOf_prepend (glyphs : List (Glyph μ)) (ls : List (Lexeme μ)) :
    tokensOf (Lexeme.prepend glyphs ls) = tokensOf ls := by
  unfold Lexeme.prepend
  split <;> rfl

theorem mem_tokensOf_settle {tag : Option Tag} {raw : List (Glyph μ)} {ls : List (Lexeme μ)}
    {t : Token μ} :
    t ∈ tokensOf (settle tag raw ls) ↔ tag = some t.tag ∧ t.raw = raw ∨ t ∈ tokensOf ls := by
  cases tag with
  | none => simp [settle]
  | some tag =>
    obtain ⟨tag', raw'⟩ := t
    simp [settle, eq_comm]

namespace Reading

/-- What a reading knows of the text before what it holds, and of the text to come. -/
def Fits (before next : List Char) : Reading μ → Prop
  | text => next.head? = some '{' → openRun before = 0
  | tag extra braces content =>
    (∀ e ∈ extra, e.char = '{') ∧ chars braces = ['{', '{'] ∧ openRun before % 3 = 0 ∧
      ¬['{', '{'] <:+: chars content.reverse ++ next.take 1 ∧
        ¬['}', '}'] <:+: chars content.reverse ++ next.take 1 ∧
          (extra = none → (chars content.reverse ++ next.take 1).head? ≠ some '{')

theorem fits_two {before next : List Char} {braces : List (Glyph μ)} (h : openRun before % 3 = 0)
    (hbraces : chars braces = ['{', '{']) (hnext : next.head? ≠ some '{') :
    (tag none braces []).Fits before next := by
  refine ⟨by simp, hbraces, h, not_pair_infix_take_one _ _, not_pair_infix_take_one _ _, fun _ => ?_⟩
  cases next with
  | nil => simp
  | cons c next => exact hnext

theorem fits_three {before : List Char} {e : Glyph μ} {braces : List (Glyph μ)}
    (h : openRun before % 3 = 0) (he : e.char = '{') (hbraces : chars braces = ['{', '{'])
    (next : List Char) : (tag (some e) braces []).Fits before next :=
  ⟨by simp [he], hbraces, h, not_pair_infix_take_one _ _, not_pair_infix_take_one _ _, by simp⟩

theorem fits_behind {g : Glyph μ} (h : g.char ≠ '{') (seen : List (Glyph μ)) (next : List Char) :
    (text : Reading μ).Fits (chars (seen ++ [g])) next := by
  intro _
  rw [chars_append]
  exact openRun_concat_of_ne h _

namespace Fits

variable {r : Reading μ} {e : Glyph μ} {extra : Option (Glyph μ)}
  {braces content seen : List (Glyph μ)} {before next : List Char}

/-- Where braces open, those in a row before them have been taken three at a time. -/
theorem openRun_held (h : r.Fits (chars seen) ('{' :: next)) :
    openRun (chars (seen ++ r.held)) % 3 = 0 := by
  cases r with
  | text =>
    have hseen := h rfl
    simp [held, hseen]
  | tag extra braces content =>
    obtain ⟨he, hbraces, hseen, hopen, -, hhead⟩ := h
    cases content with
    | nil =>
      cases extra with
      | none => exact absurd rfl (hhead rfl)
      | some e =>
        have hheld : chars (seen ++ (tag (some e) braces []).held) =
            chars seen ++ ['{'] ++ ['{'] ++ ['{'] := by
          simp [held, hbraces, show e.char = '{' from he e rfl]
        rw [hheld, openRun_concat, openRun_concat, openRun_concat]
        omega
    | cons a content =>
      have ha : a.char ≠ '{' := fun ha => hopen ⟨chars content.reverse, [], by simp [ha]⟩
      have hheld : chars (seen ++ (tag extra braces (a :: content)).held) =
          chars (seen ++ (tag extra braces content).held) ++ [a.char] := by
        simp [held]
      rw [hheld, openRun_concat_of_ne ha]

theorem openRun_extra (h : (tag (some e) braces content).Fits (chars seen) next) :
    openRun (chars (seen ++ [e])) % 3 = 1 := by
  have hseen := h.2.2.1
  rw [chars_append, chars_cons, h.1 e rfl, chars_nil, openRun_concat]
  omega

theorem cons {a b : Glyph μ} {gs : List (Glyph μ)}
    (h : (tag extra braces content).Fits before (chars (a :: b :: gs)))
    (hopen : ¬(a.char = '{' ∧ b.char = '{')) (hclose : ¬(a.char = '}' ∧ b.char = '}')) :
    (tag extra braces (a :: content)).Fits before (chars (b :: gs)) := by
  obtain ⟨he, hbraces, hbefore, hopens, hcloses, hhead⟩ := h
  have hnext : chars (a :: content).reverse ++ (chars (b :: gs)).take 1 =
      chars content.reverse ++ [a.char, b.char] := by simp
  refine ⟨he, hbraces, hbefore, ?_, ?_, fun hnone => ?_⟩
  · rw [hnext, pair_infix_concat]
    exact fun hin => hin.elim hopens hopen
  · rw [hnext, pair_infix_concat]
    exact fun hin => hin.elim hcloses hclose
  · have := hhead hnone
    rw [hnext]
    simpa using this

/-- Where braces close, the content is a tag's own, and the braces tell whether the tag stands
out. -/
theorem standsOut {t : Token μ} (h : (tag extra braces content).Fits before ('}' :: next))
    (htag : Tag.ofContent? (chars content.reverse) = some t.tag)
    {opening ends outer behind : List Char}
    (hraw : chars t.raw = opening ++ chars content.reverse ++ ends)
    (hdelimits : t.tag.Delimits (openRun outer) behind opening ends) : t.StandsOut outer behind := by
  obtain ⟨-, -, -, hopens, hcloses, -⟩ := h
  exact ⟨_, _, _, hraw, htag, fun hin => hopens (hin.trans (List.prefix_append ..).isInfix), hcloses,
    hdelimits⟩

end Fits

end Reading

theorem standsOutIn_of_mem_lexFrom (r : Reading μ) (gs : List (Glyph μ)) :
    ∀ seen : List (Glyph μ), r.Fits (chars seen) (chars gs) →
      ∀ t ∈ tokensOf (lexFrom r gs), t.StandsOutIn (seen ++ r.held ++ gs) := by
  -- What a reading knows is kept from glyph to glyph; where a tag ends it is all that is needed.
  fun_induction lexFrom r gs with
  | case1 r => simp [show tokensOf ([] : List (Lexeme μ)) = [] from rfl]
  | case2 r a => simp [show tokensOf ([] : List (Lexeme μ)) = [] from rfl]
  | case3 r a b rest h ih =>
    intro seen hr t ht
    rw [tokensOf_prepend] at ht
    have hopens : r.Fits (chars seen) ('{' :: b.char :: chars rest) := by simpa [h] using hr
    have hheld := hopens.openRun_held
    cases rest with
    | nil =>
      simpa [Reading.held] using ih _ (Reading.fits_two hheld (by simp [h]) (by simp)) t ht
    | cons c rest =>
      obtain ⟨ihOpen, ihPlain⟩ := ih
      by_cases hc : c.char = '{'
      · simp only [hc, ↓reduceIte] at ht
        simpa [Reading.held] using
          ihOpen _ (Reading.fits_three hheld h.1 (by simp [h, hc]) _) t ht
      · simp only [hc, ↓reduceIte] at ht
        simpa [Reading.held] using
          ihPlain _ (Reading.fits_two hheld (by simp [h]) (by simpa using hc)) t ht
  | case4 a b rest h ih =>
    intro seen hr t ht
    rw [tokensOf_prepend] at ht
    have hfits : (Reading.text : Reading μ).Fits (chars (seen ++ [a])) (chars (b :: rest)) :=
      fun hb => Reading.fits_behind (fun ha => h ⟨ha, by simpa using hb⟩) _ _ hb
    simpa [Reading.held] using ih _ hfits t ht
  | case5 a b rest h braces content hclose tag raw ih =>
    intro seen hr t ht
    rcases mem_tokensOf_settle.mp ht with ⟨htag, hraw⟩ | ht
    · have hr : (Reading.tag none braces content).Fits (chars seen) ('}' :: '}' :: chars rest) := by
        simpa [hclose] using hr
      refine ⟨seen, rest, by simp [hraw, raw, Reading.held], hr.standsOut htag ?_ (.two hr.2.2.1)⟩
      simp [hraw, raw, hr.2.1, hclose]
    · have hseen := ih (seen ++ (Reading.tag none braces content).held ++ [a] ++ [b])
        (Reading.fits_behind (by simp [hclose]) _ _) t ht
      simpa [Reading.held] using hseen
  | case6 a b h braces content hclose tag raw e ih =>
    intro seen hr t ht
    rw [tokensOf_prepend] at ht
    rcases mem_tokensOf_settle.mp ht with ⟨htag, hraw⟩ | ht
    · have hr : (Reading.tag (some e) braces content).Fits (chars seen) ['}', '}'] := by
        simpa [hclose] using hr
      refine ⟨seen ++ [e], [], by simp [hraw, raw, Reading.held], hr.standsOut htag ?_
        (.inner hr.openRun_extra (by simp))⟩
      simp [hraw, raw, hr.2.1, hclose]
    · simp [lexFrom, Reading.held, Lexeme.prepend, tokensOf] at ht
  | case7 a b h braces content hclose tag raw e c rest hc ih =>
    intro seen hr t ht
    rcases mem_tokensOf_settle.mp ht with ⟨htag, hraw⟩ | ht
    · have hr : (Reading.tag (some e) braces content).Fits (chars seen)
          ('}' :: '}' :: '}' :: chars rest) := by
        simpa [hclose, hc] using hr
      obtain ⟨htag, hplaceholder⟩ := Option.filter_eq_some_iff.mp htag
      refine ⟨seen, rest, by simp [hraw, raw, Reading.held], hr.standsOut htag ?_
        (.three hr.2.2.1 hplaceholder)⟩
      simp [hraw, raw, hr.2.1, hr.1 e rfl, hclose, hc]
    · have hseen := ih (seen ++ (Reading.tag (some e) braces content).held ++ [a] ++ [b] ++ [c])
        (Reading.fits_behind (by simp [hc]) _ _) t ht
      simpa [Reading.held] using hseen
  | case8 a b h braces content hclose tag raw e c rest hc ih =>
    intro seen hr t ht
    rw [tokensOf_prepend] at ht
    rcases mem_tokensOf_settle.mp ht with ⟨htag, hraw⟩ | ht
    · have hr : (Reading.tag (some e) braces content).Fits (chars seen)
          ('}' :: '}' :: c.char :: chars rest) := by
        simpa [hclose] using hr
      refine ⟨seen ++ [e], c :: rest, by simp [hraw, raw, Reading.held], hr.standsOut htag ?_
        (.inner hr.openRun_extra (by simpa using hc))⟩
      simp [hraw, raw, hr.2.1, hclose]
    · have hseen := ih (seen ++ (Reading.tag (some e) braces content).held ++ [a] ++ [b])
        (Reading.fits_behind (by simp [hclose]) _ _) t ht
      simpa [Reading.held] using hseen
  | case9 a b rest h extra braces content hclose ih =>
    intro seen hr t ht
    simpa [Reading.held] using ih _ (hr.cons h hclose) t ht

/-! ### What stands out is found -/

/-- Whether braces that open can begin here. -/
def Opens (gs : List (Glyph μ)) : Prop := (chars gs).head? = some '{'

/-- Whether a text goes on with `o` at some place, and of the braces in a row before it three are
taken at a time. -/
def Reaches (gs o : List (Glyph μ)) : Prop :=
  ∃ before, gs = before ++ o ∧ openRun (chars before) % 3 = 0

theorem openRun_of_not_opens {gs o before : List (Glyph μ)} (h : gs = before ++ o) (ho : Opens o)
    (hgs : ¬Opens gs) (front : List Char) :
    openRun (front ++ chars before) = openRun (chars before) := by
  refine (openRun_append front (chars before)).resolve_right fun hall => hgs ?_
  cases before with
  | nil => exact h ▸ ho
  | cons d before =>
    rw [h, Opens, List.cons_append, chars_cons, hall.1 d.char (by simp)]
    rfl

namespace Reaches

variable {x a b c : Glyph μ} {gs o : List (Glyph μ)}

theorem tail (h : Reaches (x :: gs) o) (ho : Opens o) (hx : x.char = '{' → ¬Opens gs) :
    x :: gs = o ∨ Reaches gs o := by
  obtain ⟨before, hgs, hrun⟩ := h
  cases before with
  | nil => exact .inl hgs
  | cons _ before =>
    obtain ⟨rfl, rfl⟩ := List.cons.inj hgs
    refine .inr ⟨before, rfl, ?_⟩
    have hcons : openRun (chars (x :: before)) = openRun (chars before) := by
      by_cases hbrace : x.char = '{'
      · exact openRun_of_not_opens rfl ho (hx hbrace) [x.char]
      · rcases openRun_append [x.char] (chars before) with h | ⟨-, h⟩
        · exact h
        · rwa [show openRun [x.char] = 0 from openRun_concat_of_ne hbrace [], Nat.zero_add] at h
    rwa [hcons] at hrun

theorem tail_of_ne (h : Reaches (x :: gs) o) (ho : Opens o) (hx : x.char ≠ '{') :
    Reaches gs o := by
  refine (h.tail ho fun hbrace => absurd hbrace hx).resolve_left ?_
  rintro rfl
  exact hx (by simpa [Opens] using ho)

theorem behind_two (h : Reaches (a :: b :: gs) o) (ho : Opens o)
    (hab : a.char = '{' ∧ b.char = '{') (hgs : ¬Opens gs) :
    a :: b :: gs = o ∨ Reaches gs o := by
  obtain ⟨before, hsplit, hrun⟩ := h
  match before with
  | [] => exact .inl hsplit
  | [_] =>
    obtain ⟨rfl, -⟩ := List.cons.inj hsplit
    simp [hab, show openRun ['{'] = 1 by decide] at hrun
  | _ :: _ :: before =>
    obtain ⟨rfl, rfl, rfl⟩ : a = _ ∧ b = _ ∧ gs = before ++ o := by simpa using hsplit
    refine .inr ⟨before, rfl, ?_⟩
    rwa [← openRun_of_not_opens rfl ho hgs [a.char, b.char]]

theorem behind_three (h : Reaches (a :: b :: c :: gs) o)
    (habc : a.char = '{' ∧ b.char = '{' ∧ c.char = '{') :
    a :: b :: c :: gs = o ∨ Reaches gs o := by
  obtain ⟨before, hsplit, hrun⟩ := h
  match before with
  | [] => exact .inl hsplit
  | [_] =>
    obtain ⟨rfl, -⟩ := List.cons.inj hsplit
    simp [habc, show openRun ['{'] = 1 by decide] at hrun
  | [_, _] =>
    obtain ⟨rfl, rfl, -⟩ : a = _ ∧ b = _ ∧ c :: gs = o := by simpa using hsplit
    simp [habc, show openRun ['{', '{'] = 2 by decide] at hrun
  | _ :: _ :: _ :: before =>
    obtain ⟨rfl, rfl, rfl, rfl⟩ : a = _ ∧ b = _ ∧ c = _ ∧ gs = before ++ o := by simpa using hsplit
    refine .inr ⟨before, rfl, ?_⟩
    have hthree : openRun ['{', '{', '{'] = 3 := by decide
    rw [chars_cons, chars_cons, chars_cons, habc.1, habc.2.1, habc.2.2] at hrun
    rcases openRun_append ['{', '{', '{'] (chars before) with h | ⟨-, h⟩ <;>
      simp only [List.cons_append, List.nil_append] at h <;> omega

end Reaches

theorem exists_lexFrom_of_reaches {gs o : List (Glyph μ)} (r : Reading μ) (ho : Opens o)
    (h : Reaches gs o) :
    gs = o ∨ ∃ r' : Reading μ, tokensOf (lexFrom r' o) ⊆ tokensOf (lexFrom r gs) := by
  have next : ∀ {r : Reading μ} {gs : List (Glyph μ)} {ls : List (Lexeme μ)},
      (gs = o ∨ ∃ r' : Reading μ, tokensOf (lexFrom r' o) ⊆ tokensOf (lexFrom r gs)) →
        tokensOf (lexFrom r gs) ⊆ tokensOf ls →
          ∃ r' : Reading μ, tokensOf (lexFrom r' o) ⊆ tokensOf ls := by
    rintro r gs ls (rfl | ⟨r', hr'⟩) hls
    · exact ⟨r, hls⟩
    · exact ⟨r', List.Subset.trans hr' hls⟩
  fun_induction lexFrom r gs with
  | case1 r =>
    obtain ⟨before, hgs, -⟩ := h
    exact .inl (List.append_eq_nil_iff.mp hgs.symm).2.symm
  | case2 r a =>
    obtain ⟨before, hgs, -⟩ := h
    cases before with
    | nil => exact .inl hgs
    | cons d before => simp_all [Opens]
  | case3 r a b rest hab ih =>
    cases rest with
    | nil =>
      refine (h.behind_two ho hab (by simp [Opens])).imp_right fun h => next (ih h) ?_
      rw [tokensOf_prepend]
      exact List.Subset.refl _
    | cons c rest =>
      obtain ⟨ihOpen, ihPlain⟩ := ih
      by_cases hc : c.char = '{'
      · refine (h.behind_three ⟨hab.1, hab.2, hc⟩).imp_right fun h => next (ihOpen h) ?_
        simp [hc]
      · refine (h.behind_two ho hab (by simpa [Opens] using hc)).imp_right fun h =>
          next (ihPlain h) ?_
        simp [hc]
  | case4 a b rest hab ih =>
    refine (h.tail ho fun ha hb => hab ⟨ha, by simpa [Opens] using hb⟩).imp_right fun h =>
      next (ih h) ?_
    simp
  | case5 a b rest hab braces content hclose tag raw ih =>
    have hrest := (h.tail_of_ne ho (by simp [hclose])).tail_of_ne ho (by simp [hclose])
    exact .inr (next (ih hrest) fun t ht => mem_tokensOf_settle.mpr (.inr ht))
  | case6 a b hab braces content hclose tag raw e ih =>
    have hrest := (h.tail_of_ne ho (by simp [hclose])).tail_of_ne ho (by simp [hclose])
    refine .inr (next (ih hrest) fun t ht => ?_)
    rw [tokensOf_prepend]
    exact mem_tokensOf_settle.mpr (.inr ht)
  | case7 a b hab braces content hclose tag raw e c rest hc ih =>
    have hrest := ((h.tail_of_ne ho (by simp [hclose])).tail_of_ne ho (by simp [hclose])).tail_of_ne
      ho (by simp [hc])
    exact .inr (next (ih hrest) fun t ht => mem_tokensOf_settle.mpr (.inr ht))
  | case8 a b hab braces content hclose tag raw e c rest hc ih =>
    have hrest := (h.tail_of_ne ho (by simp [hclose])).tail_of_ne ho (by simp [hclose])
    refine .inr (next (ih hrest) fun t ht => ?_)
    rw [tokensOf_prepend]
    exact mem_tokensOf_settle.mpr (.inr ht)
  | case9 a b rest hab extra braces content hclose ih =>
    exact (h.tail ho fun ha hb => hab ⟨ha, by simpa [Opens] using hb⟩).imp_right fun h =>
      next (ih h) (List.Subset.refl _)

/-- Where a tag's braces open, the reader begins anew, whatever it has read. -/
theorem mem_lex_append {t : Token μ} {before o : List (Glyph μ)} (ho : Opens o)
    (hrun : openRun (chars before) % 3 = 0) (h : ∀ r : Reading μ, t ∈ tokensOf (lexFrom r o)) :
    t ∈ tokensOf (lex (before ++ o)) := by
  rcases exists_lexFrom_of_reaches .text ho ⟨before, rfl, hrun⟩ with heq | ⟨r, hr⟩
  · rw [heq]
    exact h .text
  · exact hr (h r)

/-- Content in which no braces open or close is read as it is. -/
theorem lexFrom_content {extra : Option (Glyph μ)} {braces acc content o : List (Glyph μ)}
    (ho : (chars o).head? = some '}') (hopen : ¬['{', '{'] <:+: chars content)
    (hclose : ¬['}', '}'] <:+: chars content ++ ['}']) :
    lexFrom (.tag extra braces acc) (content ++ o) =
      lexFrom (.tag extra braces (content.reverse ++ acc)) o := by
  induction content generalizing acc with
  | nil => rfl
  | cons a content ih =>
    have hcontent := @ih (a :: acc)
      (fun h => hopen (h.trans (List.infix_cons (List.infix_refl _))))
      (fun h => hclose (h.trans (List.infix_cons (List.infix_refl _))))
    have hnext : ∃ b rest, content ++ o = b :: rest ∧ ¬(a.char = '{' ∧ b.char = '{') ∧
        ¬(a.char = '}' ∧ b.char = '}') := by
      cases content with
      | nil =>
        cases o with
        | nil => simp at ho
        | cons b o =>
          have hb : b.char = '}' := by simpa using ho
          refine ⟨b, o, rfl, by simp [hb], fun hab => hclose ?_⟩
          simp [hab.1]
      | cons b content =>
        refine ⟨b, content ++ o, rfl, fun hab => hopen ?_, fun hab => hclose ?_⟩
        · exact ⟨[], chars content, by simp [hab]⟩
        · exact ⟨[], chars content ++ ['}'], by simp [hab]⟩
    obtain ⟨b, rest, hrest, hab, hab'⟩ := hnext
    rw [List.cons_append, hrest, lexFrom.eq_def]
    simp only [hab, hab', ↓reduceIte]
    rw [← hrest, hcontent]
    simp

theorem tokensOf_lexFrom_two (r : Reading μ) {a b : Glyph μ} {gs : List (Glyph μ)}
    (h : a.char = '{' ∧ b.char = '{') (hgs : ¬Opens gs) :
    tokensOf (lexFrom r (a :: b :: gs)) = tokensOf (lexFrom (.tag none [a, b] []) gs) := by
  rw [lexFrom.eq_def]
  cases gs with
  | nil => simp [h]
  | cons c gs =>
    have hc : c.char ≠ '{' := by simpa [Opens] using hgs
    simp [h, hc]

theorem tokensOf_lexFrom_three (r : Reading μ) {a b c : Glyph μ} (gs : List (Glyph μ))
    (h : a.char = '{' ∧ b.char = '{' ∧ c.char = '{') :
    tokensOf (lexFrom r (a :: b :: c :: gs)) = tokensOf (lexFrom (.tag (some a) [b, c] []) gs) := by
  rw [lexFrom.eq_def]
  simp [h]

section

variable {t : Token μ} {e a b c x y z : Glyph μ} {content behind : List (Glyph μ)}
  (htag : Tag.ofContent? (chars content) = some t.tag) (hopen : ¬['{', '{'] <:+: chars content)
  (hclose : ¬['}', '}'] <:+: chars content ++ ['}'])

include htag hopen hclose

theorem mem_lexFrom_two (r : Reading μ) (hab : a.char = '{' ∧ b.char = '{')
    (hxy : x.char = '}' ∧ y.char = '}') (hraw : t.raw = [a, b] ++ content ++ [x, y]) :
    t ∈ tokensOf (lexFrom r (t.raw ++ behind)) := by
  have hend : (chars (x :: y :: behind)).head? = some '}' := by simp [hxy]
  have hcontent : ¬Opens (content ++ x :: y :: behind) := by
    have hhead := Tag.head?_of_ofContent? htag
    cases content with
    | nil => simp [Opens, hxy]
    | cons c content => simpa [Opens] using hhead
  have hsplit : t.raw ++ behind = a :: b :: (content ++ x :: y :: behind) := by simp [hraw]
  rw [hsplit, tokensOf_lexFrom_two r hab hcontent, lexFrom_content hend hopen hclose,
    lexFrom.eq_def]
  simp only [hxy, and_self, ↓reduceIte]
  refine mem_tokensOf_settle.mpr (.inl ⟨?_, ?_⟩)
  · simpa using htag
  · simp [hraw]

theorem mem_lexFrom_three (r : Reading μ) (habc : a.char = '{' ∧ b.char = '{' ∧ c.char = '{')
    (hxyz : x.char = '}' ∧ y.char = '}' ∧ z.char = '}') (hplaceholder : t.tag.isPlaceholder)
    (hraw : t.raw = [a, b, c] ++ content ++ [x, y, z]) :
    t ∈ tokensOf (lexFrom r (t.raw ++ behind)) := by
  have hend : (chars (x :: y :: z :: behind)).head? = some '}' := by simp [hxyz]
  have hsplit : t.raw ++ behind = a :: b :: c :: (content ++ x :: y :: z :: behind) := by
    simp [hraw]
  rw [hsplit, tokensOf_lexFrom_three r _ habc, lexFrom_content hend hopen hclose, lexFrom.eq_def]
  simp only [hxyz, and_self, ↓reduceIte]
  refine mem_tokensOf_settle.mpr (.inl ⟨?_, ?_⟩)
  · exact Option.filter_eq_some_iff.mpr ⟨by simpa using htag, hplaceholder⟩
  · simp [hraw]

theorem mem_lexFrom_inner (r : Reading μ) (he : e.char = '{') (hab : a.char = '{' ∧ b.char = '{')
    (hxy : x.char = '}' ∧ y.char = '}') (hbehind : (chars behind).head? ≠ some '}')
    (hraw : t.raw = [a, b] ++ content ++ [x, y]) :
    t ∈ tokensOf (lexFrom r (e :: t.raw ++ behind)) := by
  have hend : (chars (x :: y :: behind)).head? = some '}' := by simp [hxy]
  have hsplit : e :: t.raw ++ behind = e :: a :: b :: (content ++ x :: y :: behind) := by
    simp [hraw]
  have hsettle : ∀ ls : List (Lexeme μ), t ∈ tokensOf (Lexeme.prepend [e]
      (settle (Tag.ofContent? (chars (content.reverse ++ []).reverse))
        ([a, b] ++ (content.reverse ++ []).reverse ++ [x, y]) ls)) := by
    intro ls
    rw [tokensOf_prepend]
    exact mem_tokensOf_settle.mpr (.inl ⟨by simpa using htag, by simp [hraw]⟩)
  rw [hsplit, tokensOf_lexFrom_three r _ ⟨he, hab⟩, lexFrom_content hend hopen hclose,
    lexFrom.eq_def]
  simp only [hxy, and_self, ↓reduceIte]
  cases behind with
  | nil => exact hsettle _
  | cons d behind =>
    have hd : d.char ≠ '}' := by simpa using hbehind
    simp only [hd, ↓reduceIte]
    exact hsettle _

end

theorem mem_of_standsOutIn {t : Token μ} {gs : List (Glyph μ)} (h : t.StandsOutIn gs) :
    t ∈ tokensOf (lex gs) := by
  obtain ⟨before, behind, rfl, opening, content, ends, hraw, htag, hopen, hclose, hdelimits⟩ := h
  obtain ⟨front, es, hfront, hcontents, hes⟩ := List.map_eq_append_iff.mp hraw
  obtain ⟨bs, cs, rfl, hbs, rfl⟩ := List.map_eq_append_iff.mp hcontents
  rw [List.append_assoc]
  cases hdelimits with
  | two hrun =>
    obtain ⟨a, b, rfl, hab⟩ : ∃ a b, bs = [a, b] ∧ a.char = '{' ∧ b.char = '{' := by
      simpa [List.map_eq_cons_iff] using hbs
    obtain ⟨x, y, rfl, hxy⟩ : ∃ x y, es = [x, y] ∧ x.char = '}' ∧ y.char = '}' := by
      simpa [List.map_eq_cons_iff] using hes
    refine mem_lex_append ?_ hrun fun r => mem_lexFrom_two htag hopen hclose r hab hxy hfront
    simp [Opens, hfront, hab]
  | three hrun hplaceholder =>
    obtain ⟨a, b, c, rfl, habc⟩ : ∃ a b c, bs = [a, b, c] ∧ a.char = '{' ∧ b.char = '{' ∧
        c.char = '{' := by
      simpa [List.map_eq_cons_iff] using hbs
    obtain ⟨x, y, z, rfl, hxyz⟩ : ∃ x y z, es = [x, y, z] ∧ x.char = '}' ∧ y.char = '}' ∧
        z.char = '}' := by
      simpa [List.map_eq_cons_iff] using hes
    refine mem_lex_append ?_ hrun fun r =>
      mem_lexFrom_three htag hopen hclose r habc hxyz hplaceholder hfront
    simp [Opens, hfront, habc]
  | inner hrun hbehind =>
    obtain ⟨a, b, rfl, hab⟩ : ∃ a b, bs = [a, b] ∧ a.char = '{' ∧ b.char = '{' := by
      simpa [List.map_eq_cons_iff] using hbs
    obtain ⟨x, y, rfl, hxy⟩ : ∃ x y, es = [x, y] ∧ x.char = '}' ∧ y.char = '}' := by
      simpa [List.map_eq_cons_iff] using hes
    -- The brace before the tag is the first of the three that are taken together.
    obtain ⟨outer, e, rfl, he, houter⟩ : ∃ outer e, before = outer ++ [e] ∧ e.char = '{' ∧
        openRun (chars outer) % 3 = 0 := by
      rcases List.eq_nil_or_concat before with rfl | ⟨outer, e, rfl⟩
      · simp at hrun
      · rw [List.concat_eq_append, chars_append, chars_cons, chars_nil] at hrun
        by_cases he : e.char = '{'
        · rw [he, openRun_concat] at hrun
          exact ⟨outer, e, List.concat_eq_append, he, by omega⟩
        · rw [openRun_concat_of_ne he] at hrun
          exact absurd hrun (by decide)
    rw [List.append_assoc, List.singleton_append]
    refine mem_lex_append (by simp [Opens, he]) houter fun r => ?_
    rw [← List.cons_append]
    exact mem_lexFrom_inner htag hopen hclose r he hab hxy hbehind hfront

/-- The tags that are found are those that stand out. -/
theorem mem_tokensOf_lex_iff {t : Token μ} {gs : List (Glyph μ)} :
    t ∈ tokensOf (lex gs) ↔ t.StandsOutIn gs := by
  refine ⟨fun h => ?_, mem_of_standsOutIn⟩
  have hfits : (Reading.text : Reading μ).Fits (chars ([] : List (Glyph μ))) (chars gs) :=
    fun _ => openRun_nil
  exact standsOutIn_of_mem_lexFrom .text gs [] hfits t h

/-! ### Tags in order, and in their text -/

/-- Tags in a part of a text begin behind what is before it and lie one behind the other. -/
theorem ordered_of_stretch {s : String} {part : List (Lexeme Place)}
    {before behind : List (Glyph Place)}
    (h : placed s = before ++ part.flatMap Lexeme.source ++ behind)
    (hs : ∀ l ∈ part, l.IsSound) :
    (∀ t ∈ tokensOf part, byteSize before ≤ t.span.start ∧ t.span.start < t.span.stop) ∧
      (tokensOf part).Pairwise (·.span.stop ≤ ·.span.start) := by
  induction part generalizing before with
  | nil => exact ⟨fun t ht => absurd ht List.not_mem_nil, .nil⟩
  | cons l rest ih =>
    obtain ⟨hl, hrest⟩ := List.forall_mem_cons.mp hs
    have atRest : placed s = (before ++ l.source) ++ rest.flatMap Lexeme.source ++ behind := by
      simpa using h
    obtain ⟨hbehind, hpairs⟩ := ih atRest hrest
    rw [byteSize_append] at hbehind
    cases l with
    | text glyphs =>
      exact ⟨fun t ht => ⟨Nat.le_of_add_right_le (hbehind t ht).1, (hbehind t ht).2⟩, hpairs⟩
    | token t =>
      have hne : t.raw ≠ [] := hl.source_ne_nil
      have atTag : placed s = before ++ t.raw ++ (rest.flatMap Lexeme.source ++ behind) := by
        simpa [Lexeme.source] using h
      have hspan : t.span = ⟨byteSize before, byteSize before + byteSize t.raw⟩ :=
        spanOf_stretch atTag hne
      have hpos := byteSize_pos hne
      have hsource : (Lexeme.token t).source = t.raw := rfl
      rw [hsource] at hbehind
      rw [tokensOf_cons_token]
      refine ⟨List.forall_mem_cons.mpr ⟨?_, fun t' ht' => ?_⟩, List.pairwise_cons.mpr ⟨?_, hpairs⟩⟩
      · rw [hspan]
        exact ⟨Nat.le_refl _, Nat.lt_add_of_pos_right hpos⟩
      · exact ⟨Nat.le_of_add_right_le (hbehind t' ht').1, (hbehind t' ht').2⟩
      · intro t' ht'
        rw [hspan]
        exact (hbehind t' ht').1

theorem ordered_tokenize (s : String) :
    (∀ t ∈ tokenize s, t.span.start < t.span.stop) ∧
      (tokenize s).Pairwise (·.span.stop ≤ ·.span.start) := by
  have hplaced : placed s = [] ++ (lex (placed s)).flatMap Lexeme.source ++ [] := by
    rw [source_lex, List.append_nil, List.nil_append]
  obtain ⟨hspans, hpairs⟩ := ordered_of_stretch hplaced isSound_of_mem_lex
  exact ⟨fun t ht => (hspans t ht).2, hpairs⟩

theorem line_behind (p : Place) (cs : List Char) :
    (p.behind cs).line = p.line + cs.count '\n' := by
  induction cs generalizing p with
  | nil => rfl
  | cons c rest ih =>
    show ((p.next c).behind rest).line = _
    rw [ih, List.count_cons, Place.next]
    by_cases h : c = '\n' <;> simp [h]
    omega

/-- Whether a tag is written between these parts of a text and marked with its place there. -/
structure Token.StandsBetween (t : Token Place) (before behind s : String) : Prop where
  written : s = before ++ t.text ++ behind
  span : t.span = ⟨before.utf8ByteSize, before.utf8ByteSize + t.text.utf8ByteSize⟩
  line : t.line = 1 + before.toList.count '\n'

theorem Token.standsBetween_of_placed {t : Token Place} {s : String}
    {before behind : List (Glyph Place)} (h : placed s = before ++ t.raw ++ behind)
    (hne : t.raw ≠ []) : t.StandsBetween (textOf before) (textOf behind) s := by
  refine ⟨?_, spanOf_stretch h hne, ?_⟩
  · rw [← textOf_placed s, h, textOf_append, textOf_append]
    rfl
  · rw [placed, List.append_assoc] at h
    have hraw := (eq_placedFrom_of_append (eq_placedFrom_of_append h).2.symm).1
    obtain ⟨g, rest, hcons⟩ := List.exists_cons_of_ne_nil hne
    rw [hcons, chars_cons, placedFrom] at hraw
    have hmark : g.mark = Place.behind {} (chars before) := congrArg Glyph.mark (List.cons.inj hraw).1
    rw [Token.line, hcons, List.head?_cons, Option.map_some, Option.getD_some, hmark, line_behind]
    simp [textOf]

/-- A text that is put together is marked part by part. -/
theorem exists_placed_append {s before middle behind : String} (h : s = before ++ middle ++ behind) :
    ∃ front stretch back, placed s = front ++ stretch ++ back ∧ textOf front = before ∧
      textOf stretch = middle ∧ textOf back = behind := by
  have htext : ∀ (p : Place) (part : String), textOf (placedFrom p part.toList) = part := by
    intro p part
    rw [textOf, chars_placedFrom, String.ofList_toList]
  have hplaced : placed s = placedFrom {} before.toList ++
      placedFrom (Place.behind {} before.toList) middle.toList ++
        placedFrom (Place.behind {} (before.toList ++ middle.toList)) behind.toList := by
    rw [placed, h, String.toList_append, String.toList_append, placedFrom_append, placedFrom_append]
  exact ⟨_, _, _, hplaced, htext _ before, htext _ middle, htext _ behind⟩

/-- What it is for tags to be the tags of a text. -/
structure AreTagsOf (s : String) (tokens : List (Token Place)) : Prop where
  /-- No tag is empty, and each begins behind the end of the one before it. -/
  ordered : (∀ t ∈ tokens, t.span.start < t.span.stop) ∧
    tokens.Pairwise (·.span.stop ≤ ·.span.start)
  /-- A tag begins and ends between characters, in the line that the newlines before it tell. -/
  placed : ∀ t ∈ tokens, ∃ before behind, t.StandsBetween before behind s
  /-- The bytes that a tag spans are the tag as it is written. -/
  spanned : ∀ t ∈ tokens, t.span.bytes s = t.text.toUTF8
  /-- A tag is content that says so between two braces and two, or, for a placeholder, between three
  and three. -/
  sound : ∀ t ∈ tokens, ∃ content : String, Tag.ofContent? content.toList = some t.tag ∧
    ¬['{', '{'] <:+: content.toList ∧ ¬['}', '}'] <:+: content.toList ∧
      (t.text = "\x7b\x7b" ++ content ++ "\x7d\x7d" ∨
        t.tag.isPlaceholder ∧ t.text = "\x7b\x7b\x7b" ++ content ++ "\x7d\x7d\x7d")
  /-- Where content without braces that says a tag is between two braces and two, and no other brace
  is before them, there is the tag. -/
  complete : ∀ (before content behind : String) (tag : Tag),
    s = before ++ ("\x7b\x7b" ++ content ++ "\x7d\x7d") ++ behind →
      before.toList.getLast? ≠ some '{' → '{' ∉ content.toList → '}' ∉ content.toList →
        Tag.ofContent? content.toList = some tag →
          ∃ t ∈ tokens, t.tag = tag ∧ t.text = "\x7b\x7b" ++ content ++ "\x7d\x7d" ∧
            t.StandsBetween before behind s
  /-- Counting all braces in a row, nothing else is a tag, and nothing less. -/
  mem_iff : ∀ t, t ∈ tokens ↔ t.StandsOutIn (Template.placed s)

theorem areTagsOf_tokenize (s : String) : AreTagsOf s (tokenize s) := by
  have found : ∀ {t}, t ∈ tokenize s ↔ t.StandsOutIn (placed s) := mem_tokensOf_lex_iff
  have hne : ∀ t ∈ tokenize s, t.raw ≠ [] := fun t ht => (isWritten_of_mem_lex ht).raw_ne_nil
  refine ⟨ordered_tokenize s, ?_, ?_, ?_, ?_, fun t => found⟩
  · intro t ht
    obtain ⟨before, behind, hplaced, -⟩ := found.mp ht
    exact ⟨_, _, Token.standsBetween_of_placed hplaced (hne t ht)⟩
  · intro t ht
    obtain ⟨before, behind, hplaced, -⟩ := found.mp ht
    exact bytes_stretch hplaced (hne t ht)
  · intro t ht
    obtain ⟨_, _, -, braces, content, ends, hraw, htag, hopen, hclose, hdelimits⟩ := found.mp ht
    have htext : t.text = String.ofList braces ++ String.ofList content ++ String.ofList ends := by
      rw [Token.text, textOf, hraw, String.ofList_append, String.ofList_append]
    refine ⟨String.ofList content, by simpa using htag, by simpa using hopen, ?_, ?_⟩
    · rw [String.toList_ofList]
      exact fun hin => hclose (hin.trans (List.prefix_append ..).isInfix)
    · cases hdelimits with
      | two | inner => exact .inl htext
      | three _ hplaceholder => exact .inr ⟨hplaceholder, htext⟩
  · intro before content behind tag hs hbefore hopen hclose htag
    obtain ⟨front, raw, back, hplaced, rfl, hraw, rfl⟩ := exists_placed_append hs
    have hchars : chars raw = ['{', '{'] ++ content.toList ++ ['}', '}'] := by
      rw [← String.toList_ofList (l := chars raw), ← textOf, hraw, String.toList_append,
        String.toList_append]
      rfl
    have hfront : openRun (chars front) = 0 := openRun_eq_zero (by simpa [textOf] using hbefore)
    have hstands : Token.StandsOut (⟨tag, raw⟩ : Token Place) (chars front) (chars back) :=
      ⟨_, _, _, hchars, htag, not_pair_infix_of_not_mem hopen, not_pair_infix_concat hclose,
        .two (by rw [hfront])⟩
    refine ⟨⟨tag, raw⟩, found.mpr ⟨front, back, hplaced, hstands⟩, rfl, hraw, ?_⟩
    exact Token.standsBetween_of_placed hplaced fun (hnil : raw = []) => by simp [hnil] at hchars

end Letterpress.Template
