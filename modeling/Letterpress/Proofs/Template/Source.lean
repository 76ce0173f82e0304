import Letterpress.Proofs.Template.Spelling

/-!
# What a parsed template is made of

Reading loses no glyph: the lexemes of a text, and the nodes parsed from them, spell the text. And
it makes nothing up: every tag found stands between braces, no text found is empty, and every node,
at any depth, is made of these.
-/

namespace Letterpress.Template

variable {μ : Type}

theorem source_settle (tag : Option Tag) (raw : List (Glyph μ)) (rest : List (Lexeme μ)) :
    (settle tag raw rest).flatMap Lexeme.source = raw ++ rest.flatMap Lexeme.source := by
  cases tag with
  | none => exact source_prepend raw rest
  | some tag => rfl

theorem source_lexFrom (r : Reading μ) (gs : List (Glyph μ)) :
    (lexFrom r gs).flatMap Lexeme.source = r.held ++ gs := by
  fun_induction lexFrom r gs with
  | case1 r => simp [source_prepend]
  | case2 r a => simp [source_prepend]
  | case3 r a b rest h ih =>
    rw [source_prepend]
    congr 1
    cases rest with
    | nil => simpa [Reading.held] using ih
    | cons c rest =>
      obtain ⟨ihOpen, ihPlain⟩ := ih
      by_cases hc : c.char = '{'
      · simpa [hc, Reading.held] using ihOpen
      · simpa [hc, Reading.held] using ihPlain
  | case4 a b rest h ih => simpa [source_prepend, Reading.held] using ih
  | case5 a b rest h braces content hclose tag raw ih =>
    simp [source_settle, ih, Reading.held, raw]
  | case6 a b h braces content hclose tag raw e ih =>
    simp [source_prepend, source_settle, ih, Reading.held, raw]
  | case7 a b h braces content hclose tag raw e c rest hc ih =>
    simp [source_settle, ih, Reading.held, raw]
  | case8 a b h braces content hclose tag raw e c rest hc ih =>
    simp [source_prepend, source_settle, ih, Reading.held, raw]
  | case9 a b rest h extra braces content hclose ih => simpa [Reading.held] using ih

theorem source_lex (gs : List (Glyph μ)) : (lex gs).flatMap Lexeme.source = gs :=
  source_lexFrom .text gs

/-- Parsing loses no glyph. -/
theorem sourceAll_parseLexemes (ls : List (Lexeme μ)) :
    Node.sourceAll (parseLexemes ls) = ls.flatMap Lexeme.source :=
  (spellsAll_parseLexemes ls).source

theorem sourceAll_parse (gs : List (Glyph μ)) : Node.sourceAll (parse gs) = gs := by
  rw [parse, sourceAll_parseLexemes, source_lex]

/-- A fact that holds of every node that can be made of these tags holds at every depth. -/
structure Node.MadeOf (T : Token μ → Prop) (P : Node μ → Prop) : Prop where
  text : ∀ glyphs, P (.text glyphs)
  placeholder : ∀ name raw, T ⟨.placeholder name, raw⟩ → P (.placeholder name raw)
  inherits : ∀ parent raw, T ⟨.inherits parent, raw⟩ → P (.inherits parent raw)
  pair : ∀ keyword argument opening body closing, T ⟨.opens keyword argument, opening⟩ →
    T ⟨.closes keyword, closing⟩ → P (.pair keyword argument opening body closing)
  stray : ∀ t, T t → P (.stray t.raw)

@[simp] theorem tokensOf_append (a b : List (Lexeme μ)) :
    tokensOf (a ++ b) = tokensOf a ++ tokensOf b :=
  List.filterMap_append

@[simp] theorem tokensOf_cons_token (t : Token μ) (ls : List (Lexeme μ)) :
    tokensOf (.token t :: ls) = t :: tokensOf ls :=
  rfl

theorem mem_tokensOf_of_mem {t : Token μ} {part ls : List (Lexeme μ)} (h : part <:+: ls)
    (ht : .token t ∈ part) : t ∈ tokensOf ls :=
  List.mem_filterMap.mpr ⟨.token t, h.subset ht, rfl⟩

theorem forall_mem_parseLexemes {T : Token μ → Prop} {P : Node μ → Prop} (hP : Node.MadeOf T P)
    {ls : List (Lexeme μ)} (hT : ∀ t ∈ tokensOf ls, T t) :
    ∀ n ∈ Node.flattenAll (parseLexemes ls), P n := by
  intro n hn
  obtain ⟨part, hpart, hwithin⟩ := (spellsAll_parseLexemes ls).exists_of_mem n hn
  have tags : ∀ t, .token t ∈ part → T t := fun t ht => hT t (mem_tokensOf_of_mem hwithin ht)
  match n, hpart with
  | .text glyphs, _ => exact hP.text glyphs
  | .placeholder name raw, h => cases h; exact hP.placeholder name raw (tags _ (by simp))
  | .inherits parent raw, h => cases h; exact hP.inherits parent raw (tags _ (by simp))
  | .pair keyword argument opening body closing, ⟨inner, _, h⟩ =>
    cases h
    exact hP.pair keyword argument opening body closing (tags _ (by simp)) (tags _ (by simp))
  | .stray raw, ⟨tag, _, h⟩ => cases h; exact hP.stray ⟨tag, raw⟩ (tags _ (by simp))

/-- Whether a tag is written with two braces on each side, or with three around a placeholder. -/
inductive Token.IsWritten : Token μ → Prop
  | double {tag : Tag} {braces content ends : List (Glyph μ)} : chars braces = ['{', '{'] →
      chars ends = ['}', '}'] → Tag.ofContent? (chars content) = some tag →
        IsWritten ⟨tag, braces ++ content ++ ends⟩
  | triple {tag : Tag} {braces content ends : List (Glyph μ)} : chars braces = ['{', '{', '{'] →
      chars ends = ['}', '}', '}'] → Tag.ofContent? (chars content) = some tag →
        tag.isPlaceholder → IsWritten ⟨tag, braces ++ content ++ ends⟩

theorem Token.IsWritten.raw_ne_nil {t : Token μ} (h : t.IsWritten) : t.raw ≠ [] := by
  rintro hnil
  cases h with
  | double hbraces | triple hbraces => simp_all [chars]

/-- Whether a lexeme is a tag as it is written, or a text with something in it. -/
def Lexeme.IsSound : Lexeme μ → Prop
  | text glyphs => glyphs ≠ []
  | token t => t.IsWritten

theorem Lexeme.IsSound.source_ne_nil {l : Lexeme μ} (h : l.IsSound) : l.source ≠ [] := by
  cases l with
  | text glyphs => exact h
  | token t => exact Token.IsWritten.raw_ne_nil h

/-- Whether the braces that have been read are braces. -/
def Reading.IsSound : Reading μ → Prop
  | text => True
  | tag extra braces _ => (∀ e ∈ extra, e.char = '{') ∧ chars braces = ['{', '{']

theorem isSound_prepend {gs : List (Glyph μ)} {ls : List (Lexeme μ)} (h : ∀ l ∈ ls, l.IsSound) :
    ∀ l ∈ Lexeme.prepend gs ls, l.IsSound := by
  match gs, ls with
  | [], ls => exact h
  | g :: gs, [] => simp [Lexeme.prepend, Lexeme.IsSound]
  | g :: gs, .text more :: rest =>
    exact List.forall_mem_cons.mpr ⟨List.cons_ne_nil _ _, (List.forall_mem_cons.mp h).2⟩
  | g :: gs, .token t :: rest => exact List.forall_mem_cons.mpr ⟨List.cons_ne_nil _ _, h⟩

theorem isSound_settle {tag : Option Tag} {raw : List (Glyph μ)} {ls : List (Lexeme μ)}
    (ht : ∀ t ∈ tag, Token.IsWritten ⟨t, raw⟩) (h : ∀ l ∈ ls, l.IsSound) :
    ∀ l ∈ settle tag raw ls, l.IsSound := by
  cases tag with
  | none => exact isSound_prepend h
  | some t => exact List.forall_mem_cons.mpr ⟨ht t rfl, h⟩

theorem isSound_of_mem_lexFrom {r : Reading μ} {gs : List (Glyph μ)} (hr : r.IsSound) :
    ∀ l ∈ lexFrom r gs, l.IsSound := by
  fun_induction lexFrom r gs with
  | case1 r => exact isSound_prepend (by simp)
  | case2 r a => exact isSound_prepend (by simp)
  | case3 r a b rest h ih =>
    refine isSound_prepend ?_
    cases rest with
    | nil => exact ih ⟨by simp, by simp [chars, h]⟩
    | cons c rest =>
      obtain ⟨ihOpen, ihPlain⟩ := ih
      by_cases hc : c.char = '{'
      · simpa [hc] using ihOpen ⟨by simp [h], by simp [chars, h, hc]⟩
      · simpa [hc] using ihPlain ⟨by simp, by simp [chars, h]⟩
  | case4 a b rest h ih => exact isSound_prepend (ih trivial)
  | case5 a b rest h braces content hclose tag raw ih =>
    exact isSound_settle (fun t ht => .double hr.2 (by simp [chars, hclose]) ht) (ih trivial)
  | case6 a b h braces content hclose tag raw e ih =>
    exact isSound_prepend
      (isSound_settle (fun t ht => .double hr.2 (by simp [chars, hclose]) ht) (ih trivial))
  | case7 a b h braces content hclose tag raw e c rest hc ih =>
    refine isSound_settle (fun t ht => ?_) (ih trivial)
    obtain ⟨ht, hplaceholder⟩ := Option.filter_eq_some_iff.mp ht
    have hbraces : chars (e :: braces) = ['{', '{', '{'] := by
      rw [show chars (e :: braces) = e.char :: chars braces from rfl, hr.1 e rfl, hr.2]
    have hends : chars [a, b, c] = ['}', '}', '}'] := by simp [chars, hclose, hc]
    have hraw : e :: raw ++ [c] = (e :: braces) ++ content.reverse ++ [a, b, c] := by simp [raw]
    exact hraw ▸ .triple hbraces hends ht hplaceholder
  | case8 a b h braces content hclose tag raw e c rest hc ih =>
    exact isSound_prepend
      (isSound_settle (fun t ht => .double hr.2 (by simp [chars, hclose]) ht) (ih trivial))
  | case9 a b rest h extra braces content hclose ih => exact ih hr

theorem isSound_of_mem_lex {gs : List (Glyph μ)} : ∀ l ∈ lex gs, l.IsSound :=
  isSound_of_mem_lexFrom (r := .text) trivial

theorem isWritten_of_mem_lex {t : Token μ} {gs : List (Glyph μ)} (h : t ∈ tokensOf (lex gs)) :
    t.IsWritten := by
  obtain ⟨l, hl, ht⟩ := List.mem_filterMap.mp h
  cases l with
  | text glyphs => simp [Lexeme.token?] at ht
  | token t' => cases ht; exact isSound_of_mem_lex _ hl

end Letterpress.Template
