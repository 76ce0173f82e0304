import Letterpress.Proofs.Body.Properties

/-!
# Runs are read back

Between links a paragraph takes the runs itself. Runs with equal links are taken inside one
hyperlink, up to its end tag.
-/

namespace Letterpress

open Markup Markup.Content Number Text

variable {σ : Type}

theorem fills_readText (s : String) : Fills readText [.text s] s := by
  by_cases hs : s = ""
  · subst hs
    exact ⟨id, fun _ _ _ => rfl, rfl⟩
  · exact ⟨_, .text hs, by
      simp [readText, foldChildren, readText_escapeText, Except.mapError, Except.map]⟩

theorem FieldMark.ofWord?_word (m : FieldMark) : ofWord? m.word = some m := by
  cases m <;> decide

theorem RunParts.child_graphic {tag : Tag} (h : isGraphic tag.label) (p : RunParts)
    (inner : Content) :
    child p (.element tag inner) =
      (elementText tag inner).map fun markup => p.add [.drawing markup] := by
  have hne : ∀ label, isGraphic label = false → tag.label ≠ label := by
    rintro label hl rfl
    simp [hl] at h
  rw [child, if_neg (hne _ (by decide)), if_neg (hne _ (by decide)), if_neg (hne _ (by decide)),
    if_pos h]
  cases elementText tag inner <;> rfl

/-- What is in a run that is no mark is taken into the run's parts. -/
theorem RunContent.takes {r : Run} (hmark : r.isMark = false) (hk : r.keeps) (s : RunParts) :
    Takes (foldChildren RunParts.child) r.content.pieces s (s.add [r.content]) := by
  have empty : ∀ {tag : Tag} {content : RunContent}, RunContent.ofTag? tag = some content →
      tag.label ≠ "instrText" →
        ∀ c, foldChildren RunParts.child s (.empty tag c) =
          foldChildren RunParts.child (s.add [content]) c := by
    intro tag content htag hne c
    simp [foldChildren, RunParts.child, htag, hne]
  obtain ⟨properties, content, link⟩ := r
  cases content with
  | text text =>
    exact .element ["xml:space"] "t" ["space"] [if touchesBlank text then some "preserve" else none]
      (by decide) (by cases touchesBlank text <;> rfl)
        (fills_readText text) fun tag inner ht hr c => by
        simp [foldChildren, RunParts.child, ht.label, hr]
  | drawing markup =>
    obtain ⟨tag, inner, hkind, -, htext, reads⟩ := reads_of_isElement hk
    refine ⟨_, reads, fun c => ?_⟩
    rw [foldChildren, RunParts.child_graphic hkind, htext]
    rfl
  | fieldMark m =>
    exact .tag ["w:fldCharType"] "fldChar" ["fldCharType"] [some m.word]
      (by decide) rfl fun tag h =>
      empty (by simp [ofTag?, h.label, h.value, FieldMark.ofWord?_word]) (by simp [h.label])
  | fieldCode code =>
    exact .element ["xml:space"] "instrText" ["space"] [some "preserve"] (by decide) rfl
      (fills_readText code)
      fun tag inner ht hr c => by simp [foldChildren, RunParts.child, ht.label, hr]
  | «break» b =>
    cases b with
    | line =>
      exact .tag [] "br" [] [] (by decide) rfl fun tag h =>
        empty (by simp [ofTag?, h.label, Break.ofTag, h.value]) (by simp [h.label])
    | page | column =>
      exact .tag ["w:type"] "br" ["type"] [some _] (by decide) rfl fun tag h =>
        empty (by simp [ofTag?, h.label, Break.ofTag, h.value, Break.word]) (by simp [h.label])
  | tab =>
    exact .tag [] "tab" [] [] (by decide) rfl fun tag h =>
      empty (by simp [ofTag?, h.label]) (by simp [h.label])
  | footnote id =>
    exact .tag ["w:id"] "footnoteReference" ["id"] [some (showUInt32 id)]
      (by decide) rfl fun tag h =>
      empty (by simp [ofTag?, h.label, Tag.uint32?, h.value]) (by simp [h.label])
  | endnote id =>
    exact .tag ["w:id"] "endnoteReference" ["id"] [some (showUInt32 id)]
      (by decide) rfl fun tag h =>
      empty (by simp [ofTag?, h.label, Tag.uint32?, h.value]) (by simp [h.label])
  | bookmarkStart b => simp [Run.isMark] at hmark
  | bookmarkEnd id => simp [Run.isMark] at hmark

/-- A run is taken by whatever takes an element of its parts, or its mark. -/
theorem Run.takes {F : σ → Content → Except PartFault ρ} {s s' : σ} {r : Run} {pieces : List Piece}
    (h : r.pieces = .ok pieces) (hk : r.keeps)
    (hrun : ∀ tag inner, tag.label = "r" →
      (RunParts.read inner).map (·.runs r.link) = .ok [r.normalize] →
      ∀ c, F s (.element tag inner c) = F s' c)
    (hmark : ∀ tag, Run.ofMark? r.link tag = some r.normalize → ∀ c, F s (.empty tag c) = F s' c) :
    Takes F pieces s s' := by
  cases hm : r.isMark with
  | true =>
    rw [Run.pieces, hm] at h
    cases h
    obtain ⟨properties, content, link⟩ := r
    cases content with
    | bookmarkStart b =>
      exact .tag ["w:id", "w:name"] "bookmarkStart" ["id", "name"]
        [some (showUInt32 b.id), some b.name]
        (by decide) rfl fun tag h => hmark tag (by
          simp [ofMark?, h.label, Bookmark.ofTag?, Tag.uint32?, h.value, List.lookup_cons,
            Run.normalize, Run.isMark])
    | bookmarkEnd id =>
      exact .tag ["w:id"] "bookmarkEnd" ["id"] [some (showUInt32 id)] (by decide) rfl fun tag h =>
        hmark tag (by simp [ofMark?, h.label, Tag.uint32?, h.value, Run.normalize, Run.isMark])
    | text | drawing | fieldMark | fieldCode | «break» | tab | footnote | endnote =>
      simp [isMark] at hm
  | false =>
    simp only [Run.pieces, hm, Bool.false_eq_true, if_false] at h
    obtain ⟨properties, hproperties, h⟩ := bind_eq_ok.mp h
    cases h
    have parts := (RunProperties.takes hproperties).append (RunContent.takes hm hk _)
    have fills : Fills RunParts.read _ _ := parts.fills rfl
    refine .element [] "r" [] [] (by decide) rfl fills fun tag inner ht hr c =>
      hrun tag inner ht.label ?_ c
    rw [hr]
    simp [Except.map, RunParts.runs, RunParts.add, Run.normalize, hm]

/-! ### Links and paragraphs -/

/-- A paragraph takes the runs. -/
def TakesRuns (rs : List Run) (pieces : List Piece) : Prop :=
  ∀ p : Paragraph, Takes (foldChildren Paragraph.child) pieces p
    { p with runs := p.runs ++ rs.map Run.normalize }

/-- The runs are taken inside a link. -/
def TakesLinked (l : Hyperlink) (rs : List Run) (pieces : List Piece) : Prop :=
  ∀ before, Takes (readOn (readRuns (some l))) pieces before (before ++ rs.map Run.normalize)

/-- What is written for runs behind a link: the first of them are taken inside it. -/
def TakesBehind : Option Hyperlink → List Run → List Piece → Prop
  | none, rs, pieces => TakesRuns rs pieces
  | some l, rs, pieces => ∃ rs₁ rs₂ inside outside, rs = rs₁ ++ rs₂ ∧
      pieces = inside ++ .closing "w:hyperlink" :: outside ∧ TakesLinked l rs₁ inside ∧
        TakesRuns rs₂ outside

variable {r : Run} {rs rest : List Run} {here pieces : List Piece} {link link' : Option Hyperlink}

theorem TakesRuns.nil : TakesRuns [] [] := fun p => by simpa using Takes.nil

theorem TakesLinked.nil {l : Hyperlink} : TakesLinked l [] [] :=
  fun before => by simpa using Takes.nil

theorem TakesRuns.cons (h : r.pieces = .ok here) (hk : r.keeps) (hlink : r.link = none)
    (hrest : TakesRuns rest pieces) : TakesRuns (r :: rest) (here ++ pieces) := by
  intro p
  have run : Takes (foldChildren Paragraph.child) here p
      { p with runs := p.runs ++ [r.normalize] } := by
    refine Run.takes h hk ?_ ?_
    · intro tag inner ht hr c
      rw [hlink] at hr
      simp [foldChildren, Paragraph.child, ht, readRuns, hr]
    · intro tag hr c
      rw [hlink] at hr
      simp [foldChildren, Paragraph.child, hr]
  simpa using run.append (hrest _)

theorem TakesLinked.cons {l : Hyperlink} (h : r.pieces = .ok here) (hk : r.keeps)
    (hlink : r.link = some l)
    (hrest : TakesLinked l rest pieces) : TakesLinked l (r :: rest) (here ++ pieces) := by
  intro before
  have run : Takes (readOn (readRuns (some l))) here before (before ++ [r.normalize]) := by
    refine Run.takes h hk ?_ ?_
    · intro tag inner ht hr c
      rw [hlink] at hr
      exact readOn_eq (by simp only [readRuns, ht, if_pos, hr, ok_bind]) before
    · intro tag hr c
      rw [hlink] at hr
      exact readOn_eq (by simp only [readRuns, hr, Option.toList_some]) before
  simpa using run.append (hrest _)

theorem TakesBehind.cons (h : r.pieces = .ok here) (hk : r.keeps)
    (hrest : TakesBehind r.link rest pieces) : TakesBehind r.link (r :: rest) (here ++ pieces) := by
  cases hlink : r.link with
  | none =>
    rw [hlink] at hrest
    exact TakesRuns.cons h hk hlink hrest
  | some l =>
    rw [hlink] at hrest
    obtain ⟨rs₁, rs₂, inside, outside, rfl, rfl, linked, runs⟩ := hrest
    exact ⟨r :: rs₁, rs₂, here ++ inside, outside, rfl, by simp, linked.cons h hk hlink, runs⟩

/-- What is written for a link and the runs behind it is taken by a paragraph. -/
theorem TakesBehind.opened {l : Hyperlink} (h : TakesBehind (some l) rs pieces) :
    TakesRuns rs (l.pieces :: pieces) := by
  obtain ⟨rs₁, rs₂, inside, outside, rfl, rfl, linked, runs⟩ := h
  intro p
  have fills : Fills (readRuns (some l)) inside (rs₁.map Run.normalize) :=
    (linked []).fills_list rfl
  have link : Takes (foldChildren Paragraph.child)
      (Piece.element "w:hyperlink"
        (Piece.given "r:id" l.relationship ++ Piece.given "w:anchor" l.anchor) inside)
      p { p with runs := p.runs ++ rs₁.map Run.normalize } := by
    refine .element ["r:id", "w:anchor"] "hyperlink" ["id", "anchor"] [l.relationship, l.anchor]
      (by decide)
      (by simp [givens]) fills fun tag inner ht hr c => ?_
    simp [foldChildren, Paragraph.child, ht.label, readRuns, ht.value, List.lookup_cons, hr]
  simpa [Piece.element, Hyperlink.pieces] using link.append (runs _)

theorem TakesBehind.linkPieces (h : TakesBehind link' rs pieces) :
    TakesBehind link rs (linkPieces link link' ++ pieces) := by
  unfold Letterpress.linkPieces
  split
  · next heq => subst heq; exact h
  · cases link with
    | none =>
      cases link' with
      | none => contradiction
      | some l' => exact h.opened
    | some l =>
      cases link' with
      | none => exact ⟨[], rs, [], pieces, rfl, rfl, .nil, h⟩
      | some l' => exact ⟨[], rs, [], l'.pieces :: pieces, rfl, rfl, .nil, h.opened⟩

theorem takesBehind_runsPieces (hk : rs.all Run.keeps) (h : runsPieces link rs = .ok pieces) :
    TakesBehind link rs pieces := by
  induction rs generalizing link pieces with
  | nil =>
    cases h
    have none : TakesBehind none [] [] := TakesRuns.nil
    simpa using none.linkPieces
  | cons r rest ih =>
    rw [List.all_cons, Bool.and_eq_true] at hk
    obtain ⟨here, hhere, h⟩ := bind_eq_ok.mp h
    obtain ⟨behind, hbehind, h⟩ := bind_eq_ok.mp h
    cases h
    rw [List.append_assoc]
    exact ((ih hk.2 hbehind).cons hhere hk.1).linkPieces

/-- A paragraph is read back from its element. -/
theorem Paragraph.fills {p : Paragraph} {pieces : List Piece} (hk : p.keeps)
    (h : p.pieces = .ok pieces) :
    ∃ inner, pieces = Piece.element "w:p" [] inner ∧ Fills Paragraph.read inner p.normalize := by
  obtain ⟨properties, hproperties, h⟩ := bind_eq_ok.mp h
  obtain ⟨runs, hruns, h⟩ := bind_eq_ok.mp h
  cases h
  have taken : TakesRuns p.runs runs := takesBehind_runsPieces hk hruns
  exact ⟨_, rfl, ((ParagraphProperties.takes hproperties).append (taken _)).fills rfl⟩

end Letterpress
