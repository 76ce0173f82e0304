import Letterpress.Proofs.Body.Taking

/-!
# Properties are read back

Field by field, each kind of properties is read back from the tags that are written for it.
-/

namespace Letterpress

open Markup Markup.Content Number

theorem Markup.Tag.Carries.isOn {tag : Tag} {label : String} (h : tag.Carries label [] []) :
    tag.isOn = true := by
  rw [Tag.isOn, h.value]
  rfl

/-- Reading tags, an empty one counts as `f` says. -/
theorem foldTags_empty {σ : Type} {f : σ → Tag → σ} {s s' : σ} {tag : Tag} (h : f s tag = s')
    (c : Content) :
    foldTags f s (.empty tag c) = foldTags f s' c := by
  rw [← h]
  rfl

theorem Baseline.ofWord?_word (b : Baseline) : ofWord? b.word = some b := by
  cases b <;> decide

@[simp] theorem elim_unlessNone (o : Option String) :
    (o.elim none fun v => unlessNone (some v)) = unlessNone o := by
  cases o <;> rfl

theorem RunProperties.takes {p : RunProperties} {pieces : List Piece} (h : p.pieces = .ok pieces) :
    Takes (foldChildren RunParts.child) pieces {} { properties := p.normalize } := by
  have style : ∀ s, Takes (foldTags apply) (ifGiven p.style (valued "w:rStyle")) s
      { s with style := p.style.or s.style } := fun s =>
    .ifGiven (fun o => { s with style := o.or s.style }) fun v _ =>
      .valued "rStyle" (by decide) fun tag h => foldTags_empty (by simp [apply, h.label, h.value])
  have fonts : ∀ s, Takes (foldTags apply) (ifGiven p.fonts Fonts.pieces) s
      { s with fonts := p.fonts.or s.fonts } := fun s =>
    .ifGiven (fun o => { s with fonts := o.or s.fonts }) fun v _ =>
      .tag ["w:ascii", "w:hAnsi", "w:eastAsia", "w:cs", "w:hint"] "rFonts"
        ["ascii", "hAnsi", "eastAsia", "cs", "hint"]
        [v.ascii, v.highAnsi, v.eastAsia, v.complex, v.hint] (by decide) (by simp [givens])
        fun tag h => foldTags_empty
          (by simp [apply, h.label, Fonts.ofTag, h.value, List.lookup_cons])
  have bold : ∀ s, Takes (foldTags apply) (ifOn p.bold [.empty "w:b" [], .empty "w:bCs" []]) s
      { s with bold := p.bold || s.bold } := fun s =>
    .ifOn (fun on => { s with bold := on || s.bold }) <| .cons_passed
      (.tag [] "b" [] [] (by decide) rfl fun tag h =>
        foldTags_empty (by simp [apply, h.label, h.isOn]))
      (.tag [] "bCs" [] [] (by decide) rfl fun tag h => foldTags_empty (by simp [apply, h.label]))
  have italic : ∀ s, Takes (foldTags apply) (ifOn p.italic [.empty "w:i" [], .empty "w:iCs" []]) s
      { s with italic := p.italic || s.italic } := fun s =>
    .ifOn (fun on => { s with italic := on || s.italic }) <| .cons_passed
      (.tag [] "i" [] [] (by decide) rfl fun tag h =>
        foldTags_empty (by simp [apply, h.label, h.isOn]))
      (.tag [] "iCs" [] [] (by decide) rfl fun tag h => foldTags_empty (by simp [apply, h.label]))
  have strike : ∀ s, Takes (foldTags apply) (ifOn p.strike [.empty "w:strike" []]) s
      { s with strike := p.strike || s.strike } := fun s =>
    .ifOn (fun on => { s with strike := on || s.strike }) <|
      .tag [] "strike" [] [] (by decide) rfl fun tag h =>
        foldTags_empty (by simp [apply, h.label, h.isOn])
  have color : ∀ s, Takes (foldTags apply) (ifGiven p.color (valued "w:color")) s
      { s with color := p.color.or s.color } := fun s =>
    .ifGiven (fun o => { s with color := o.or s.color }) fun v _ =>
      .valued "color" (by decide) fun tag h => foldTags_empty (by simp [apply, h.label, h.value])
  have size : ∀ s, Takes (foldTags apply)
      (ifGiven (p.size.map showUInt32) fun n => valued "w:sz" n ++ valued "w:szCs" n) s
      { s with size := p.size.or s.size } := fun s => by
    refine .ifGiven_map (fun o => { s with size := o.or s.size }) ?_
    intro v _
    refine .append_passed ?_ ?_
    · exact .valued "sz" (by decide) fun tag h => foldTags_empty
        (by simp [apply, h.label, Tag.uint32?, h.value])
    · exact .valued "szCs" (by decide) fun tag h => foldTags_empty (by simp [apply, h.label])
  have highlight : ∀ s, Takes (foldTags apply) (ifGiven p.highlight (valued "w:highlight")) s
      { s with highlight := p.highlight.elim s.highlight fun v => unlessNone (some v) } := fun s =>
    .ifGiven (fun o => { s with highlight := o.elim s.highlight fun v => unlessNone (some v) })
      fun v _ =>
      .valued "highlight" (by decide) fun tag h =>
        foldTags_empty (by simp [apply, h.label, h.value])
  have underline : ∀ s, Takes (foldTags apply) (ifGiven p.underline (valued "w:u")) s
      { s with underline := p.underline.elim s.underline fun v => unlessNone (some v) } := fun s =>
    .ifGiven (fun o => { s with underline := o.elim s.underline fun v => unlessNone (some v) })
      fun v _ =>
      .valued "u" (by decide) fun tag h => foldTags_empty (by simp [apply, h.label, h.value])
  have baseline : ∀ s,
      Takes (foldTags apply) (ifGiven p.baseline fun b => valued "w:vertAlign" b.word) s
      { s with baseline := p.baseline.or s.baseline } := fun s =>
    .ifGiven (fun o => { s with baseline := o.or s.baseline }) fun v _ =>
      .valued "vertAlign" (by decide) fun tag h => foldTags_empty
        (by simp [apply, h.label, h.value, Baseline.ofWord?_word])
  unfold RunProperties.pieces at h
  split at h
  · next hempty =>
    cases h
    have hp : p = {} := by simpa [isEmpty] using hempty
    subst hp
    exact .nil
  · split at h
    · simp at h
    · cases h
      have all := ((((((((style {}).append (fonts _)).append (bold _)).append (italic _)).append
        (strike _)).append (color _)).append (size _)).append (highlight _)).append (underline _)
          |>.append (baseline _)
      have normal : Fills read _ p.normalize := all.fills (congrArg Except.ok (by simp [normalize]))
      refine .element [] "rPr" [] [] (by decide) rfl normal fun tag inner ht hr c => ?_
      simp [foldChildren, RunParts.child, ht.label, hr]

theorem Pages.ofWord?_word (p : Pages) : ofWord? p.word = some p := by
  cases p <;> decide

theorem Section.takes {s : Section} {pieces : List Piece} (h : s.pieces = .ok pieces) :
    ∃ inner, pieces = Piece.element "w:sectPr" [] inner ∧ Fills Section.read inner s := by
  have headers : ∀ t : Section,
      Takes (foldTags apply) (s.headers.map (PageReference.pieces "w:headerReference"))
      { t with headers := [] } { t with headers := s.headers } := fun t =>
    .map (fun rs => { t with headers := rs }) fun before r =>
      .tag ["w:type", "r:id"] "headerReference" ["type", "id"]
        [some r.pages.word, some r.relationship]
        (by decide) rfl fun tag h => foldTags_empty
          (by simp [apply, h.label, PageReference.ofTag?, h.value, List.lookup_cons,
            Pages.ofWord?_word])
  have footers : ∀ t : Section,
      Takes (foldTags apply) (s.footers.map (PageReference.pieces "w:footerReference"))
      { t with footers := [] } { t with footers := s.footers } := fun t =>
    .map (fun rs => { t with footers := rs }) fun before r =>
      .tag ["w:type", "r:id"] "footerReference" ["type", "id"]
        [some r.pages.word, some r.relationship]
        (by decide) rfl fun tag h => foldTags_empty
          (by simp [apply, h.label, PageReference.ofTag?, h.value, List.lookup_cons,
            Pages.ofWord?_word])
  have pageSize : ∀ t : Section, Takes (foldTags apply) (ifGiven s.pageSize PageSize.pieces) t
      { t with pageSize := s.pageSize.or t.pageSize } := fun t =>
    .ifGiven (fun o => { t with pageSize := o.or t.pageSize }) fun v _ =>
      .tag ["w:w", "w:h", "w:orient"] "pgSz" ["w", "h", "orient"]
        [some (showUInt32 v.width), some (showUInt32 v.height),
          if v.landscape then some "landscape" else none] (by decide)
        (by cases v.landscape <;> rfl) fun tag h => foldTags_empty (by
          simp [apply, h.label, PageSize.ofTag, Tag.uint32?, h.value, List.lookup_cons])
  have margins : ∀ t : Section, Takes (foldTags apply) (ifGiven s.margins PageMargins.pieces) t
      { t with margins := s.margins.or t.margins } := fun t =>
    .ifGiven (fun o => { t with margins := o.or t.margins }) fun v _ =>
      .tag ["w:top", "w:right", "w:bottom", "w:left", "w:header", "w:footer", "w:gutter"] "pgMar"
        ["top", "right", "bottom", "left", "header", "footer", "gutter"]
        [some (showInt32 v.top), some (showUInt32 v.right), some (showInt32 v.bottom),
          some (showUInt32 v.left), some (showUInt32 v.header), some (showUInt32 v.footer),
          some (showUInt32 v.gutter)] (by decide) rfl fun tag h => foldTags_empty (by
            simp [apply, h.label, PageMargins.ofTag, Tag.uint32?, Tag.int32?, h.value,
              List.lookup_cons])
  have numbering : ∀ t : Section,
      Takes (foldTags apply) (ifGiven s.numbering PageNumbering.pieces) t
      { t with numbering := s.numbering.or t.numbering } := fun t =>
    .ifGiven (fun o => { t with numbering := o.or t.numbering }) fun v _ =>
      .tag ["w:fmt", "w:start"] "pgNumType" ["fmt", "start"] [v.format, v.start.map showUInt32]
        (by decide) (by simp [givens]) fun tag h => foldTags_empty (by
          simp [apply, h.label, Tag.uint32?, h.value, List.lookup_cons])
  have titlePage : ∀ t : Section,
      Takes (foldTags apply) (ifOn s.titlePage [.empty "w:titlePg" []]) t
      { t with titlePage := s.titlePage || t.titlePage } := fun t =>
    .ifOn (fun on => { t with titlePage := on || t.titlePage }) <|
      .tag [] "titlePg" [] [] (by decide) rfl fun tag h =>
        foldTags_empty (by simp [apply, h.label, h.isOn])
  have linePitch : ∀ t : Section, Takes (foldTags apply)
      (ifGiven s.linePitch fun n => [.empty "w:docGrid" [("w:linePitch", showUInt32 n)]]) t
      { t with linePitch := s.linePitch.or t.linePitch } := fun t =>
    .ifGiven (fun o => { t with linePitch := o.or t.linePitch }) fun v _ =>
      .tag ["w:linePitch"] "docGrid" ["linePitch"] [some (showUInt32 v)] (by decide) rfl
        fun tag h => foldTags_empty
          (by simp [apply, h.label, Tag.uint32?, h.value])
  have all := fun (columns : List Piece)
      (h : ∀ t : Section, Takes (foldTags apply) columns t
        { t with columns := s.columns.or t.columns }) =>
    (((((((headers {}).append (footers { headers := s.headers })).append (pageSize _)).append
      (margins _)).append (numbering _)).append (h _)).append (titlePage _)).append (linePitch _)
  simp only [Section.pieces] at h
  cases hc : s.columns with
  | none =>
    rw [hc] at h
    cases h
    exact ⟨_, rfl, (all [] fun t => by rw [hc]; exact .nil).fills (congrArg Except.ok (by simp))⟩
  | some c =>
    simp only [hc, Columns.pieces] at h
    split at h
    · cases h
    · cases h
      refine ⟨_, rfl, (all _ fun t => ?_).fills (congrArg Except.ok (by simp))⟩
      rw [hc]
      exact .tag ["w:num", "w:space"] "cols" ["num", "space"]
        [some (showUInt32 c.count), c.space.map showUInt32] (by decide)
          (by simp [givens, Piece.given])
        fun tag h => foldTags_empty (by
          simp [apply, h.label, Tag.uint32?, h.value, List.lookup_cons])

/-! ### Paragraphs -/

theorem Alignment.ofWord?_word (a : Alignment) : ofWord? a.word = some a := by
  cases a <;> decide

namespace ParagraphParts

theorem read_empty {q q' : ParagraphParts} {tag : Tag} (h : q.apply tag = q') (c : Content) :
    read q (.empty tag c) = read q' c := by
  rw [← h]
  rfl

theorem takes_spacing (p : ParagraphProperties) (q : ParagraphParts) :
    Takes read (ifGiven p.spacing Spacing.pieces) q
    (q.set ({ · with spacing := p.spacing.or q.properties.spacing })) :=
  .ifGiven (fun o => q.set ({ · with spacing := o.or q.properties.spacing })) fun v _ =>
    .tag ["w:before", "w:after", "w:line", "w:lineRule"] "spacing"
      ["before", "after", "line", "lineRule"]
      [v.before.map showUInt32, v.after.map showUInt32, v.line.map showUInt32, v.lineRule]
        (by decide)
      (by simp [givens]) fun tag h => read_empty (by
        simp [apply, set, h.label, Spacing.ofTag, Tag.uint32?, h.value, List.lookup_cons])

theorem takes_indentation (p : ParagraphProperties) (q : ParagraphParts) :
    Takes read (ifGiven p.indentation Indentation.pieces) q
    (q.set ({ · with indentation := p.indentation.or q.properties.indentation })) :=
  .ifGiven (fun o => q.set ({ · with indentation := o.or q.properties.indentation })) fun v _ =>
    .tag ["w:left", "w:right", "w:firstLine", "w:hanging"] "ind"
      ["left", "right", "firstLine", "hanging"]
      [v.left.map showInt32, v.right.map showInt32, v.firstLine.map showUInt32,
        v.hanging.map showUInt32]
      (by decide) (by simp [givens]) fun tag h => read_empty (by
        simp [apply, set, h.label, Indentation.ofTag, Tag.uint32?, Tag.int32?, h.value,
          List.lookup_cons])

theorem takes_numbering (p : ParagraphProperties) (q : ParagraphParts) :
    Takes read (ifGiven p.numbering ListPlace.pieces) q
    { q with
      list := (p.numbering.map ListPlace.list).or q.list
      level := (p.numbering.map ListPlace.level).or q.level } := by
  refine .ifGiven (fun o => { q with
    list := (o.map ListPlace.list).or q.list
    level := (o.map ListPlace.level).or q.level }) ?_
  intro v _
  have level : Takes read (valued "w:ilvl" (showUInt32 v.level)) q
      { q with level := some v.level } :=
    .valued "ilvl" (by decide) fun tag h =>
      read_empty (by simp [apply, h.label, Tag.uint32?, h.value])
  have list : ∀ q : ParagraphParts, Takes read (valued "w:numId" (showUInt32 v.list)) q
      { q with list := some v.list } := fun q =>
    .valued "numId" (by decide) fun tag h =>
      read_empty (by simp [apply, h.label, Tag.uint32?, h.value])
  refine .element [] "numPr" [] [] (by decide) rfl ((level.append (list _)).fills rfl) ?_
  intro tag inner ht hr c
  beta_reduce at hr
  simp [read, ht.label, hr]

theorem takes_sectionEnd {s : Section} {pieces : List Piece} (h : s.pieces = .ok pieces)
    (q : ParagraphParts) : Takes read pieces q (q.set ({ · with sectionEnd := some s })) := by
  obtain ⟨inner, rfl, fills⟩ := Section.takes h
  refine .element [] "sectPr" [] [] (by decide) rfl fills fun tag inner ht hr c => ?_
  simp [read, ht.label, hr]

/-- The list and the level come together again. -/
theorem paragraphProperties_apart (p : ParagraphProperties) :
    paragraphProperties { properties := { p with numbering := none }
                          list := p.numbering.map ListPlace.list
                          level := p.numbering.map ListPlace.level } = p := by
  obtain ⟨style, keepNext, keepLines, pageBreak, _ | place, spacing, indentation, alignment,
    sectionEnd⟩ := p <;>
    rfl

end ParagraphParts

/-- What is written for properties that are not empty. -/
theorem ParagraphProperties.pieces_eq_ok {p : ParagraphProperties} {pieces : List Piece}
    (h : p.pieces = .ok pieces) :
    p = {} ∧ pieces = [] ∨
      ∃ sectionEnd, p.sectionEnd.elim (.ok []) Section.pieces = .ok sectionEnd ∧
        pieces = Piece.element "w:pPr" []
          (ifGiven p.style (valued "w:pStyle") ++ ifOn p.keepNext [.empty "w:keepNext" []] ++
            ifOn p.keepLines [.empty "w:keepLines" []] ++
            ifOn p.pageBreakBefore [.empty "w:pageBreakBefore" []] ++
            ifGiven p.numbering ListPlace.pieces ++ ifGiven p.spacing Spacing.pieces ++
            ifGiven p.indentation Indentation.pieces ++
            ifGiven p.alignment (fun a => valued "w:jc" a.word) ++ sectionEnd) := by
  unfold ParagraphProperties.pieces at h
  split at h
  · next hempty =>
    cases h
    exact .inl ⟨by simpa [isEmpty] using hempty, rfl⟩
  · right
    cases hstyle : p.style <;> cases hsection : p.sectionEnd <;>
      simp only [hstyle, hsection, bind_eq_ok] at h
    · obtain ⟨sectionEnd, hs, h⟩ := h
      cases h
      exact ⟨sectionEnd, hs, rfl⟩
    · obtain ⟨sectionEnd, hs, h⟩ := h
      cases h
      exact ⟨sectionEnd, hs, rfl⟩
    · obtain ⟨-, -, sectionEnd, hs, h⟩ := h
      cases h
      exact ⟨sectionEnd, hs, rfl⟩
    · obtain ⟨-, -, sectionEnd, hs, h⟩ := h
      cases h
      exact ⟨sectionEnd, hs, rfl⟩

theorem ParagraphProperties.takes {p : ParagraphProperties} {pieces : List Piece}
    (h : p.pieces = .ok pieces) :
    Takes (foldChildren Paragraph.child) pieces {} { properties := p } := by
  have style : ∀ q : ParagraphParts,
      Takes ParagraphParts.read (ifGiven p.style (valued "w:pStyle")) q
      (q.set ({ · with style := p.style.or q.properties.style })) := fun q =>
    .ifGiven (fun o => q.set ({ · with style := o.or q.properties.style })) fun v _ =>
      .valued "pStyle" (by decide) fun tag h => ParagraphParts.read_empty
        (by simp [ParagraphParts.apply, ParagraphParts.set, h.label, h.value])
  have keepNext : ∀ q : ParagraphParts,
      Takes ParagraphParts.read (ifOn p.keepNext [.empty "w:keepNext" []]) q
      (q.set ({ · with keepNext := p.keepNext || q.properties.keepNext })) := fun q =>
    .ifOn (fun on => q.set ({ · with keepNext := on || q.properties.keepNext })) <|
      .tag [] "keepNext" [] [] (by decide) rfl fun tag h => ParagraphParts.read_empty
        (by simp [ParagraphParts.apply, ParagraphParts.set, h.label, h.isOn])
  have keepLines : ∀ q : ParagraphParts,
      Takes ParagraphParts.read (ifOn p.keepLines [.empty "w:keepLines" []])
      q (q.set ({ · with keepLines := p.keepLines || q.properties.keepLines })) := fun q =>
    .ifOn (fun on => q.set ({ · with keepLines := on || q.properties.keepLines })) <|
      .tag [] "keepLines" [] [] (by decide) rfl fun tag h => ParagraphParts.read_empty
        (by simp [ParagraphParts.apply, ParagraphParts.set, h.label, h.isOn])
  have pageBreak : ∀ q : ParagraphParts,
      Takes ParagraphParts.read (ifOn p.pageBreakBefore [.empty "w:pageBreakBefore" []]) q
      (q.set ({ · with pageBreakBefore := p.pageBreakBefore || q.properties.pageBreakBefore })) :=
        fun q =>
    .ifOn (fun on => q.set ({ · with pageBreakBefore := on || q.properties.pageBreakBefore })) <|
      .tag [] "pageBreakBefore" [] [] (by decide) rfl fun tag h => ParagraphParts.read_empty
        (by simp [ParagraphParts.apply, ParagraphParts.set, h.label, h.isOn])
  have alignment : ∀ q : ParagraphParts,
      Takes ParagraphParts.read (ifGiven p.alignment fun a => valued "w:jc" a.word) q
      (q.set ({ · with alignment := p.alignment.or q.properties.alignment })) := fun q =>
    .ifGiven (fun o => q.set ({ · with alignment := o.or q.properties.alignment })) fun v _ =>
      .valued "jc" (by decide) fun tag h => ParagraphParts.read_empty
        (by simp [ParagraphParts.apply, ParagraphParts.set, h.label, h.value,
          Alignment.ofWord?_word])
  obtain ⟨rfl, rfl⟩ | ⟨sectionEnd, hsection, rfl⟩ := pieces_eq_ok h
  · exact .nil
  have takes : ∀ q : ParagraphParts, Takes ParagraphParts.read sectionEnd q
      (q.set ({ · with sectionEnd := p.sectionEnd.or q.properties.sectionEnd })) := by
    intro q
    cases hs : p.sectionEnd with
    | none => rw [hs] at hsection; cases hsection; exact .nil
    | some s => rw [hs] at hsection; exact ParagraphParts.takes_sectionEnd hsection q
  have all := ((((((((style {}).append (keepNext _)).append (keepLines _)).append
      (pageBreak _)).append
    (ParagraphParts.takes_numbering p _)).append (ParagraphParts.takes_spacing p _)).append
    (ParagraphParts.takes_indentation p _)).append (alignment _)).append (takes _)
  have normal : Fills ParagraphProperties.read _ p := all.fills_map (by
    simpa [ParagraphParts.read, ParagraphParts.set, Except.map]
      using ParagraphParts.paragraphProperties_apart p)
  refine .element [] "pPr" [] [] (by decide) rfl normal fun tag inner ht hr c => ?_
  simp [foldChildren, Paragraph.child, ht.label, hr]

end Letterpress
