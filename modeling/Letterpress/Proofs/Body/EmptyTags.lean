import Letterpress.Proofs.Body.Sites
import Letterpress.Proofs.Body.Steps
import Letterpress.Proofs.Body.Taking

/-!
# Empty tags and empty elements

Where an empty tag counts for what an empty element does, a pair in its place is read as the same
body.
-/

namespace Letterpress

open Markup Markup.Content

theorem Paired.cut?_eq {s : Site} {c c' : Content} (h : Paired s c c') : c.cut? = c'.cut? := by
  induction h with
  | done => rfl
  | cut => rfl
  | element _ _ ihInner ihRest => rw [cut?, cut?, ihInner, ihRest]
  | empty _ ih => exact ih
  | text _ ih => exact ih
  | cdata _ ih => exact ih
  | aside _ ih => exact ih
  | pair _ _ ih => exact ih

theorem Paired.skip_eq {s : Site} {c c' : Content} (h : Paired s c c') : c.skip = c'.skip := by
  rw [skip, skip, h.cut?_eq]

/-- In markup that is kept no tag is replaced. -/
theorem Paired.eq_of_kept {s : Site} {c c' : Content} (h : Paired s c c') (hs : s.zone = .kept) :
    c = c' := by
  induction h with
  | done => rfl
  | cut => rfl
  | element _ _ ihInner ihRest =>
    rw [ihInner (by rw [Site.inside, hs]; rfl), ihRest hs]
  | empty _ ih => rw [ih hs]
  | text _ ih => rw [ih hs]
  | cdata _ ih => rw [ih hs]
  | aside _ ih => rw [ih hs]
  | pair alike =>
    have := alike.outside
    rw [hs] at this
    cases this

/-- The labels of the elements before what follows a child. -/
def Markup.Content.Child.behind (before : List String) : Child → List String
  | .element tag _ => tag.label :: before
  | _ => before

variable {σ α : Type}

/-- A part of a state is `a` as long as no element with the label comes before. -/
def Initially (label : String) (part : σ → α) (a : α) (before : List String) (s : σ) : Prop :=
  label ∉ before → part s = a

theorem Initially.next {label : String} {part : σ → α} {a : α} {before : List String} {s s' : σ}
    {child : Child} (h : Initially label part a before s)
    (hsame : (∀ tag inner, child = .element tag inner → tag.label ≠ label) → part s' = part s) :
    Initially label part a (child.behind before) s' := by
  intro hbefore
  cases child with
  | element tag inner =>
    obtain ⟨hlabel, hbefore⟩ := not_or.mp (mt List.mem_cons.mpr hbefore)
    rw [hsame fun _ _ heq => by cases heq; exact Ne.symm hlabel]
    exact h hbefore
  | empty tag => exact (hsame nofun).trans (h hbefore)
  | text content => exact (hsame nofun).trans (h hbefore)
  | cdata content => exact (hsame nofun).trans (h hbefore)

/-- In a zone, a step over the children does not tell an empty tag from an empty element where both
count for the same, nor contents that differ in such tags. What it relies on for that holds of a
state behind elements with these labels. -/
structure Respects (f : σ → Child → Except PartFault σ) (zone : Zone)
    (I : List String → σ → Prop) : Prop where
  element : ∀ {before s tag inner inner'}, I before s →
    Paired ⟨zone.inside tag.label, []⟩ inner inner' →
      f s (.element tag inner) = f s (.element tag inner')
  empty : ∀ {before s tag}, I before s → Site.Alike ⟨zone, before⟩ tag →
    f s (.empty tag) = f s (.element tag .done)
  next : ∀ {before s s' child}, I before s → f s child = .ok s' → I (child.behind before) s'

theorem foldChildren_paired {f : σ → Child → Except PartFault σ} {zone : Zone}
    {I : List String → σ → Prop} (hf : Respects f zone I) {before : List String} {c c' : Content}
    (h : Paired ⟨zone, before⟩ c c') {s : σ} (hs : I before s) :
    foldChildren f s c = foldChildren f s c' := by
  generalize hsite : (⟨zone, before⟩ : Site) = site at h
  induction h generalizing before s with
  | done => rfl
  | cut => rfl
  | element inner _ _ ih =>
    subst hsite
    rw [foldChildren, foldChildren, ← hf.element hs inner]
    exact bind_congr_ok fun s' h => ih (hf.next hs h) rfl
  | empty _ ih => exact bind_congr_ok fun s' h => ih (hf.next hs h) hsite
  | text _ ih => exact bind_congr_ok fun s' h => ih (hf.next hs h) hsite
  | cdata _ ih => exact bind_congr_ok fun s' h => ih (hf.next hs h) hsite
  | aside _ ih => exact ih hs hsite
  | pair alike _ ih =>
    subst hsite
    rw [foldChildren, foldChildren, ← hf.empty hs alike]
    exact bind_congr_ok fun s' h => ih (hf.next hs h) rfl

theorem foldTags_paired {f : σ → Tag → σ} {c c' : Content} {before : List String}
    (h : Paired ⟨.tags, before⟩ c c') (s : σ) : foldTags f s c = foldTags f s c' := by
  refine foldChildren_paired (I := fun _ _ => True)
    ⟨fun _ h => ?_, fun _ _ => rfl, fun _ _ => trivial⟩ h trivial
  dsimp only
  rw [h.skip_eq]

theorem readText_paired {c c' : Content} {before : List String} (h : Paired ⟨.text, before⟩ c c') :
    readText c = readText c' := by
  refine foldChildren_paired (I := fun _ _ => True)
    ⟨fun _ h => ?_, fun _ _ => rfl, fun _ _ => trivial⟩ h trivial
  dsimp only
  rw [h.skip_eq]

theorem RunParts.properties_child {p p' : RunParts} {c : Child} (h : p.child c = .ok p')
    (hc : ∀ tag inner, c = .element tag inner → tag.label ≠ "rPr") :
    p'.properties = p.properties := by
  cases step_of_child h with
  | properties hl => exact absurd hl (hc _ _ rfl)
  | _ => rfl

theorem RunParts.respects : Respects child .run (Initially "rPr" properties {}) where
  element := by
    intro before p tag inner inner' _ h
    rw [Zone.inside] at h
    rw [child, child]
    by_cases hproperties : tag.label = "rPr"
    · simp only [if_pos hproperties] at h ⊢
      rw [show RunProperties.read inner = RunProperties.read inner' from foldTags_paired h _]
    by_cases htext : tag.label = "t"
    · simp only [if_neg hproperties, if_pos htext] at h ⊢
      rw [readText_paired h]
    by_cases hcode : tag.label = "instrText"
    · simp only [if_neg hproperties, if_neg htext, if_pos hcode] at h ⊢
      rw [readText_paired h]
    simp only [if_neg hproperties, if_neg htext, if_neg hcode] at h ⊢
    split
    · next hgraphic =>
      rw [if_pos hgraphic] at h
      rw [h.eq_of_kept rfl]
    · rw [h.skip_eq]
  empty := by
    intro before p tag hp alike
    have hgraphic : isGraphic tag.label = false := alike.counts
    rw [child, child, hgraphic]
    split
    · next hcode =>
      rw [hcode]
      rfl
    split
    · next hproperties =>
      have hnone : RunContent.ofTag? tag = none := by simp [RunContent.ofTag?, hproperties]
      have hdefault : p.properties = {} :=
        hp (hproperties ▸ alike.first (by simp [Zone.overrides, hproperties]))
      obtain ⟨properties, contents⟩ := p
      cases hdefault
      rw [hnone, Option.toList_none, add, List.append_nil]
      rfl
    split
    · next htext =>
      have hempty : RunContent.ofTag? tag = some (.text "") := by simp [RunContent.ofTag?, htext]
      rw [hempty]
      rfl
    · rfl
  next h hchild := h.next fun hc => properties_child hchild hc

theorem Run.ofMark?_eq_none {tag : Tag} (link : Option Hyperlink)
    (h : tag.label ∉ ["bookmarkStart", "bookmarkEnd"]) : ofMark? link tag = none := by
  unfold ofMark?
  split
  · next hl => exact absurd (by simp [hl]) h
  · next hl => exact absurd (by simp [hl]) h
  · rfl

/-- Of the elements between runs only bookmark marks count when they are empty. -/
theorem readRuns_pair (link : Option Hyperlink) (tag : Tag) (rest : Content) :
    readRuns link (.empty tag rest) = readRuns link (.element tag .done rest) := by
  conv_lhs => rw [readRuns]
  conv_rhs => rw [readRuns]
  split
  · next hl =>
    rw [Run.ofMark?_eq_none link (by rw [hl]; decide)]
    rfl
  split
  · next hl =>
    rw [Run.ofMark?_eq_none link (by rw [hl]; decide)]
    rfl
  split
  · next hl =>
    have hmark : tag.label ∉ ["bookmarkStart", "bookmarkEnd"] := by
      intro hmem
      rcases List.mem_pair.mp hmem with hmark | hmark <;> (rw [hmark] at hl; revert hl; decide)
    rw [Run.ofMark?_eq_none link hmark]
    rfl
  · rfl

theorem readRuns_paired {link : Option Hyperlink} {c c' : Content} {before : List String}
    (h : Paired ⟨.runs, before⟩ c c') : readRuns link c = readRuns link c' := by
  generalize hsite : (⟨.runs, before⟩ : Site) = site at h
  induction h generalizing link before with
  | done => rfl
  | cut => rfl
  | @element s tag inner inner' rest rest' hinner hrest ihInner ihRest =>
    subst hsite
    rw [readRuns, readRuns, @ihRest link _ rfl]
    simp only [Site.inside, Zone.inside, Zone.insideRuns] at hinner ihInner
    by_cases hrun : tag.label = "r"
    · simp only [if_pos hrun] at hinner ⊢
      rw [show RunParts.read inner = RunParts.read inner' from
        foldChildren_paired RunParts.respects hinner fun _ => rfl]
    by_cases hlink : tag.label = "hyperlink"
    · simp only [if_neg hrun, if_pos hlink] at ihInner ⊢
      rw [ihInner rfl]
    by_cases hgroup : isRunGroup tag.label
    · simp only [if_neg hrun, if_neg hlink, if_pos hgroup] at ihInner ⊢
      rw [ihInner rfl]
    · simp only [if_neg hrun, if_neg hlink, if_neg hgroup]
      rw [hinner.skip_eq]
  | empty _ ih => rw [readRuns, readRuns, ih hsite]
  | text _ ih => exact ih hsite
  | cdata _ ih => exact ih hsite
  | aside _ ih => exact ih hsite
  | pair _ _ ih => rw [← readRuns_pair, readRuns, readRuns, ih hsite]

/-! ### Paragraphs and tables -/

theorem ParagraphParts.read_paired {p : ParagraphParts} {c c' : Content} {before : List String}
    (h : Paired ⟨.paragraphProperties, before⟩ c c') : read p c = read p c' := by
  generalize hsite : (⟨.paragraphProperties, before⟩ : Site) = site at h
  induction h generalizing p before with
  | done => rfl
  | cut => rfl
  | @element s tag inner inner' rest rest' hinner _ ihInner ihRest =>
    subst hsite
    rw [read, read]
    simp only [Site.inside, Zone.inside] at hinner ihInner
    by_cases hlist : tag.label = "numPr"
    · simp only [if_pos hlist] at ihInner ⊢
      rw [ihInner rfl]
      exact bind_congr_ok fun p' _ => ihRest rfl
    by_cases hsection : tag.label = "sectPr"
    · simp only [if_neg hlist, if_pos hsection] at hinner ⊢
      rw [show Section.read inner = Section.read inner' from foldTags_paired hinner _]
      exact bind_congr_ok fun s _ => ihRest rfl
    · simp only [if_neg hlist, if_neg hsection]
      rw [hinner.skip_eq]
      exact bind_congr_ok fun _ _ => ihRest rfl
  | empty _ ih => exact ih hsite
  | text _ ih => exact ih hsite
  | cdata _ ih => exact ih hsite
  | aside _ ih => exact ih hsite
  | @pair s tag rest rest' alike _ ih =>
    subst hsite
    have hsection : tag.label ≠ "sectPr" := by simpa [Zone.ignores] using alike.counts
    show read (p.apply tag) rest = _
    rw [ih rfl, read, if_neg hsection]
    split
    · next hlist =>
      have hsame : p.apply tag = p := by simp [apply, hlist]
      rw [hsame]
      rfl
    · rfl

theorem Paragraph.properties_child {p p' : Paragraph} {c : Child} (h : p.child c = .ok p')
    (hc : ∀ tag inner, c = .element tag inner → tag.label ≠ "pPr") :
    p'.properties = p.properties := by
  cases step_of_child h with
  | properties hl => exact absurd hl (hc _ _ rfl)
  | _ => rfl

theorem Paragraph.respects : Respects child .paragraph (Initially "pPr" properties {}) where
  element := by
    intro before p tag inner inner' _ h
    rw [Zone.inside] at h
    rw [child, child]
    by_cases hproperties : tag.label = "pPr"
    · simp only [if_pos hproperties] at h ⊢
      rw [ParagraphProperties.read, ParagraphProperties.read, ParagraphParts.read_paired h]
    · simp only [if_neg hproperties] at h ⊢
      have halone : Paired ⟨.runs, []⟩ (.element tag inner .done) (.element tag inner' .done) :=
        .element h .done
      rw [readRuns_paired halone]
  empty := by
    intro before p tag hp alike
    rw [child, child]
    split
    · next hproperties =>
      have hdefault : p.properties = {} :=
        hp (hproperties ▸ alike.first (by simp [Zone.overrides, hproperties]))
      obtain ⟨properties, runs⟩ := p
      cases hdefault
      rw [Run.ofMark?_eq_none none (by rw [hproperties]; decide), Option.toList_none,
        List.append_nil]
      rfl
    · rw [← readRuns_pair, readRuns, readRuns]
      simp
  next h hchild := h.next fun hc => properties_child hchild hc

theorem Paragraph.read_paired {c c' : Content} (h : Paired ⟨.paragraph, []⟩ c c') :
    read c = read c' := foldChildren_paired respects h fun _ => rfl

/-- Properties of which some are kept as they are written. -/
theorem respects_applyOrKeep {apply : σ → Tag → σ} {keep? : Tag → Option (String → σ → σ)}
    {zone : Zone}
    (hinside : ∀ tag, (keep? tag).isSome → zone.inside tag.label = .kept)
    (hkeeps : ∀ tag, (keep? tag).isSome → zone.keeps tag.label) :
    Respects (applyOrKeep apply keep?) zone fun _ _ => True where
  element := by
    intro before s tag inner inner' _ h
    rw [applyOrKeep, applyOrKeep]
    cases hk : keep? tag with
    | some keep =>
      rw [hinside tag (by rw [hk]; rfl)] at h
      rw [h.eq_of_kept rfl]
    | none => rw [h.skip_eq]
  empty := by
    intro before s tag _ alike
    have hnone : keep? tag = none := by
      by_contra hsome
      have := hkeeps tag (Option.isSome_iff_ne_none.mpr hsome)
      rw [alike.outside] at this
      cases this
    rw [applyOrKeep, applyOrKeep, hnone]
    rfl
  next _ _ := trivial

theorem TableProperties.read_paired {c c' : Content} (h : Paired ⟨.tableProperties, []⟩ c c') :
    read c = read c' := by
  have hlabel : ∀ tag, (keep? tag).isSome →
      tag.label = "tblBorders" ∨ tag.label = "tblCellMar" ∨ tag.label = "tblLook" := by
    intro tag hk
    unfold keep? at hk
    split at hk
    · next hl => exact .inl hl
    · next hl => exact .inr (.inl hl)
    · next hl => exact .inr (.inr hl)
    · cases hk
  refine foldChildren_paired (respects_applyOrKeep (fun tag hk => ?_) fun tag hk => ?_) h trivial
  · rcases hlabel tag hk with hl | hl | hl <;> rw [hl] <;> rfl
  · rcases hlabel tag hk with hl | hl | hl <;> rw [hl] <;> rfl

theorem CellProperties.read_paired {c c' : Content} (h : Paired ⟨.cellProperties, []⟩ c c') :
    read c = read c' := by
  have hlabel : ∀ tag, (keep? tag).isSome → tag.label = "tcBorders" ∨ tag.label = "shd" := by
    intro tag hk
    unfold keep? at hk
    split at hk
    · next hl => exact .inl hl
    · next hl => exact .inr hl
    · cases hk
  refine foldChildren_paired (respects_applyOrKeep (fun tag hk => ?_) fun tag hk => ?_) h trivial
  · rcases hlabel tag hk with hl | hl <;> rw [hl] <;> rfl
  · rcases hlabel tag hk with hl | hl <;> rw [hl] <;> rfl

theorem Cell.properties_child {c c' : Cell} {child : Child} (h : c.child child = .ok c')
    (hc : ∀ tag inner, child = .element tag inner → tag.label ≠ "tcPr") :
    c'.properties = c.properties := by
  cases step_of_child h with
  | properties hl => exact absurd hl (hc _ _ rfl)
  | _ => rfl

theorem Cell.respects : Respects child .cell (Initially "tcPr" properties {}) where
  element := by
    intro before c tag inner inner' _ h
    rw [Zone.inside] at h
    rw [child, child]
    by_cases hproperties : tag.label = "tcPr"
    · simp only [if_pos hproperties] at h ⊢
      rw [CellProperties.read_paired h]
    by_cases hparagraph : tag.label = "p"
    · simp only [if_neg hproperties, if_pos hparagraph] at h ⊢
      rw [Paragraph.read_paired h]
    · simp only [if_neg hproperties, if_neg hparagraph]
      rw [h.skip_eq]
  empty := by
    intro before c tag hc alike
    rw [child, child]
    by_cases hproperties : tag.label = "tcPr"
    · have hdefault : c.properties = {} :=
        hc (hproperties ▸ alike.first (by simp [Zone.overrides, hproperties]))
      obtain ⟨properties, paragraphs⟩ := c
      cases hdefault
      simp only [hproperties]
      rfl
    by_cases hparagraph : tag.label = "p"
    · simp only [hparagraph]
      rfl
    · simp only [if_neg hproperties, if_neg hparagraph]
      rfl
  next h hchild := h.next fun hc => properties_child hchild hc

theorem Row.properties_child {r r' : Row} {c : Child} (h : r.child c = .ok r')
    (hc : ∀ tag inner, c = .element tag inner → tag.label ≠ "trPr") :
    r'.properties = r.properties := by
  cases step_of_child h with
  | properties hl => exact absurd hl (hc _ _ rfl)
  | _ => rfl

theorem Row.respects : Respects child .row (Initially "trPr" properties {}) where
  element := by
    intro before r tag inner inner' _ h
    rw [Zone.inside] at h
    rw [child, child]
    by_cases hproperties : tag.label = "trPr"
    · simp only [if_pos hproperties] at h ⊢
      rw [show RowProperties.read inner = RowProperties.read inner' from foldTags_paired h _]
    by_cases hcell : tag.label = "tc"
    · simp only [if_neg hproperties, if_pos hcell] at h ⊢
      rw [show Cell.read inner = Cell.read inner' from
        foldChildren_paired Cell.respects h fun _ => rfl]
    · simp only [if_neg hproperties, if_neg hcell]
      rw [h.skip_eq]
  empty := by
    intro before r tag hr alike
    have hcell : tag.label ≠ "tc" := by simpa [Zone.ignores] using alike.counts
    show Except.ok r = child r (.element tag .done)
    rw [child, if_neg hcell]
    split
    · next hproperties =>
      have hdefault : r.properties = {} :=
        hr (hproperties ▸ alike.first (by simp [Zone.overrides, hproperties]))
      obtain ⟨properties, cells⟩ := r
      cases hdefault
      rfl
    · rfl
  next h hchild := h.next fun hc => properties_child hchild hc

theorem Table.parts_child {t t' : Table} {c : Child} (h : t.child c = .ok t') :
    ((∀ tag inner, c = .element tag inner → tag.label ≠ "tblPr") → t'.properties = t.properties) ∧
      ((∀ tag inner, c = .element tag inner → tag.label ≠ "tblGrid") → t'.grid = t.grid) := by
  cases step_of_child h with
  | properties hl => exact ⟨fun hc => absurd hl (hc _ _ rfl), fun _ => rfl⟩
  | grid hl => exact ⟨fun _ => rfl, fun hc => absurd hl (hc _ _ rfl)⟩
  | _ => exact ⟨fun _ => rfl, fun _ => rfl⟩

theorem Table.respects : Respects child .table fun before t =>
    Initially "tblPr" properties {} before t ∧ Initially "tblGrid" grid [] before t where
  element := by
    intro before t tag inner inner' _ h
    rw [Zone.inside] at h
    rw [child, child]
    by_cases hproperties : tag.label = "tblPr"
    · simp only [if_pos hproperties] at h ⊢
      rw [TableProperties.read_paired h]
    by_cases hgrid : tag.label = "tblGrid"
    · simp only [if_neg hproperties, if_pos hgrid] at h ⊢
      rw [show readGrid inner = readGrid inner' from foldTags_paired h _]
    by_cases hrow : tag.label = "tr"
    · simp only [if_neg hproperties, if_neg hgrid, if_pos hrow] at h ⊢
      rw [show Row.read inner = Row.read inner' from
        foldChildren_paired Row.respects h fun _ => rfl]
    · simp only [if_neg hproperties, if_neg hgrid, if_neg hrow]
      rw [h.skip_eq]
  empty := by
    intro before t tag ht alike
    have hrow : tag.label ≠ "tr" := by simpa [Zone.ignores] using alike.counts
    show Except.ok t = child t (.element tag .done)
    rw [child, if_neg hrow]
    split
    · next hproperties =>
      have hdefault : t.properties = {} :=
        ht.1 (hproperties ▸ alike.first (by simp [Zone.overrides, hproperties]))
      obtain ⟨properties, grid, rows⟩ := t
      cases hdefault
      rfl
    split
    · next hgrid =>
      have hdefault : t.grid = [] :=
        ht.2 (hgrid ▸ alike.first (by simp [Zone.overrides, hgrid]))
      obtain ⟨properties, grid, rows⟩ := t
      cases hdefault
      rfl
    · rfl
  next h hchild :=
    ⟨h.1.next (parts_child hchild).1, h.2.next (parts_child hchild).2⟩

/-! ### Elements and the main part -/

theorem ControlProperties.read_paired {p : ControlProperties} {c c' : Content}
    {before : List String} (h : Paired ⟨.controlProperties, before⟩ c c') : read p c = read p c' := by
  generalize hsite : (⟨.controlProperties, before⟩ : Site) = site at h
  induction h generalizing p before with
  | done => rfl
  | cut => rfl
  | @element s tag inner inner' rest rest' hinner _ ihInner ihRest =>
    subst hsite
    rw [read, read]
    simp only [Site.inside, Zone.inside] at hinner ihInner
    by_cases hblock : tag.label = "docPartObj"
    · simp only [if_pos hblock] at ihInner ⊢
      rw [ihInner rfl]
      exact bind_congr_ok fun p' _ => ihRest rfl
    · simp only [if_neg hblock]
      rw [hinner.skip_eq]
      exact bind_congr_ok fun _ _ => ihRest rfl
  | empty _ ih => exact ih hsite
  | text _ ih => exact ih hsite
  | cdata _ ih => exact ih hsite
  | aside _ ih => exact ih hsite
  | @pair s tag rest rest' _ _ ih =>
    show read (p.apply tag) rest = _
    rw [ih hsite, read]
    split
    · next hblock =>
      have hsame : p.apply tag = p := by simp [apply, hblock]
      rw [hsame]
      rfl
    · rfl

namespace Element

theorem readAll_pair {before : List String} {tag : Tag} (h : Site.Alike ⟨.elements, before⟩ tag)
    (rest : Content) : readAll (.empty tag rest) = readAll (.element tag .done rest) := by
  obtain ⟨htable, hcontrol⟩ : tag.label ≠ "tbl" ∧ tag.label ≠ "sdt" := by
    simpa [Zone.ignores] using h.counts
  conv_lhs => rw [readAll]
  conv_rhs => rw [readAll]
  by_cases hparagraph : tag.label = "p"
  · have hempty : ofEmpty? tag = some (.paragraph {}) := by simp [ofEmpty?, hparagraph]
    rw [if_pos hparagraph, hempty]
    rfl
  by_cases hsetup : tag.label = "sectPr"
  · have hempty : ofEmpty? tag = some (.setup {}) := by simp [ofEmpty?, hsetup]
    rw [if_neg hparagraph, if_neg htable, if_pos hsetup, hempty]
    rfl
  · have hmark : ofEmpty? tag = ofMark? tag := by
      unfold ofEmpty?
      split
      · next hl => exact absurd hl hparagraph
      · next hl => exact absurd hl hsetup
      · rfl
    rw [if_neg hparagraph, if_neg htable, if_neg hsetup, if_neg hcontrol, hmark]
    rfl

/-- What a control is before its properties and its content are read. -/
def InitialControl (before : List String) (p : ControlProperties) (content : List Element) : Prop :=
  ("sdtPr" ∉ before → p = {}) ∧ ("sdtContent" ∉ before → content = [])

theorem readControl_pair {before : List String} {tag : Tag} {p : ControlProperties}
    {content : List Element} (h : Site.Alike ⟨.control, before⟩ tag)
    (hcontrol : InitialControl before p content) (rest : Content) :
    readControl p content (.empty tag rest) = readControl p content (.element tag .done rest) := by
  conv_lhs => rw [readControl]
  conv_rhs => rw [readControl]
  by_cases hproperties : tag.label = "sdtPr"
  · have hdefault : p = {} :=
      hcontrol.1 (hproperties ▸ h.first (by simp [Zone.overrides, hproperties]))
    rw [if_pos hproperties, hdefault]
    rfl
  by_cases hcontent : tag.label = "sdtContent"
  · have hdefault : content = [] :=
      hcontrol.2 (hcontent ▸ h.first (by simp [Zone.overrides, hcontent]))
    rw [if_neg hproperties, if_pos hcontent, hdefault, readAll]
    rfl
  · rw [if_neg hproperties, if_neg hcontent]
    rfl

theorem paired {s : Site} {c c' : Content} (h : Paired s c c') :
    (s.zone = .elements → readAll c = readAll c') ∧
      ∀ p content, s.zone = .control → InitialControl s.before p content →
        readControl p content c = readControl p content c' := by
  induction h with
  | done => exact ⟨fun _ => rfl, fun _ _ _ _ => rfl⟩
  | cut => exact ⟨fun _ => rfl, fun _ _ _ _ => rfl⟩
  | @element s tag inner inner' rest rest' hinner _ ihInner ihRest =>
    obtain ⟨zone, before⟩ := s
    refine ⟨?_, ?_⟩
    · rintro ⟨⟩
      rw [readAll, readAll, ihRest.1 rfl]
      simp only [Site.inside, Zone.inside] at hinner ihInner
      by_cases hparagraph : tag.label = "p"
      · simp only [if_pos hparagraph] at hinner ⊢
        rw [Paragraph.read_paired hinner]
      by_cases htable : tag.label = "tbl"
      · simp only [if_neg hparagraph, if_pos htable] at hinner ⊢
        rw [show Table.read inner = Table.read inner' from
          foldChildren_paired Table.respects hinner ⟨fun _ => rfl, fun _ => rfl⟩]
      by_cases hsetup : tag.label = "sectPr"
      · simp only [if_neg hparagraph, if_neg htable, if_pos hsetup] at hinner ⊢
        rw [show Section.read inner = Section.read inner' from foldTags_paired hinner _]
      by_cases hcontrol : tag.label = "sdt"
      · simp only [if_neg hparagraph, if_neg htable, if_neg hsetup, if_pos hcontrol] at ihInner ⊢
        rw [ihInner.2 {} [] trivial ⟨fun _ => rfl, fun _ => rfl⟩]
      · simp only [if_neg hparagraph, if_neg htable, if_neg hsetup, if_neg hcontrol]
        rw [hinner.skip_eq]
    · rintro p content ⟨⟩ hstate
      have hbehind : InitialControl (tag.label :: before) p content :=
        ⟨fun hn => hstate.1 (mt (List.mem_cons_of_mem _) hn),
          fun hn => hstate.2 (mt (List.mem_cons_of_mem _) hn)⟩
      rw [readControl, readControl]
      simp only [Site.inside, Zone.inside] at hinner ihInner
      by_cases hproperties : tag.label = "sdtPr"
      · simp only [if_pos hproperties] at hinner ⊢
        rw [ControlProperties.read_paired hinner]
        exact bind_congr_ok fun p' _ => ihRest.2 p' content rfl
          ⟨fun hn => absurd (hproperties ▸ List.mem_cons_self ..) hn, hbehind.2⟩
      by_cases hcontent : tag.label = "sdtContent"
      · simp only [if_neg hproperties, if_pos hcontent] at ihInner ⊢
        rw [ihInner.1 trivial]
        exact bind_congr_ok fun content' _ => ihRest.2 p content' rfl
          ⟨hbehind.1, fun hn => absurd (hcontent ▸ List.mem_cons_self ..) hn⟩
      · simp only [if_neg hproperties, if_neg hcontent]
        rw [hinner.skip_eq]
        exact bind_congr_ok fun _ _ => ihRest.2 p content rfl hbehind
  | empty _ ih =>
    refine ⟨fun hs => ?_, fun p content hs hstate => ?_⟩
    · rw [readAll, readAll, ih.1 hs]
    · rw [readControl, readControl, ih.2 p content hs hstate]
  | text _ ih => simpa only [readAll, readControl] using ih
  | cdata _ ih => simpa only [readAll, readControl] using ih
  | aside _ ih => simpa only [readAll, readControl] using ih
  | @pair s tag rest rest' alike _ ih =>
    obtain ⟨zone, before⟩ := s
    refine ⟨?_, ?_⟩
    · rintro ⟨⟩
      rw [← readAll_pair alike, readAll, readAll, ih.1 rfl]
    · rintro p content ⟨⟩ hstate
      rw [← readControl_pair alike hstate, readControl, readControl, ih.2 p content rfl hstate]

end Element

namespace MainPart

/-- Whatever the attributes of the root are, the same body is read. -/
theorem Partial.body_read_paired {s : Site} {c c' : Content} (h : Paired s c c')
    (hs : s.zone = .root) {m m' : Partial} (hm : m.body = m'.body) :
    (m.read c).map (·.body) = (m'.read c').map (·.body) := by
  induction h generalizing m m' with
  | done => exact congrArg Except.ok hm
  | @cut s fault =>
    cases fault with
    | none => exact congrArg Except.ok hm
    | some fault => rfl
  | @element s tag inner inner' rest rest' hinner _ ihInner ihRest =>
    obtain ⟨zone, before⟩ := s
    cases hs
    simp only [Site.inside, Zone.inside] at hinner ihInner
    rw [read, read]
    by_cases hdocument : tag.label = "document"
    · simp only [if_pos hdocument] at ihInner ⊢
      exact map_bind_congr (ihInner trivial hm) fun _ _ hbody => ihRest rfl hbody
    by_cases hbody : tag.label = "body"
    · simp only [if_neg hdocument, if_pos hbody] at hinner ⊢
      rw [(Element.paired hinner).1 rfl]
      refine map_bind_congr (g := id) rfl ?_
      rintro elements _ rfl
      exact ihRest rfl rfl
    · simp only [if_neg hdocument, if_neg hbody]
      rw [hinner.skip_eq]
      exact map_bind_congr (g := id) rfl fun _ _ _ => ihRest rfl hm
  | @empty s tag rest rest' _ ih =>
    rw [read, read]
    refine ih hs ?_
    split
    · rfl
    · exact hm
  | text _ ih => exact ih hs hm
  | cdata _ ih => exact ih hs hm
  | aside _ ih => exact ih hs hm
  | @pair s tag rest rest' _ _ ih =>
    conv_lhs => rw [read]
    conv_rhs => rw [read]
    by_cases hdocument : tag.label = "document"
    · rw [if_pos hdocument, if_neg (by rw [hdocument]; decide)]
      exact ih hs hm
    by_cases hbody : tag.label = "body"
    · rw [if_neg hdocument, if_pos hbody, if_pos hbody, Element.readAll]
      exact ih hs rfl
    · rw [if_neg hdocument, if_neg hbody, if_neg hbody]
      exact ih hs hm

/-- A text with a pair in the place of an empty tag that counts for what an empty element does is
read as the same body. -/
theorem body_read_replaced {source : List Text.Symbol} {front behind : List Event} {tag : Tag}
    (hsource : (scan source).list = front ++ .empty tag :: behind) (htag : tag.IsPaired)
    (halike : (Position.after front).here.Alike tag) :
    ∃ before after, source = before ++ (emptySource tag ++ after) ∧ scan before = ⟨front, none⟩ ∧
      (read (before ++ (pairSource tag ++ after))).map (·.body) = (read source).map (·.body) := by
  obtain ⟨fault, hscan⟩ : ∃ fault, scan source = ⟨front ++ .empty tag :: behind, fault⟩ :=
    ⟨(scan source).fault, by rw [← hsource]⟩
  obtain ⟨before, after, hbefore, hfront, hpair⟩ := scan_replaced htag hscan
  refine ⟨before, after, hbefore, hfront, ?_⟩
  have hpaired : Paired {} (Content.read source)
      (Content.read (before ++ (pairSource tag ++ after))) := by
    rw [Content.read, Content.read, hscan, hpair]
    exact Paired.ofEvents halike
  refine (map_bind_congr (Partial.body_read_paired hpaired rfl rfl) fun m m' hbody => ?_).symm
  obtain ⟨attributes, body⟩ := m
  obtain ⟨attributes', body'⟩ := m'
  cases (hbody : body = body')
  cases body <;> rfl

theorem body_read_replaced_switch :
    ∃ before after, Text.Symbol.ofString ("<w:document><w:body><w:p><w:pPr/><w:r><w:rPr>" ++
        "<w:b w:val='0'/></w:rPr></w:r></w:p></w:body></w:document>") =
      before ++ (emptySource ⟨Text.Symbol.ofString "w:b w:val='0'"⟩ ++ after) ∧
    (read (before ++ (pairSource ⟨Text.Symbol.ofString "w:b w:val='0'"⟩ ++ after))).map (·.body) =
      (read (Text.Symbol.ofString ("<w:document><w:body><w:p><w:pPr/><w:r><w:rPr>" ++
        "<w:b w:val='0'/></w:rPr></w:r></w:p></w:body></w:document>"))).map (·.body) := by
  let opened (names : List String) : List Event :=
    names.map fun name => .opening ⟨Text.Symbol.ofString name⟩
  let closed (names : List String) : List Event :=
    names.map fun name => .closing (Text.Symbol.ofString name)
  have hscan : (scan (Text.Symbol.ofString ("<w:document><w:body><w:p><w:pPr/><w:r><w:rPr>" ++
        "<w:b w:val='0'/></w:rPr></w:r></w:p></w:body></w:document>"))).list =
      (opened ["w:document", "w:body", "w:p"] ++ .empty ⟨Text.Symbol.ofString "w:pPr"⟩ ::
        opened ["w:r", "w:rPr"]) ++ .empty ⟨Text.Symbol.ofString "w:b w:val='0'"⟩ ::
          closed ["w:rPr", "w:r", "w:p", "w:body", "w:document"] := by
    rw [Text.Symbol.ofString_append, Text.Symbol.ofString_ofList, Text.Symbol.ofString_ofList]
    decide +kernel
  obtain ⟨before, after, hsource, -, hbody⟩ := body_read_replaced hscan
    ⟨by decide, by decide⟩ ⟨by decide, by decide, by decide⟩
  exact ⟨before, after, hsource, hbody⟩

/-- Among the properties of a paragraph an empty tag of a section setup counts for nothing, although
it counts in the body. -/
theorem body_read_replaced_ne : ∃ m m',
    read (Text.Symbol.ofString
      "<w:document><w:body><w:p><w:pPr><w:sectPr/></w:pPr></w:p></w:body></w:document>") = .ok m ∧
    read (Text.Symbol.ofString
      "<w:document><w:body><w:p><w:pPr><w:sectPr></w:sectPr></w:pPr></w:p></w:body></w:document>") =
        .ok m' ∧
    m.body.xml = .ok "<w:body>\n<w:p></w:p>\n</w:body>" ∧
    m'.body.xml = .ok "<w:body>\n<w:p><w:pPr><w:sectPr></w:sectPr></w:pPr></w:p>\n</w:body>" ∧
    m.body ≠ m'.body := by
  obtain ⟨m, hm, hempty⟩ := map_eq_ok.mp (show (read (Text.Symbol.ofString
      "<w:document><w:body><w:p><w:pPr><w:sectPr/></w:pPr></w:p></w:body></w:document>")).map
        (·.body.xml) = .ok (.ok "<w:body>\n<w:p></w:p>\n</w:body>") by
    rw [Text.Symbol.ofString_ofList]
    decide +kernel)
  obtain ⟨m', hm', hpair⟩ := map_eq_ok.mp (show (read (Text.Symbol.ofString
      "<w:document><w:body><w:p><w:pPr><w:sectPr></w:sectPr></w:pPr></w:p></w:body></w:document>")).map
        (·.body.xml) =
          .ok (.ok "<w:body>\n<w:p><w:pPr><w:sectPr></w:sectPr></w:pPr></w:p>\n</w:body>") by
    rw [Text.Symbol.ofString_ofList]
    decide +kernel)
  refine ⟨m, m', hm, hm', hempty, hpair, fun hsame => ?_⟩
  rw [hsame, hpair] at hempty
  exact absurd hempty (by decide +kernel)

end MainPart

end Letterpress
