import Letterpress.Proofs.Body.EmptyTags
import Letterpress.Proofs.Markup.TextParts

/-!
# Contents with more in them

An element that is not known where it stands counts for nothing, whatever is in it. So contents are
read as those that have such elements less.
-/

namespace Letterpress

open Markup Markup.Content Text

namespace Zone

def runLabels : List String :=
  ["r", "hyperlink", "ins", "smartTag", "fldSimple", "customXml", "sdt", "sdtContent",
    "bookmarkStart", "bookmarkEnd"]

/-- The labels that are told from others in a zone. -/
def labels : Zone → List String
  | root => ["document", "body"]
  | elements => ["p", "tbl", "sectPr", "sdt", "bookmarkStart", "bookmarkEnd"]
  | control => ["sdtPr", "sdtContent"]
  | controlProperties => ["id", "alias", "tag", "docPartGallery", "docPartUnique", "docPartObj"]
  | paragraph => "pPr" :: runLabels
  | paragraphProperties =>
    ["pStyle", "keepNext", "keepLines", "pageBreakBefore", "ilvl", "numId", "spacing", "ind", "jc",
      "numPr", "sectPr"]
  | runs => runLabels
  | run =>
    ["rPr", "t", "instrText", "drawing", "pict", "object", "AlternateContent", "tab", "br", "cr",
      "fldChar", "footnoteReference", "endnoteReference"]
  | text => []
  | table => ["tblPr", "tblGrid", "tr"]
  | tableProperties =>
    ["tblStyle", "tblW", "jc", "tblLayout", "tblBorders", "tblCellMar", "tblLook"]
  | row => ["trPr", "tc"]
  | cell => ["tcPr", "p"]
  | cellProperties => ["tcW", "gridSpan", "vMerge", "vAlign", "tcBorders", "shd"]
  | tags =>
    ["rStyle", "rFonts", "b", "i", "strike", "color", "sz", "highlight", "u", "vertAlign",
      "headerReference", "footerReference", "pgSz", "pgMar", "pgNumType", "cols", "titlePg",
      "docGrid", "cantSplit", "trHeight", "tblHeader", "gridCol"]
  | skipped => []
  | kept => []

/-- Whether elements with this label count for nothing in a zone. -/
structure Passes (zone : Zone) (label : String) : Prop where
  read : zone ≠ kept
  unknown : label ∉ zone.labels

theorem Passes.ne {zone : Zone} {label known : String} (h : zone.Passes label)
    (hknown : known ∈ zone.labels) : label ≠ known := by
  rintro rfl
  exact h.unknown hknown

end Zone

/-- Contents of which the second has more elements that count for nothing. A text may be cut in two
where such an element is put. -/
inductive Padded : Zone → Content → Content → Prop
  | done {zone : Zone} : Padded zone done done
  | cut {zone : Zone} {fault : Option Fault} : Padded zone (cut fault) (cut fault)
  | element {zone : Zone} {tag : Tag} {inner inner' rest rest' : Content} :
      Padded (zone.inside tag.label) inner inner' → Padded zone rest rest' →
        Padded zone (element tag inner rest) (element tag inner' rest')
  | empty {zone : Zone} {tag : Tag} {rest rest' : Content} :
      Padded zone rest rest' → Padded zone (empty tag rest) (empty tag rest')
  | text {zone : Zone} {content : List Symbol} {rest rest' : Content} :
      Padded zone rest rest' → Padded zone (text content rest) (text content rest')
  | cdata {zone : Zone} {content : List Symbol} {rest rest' : Content} :
      Padded zone rest rest' → Padded zone (cdata content rest) (cdata content rest')
  | aside {zone : Zone} {source : List Symbol} {rest rest' : Content} :
      Padded zone rest rest' → Padded zone (aside source rest) (aside source rest')
  | unknown {zone : Zone} {tag : Tag} {inner rest rest' : Content} :
      zone.Passes tag.label → inner.cut? = none → Padded zone rest rest' →
        Padded zone rest (element tag inner rest')
  | unknownEmpty {zone : Zone} {tag : Tag} {rest rest' : Content} :
      zone.Passes tag.label → Padded zone rest rest' → Padded zone rest (empty tag rest')
  | split {zone : Zone} {a b : List Symbol} {rest rest' : Content} :
      (zone = .text → leavesReference a = false) → Padded zone (text a (text b rest)) rest' →
        Padded zone (text (a ++ b) rest) rest'

namespace Padded

theorem refl (c : Content) (zone : Zone) : Padded zone c c := by
  induction c generalizing zone with
  | done => exact .done
  | cut fault => exact .cut
  | element tag inner rest ihInner ihRest => exact .element (ihInner _) (ihRest _)
  | empty tag rest ih => exact .empty (ih _)
  | text content rest ih => exact .text (ih _)
  | cdata content rest ih => exact .cdata (ih _)
  | aside source rest ih => exact .aside (ih _)

theorem isCongruence : IsCongruence fun s => Padded s.zone where
  refl c s := refl c s.zone
  element := .element
  front hf h := by
    rename_i event f s c c'
    cases event with
    | opening tag | closing name => cases hf
    | empty tag => cases hf; exact .empty h
    | text content => cases hf; exact .text h
    | cdata content => cases hf; exact .cdata h
    | aside source => cases hf; exact .aside h

variable {zone : Zone} {c c' : Content}

theorem cut?_eq (h : Padded zone c c') : c.cut? = c'.cut? := by
  induction h with
  | done | cut => rfl
  | element _ _ ihInner ihRest => rw [Content.cut?, Content.cut?, ihInner, ihRest]
  | empty _ ih | text _ ih | cdata _ ih | aside _ ih => exact ih
  | unknown _ hcut _ ih =>
    rw [Content.cut?, hcut]
    exact ih
  | unknownEmpty _ _ ih => exact ih
  | split _ _ ih => exact ih

theorem skip_eq (h : Padded zone c c') : c.skip = c'.skip := by
  rw [skip, skip, h.cut?_eq]

/-- In markup that is kept no element is put. -/
theorem source_eq (h : Padded zone c c') (hzone : zone = .kept) : c.source = c'.source := by
  induction h with
  | done | cut => rfl
  | element _ _ ihInner ihRest =>
    rw [source, source, ihInner (by rw [hzone]; rfl), ihRest hzone]
  | empty _ ih | text _ ih | cdata _ ih | aside _ ih => rw [source, source, ih hzone]
  | unknown passes => exact absurd hzone passes.read
  | unknownEmpty passes => exact absurd hzone passes.read
  | split _ _ ih =>
    rw [← ih hzone, source, source, source, List.append_assoc]

theorem elementText_eq (h : Padded .kept c c') (tag : Tag) :
    elementText tag c = elementText tag c' := by
  have hsource : (Content.element tag c .done).source = (Content.element tag c' .done).source := by
    simp only [source, h.source_eq rfl]
  rw [elementText, elementText, h.skip_eq, hsource]

end Padded

section Stays

variable {ε α β σ : Type}

/-- In a zone, a step over the children does not tell contents that differ in elements which count
for nothing, and does nothing at such an element. -/
structure Ignores (f : σ → Child → Except PartFault σ) (zone : Zone) : Prop where
  element : ∀ {s tag inner inner'}, Padded (zone.inside tag.label) inner inner' →
    Stays (f s (.element tag inner)) (f s (.element tag inner'))
  unknown : ∀ {s tag inner}, zone.Passes tag.label → inner.cut? = none →
    f s (.element tag inner) = .ok s
  unknownEmpty : ∀ {s tag}, zone.Passes tag.label → f s (.empty tag) = .ok s
  split : ∀ {s a b s'}, (zone = .text → leavesReference a = false) →
    f s (.text (a ++ b)) = .ok s' → ∃ next, f s (.text a) = .ok next ∧ f next (.text b) = .ok s'

variable {f : σ → Child → Except PartFault σ} {zone : Zone}

theorem Ignores.foldChildren (hf : Ignores f zone) {c c' : Content} (h : Padded zone c c') :
    ∀ s, Stays (foldChildren f s c) (foldChildren f s c') := by
  induction h with
  | done | cut => exact fun s => .refl _
  | element inner _ _ ih => exact fun s => (hf.element inner).bind (ih hf)
  | empty _ ih | text _ ih | cdata _ ih => exact fun s => (Stays.refl _).bind (ih hf)
  | aside _ ih => exact ih hf
  | unknown passes hcut _ ih =>
    intro s
    rw [Content.foldChildren, hf.unknown passes hcut]
    exact ih hf s
  | unknownEmpty passes _ ih =>
    intro s
    rw [Content.foldChildren, hf.unknownEmpty passes]
    exact ih hf s
  | split hreference _ ih =>
    intro s r hr
    obtain ⟨next, htext, hrest⟩ := bind_eq_ok.mp hr
    obtain ⟨between, hfirst, hsecond⟩ := hf.split hreference htext
    exact ih hf s r (bind_eq_ok.mpr ⟨between, hfirst, bind_eq_ok.mpr ⟨next, hsecond, hrest⟩⟩)

/-- In a zone, a reader that goes on along the contents and down into elements of the same zone does
not tell contents that differ in elements which count for nothing. -/
structure Descends (read : σ → Content → Except PartFault α) (zone : Zone) : Prop where
  element : ∀ {s tag inner inner' rest rest'}, Padded (zone.inside tag.label) inner inner' →
    (zone.inside tag.label = zone → ∀ s, Stays (read s inner) (read s inner')) →
      (∀ s, Stays (read s rest) (read s rest')) →
        Stays (read s (.element tag inner rest)) (read s (.element tag inner' rest'))
  empty : ∀ {s tag rest rest'}, (∀ s, Stays (read s rest) (read s rest')) →
    Stays (read s (.empty tag rest)) (read s (.empty tag rest'))
  unknown : ∀ {s tag inner}, zone.Passes tag.label → inner.cut? = none →
    ∀ rest, read s (.element tag inner rest) = read s rest
  unknownEmpty : ∀ {s tag}, zone.Passes tag.label → ∀ rest, read s (.empty tag rest) = read s rest
  text : ∀ s content rest, read s (.text content rest) = read s rest
  cdata : ∀ s content rest, read s (.cdata content rest) = read s rest
  aside : ∀ s source rest, read s (.aside source rest) = read s rest

theorem Descends.stays {read : σ → Content → Except PartFault α} (hread : Descends read zone)
    {c c' : Content} (h : Padded zone c c') : ∀ s, Stays (read s c) (read s c') := by
  induction h with
  | done | cut => exact fun s => .refl _
  | element inner _ ihInner ihRest =>
    exact fun s => hread.element inner (fun hzone => ihInner (by rwa [hzone])) (ihRest hread)
  | empty _ ih => exact fun s => hread.empty (ih hread)
  | text _ ih => exact fun s => by simpa only [hread.text] using ih hread s
  | cdata _ ih => exact fun s => by simpa only [hread.cdata] using ih hread s
  | aside _ ih => exact fun s => by simpa only [hread.aside] using ih hread s
  | unknown passes hcut _ ih =>
    intro s
    rw [hread.unknown passes hcut]
    exact ih hread s
  | unknownEmpty passes _ ih =>
    intro s
    rw [hread.unknownEmpty passes]
    exact ih hread s
  | split _ _ ih => exact fun s => by simpa only [hread.text] using ih hread s

/-- A step that passes over texts passes over the parts of a text. -/
theorem split_of_text (hf : ∀ s content, f s (.text content) = .ok s) {s s' : σ} {a b : List Symbol}
    (h : f s (.text (a ++ b)) = .ok s') :
    ∃ next, f s (.text a) = .ok next ∧ f next (.text b) = .ok s' := by
  rw [hf] at h
  cases h
  exact ⟨s, hf s a, hf s b⟩

end Stays

theorem foldTags_padded {σ : Type} {f : σ → Tag → σ}
    (hf : ∀ s tag, Zone.Passes .tags tag.label → f s tag = s) {c c' : Content}
    (h : Padded .tags c c') (s : σ) : Stays (foldTags f s c) (foldTags f s c') := by
  refine Ignores.foldChildren ⟨fun inner => ?_, fun passes hcut => ?_, fun passes => ?_,
    fun _ => split_of_text fun _ _ => rfl⟩ h s
  · dsimp only
    rw [inner.skip_eq]
    exact .refl _
  · dsimp only
    rw [skip, hcut, hf _ _ passes]
    rfl
  · exact congrArg Except.ok (hf _ _ passes)

theorem readText_padded {c c' : Content} (h : Padded .text c c') :
    Stays (readText c) (readText c') := by
  refine Ignores.foldChildren ⟨fun inner => ?_, fun passes hcut => ?_, fun _ => rfl,
    fun hreference htext => ?_⟩ h ""
  · dsimp only
    rw [inner.skip_eq]
    exact .refl _
  · dsimp only
    rw [skip, hcut]
    rfl
  · rename_i s a b s'
    obtain ⟨written, hread, rfl⟩ := map_eq_ok.mp htext
    obtain ⟨first, rest, hfirst, hrest, rfl⟩ :=
      readText_append (mapError_eq_ok.mp hread) (hreference rfl)
    exact ⟨s ++ first, by simp only [hfirst]; rfl,
      by simp only [hrest, ← String.append_assoc]; rfl⟩

/-! ### Runs and paragraphs -/

theorem RunProperties.read_padded {c c' : Content} (h : Padded .tags c c') :
    Stays (read c) (read c') := by
  refine foldTags_padded (fun p tag passes => ?_) h _
  unfold apply
  split <;> first | rfl | exact absurd ‹tag.label = _› (passes.ne (by decide))

theorem RunContent.ofTag?_of_passes {tag : Tag} (h : Zone.Passes .run tag.label) :
    ofTag? tag = none := by
  unfold ofTag?
  split <;> first | rfl | exact absurd ‹tag.label = _› (h.ne (by decide))

theorem RunParts.add_nil (p : RunParts) : p.add [] = p := by
  rw [add, List.append_nil]

theorem RunParts.ignores : Ignores child .run where
  element := by
    intro p tag inner inner' h
    rw [Zone.inside] at h
    rw [child, child]
    by_cases hproperties : tag.label = "rPr"
    · simp only [if_pos hproperties] at h ⊢
      exact (RunProperties.read_padded h).bind fun _ => .refl _
    by_cases htext : tag.label = "t"
    · simp only [if_neg hproperties, if_pos htext] at h ⊢
      exact (readText_padded h).bind fun _ => .refl _
    by_cases hcode : tag.label = "instrText"
    · simp only [if_neg hproperties, if_neg htext, if_pos hcode] at h ⊢
      exact (readText_padded h).bind fun _ => .refl _
    simp only [if_neg hproperties, if_neg htext, if_neg hcode] at h ⊢
    split
    · next hgraphic =>
      rw [if_pos hgraphic] at h
      rw [h.elementText_eq]
      exact .refl _
    · rw [h.skip_eq]
      exact .refl _
  unknown := by
    intro p tag inner passes hcut
    have hlabel := passes.unknown
    simp only [Zone.labels, List.mem_cons, List.not_mem_nil, or_false, not_or] at hlabel
    rw [child, skip, hcut, RunContent.ofTag?_of_passes passes]
    simp [hlabel, isGraphic, add_nil]
  unknownEmpty := by
    intro p tag passes
    have hcode : tag.label ≠ "instrText" := passes.ne (by decide)
    rw [child, if_neg hcode, RunContent.ofTag?_of_passes passes]
    exact congrArg Except.ok p.add_nil
  split _ := split_of_text fun _ _ => rfl

theorem Run.ofMark?_of_passes {tag : Tag} (h : Zone.Passes .runs tag.label)
    (link : Option Hyperlink) : ofMark? link tag = none := by
  refine ofMark?_eq_none link fun hmem => h.unknown ?_
  rcases List.mem_pair.mp hmem with hl | hl <;> (rw [hl]; decide)

theorem readRuns_of_passes {tag : Tag} (h : Zone.Passes .runs tag.label) (link : Option Hyperlink)
    {inner : Content} (hcut : inner.cut? = none) (rest : Content) :
    readRuns link (.element tag inner rest) = readRuns link rest := by
  have hlabel := h.unknown
  simp only [Zone.labels, Zone.runLabels, List.mem_cons, List.not_mem_nil, or_false, not_or]
    at hlabel
  have hgroup : isRunGroup tag.label = false := by simp [isRunGroup, hlabel]
  rw [readRuns, if_neg hlabel.1, if_neg hlabel.2.1, hgroup, skip, hcut, Run.ofMark?_of_passes h]
  cases readRuns link rest <;> rfl

theorem readRuns_descends : Descends readRuns .runs where
  element := by
    intro link tag inner inner' rest rest' hinner ihInner ihRest
    have hrest : ∀ here : List Run, Stays (do pure (here ++ (← readRuns link rest)))
        (do pure (here ++ (← readRuns link rest'))) :=
      fun here => (ihRest link).bind fun _ => .refl _
    rw [readRuns, readRuns]
    simp only [Zone.inside, Zone.insideRuns] at hinner ihInner
    by_cases hrun : tag.label = "r"
    · simp only [if_pos hrun] at hinner ⊢
      exact ((RunParts.ignores.foldChildren hinner {}).map _).bind hrest
    by_cases hlink : tag.label = "hyperlink"
    · simp only [if_neg hrun, if_pos hlink] at ihInner ⊢
      exact (ihInner trivial _).bind hrest
    by_cases hgroup : isRunGroup tag.label
    · simp only [if_neg hrun, if_neg hlink, if_pos hgroup] at ihInner ⊢
      exact (ihInner trivial _).bind hrest
    · simp only [if_neg hrun, if_neg hlink, if_neg hgroup]
      rw [hinner.skip_eq]
      exact (Stays.refl _).bind fun _ => hrest _
  empty := by
    intro link tag rest rest' ih
    rw [readRuns, readRuns]
    exact (ih link).bind fun _ => .refl _
  unknown passes hcut := readRuns_of_passes passes _ hcut
  unknownEmpty passes rest := by rw [readRuns_pair, readRuns_of_passes passes _ rfl]
  text _ _ _ := rfl
  cdata _ _ _ := rfl
  aside _ _ _ := rfl

theorem Section.read_padded {c c' : Content} (h : Padded .tags c c') :
    Stays (read c) (read c') := by
  refine foldTags_padded (fun s tag passes => ?_) h _
  unfold apply
  split <;> first | rfl | exact absurd ‹tag.label = _› (passes.ne (by decide))

theorem ParagraphParts.apply_of_passes {tag : Tag} (h : Zone.Passes .paragraphProperties tag.label)
    (p : ParagraphParts) : p.apply tag = p := by
  unfold apply
  split <;> first | rfl | exact absurd ‹tag.label = _› (h.ne (by decide))

theorem ParagraphParts.descends : Descends read .paragraphProperties where
  element := by
    intro p tag inner inner' rest rest' hinner ihInner ihRest
    rw [read, read]
    simp only [Zone.inside] at hinner ihInner
    by_cases hlist : tag.label = "numPr"
    · simp only [if_pos hlist] at ihInner ⊢
      exact (ihInner trivial p).bind ihRest
    by_cases hsection : tag.label = "sectPr"
    · simp only [if_neg hlist, if_pos hsection] at hinner ⊢
      exact (Section.read_padded hinner).bind fun _ => ihRest _
    · simp only [if_neg hlist, if_neg hsection]
      rw [hinner.skip_eq]
      exact (Stays.refl _).bind fun _ => ihRest _
  empty ih := ih _
  unknown := by
    intro p tag inner passes hcut rest
    have hlist : tag.label ≠ "numPr" := passes.ne (by decide)
    have hsection : tag.label ≠ "sectPr" := passes.ne (by decide)
    rw [read, if_neg hlist, if_neg hsection, skip, hcut, apply_of_passes passes]
    rfl
  unknownEmpty passes rest := by rw [read, apply_of_passes passes]
  text _ _ _ := rfl
  cdata _ _ _ := rfl
  aside _ _ _ := rfl

theorem Paragraph.ignores : Ignores child .paragraph where
  element := by
    intro p tag inner inner' h
    rw [Zone.inside] at h
    rw [child, child]
    by_cases hproperties : tag.label = "pPr"
    · simp only [if_pos hproperties] at h ⊢
      exact ((ParagraphParts.descends.stays h {}).map _).bind fun _ => .refl _
    · simp only [if_neg hproperties] at h ⊢
      have halone : Padded .runs (.element tag inner .done) (.element tag inner' .done) :=
        .element h .done
      exact (readRuns_descends.stays halone none).bind fun _ => .refl _
  unknown := by
    intro p tag inner passes hcut
    have hproperties : tag.label ≠ "pPr" := passes.ne (by decide)
    have hruns : Zone.Passes .runs tag.label :=
      ⟨by decide, fun hmem => passes.unknown (List.mem_cons_of_mem _ hmem)⟩
    rw [child, if_neg hproperties, readRuns_of_passes hruns none hcut, readRuns]
    exact congrArg (fun runs => Except.ok { p with runs }) (List.append_nil _)
  unknownEmpty := by
    intro p tag passes
    have hruns : Zone.Passes .runs tag.label :=
      ⟨by decide, fun hmem => passes.unknown (List.mem_cons_of_mem _ hmem)⟩
    rw [child, Run.ofMark?_of_passes hruns]
    exact congrArg (fun runs => Except.ok { p with runs }) (List.append_nil _)
  split _ := split_of_text fun _ _ => rfl

/-! ### Tables, elements and the main part -/

/-- Properties of which some are kept as they are written. -/
theorem ignores_applyOrKeep {σ : Type} {apply : σ → Tag → σ}
    {keep? : Tag → Option (String → σ → σ)} {zone : Zone}
    (hinside : ∀ tag, (keep? tag).isSome → zone.inside tag.label = .kept)
    (hkeep : ∀ tag, zone.Passes tag.label → keep? tag = none)
    (happly : ∀ s tag, zone.Passes tag.label → apply s tag = s) :
    Ignores (applyOrKeep apply keep?) zone where
  element := by
    intro s tag inner inner' h
    rw [applyOrKeep, applyOrKeep]
    cases hk : keep? tag with
    | some keep =>
      rw [hinside tag (by rw [hk]; rfl)] at h
      rw [h.elementText_eq]
      exact .refl _
    | none =>
      rw [h.skip_eq]
      exact .refl _
  unknown := by
    intro s tag inner passes hcut
    rw [applyOrKeep, hkeep tag passes, skip, hcut, happly s tag passes]
    rfl
  unknownEmpty := by
    intro s tag passes
    rw [applyOrKeep, hkeep tag passes, happly s tag passes]
    rfl
  split _ := split_of_text fun _ _ => rfl

theorem TableProperties.ignores : Ignores (applyOrKeep apply keep?) .tableProperties := by
  refine ignores_applyOrKeep (fun tag hk => ?_) (fun tag passes => ?_) fun p tag passes => ?_
  · unfold keep? at hk
    split at hk <;> first | (rw [‹tag.label = _›]; rfl) | cases hk
  · unfold keep?
    split <;> first | rfl | exact absurd ‹tag.label = _› (passes.ne (by decide))
  · unfold apply
    split <;> first | rfl | exact absurd ‹tag.label = _› (passes.ne (by decide))

theorem CellProperties.ignores : Ignores (applyOrKeep apply keep?) .cellProperties := by
  refine ignores_applyOrKeep (fun tag hk => ?_) (fun tag passes => ?_) fun p tag passes => ?_
  · unfold keep? at hk
    split at hk <;> first | (rw [‹tag.label = _›]; rfl) | cases hk
  · unfold keep?
    split <;> first | rfl | exact absurd ‹tag.label = _› (passes.ne (by decide))
  · unfold apply
    split <;> first | rfl | exact absurd ‹tag.label = _› (passes.ne (by decide))

theorem RowProperties.read_padded {c c' : Content} (h : Padded .tags c c') :
    Stays (read c) (read c') := by
  refine foldTags_padded (fun p tag passes => ?_) h _
  unfold apply
  split <;> first | rfl | exact absurd ‹tag.label = _› (passes.ne (by decide))

theorem readGrid_padded {c c' : Content} (h : Padded .tags c c') :
    Stays (readGrid c) (readGrid c') := by
  refine foldTags_padded (fun grid tag passes => ?_) h _
  exact if_neg (passes.ne (by decide))

theorem Cell.ignores : Ignores child .cell where
  element := by
    intro c tag inner inner' h
    rw [Zone.inside] at h
    rw [child, child]
    by_cases hproperties : tag.label = "tcPr"
    · simp only [if_pos hproperties] at h ⊢
      exact (CellProperties.ignores.foldChildren h {}).bind fun _ => .refl _
    by_cases hparagraph : tag.label = "p"
    · simp only [if_neg hproperties, if_pos hparagraph] at h ⊢
      exact (Paragraph.ignores.foldChildren h {}).bind fun _ => .refl _
    · simp only [if_neg hproperties, if_neg hparagraph]
      rw [h.skip_eq]
      exact .refl _
  unknown := by
    intro c tag inner passes hcut
    have hproperties : tag.label ≠ "tcPr" := passes.ne (by decide)
    have hparagraph : tag.label ≠ "p" := passes.ne (by decide)
    rw [child, if_neg hproperties, if_neg hparagraph, skip, hcut]
    rfl
  unknownEmpty := by
    intro c tag passes
    have hparagraph : tag.label ≠ "p" := passes.ne (by decide)
    exact congrArg Except.ok (if_neg hparagraph)
  split _ := split_of_text fun _ _ => rfl

theorem Row.ignores : Ignores child .row where
  element := by
    intro r tag inner inner' h
    rw [Zone.inside] at h
    rw [child, child]
    by_cases hproperties : tag.label = "trPr"
    · simp only [if_pos hproperties] at h ⊢
      exact (RowProperties.read_padded h).bind fun _ => .refl _
    by_cases hcell : tag.label = "tc"
    · simp only [if_neg hproperties, if_pos hcell] at h ⊢
      exact (Cell.ignores.foldChildren h {}).bind fun _ => .refl _
    · simp only [if_neg hproperties, if_neg hcell]
      rw [h.skip_eq]
      exact .refl _
  unknown := by
    intro r tag inner passes hcut
    have hproperties : tag.label ≠ "trPr" := passes.ne (by decide)
    have hcell : tag.label ≠ "tc" := passes.ne (by decide)
    rw [child, if_neg hproperties, if_neg hcell, skip, hcut]
    rfl
  unknownEmpty _ := rfl
  split _ := split_of_text fun _ _ => rfl

theorem Table.ignores : Ignores child .table where
  element := by
    intro t tag inner inner' h
    rw [Zone.inside] at h
    rw [child, child]
    by_cases hproperties : tag.label = "tblPr"
    · simp only [if_pos hproperties] at h ⊢
      exact (TableProperties.ignores.foldChildren h {}).bind fun _ => .refl _
    by_cases hgrid : tag.label = "tblGrid"
    · simp only [if_neg hproperties, if_pos hgrid] at h ⊢
      exact (readGrid_padded h).bind fun _ => .refl _
    by_cases hrow : tag.label = "tr"
    · simp only [if_neg hproperties, if_neg hgrid, if_pos hrow] at h ⊢
      exact (Row.ignores.foldChildren h {}).bind fun _ => .refl _
    · simp only [if_neg hproperties, if_neg hgrid, if_neg hrow]
      rw [h.skip_eq]
      exact .refl _
  unknown := by
    intro t tag inner passes hcut
    have hproperties : tag.label ≠ "tblPr" := passes.ne (by decide)
    have hgrid : tag.label ≠ "tblGrid" := passes.ne (by decide)
    have hrow : tag.label ≠ "tr" := passes.ne (by decide)
    rw [child, if_neg hproperties, if_neg hgrid, if_neg hrow, skip, hcut]
    rfl
  unknownEmpty _ := rfl
  split _ := split_of_text fun _ _ => rfl

theorem ControlProperties.apply_of_passes {tag : Tag}
    (h : Zone.Passes .controlProperties tag.label) (p : ControlProperties) : p.apply tag = p := by
  unfold apply
  split <;> first | rfl | exact absurd ‹tag.label = _› (h.ne (by decide))

theorem ControlProperties.descends : Descends read .controlProperties where
  element := by
    intro p tag inner inner' rest rest' hinner ihInner ihRest
    rw [read, read]
    simp only [Zone.inside] at hinner ihInner
    by_cases hblock : tag.label = "docPartObj"
    · simp only [if_pos hblock] at ihInner ⊢
      exact (ihInner trivial p).bind ihRest
    · simp only [if_neg hblock]
      rw [hinner.skip_eq]
      exact (Stays.refl _).bind fun _ => ihRest _
  empty ih := ih _
  unknown := by
    intro p tag inner passes hcut rest
    have hblock : tag.label ≠ "docPartObj" := passes.ne (by decide)
    rw [read, if_neg hblock, skip, hcut, apply_of_passes passes]
    rfl
  unknownEmpty passes rest := by rw [read, apply_of_passes passes]
  text _ _ _ := rfl
  cdata _ _ _ := rfl
  aside _ _ _ := rfl

namespace Element

theorem ofMark?_of_passes {tag : Tag} (h : Zone.Passes .elements tag.label) :
    ofMark? tag = none := by
  unfold ofMark?
  split <;> first | rfl | exact absurd ‹tag.label = _› (h.ne (by decide))

theorem ofEmpty?_of_passes {tag : Tag} (h : Zone.Passes .elements tag.label) :
    ofEmpty? tag = none := by
  unfold ofEmpty?
  split <;> first | exact ofMark?_of_passes h | exact absurd ‹tag.label = _› (h.ne (by decide))

theorem readAll_of_passes {tag : Tag} (h : Zone.Passes .elements tag.label) {inner : Content}
    (hcut : inner.cut? = none) (rest : Content) :
    readAll (.element tag inner rest) = readAll rest := by
  have hlabel := h.unknown
  simp only [Zone.labels, List.mem_cons, List.not_mem_nil, or_false, not_or] at hlabel
  rw [readAll, if_neg hlabel.1, if_neg hlabel.2.1, if_neg hlabel.2.2.1, if_neg hlabel.2.2.2.1, skip,
    hcut, ofMark?_of_passes h]
  cases readAll rest <;> rfl

theorem readAll_empty_of_passes {tag : Tag} (h : Zone.Passes .elements tag.label)
    (rest : Content) : readAll (.empty tag rest) = readAll rest := by
  rw [readAll, ofEmpty?_of_passes h]
  cases readAll rest <;> rfl

theorem readControl_of_passes {tag : Tag} (h : Zone.Passes .control tag.label) {inner : Content}
    (hcut : inner.cut? = none) (p : ControlProperties) (content : List Element) (rest : Content) :
    readControl p content (.element tag inner rest) = readControl p content rest := by
  have hlabel := h.unknown
  simp only [Zone.labels, List.mem_cons, List.not_mem_nil, or_false, not_or] at hlabel
  rw [readControl, if_neg hlabel.1, if_neg hlabel.2, skip, hcut]
  rfl

theorem padded {zone : Zone} {c c' : Content} (h : Padded zone c c') :
    (zone = .elements → Stays (readAll c) (readAll c')) ∧
      (zone = .control → ∀ p content,
        Stays (readControl p content c) (readControl p content c')) := by
  induction h with
  | done | cut => exact ⟨fun _ => .refl _, fun _ _ _ => .refl _⟩
  | @element zone tag inner inner' rest rest' hinner _ ihInner ihRest =>
    refine ⟨?_, ?_⟩
    · rintro rfl
      have hrest : ∀ here : List Element, Stays (do pure (here ++ (← readAll rest)))
          (do pure (here ++ (← readAll rest'))) :=
        fun here => (ihRest.1 rfl).bind fun _ => .refl _
      rw [readAll, readAll]
      simp only [Zone.inside] at hinner ihInner
      by_cases hparagraph : tag.label = "p"
      · simp only [if_pos hparagraph] at hinner ⊢
        exact ((Paragraph.ignores.foldChildren hinner {}).map _).bind hrest
      by_cases htable : tag.label = "tbl"
      · simp only [if_neg hparagraph, if_pos htable] at hinner ⊢
        exact ((Table.ignores.foldChildren hinner {}).map _).bind hrest
      by_cases hsetup : tag.label = "sectPr"
      · simp only [if_neg hparagraph, if_neg htable, if_pos hsetup] at hinner ⊢
        exact ((Section.read_padded hinner).map _).bind hrest
      by_cases hcontrol : tag.label = "sdt"
      · simp only [if_neg hparagraph, if_neg htable, if_neg hsetup, if_pos hcontrol] at ihInner ⊢
        exact ((ihInner.2 trivial {} []).map _).bind hrest
      · simp only [if_neg hparagraph, if_neg htable, if_neg hsetup, if_neg hcontrol]
        rw [hinner.skip_eq]
        exact (Stays.refl _).bind fun _ => hrest _
    · rintro rfl p content
      rw [readControl, readControl]
      simp only [Zone.inside] at hinner ihInner
      by_cases hproperties : tag.label = "sdtPr"
      · simp only [if_pos hproperties] at hinner ⊢
        exact (ControlProperties.descends.stays hinner {}).bind fun p' => ihRest.2 rfl p' content
      by_cases hcontent : tag.label = "sdtContent"
      · simp only [if_neg hproperties, if_pos hcontent] at ihInner ⊢
        exact (ihInner.1 trivial).bind (ihRest.2 rfl p)
      · simp only [if_neg hproperties, if_neg hcontent]
        rw [hinner.skip_eq]
        exact (Stays.refl _).bind fun _ => ihRest.2 rfl p content
  | empty _ ih =>
    refine ⟨fun hzone => ?_, fun hzone p content => ?_⟩
    · rw [readAll, readAll]
      exact (ih.1 hzone).bind fun _ => .refl _
    · rw [readControl, readControl]
      exact ih.2 hzone p content
  | text _ ih | cdata _ ih | aside _ ih => simpa only [readAll, readControl] using ih
  | unknown passes hcut _ ih =>
    refine ⟨fun hzone => ?_, fun hzone p content => ?_⟩
    · rw [readAll_of_passes (hzone ▸ passes) hcut]
      exact ih.1 hzone
    · rw [readControl_of_passes (hzone ▸ passes) hcut]
      exact ih.2 hzone p content
  | unknownEmpty passes _ ih =>
    refine ⟨fun hzone => ?_, fun hzone p content => ?_⟩
    · rw [readAll_empty_of_passes (hzone ▸ passes)]
      exact ih.1 hzone
    · rw [readControl]
      exact ih.2 hzone p content
  | split _ _ ih => simpa only [readAll, readControl] using ih

end Element

namespace MainPart

theorem Partial.descends : Descends read .root where
  element := by
    intro m tag inner inner' rest rest' hinner ihInner ihRest
    rw [read, read]
    simp only [Zone.inside] at hinner ihInner
    by_cases hdocument : tag.label = "document"
    · simp only [if_pos hdocument] at ihInner ⊢
      exact (ihInner trivial _).bind ihRest
    by_cases hbody : tag.label = "body"
    · simp only [if_neg hdocument, if_pos hbody] at hinner ⊢
      exact ((Element.padded hinner).1 rfl).bind fun _ => ihRest _
    · simp only [if_neg hdocument, if_neg hbody]
      rw [hinner.skip_eq]
      exact (Stays.refl _).bind fun _ => ihRest m
  empty ih := ih _
  unknown := by
    intro m tag inner passes hcut rest
    have hdocument : tag.label ≠ "document" := passes.ne (by decide)
    have hbody : tag.label ≠ "body" := passes.ne (by decide)
    rw [read, if_neg hdocument, if_neg hbody, skip, hcut]
    rfl
  unknownEmpty passes rest := by rw [read, if_neg (passes.ne (by decide))]
  text _ _ _ := rfl
  cdata _ _ _ := rfl
  aside _ _ _ := rfl

end MainPart

end Letterpress
