import Letterpress.Proofs.Body.Steps
import Letterpress.Proofs.Body.Taking
import Letterpress.Proofs.Markup.Sources

/-!
# What is read is settled

Writing changes little of a body that is read: its markup is in the form in which it is kept, and
its runs are in their normal form. Only a cell may lack the paragraph that it is written with.
-/

namespace Letterpress

open Markup Markup.Content

def Markup.Content.Child.Keeps : Child → Prop
  | .element tag inner => KeepsElement tag inner ∧ inner.Keeps
  | .empty tag => KeepsEmptyTag tag
  | .text _ => True
  | .cdata _ => True

theorem keeps_of_mem_children {c : Content} (h : c.Keeps) : ∀ child ∈ c.children, child.Keeps := by
  induction c with
  | done => exact List.forall_mem_nil _
  | cut fault => exact List.forall_mem_nil _
  | element tag inner rest _ ih => exact List.forall_mem_cons.mpr ⟨⟨h.1, h.2.1⟩, ih h.2.2⟩
  | empty tag rest ih => exact List.forall_mem_cons.mpr ⟨h.1, ih h.2⟩
  | text content rest ih => exact List.forall_mem_cons.mpr ⟨trivial, ih h⟩
  | cdata content rest ih => exact List.forall_mem_cons.mpr ⟨trivial, ih h⟩
  | aside source rest ih => exact ih h

theorem unlessNone_idem (value : Option String) :
    unlessNone (unlessNone value) = unlessNone value := by
  simp [unlessNone, Option.filter_filter]

theorem RunProperties.normalize_eq_iff {p : RunProperties} : p.normalize = p ↔
    unlessNone p.highlight = p.highlight ∧ unlessNone p.underline = p.underline := by
  cases p
  simp [normalize]

theorem RunProperties.normalize_read {c : Content} {p : RunProperties} (h : read c = .ok p) :
    p.normalize = p := by
  refine foldTags_preserves (I := fun p => p.normalize = p) (fun p tag hp => ?_) h rfl
  rw [normalize_eq_iff] at hp ⊢
  unfold apply
  split
  case h_8 => exact ⟨unlessNone_idem _, hp.2⟩
  case h_9 => exact ⟨hp.1, unlessNone_idem _⟩
  all_goals exact hp

/-- A run whose markup can be written and read back, and which is read back as it is. -/
structure Run.IsSettled (r : Run) : Prop where
  keeps : r.keeps
  normal : r.normalize = r

/-- A run's formatting and contents, none of which is a bookmark mark. -/
structure RunParts.AreSettled (p : RunParts) : Prop where
  properties : p.properties.normalize = p.properties
  contents : ∀ content ∈ p.contents, (Run.ofContent content).keeps ∧
    (Run.ofContent content).isMark = false

namespace RunParts

variable {p p' : RunParts}

theorem AreSettled.add (h : p.AreSettled) {contents : List RunContent}
    (hc : ∀ content ∈ contents, (Run.ofContent content).keeps ∧
      (Run.ofContent content).isMark = false) : (p.add contents).AreSettled :=
  ⟨h.properties, List.forall_mem_append.mpr ⟨h.contents, hc⟩⟩

theorem AreSettled.add_one (h : p.AreSettled) {content : RunContent}
    (hkeeps : (Run.ofContent content).keeps) (hmark : (Run.ofContent content).isMark = false) :
    (p.add [content]).AreSettled :=
  h.add (List.forall_mem_singleton.mpr ⟨hkeeps, hmark⟩)

theorem AreSettled.add_ofTag? (h : p.AreSettled) (tag : Tag) :
    (p.add (RunContent.ofTag? tag).toList).AreSettled := by
  refine h.add fun content hcontent => ?_
  rw [Option.mem_toList, RunContent.ofTag?] at hcontent
  split at hcontent
  case h_5 | h_6 | h_7 =>
    obtain ⟨_, -, rfl⟩ := Option.map_eq_some_iff.mp hcontent
    exact ⟨rfl, rfl⟩
  case h_8 => cases hcontent
  all_goals cases hcontent; exact ⟨rfl, rfl⟩

theorem areSettled_child {child : Child} (hc : child.Keeps) (h : p.child child = .ok p')
    (hp : p.AreSettled) : p'.AreSettled := by
  cases step_of_child h with
  | properties _ hread => exact ⟨RunProperties.normalize_read hread, hp.contents⟩
  | words | code | emptyCode => exact hp.add_one rfl rfl
  | drawing hgraphic hmarkup =>
    exact hp.add_one (hc.1 (isGraphic ·.label) _ hgraphic hmarkup) rfl
  | mark | emptyMark => exact hp.add_ofTag? _
  | text | cdata => exact hp

theorem isSettled_of_mem_runs {c : Content} (hc : c.Keeps) (h : RunParts.read c = .ok p)
    (link : Option Hyperlink) : ∀ r ∈ p.runs link, r.IsSettled := by
  have hp : p.AreSettled := foldChildren_preserves (fun _ _ _ => areSettled_child)
    (keeps_of_mem_children hc) h ⟨rfl, List.forall_mem_nil _⟩
  intro r hr
  obtain ⟨content, hcontent, rfl⟩ := List.mem_map.mp hr
  obtain ⟨hkeeps, hmark⟩ := hp.contents content hcontent
  refine ⟨hkeeps, ?_⟩
  have hplain : Run.isMark { properties := p.properties, content, link } = false := hmark
  rw [Run.normalize, hplain, if_neg Bool.false_ne_true, hp.properties]

end RunParts

theorem Run.isSettled_of_ofMark? {link : Option Hyperlink} {tag : Tag} :
    ∀ r ∈ (ofMark? link tag).toList, r.IsSettled := by
  intro r hr
  obtain ⟨content, hcontent, rfl⟩ := Option.map_eq_some_iff.mp (Option.mem_toList.mp hr)
  split at hcontent
  · obtain ⟨b, -, rfl⟩ := Option.map_eq_some_iff.mp hcontent
    exact ⟨rfl, rfl⟩
  · obtain ⟨id, -, rfl⟩ := Option.map_eq_some_iff.mp hcontent
    exact ⟨rfl, rfl⟩
  · cases hcontent

theorem isSettled_of_mem_readRuns {link : Option Hyperlink} {c : Content} {rs : List Run}
    (hc : c.Keeps) (h : readRuns link c = .ok rs) : ∀ r ∈ rs, r.IsSettled := by
  induction c generalizing link rs with
  | done =>
    cases h
    exact List.forall_mem_nil _
  | cut fault => cases h
  | element tag inner rest ihInner ihRest =>
    obtain ⟨-, hinner, hrest⟩ := hc
    obtain ⟨here, more, hhere, hmore, rfl⟩ := exists_runsOf h
    refine List.forall_mem_append.mpr ⟨?_, ihRest hrest hmore⟩
    cases hhere with
    | run _ hp => exact RunParts.isSettled_of_mem_runs hinner hp link
    | hyperlink _ hruns | group _ hruns => exact ihInner hinner hruns
    | mark => exact Run.isSettled_of_ofMark?
  | empty tag rest ih =>
    obtain ⟨more, hmore, rfl⟩ := exists_readRuns_of_empty h
    exact List.forall_mem_append.mpr ⟨Run.isSettled_of_ofMark?, ih hc.2 hmore⟩
  | text content rest ih => exact ih hc h
  | cdata content rest ih => exact ih hc h
  | aside source rest ih => exact ih hc h

def Paragraph.IsSettled (p : Paragraph) : Prop := ∀ r ∈ p.runs, r.IsSettled

theorem Paragraph.isSettled_child {p p' : Paragraph} {child : Child} (hc : child.Keeps)
    (h : p.child child = .ok p') (hp : p.IsSettled) : p'.IsSettled := by
  cases step_of_child h with
  | properties | text | cdata => exact hp
  | @runs tag inner rs _ hrs =>
    have halone : (Content.element tag inner .done).Keeps := ⟨hc.1, hc.2, trivial⟩
    exact List.forall_mem_append.mpr ⟨hp, isSettled_of_mem_readRuns halone hrs⟩
  | mark => exact List.forall_mem_append.mpr ⟨hp, Run.isSettled_of_ofMark?⟩

theorem Paragraph.isSettled_read {c : Content} {p : Paragraph} (hc : c.Keeps)
    (h : Paragraph.read c = .ok p) : p.IsSettled :=
  foldChildren_preserves (fun _ _ _ => isSettled_child) (keeps_of_mem_children hc) h
    (List.forall_mem_nil _)

theorem Paragraph.IsSettled.keeps {p : Paragraph} (h : p.IsSettled) : p.keeps :=
  List.all_eq_true.mpr fun r hr => (h r hr).keeps

theorem Paragraph.IsSettled.normal {p : Paragraph} (h : p.IsSettled) : p.normalize = p := by
  have hruns : p.runs.map Run.normalize = p.runs := by
    conv_rhs => rw [← List.map_id p.runs]
    exact List.map_congr_left fun r hr => (h r hr).normal
  rw [normalize, hruns]

/-! ### Tables -/

theorem keeps_applyOrKeep {σ : Type} {apply : σ → Tag → σ}
    {keep? : Tag → Option (String → σ → σ)} {I : σ → Prop}
    (happly : ∀ s tag, I s → I (apply s tag))
    (hkeep : ∀ s tag keep markup, keep? tag = some keep →
      keepsNamed tag.label (some markup) → I s → I (keep markup s))
    {s s' : σ} {child : Child} (hc : child.Keeps) (h : applyOrKeep apply keep? s child = .ok s')
    (hs : I s) : I s' := by
  cases child with
  | element tag inner =>
    rw [applyOrKeep] at h
    split at h
    · next keep hk =>
      obtain ⟨markup, hmarkup, h⟩ := bind_eq_ok.mp h
      cases h
      have hnamed : isElement (·.label = tag.label) markup :=
        hc.1 (·.label = tag.label) markup (by simp) hmarkup
      exact hkeep s tag keep markup hk (by simp [keepsNamed, hnamed]) hs
    · obtain ⟨⟨⟩, -, h⟩ := bind_eq_ok.mp h
      cases h
      exact happly s tag hs
  | empty tag =>
    rw [applyOrKeep] at h
    split at h
    · next keep hk =>
      obtain ⟨markup, hmarkup, h⟩ := bind_eq_ok.mp h
      cases h
      have hnamed : isEmptyTag (·.label = tag.label) markup :=
        hc (·.label = tag.label) markup (by simp) hmarkup
      exact hkeep s tag keep markup hk (by simp [keepsNamed, hnamed]) hs
    · cases h
      exact happly s tag hs
  | text content =>
    cases h
    exact hs
  | cdata content =>
    cases h
    exact hs

theorem TableProperties.keeps_read {c : Content} {p : TableProperties} (hc : c.Keeps)
    (h : read c = .ok p) : p.keeps := by
  have happly : ∀ (p : TableProperties) tag, p.keeps → (p.apply tag).keeps := by
    intro p tag hp
    unfold apply
    split <;> exact hp
  have hkeep : ∀ (p : TableProperties) tag keep markup, keep? tag = some keep →
      keepsNamed tag.label (some markup) → p.keeps → (keep markup p).keeps := by
    intro p tag keep markup hk hm hp
    simp only [keeps, Bool.and_eq_true] at hp ⊢
    unfold keep? at hk
    split at hk
    · next hlabel =>
      cases hk
      exact ⟨⟨hlabel ▸ hm, hp.1.2⟩, hp.2⟩
    · next hlabel =>
      cases hk
      exact ⟨⟨hp.1.1, hlabel ▸ hm⟩, hp.2⟩
    · next hlabel =>
      cases hk
      exact ⟨hp.1, hlabel ▸ hm⟩
    · cases hk
  exact foldChildren_preserves (I := fun p : TableProperties => p.keeps)
    (fun _ _ _ => keeps_applyOrKeep (I := fun p : TableProperties => p.keeps) happly hkeep)
    (keeps_of_mem_children hc) h rfl

theorem CellProperties.keeps_read {c : Content} {p : CellProperties} (hc : c.Keeps)
    (h : read c = .ok p) : p.keeps := by
  have happly : ∀ (p : CellProperties) tag, p.keeps → (p.apply tag).keeps := by
    intro p tag hp
    unfold apply
    split <;> exact hp
  have hkeep : ∀ (p : CellProperties) tag keep markup, keep? tag = some keep →
      keepsNamed tag.label (some markup) → p.keeps → (keep markup p).keeps := by
    intro p tag keep markup hk hm hp
    simp only [keeps, Bool.and_eq_true] at hp ⊢
    unfold keep? at hk
    split at hk
    · next hlabel =>
      cases hk
      exact ⟨hlabel ▸ hm, hp.2⟩
    · next hlabel =>
      cases hk
      exact ⟨hp.1, hlabel ▸ hm⟩
    · cases hk
  exact foldChildren_preserves (I := fun p : CellProperties => p.keeps)
    (fun _ _ _ => keeps_applyOrKeep (I := fun p : CellProperties => p.keeps) happly hkeep)
    (keeps_of_mem_children hc) h rfl

structure Cell.IsSettled (c : Cell) : Prop where
  properties : c.properties.keeps
  paragraphs : ∀ p ∈ c.paragraphs, p.IsSettled

def Row.IsSettled (r : Row) : Prop := ∀ c ∈ r.cells, c.IsSettled

structure Table.IsSettled (t : Table) : Prop where
  properties : t.properties.keeps
  rows : ∀ r ∈ t.rows, r.IsSettled

theorem Cell.isSettled_child {c c' : Cell} {child : Child} (hc : child.Keeps)
    (h : c.child child = .ok c') (hs : c.IsSettled) : c'.IsSettled := by
  cases step_of_child h with
  | properties _ hread => exact ⟨CellProperties.keeps_read hc.2 hread, hs.paragraphs⟩
  | paragraph _ hp =>
    exact ⟨hs.properties, List.forall_mem_append.mpr ⟨hs.paragraphs,
      List.forall_mem_singleton.mpr (Paragraph.isSettled_read hc.2 hp)⟩⟩
  | emptyParagraph =>
    exact ⟨hs.properties, List.forall_mem_append.mpr ⟨hs.paragraphs,
      List.forall_mem_singleton.mpr (List.forall_mem_nil _)⟩⟩
  | passed | empty | text | cdata => exact hs

theorem Row.isSettled_child {r r' : Row} {child : Child} (hc : child.Keeps)
    (h : r.child child = .ok r') (hr : r.IsSettled) : r'.IsSettled := by
  cases step_of_child h with
  | cell _ hcell =>
    have hsettled : Cell.IsSettled _ := foldChildren_preserves (fun _ _ _ => Cell.isSettled_child)
      (keeps_of_mem_children hc.2) hcell ⟨rfl, List.forall_mem_nil _⟩
    exact List.forall_mem_append.mpr ⟨hr, List.forall_mem_singleton.mpr hsettled⟩
  | properties | passed | empty | text | cdata => exact hr

theorem Table.isSettled_child {t t' : Table} {child : Child} (hc : child.Keeps)
    (h : t.child child = .ok t') (ht : t.IsSettled) : t'.IsSettled := by
  cases step_of_child h with
  | properties _ hread => exact ⟨TableProperties.keeps_read hc.2 hread, ht.rows⟩
  | grid => exact ⟨ht.properties, ht.rows⟩
  | row _ hrow =>
    have hsettled : Row.IsSettled _ := foldChildren_preserves (fun _ _ _ => Row.isSettled_child)
      (keeps_of_mem_children hc.2) hrow (List.forall_mem_nil _)
    exact ⟨ht.properties,
      List.forall_mem_append.mpr ⟨ht.rows, List.forall_mem_singleton.mpr hsettled⟩⟩
  | passed | empty | text | cdata => exact ht

theorem Table.isSettled_read {c : Content} {t : Table} (hc : c.Keeps)
    (h : Table.read c = .ok t) : t.IsSettled :=
  foldChildren_preserves (fun _ _ _ => isSettled_child) (keeps_of_mem_children hc) h
    ⟨rfl, List.forall_mem_nil _⟩

/-! ### Elements and the main part -/

namespace Element

mutual

def IsSettled : Element → Prop
  | paragraph p => p.IsSettled
  | table t => t.IsSettled
  | control _ content => AreSettled content
  | setup _ => True
  | bookmarkStart _ => True
  | bookmarkEnd _ => True

def AreSettled : List Element → Prop
  | [] => True
  | e :: rest => IsSettled e ∧ AreSettled rest

end

theorem areSettled_append {a b : List Element} (ha : AreSettled a) (hb : AreSettled b) :
    AreSettled (a ++ b) := by
  induction a with
  | nil => exact hb
  | cons e rest ih => exact ⟨ha.1, ih ha.2⟩

theorem areSettled_ofMark? (tag : Tag) : AreSettled (ofMark? tag).toList := by
  unfold ofMark?
  split
  · cases Bookmark.ofTag? tag with
    | none => trivial
    | some b => exact ⟨trivial, trivial⟩
  · cases tag.uint32? "id" with
    | none => trivial
    | some id => exact ⟨trivial, trivial⟩
  · trivial

theorem areSettled_ofEmpty? (tag : Tag) : AreSettled (ofEmpty? tag).toList := by
  unfold ofEmpty?
  split
  · exact ⟨List.forall_mem_nil _, trivial⟩
  · exact ⟨trivial, trivial⟩
  · exact areSettled_ofMark? tag

/-- Elements are settled when they are read, in controls, too. -/
theorem areSettled_read (c : Content) (hc : c.Keeps) :
    (∀ es, readAll c = .ok es → AreSettled es) ∧
      ∀ p content r, readControl p content c = .ok r → AreSettled content → AreSettled r.2 := by
  induction c with
  | done =>
    refine ⟨fun es h => ?_, fun p content r h hcontent => ?_⟩
    · rw [readAll] at h
      cases h
      trivial
    · rw [readControl] at h
      cases h
      exact hcontent
  | cut fault =>
    refine ⟨fun es h => ?_, fun p content r h _ => ?_⟩
    · rw [readAll] at h
      cases h
    · rw [readControl] at h
      cases h
  | element tag inner rest ihInner ihRest =>
    obtain ⟨-, hinner, hrest⟩ := hc
    refine ⟨fun es h => ?_, fun p content r h hcontent => ?_⟩
    · obtain ⟨here, more, hhere, hmore, rfl⟩ := exists_elementsOf h
      refine areSettled_append ?_ ((ihRest hrest).1 more hmore)
      cases hhere with
      | paragraph _ hp => exact ⟨Paragraph.isSettled_read hinner hp, trivial⟩
      | table _ ht => exact ⟨Table.isSettled_read hinner ht, trivial⟩
      | setup => exact ⟨trivial, trivial⟩
      | control _ hcontrol => exact ⟨(ihInner hinner).2 _ _ _ hcontrol trivial, trivial⟩
      | mark => exact areSettled_ofMark? tag
    · obtain ⟨p', content', hstep, h⟩ := exists_controlStep h
      refine (ihRest hrest).2 _ _ _ h ?_
      cases hstep with
      | properties | passed => exact hcontent
      | content _ hes => exact (ihInner hinner).1 _ hes
  | empty tag rest ih =>
    refine ⟨fun es h => ?_, by simpa only [readControl] using (ih hc.2).2⟩
    obtain ⟨more, hmore, rfl⟩ := exists_readAll_of_empty h
    exact areSettled_append (areSettled_ofEmpty? tag) ((ih hc.2).1 more hmore)
  | text content rest ih => simpa only [readAll, readControl] using ih hc
  | cdata content rest ih => simpa only [readAll, readControl] using ih hc
  | aside source rest ih => simpa only [readAll, readControl] using ih hc

end Element

namespace MainPart

theorem Partial.areSettled_read {m m' : Partial} {c : Content} (hc : c.Keeps)
    (h : m.read c = .ok m') (hm : ∀ b ∈ m.body, Element.AreSettled b.elements) :
    ∀ b ∈ m'.body, Element.AreSettled b.elements := by
  induction c generalizing m m' with
  | done =>
    cases h
    exact hm
  | cut fault =>
    cases fault with
    | none =>
      cases h
      exact hm
    | some fault => cases h
  | element tag inner rest ihInner ihRest =>
    obtain ⟨-, hinner, hrest⟩ := hc
    obtain ⟨next, hstep, h⟩ := exists_step h
    refine ihRest hrest h ?_
    cases hstep with
    | document _ hread => exact ihInner hinner hread hm
    | body _ hes =>
      rintro b ⟨⟩
      exact (Element.areSettled_read inner hinner).1 _ hes
    | passed => exact hm
  | empty tag rest ih =>
    refine ih hc.2 h ?_
    split
    · rintro b ⟨⟩
      trivial
    · exact hm
  | text content rest ih => exact ih hc h hm
  | cdata content rest ih => exact ih hc h hm
  | aside source rest ih => exact ih hc h hm

theorem areSettled_of_read {source : List Text.Symbol} {m : MainPart} (h : read source = .ok m) :
    Element.AreSettled m.body.elements :=
  Partial.areSettled_read (keeps_read source) (read_eq_ok.mp h) nofun m.body rfl

end MainPart

end Letterpress
