import Letterpress.Package.Ids
import Letterpress.Proofs.Body.Steps
import Letterpress.Proofs.Body.Taking
import Letterpress.Proofs.Markup.Tags

/-!
# The ids in a body

Bookmark marks and references to notes carry ids. A reader puts an id into a body only where it
meets a tag with that id, whatever it groups, flattens or passes over on the way.
-/

namespace Letterpress

open Markup Markup.Content

/-- An id in its space. -/
abbrev IdKey := IdSpace × UInt32

/-- The id of a bookmark mark or of a reference to a note. -/
def Markup.Tag.reference? (tag : Tag) : Option IdKey :=
  match tag.label with
  | "bookmarkStart" => (tag.uint32? "id").map (.bookmark, ·)
  | "bookmarkEnd" => (tag.uint32? "id").map (.bookmark, ·)
  | "footnoteReference" => (tag.uint32? "id").map (.footnote, ·)
  | "endnoteReference" => (tag.uint32? "id").map (.endnote, ·)
  | _ => none

def RunContent.reference? : RunContent → Option IdKey
  | footnote id => some (.footnote, id)
  | endnote id => some (.endnote, id)
  | bookmarkStart b => some (.bookmark, b.id)
  | bookmarkEnd id => some (.bookmark, id)
  | _ => none

def Run.reference? (r : Run) : Option IdKey := r.content.reference?

def Paragraph.references (p : Paragraph) : List IdKey := p.runs.filterMap Run.reference?

def Cell.references (c : Cell) : List IdKey := c.paragraphs.flatMap Paragraph.references

def Row.references (r : Row) : List IdKey := r.cells.flatMap Cell.references

def Table.references (t : Table) : List IdKey := t.rows.flatMap Row.references

namespace Element

mutual

def references : Element → List IdKey
  | paragraph p => p.references
  | table t => t.references
  | control _ content => referencesOf content
  | setup _ => []
  | bookmarkStart b => [(.bookmark, b.id)]
  | bookmarkEnd id => [(.bookmark, id)]

def referencesOf : List Element → List IdKey
  | [] => []
  | e :: rest => references e ++ referencesOf rest

end

end Element

/-- The ids in a body, at any depth. -/
def Body.references (b : Body) : List IdKey := Element.referencesOf b.elements

variable {K : IdKey → Prop} {tag : Tag}

/-- Whether all ids of tags are of a kind. -/
def Refer (K : IdKey → Prop) (tags : List Tag) : Prop := ∀ tag ∈ tags, ∀ key ∈ tag.reference?, K key

theorem Refer.cons {tags : List Tag} (h : Refer K (tag :: tags)) :
    (∀ key ∈ tag.reference?, K key) ∧ Refer K tags :=
  List.forall_mem_cons.mp h

theorem Refer.append {a b : List Tag} (h : Refer K (a ++ b)) : Refer K a ∧ Refer K b :=
  List.forall_mem_append.mp h

theorem Refer.nil : Refer K [] := fun _ h => absurd h List.not_mem_nil

def Markup.Content.Child.tags : Child → List Tag
  | .element tag inner => tag :: inner.tags
  | .empty tag => [tag]
  | .text _ => []
  | .cdata _ => []

/-- The ids in a state are of a kind to the end if every child keeps them so. -/
theorem references_foldChildren {σ : Type} {f : σ → Child → Except PartFault σ}
    {references : σ → List IdKey}
    (hf : ∀ s child s', Refer K child.tags → f s child = .ok s' → (∀ key ∈ references s, K key) →
      ∀ key ∈ references s', K key)
    {c : Content} {s s' : σ} (hc : Refer K c.tags) (h : foldChildren f s c = .ok s')
    (hs : ∀ key ∈ references s, K key) : ∀ key ∈ references s', K key := by
  refine foldChildren_preserves hf ?_ h hs
  clear h
  induction c with
  | done => exact List.forall_mem_nil _
  | cut fault => exact List.forall_mem_nil _
  | element tag inner rest _ ih =>
    rw [tags, ← List.cons_append] at hc
    exact List.forall_mem_cons.mpr ⟨hc.append.1, ih hc.append.2⟩
  | empty tag rest ih =>
    rw [tags, ← List.singleton_append] at hc
    exact List.forall_mem_cons.mpr ⟨hc.append.1, ih hc.append.2⟩
  | text content rest ih => exact List.forall_mem_cons.mpr ⟨.nil, ih hc⟩
  | cdata content rest ih => exact List.forall_mem_cons.mpr ⟨.nil, ih hc⟩
  | aside source rest ih => exact ih hc

/-! ### Runs, paragraphs and tables -/

/-- What a tag puts into a run has the id of the tag. -/
theorem RunContent.reference?_of_ofTag? {content : RunContent} {key : IdKey}
    (h : ofTag? tag = some content) (hkey : content.reference? = some key) :
    tag.reference? = some key := by
  unfold ofTag? at h
  split at h
  · cases h; cases hkey
  · cases h; cases hkey
  · cases h; cases hkey
  · cases h; cases hkey
  · obtain ⟨m, -, rfl⟩ := Option.map_eq_some_iff.mp h
    cases hkey
  · next hlabel =>
    obtain ⟨id, hid, rfl⟩ := Option.map_eq_some_iff.mp h
    rw [Tag.reference?, hlabel, hid]
    exact hkey
  · next hlabel =>
    obtain ⟨id, hid, rfl⟩ := Option.map_eq_some_iff.mp h
    rw [Tag.reference?, hlabel, hid]
    exact hkey
  · cases h

theorem Bookmark.uint32?_of_ofTag? {b : Bookmark} (h : ofTag? tag = some b) :
    tag.uint32? "id" = some b.id := by
  obtain ⟨id, hid, rfl⟩ := Option.map_eq_some_iff.mp h
  exact hid

theorem Run.reference?_of_ofMark? {link : Option Hyperlink} {r : Run} {key : IdKey}
    (h : ofMark? link tag = some r) (hkey : r.reference? = some key) :
    tag.reference? = some key := by
  obtain ⟨content, hcontent, rfl⟩ := Option.map_eq_some_iff.mp h
  split at hcontent
  · next hlabel =>
    obtain ⟨b, hb, rfl⟩ := Option.map_eq_some_iff.mp hcontent
    rw [Tag.reference?, hlabel, Bookmark.uint32?_of_ofTag? hb]
    exact hkey
  · next hlabel =>
    obtain ⟨id, hid, rfl⟩ := Option.map_eq_some_iff.mp hcontent
    rw [Tag.reference?, hlabel, hid]
    exact hkey
  · cases hcontent

def RunParts.references (p : RunParts) : List IdKey := p.contents.filterMap RunContent.reference?

theorem RunParts.references_add (p : RunParts) (contents : List RunContent) :
    (p.add contents).references = p.references ++ contents.filterMap RunContent.reference? := by
  simp [references, add]

theorem RunParts.references_add_of_eq_none {content : RunContent} (h : content.reference? = none)
    (p : RunParts) : (p.add [content]).references = p.references := by
  rw [references_add, List.filterMap_cons_none h, List.filterMap_nil, List.append_nil]

theorem RunParts.add_ofTag? {p : RunParts} (htag : ∀ key ∈ tag.reference?, K key)
    (hp : ∀ key ∈ p.references, K key) :
    ∀ key ∈ (p.add (RunContent.ofTag? tag).toList).references, K key := by
  rw [references_add, List.forall_mem_append]
  refine ⟨hp, fun key hkey => ?_⟩
  obtain ⟨content, hcontent, hkey⟩ := List.mem_filterMap.mp hkey
  exact htag key (RunContent.reference?_of_ofTag? (Option.mem_toList.mp hcontent) hkey)

theorem RunParts.references_child {p p' : RunParts} {child : Child} (hc : Refer K child.tags)
    (h : p.child child = .ok p') (hp : ∀ key ∈ p.references, K key) :
    ∀ key ∈ p'.references, K key := by
  cases step_of_child h with
  | properties | text | cdata => exact hp
  | words | code | drawing | emptyCode => rwa [references_add_of_eq_none rfl]
  | mark | emptyMark => exact add_ofTag? hc.cons.1 hp

theorem RunParts.references_read {c : Content} {p : RunParts} (hc : Refer K c.tags)
    (h : RunParts.read c = .ok p) : ∀ key ∈ p.references, K key :=
  references_foldChildren (fun _ _ _ => references_child) hc h (List.forall_mem_nil _)

theorem RunParts.filterMap_runs (p : RunParts) (link : Option Hyperlink) :
    (p.runs link).filterMap Run.reference? = p.references := by
  rw [runs, List.filterMap_map]
  rfl

theorem Run.references_ofMark? {link : Option Hyperlink} (htag : ∀ key ∈ tag.reference?, K key) :
    ∀ key ∈ (ofMark? link tag).toList.filterMap Run.reference?, K key := by
  intro key hkey
  obtain ⟨r, hr, hkey⟩ := List.mem_filterMap.mp hkey
  exact htag key (reference?_of_ofMark? (Option.mem_toList.mp hr) hkey)

/-- Runs are read with the ids of their tags, in groups and links, too. -/
theorem references_readRuns {link : Option Hyperlink} {c : Content} {rs : List Run}
    (hc : Refer K c.tags) (h : readRuns link c = .ok rs) :
    ∀ key ∈ rs.filterMap Run.reference?, K key := by
  induction c generalizing link rs with
  | done =>
    cases h
    exact List.forall_mem_nil _
  | cut fault => cases h
  | element tag inner rest ihInner ihRest =>
    obtain ⟨htag, hc⟩ := hc.cons
    obtain ⟨hinner, hrest⟩ := hc.append
    obtain ⟨here, more, hhere, hmore, rfl⟩ := exists_runsOf h
    rw [List.filterMap_append, List.forall_mem_append]
    refine ⟨?_, ihRest hrest hmore⟩
    cases hhere with
    | run _ hp =>
      rw [RunParts.filterMap_runs]
      exact RunParts.references_read hinner hp
    | hyperlink _ hruns | group _ hruns => exact ihInner hinner hruns
    | mark => exact Run.references_ofMark? htag
  | empty tag rest ih =>
    obtain ⟨htag, hrest⟩ := hc.cons
    obtain ⟨more, hmore, rfl⟩ := exists_readRuns_of_empty h
    rw [List.filterMap_append, List.forall_mem_append]
    exact ⟨Run.references_ofMark? htag, ih hrest hmore⟩
  | text content rest ih => exact ih hc h
  | cdata content rest ih => exact ih hc h
  | aside source rest ih => exact ih hc h

theorem Paragraph.references_child {p p' : Paragraph} {child : Child} (hc : Refer K child.tags)
    (h : p.child child = .ok p') (hp : ∀ key ∈ p.references, K key) :
    ∀ key ∈ p'.references, K key := by
  cases step_of_child h with
  | properties | text | cdata => exact hp
  | @runs tag inner rs _ hrs =>
    have halone : Refer K (Content.element tag inner .done).tags := by
      rw [Content.tags, Content.tags, List.append_nil]
      exact hc
    rw [references, List.filterMap_append, List.forall_mem_append]
    exact ⟨hp, references_readRuns halone hrs⟩
  | mark =>
    rw [references, List.filterMap_append, List.forall_mem_append]
    exact ⟨hp, Run.references_ofMark? hc.cons.1⟩

theorem Paragraph.references_read {c : Content} {p : Paragraph} (hc : Refer K c.tags)
    (h : Paragraph.read c = .ok p) : ∀ key ∈ p.references, K key :=
  references_foldChildren (fun _ _ _ => references_child) hc h (List.forall_mem_nil _)

theorem Cell.references_child {c c' : Cell} {child : Child} (hc : Refer K child.tags)
    (h : c.child child = .ok c') (hs : ∀ key ∈ c.references, K key) :
    ∀ key ∈ c'.references, K key := by
  cases step_of_child h with
  | properties | passed | empty | text | cdata => exact hs
  | paragraph _ hp =>
    rw [references, List.flatMap_append, List.forall_mem_append, List.flatMap_singleton]
    exact ⟨hs, Paragraph.references_read hc.cons.2 hp⟩
  | emptyParagraph => simpa [references, Paragraph.references] using hs

theorem Row.references_child {r r' : Row} {child : Child} (hc : Refer K child.tags)
    (h : r.child child = .ok r') (hr : ∀ key ∈ r.references, K key) :
    ∀ key ∈ r'.references, K key := by
  cases step_of_child h with
  | properties | passed | empty | text | cdata => exact hr
  | cell _ hcell =>
    rw [references, List.flatMap_append, List.forall_mem_append, List.flatMap_singleton]
    exact ⟨hr, references_foldChildren (fun _ _ _ => Cell.references_child) hc.cons.2 hcell
      (List.forall_mem_nil _)⟩

theorem Table.references_child {t t' : Table} {child : Child} (hc : Refer K child.tags)
    (h : t.child child = .ok t') (ht : ∀ key ∈ t.references, K key) :
    ∀ key ∈ t'.references, K key := by
  cases step_of_child h with
  | properties | grid | passed | empty | text | cdata => exact ht
  | row _ hrow =>
    rw [references, List.flatMap_append, List.forall_mem_append, List.flatMap_singleton]
    exact ⟨ht, references_foldChildren (fun _ _ _ => Row.references_child) hc.cons.2 hrow
      (List.forall_mem_nil _)⟩

theorem Table.references_read {c : Content} {t : Table} (hc : Refer K c.tags)
    (h : Table.read c = .ok t) : ∀ key ∈ t.references, K key :=
  references_foldChildren (fun _ _ _ => references_child) hc h (List.forall_mem_nil _)

/-! ### Elements and the main part -/

namespace Element

theorem referencesOf_append (a b : List Element) :
    referencesOf (a ++ b) = referencesOf a ++ referencesOf b := by
  induction a with
  | nil => rfl
  | cons e rest ih => rw [List.cons_append, referencesOf, referencesOf, ih, List.append_assoc]

theorem referencesOf_singleton (e : Element) : referencesOf [e] = e.references := by
  rw [referencesOf, referencesOf, List.append_nil]

theorem references_ofMark? (htag : ∀ key ∈ tag.reference?, K key) :
    ∀ key ∈ referencesOf (ofMark? tag).toList, K key := by
  unfold ofMark?
  split
  · next hlabel =>
    cases hb : Bookmark.ofTag? tag with
    | none => exact List.forall_mem_nil _
    | some b =>
      rw [Tag.reference?, hlabel, Bookmark.uint32?_of_ofTag? hb] at htag
      simpa [referencesOf, references] using htag
  · next hlabel =>
    cases hid : tag.uint32? "id" with
    | none => exact List.forall_mem_nil _
    | some id =>
      rw [Tag.reference?, hlabel, hid] at htag
      simpa [referencesOf, references] using htag
  · exact List.forall_mem_nil _

theorem references_ofEmpty? (htag : ∀ key ∈ tag.reference?, K key) :
    ∀ key ∈ referencesOf (ofEmpty? tag).toList, K key := by
  unfold ofEmpty?
  split
  · simp [referencesOf, references, Paragraph.references]
  · simp [referencesOf, references]
  · exact references_ofMark? htag

/-- Elements are read with the ids of their tags, in tables and controls, too. -/
theorem references_read (c : Content) (hc : Refer K c.tags) :
    (∀ es, readAll c = .ok es → ∀ key ∈ referencesOf es, K key) ∧
      ∀ p content r, readControl p content c = .ok r → (∀ key ∈ referencesOf content, K key) →
        ∀ key ∈ referencesOf r.2, K key := by
  induction c with
  | done =>
    refine ⟨fun es h => ?_, fun p content r h hcontent => ?_⟩
    · rw [readAll] at h
      cases h
      exact List.forall_mem_nil _
    · rw [readControl] at h
      cases h
      exact hcontent
  | cut fault =>
    refine ⟨fun es h => ?_, fun p content r h _ => ?_⟩
    · rw [readAll] at h
      cases h
    · rw [readControl] at h
      cases h
  | element tag inner rest ihInner ihRest =>
    obtain ⟨htag, hc⟩ := hc.cons
    obtain ⟨hinner, hrest⟩ := hc.append
    refine ⟨fun es h => ?_, fun p content r h hcontent => ?_⟩
    · obtain ⟨here, more, hhere, hmore, rfl⟩ := exists_elementsOf h
      rw [referencesOf_append, List.forall_mem_append]
      refine ⟨?_, (ihRest hrest).1 more hmore⟩
      cases hhere with
      | paragraph _ hp =>
        rw [referencesOf_singleton, references]
        exact Paragraph.references_read hinner hp
      | table _ ht =>
        rw [referencesOf_singleton, references]
        exact Table.references_read hinner ht
      | setup =>
        rw [referencesOf_singleton, references]
        exact List.forall_mem_nil _
      | control _ hcontrol =>
        rw [referencesOf_singleton, references]
        exact (ihInner hinner).2 _ _ _ hcontrol (List.forall_mem_nil _)
      | mark => exact references_ofMark? htag
    · obtain ⟨p', content', hstep, h⟩ := exists_controlStep h
      refine (ihRest hrest).2 _ _ _ h ?_
      cases hstep with
      | properties | passed => exact hcontent
      | content _ hes => exact (ihInner hinner).1 _ hes
  | empty tag rest ih =>
    obtain ⟨htag, hrest⟩ := hc.cons
    refine ⟨fun es h => ?_, by simpa only [readControl] using (ih hrest).2⟩
    obtain ⟨more, hmore, rfl⟩ := exists_readAll_of_empty h
    rw [referencesOf_append, List.forall_mem_append]
    exact ⟨references_ofEmpty? htag, (ih hrest).1 more hmore⟩
  | text content rest ih => simpa only [readAll, readControl] using ih hc
  | cdata content rest ih => simpa only [readAll, readControl] using ih hc
  | aside source rest ih => simpa only [readAll, readControl] using ih hc

end Element

namespace MainPart

theorem Partial.references_read {m m' : Partial} {c : Content} (hc : Refer K c.tags)
    (h : m.read c = .ok m') (hm : ∀ b ∈ m.body, ∀ key ∈ b.references, K key) :
    ∀ b ∈ m'.body, ∀ key ∈ b.references, K key := by
  induction c generalizing m m' with
  | done =>
    cases h
    exact hm
  | cut fault =>
    cases fault with
    | none =>
      cases h
      exact hm
    | some fault => cases h
  | element tag inner rest ihInner ihRest =>
    obtain ⟨hinner, hrest⟩ := hc.cons.2.append
    obtain ⟨next, hstep, h⟩ := exists_step h
    refine ihRest hrest h ?_
    cases hstep with
    | document _ hread => exact ihInner hinner hread hm
    | body _ hes =>
      rintro b ⟨⟩
      exact (Element.references_read inner hinner).1 _ hes
    | passed => exact hm
  | empty tag rest ih =>
    refine ih hc.cons.2 h ?_
    split
    · rintro b ⟨⟩ key hkey
      exact absurd hkey List.not_mem_nil
    · exact hm
  | text content rest ih => exact ih hc h hm
  | cdata content rest ih => exact ih hc h hm
  | aside source rest ih => exact ih hc h hm

/-- The ids in a body are those of tags of its text. -/
theorem exists_tag_of_mem_references {source : List Text.Symbol} {m : MainPart}
    (h : read source = .ok m) : ∀ key ∈ m.body.references,
      ∃ tag ∈ (scan source).tags, tag.reference? = some key := by
  have hc : Refer (fun key => ∃ tag ∈ (scan source).tags, tag.reference? = some key)
      (Content.read source).tags :=
    fun tag htag key hkey => ⟨tag, tags_read_subset source htag, hkey⟩
  exact Partial.references_read hc (read_eq_ok.mp h) nofun m.body rfl

end MainPart

end Letterpress
