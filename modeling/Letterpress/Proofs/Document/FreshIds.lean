import Letterpress.Document
import Letterpress.Proofs.Body.References
import Letterpress.Proofs.Package.Ids

/-!
# Ids of an opened document

Opening a package meets the id of every tag of its main part and of every relationship of it. The
body has no other ids than these, so none of them is ever issued for the document.
-/

namespace Letterpress

open Markup Text

namespace Ids

variable {ids : Ids} {space : IdSpace} {n : UInt32} {α : Type} {f : Ids → α → Ids} {l : List α}

theorem Reserves.foldl (h : ids.Reserves space n)
    (hf : ∀ ids a, Reserves ids space n → (f ids a).Reserves space n) :
    (l.foldl f ids).Reserves space n := by
  induction l generalizing ids with
  | nil => exact h
  | cons a rest ih => exact ih (hf ids a h)

/-- What one step reserves and no step lifts is reserved in the end. -/
theorem reserves_foldl {a : α} (ha : a ∈ l) (hmeets : ∀ ids, (f ids a).Reserves space n)
    (hf : ∀ ids a, Reserves ids space n → (f ids a).Reserves space n) (ids : Ids) :
    (l.foldl f ids).Reserves space n := by
  obtain ⟨before, behind, rfl⟩ := List.append_of_mem ha
  rw [List.foldl_append, List.foldl_cons]
  exact (hmeets _).foldl hf

theorem Reserves.observeRelationship (h : ids.Reserves space n) (id : String) :
    (ids.observeRelationship id).Reserves space n := by
  unfold Ids.observeRelationship
  split
  · exact h.observe _ _
  · exact h

theorem reserves_observeRelationship {id : String} (h : relationshipNumber? id = some n)
    (ids : Ids) : (ids.observeRelationship id).Reserves .relationship n := by
  rw [Ids.observeRelationship, h]
  exact reserves_observe ids _ n

theorem Reserves.observeTag (h : ids.Reserves space n) (tag : Tag) :
    (ids.observeTag tag).Reserves space n := by
  unfold Ids.observeTag
  split
  · exact h
  · split
    · exact h.observe _ _
    · exact h

theorem declared?_of_reference? {tag : Tag} (h : tag.reference? = some (space, n)) :
    declared? tag.label = some (space, "id") ∧ tag.uint32? "id" = some n := by
  unfold Tag.reference? at h
  split at h
  all_goals first
    | cases h
    | next hlabel =>
      obtain ⟨id, hid, hkey⟩ := Option.map_eq_some_iff.mp h
      cases hkey
      exact ⟨by rw [hlabel]; rfl, hid⟩

theorem reserves_observeTag {tag : Tag} (h : tag.reference? = some (space, n)) (ids : Ids) :
    (ids.observeTag tag).Reserves space n := by
  obtain ⟨hdeclared, hid⟩ := declared?_of_reference? h
  simp only [Ids.observeTag, hdeclared, hid]
  exact reserves_observe ids space n

theorem observeAll_eq (ids : Ids) (source : List Symbol) :
    ids.observeAll source = ((scan source).tags.foldl Ids.observeTag ids, (scan source).fault) := by
  rw [Ids.observeAll, Events.tags, List.foldl_filterMap]
  congr
  funext ids event
  cases event <;> rfl

theorem Reserves.observeAll (h : ids.Reserves space n) (source : List Symbol) :
    (ids.observeAll source).1.Reserves space n := by
  rw [observeAll_eq]
  exact h.foldl fun _ tag h => h.observeTag tag

theorem reserves_observeAll {source : List Symbol} {tag : Tag} (htag : tag ∈ (scan source).tags)
    (h : tag.reference? = some (space, n)) (ids : Ids) :
    (ids.observeAll source).1.Reserves space n := by
  rw [observeAll_eq]
  exact reserves_foldl htag (reserves_observeTag h) (fun _ tag h => h.observeTag tag) ids

/-- What the id of a relationship leaves reserved, the part it leads to does, too. -/
theorem reserves_observeLinked {p : Package} {r : Relationship}
    (h : (ids.observeRelationship r.id).Reserves space n) :
    (Document.observeLinked p ids r).Reserves space n := by
  simp only [Document.observeLinked]
  split
  · exact h
  split
  · split
    · exact h.observeAll _
    · exact h
  · exact h

end Ids

/-- What a document may be asked for. -/
inductive IdRequest where
  | bookmark (name : String)
  | relationship (type target : String)
  | next (space : IdSpace)

/-- The call that a request leads to. -/
def IdRequest.call : IdRequest → IdCall
  | bookmark _ => .issue .bookmark
  | relationship _ _ => .issueRelationship
  | next space => .issue space

namespace Document

def request (d : Document) : IdRequest → IdEvent × Document
  | .bookmark name =>
    match d.startBookmark name with
    | .ok (b, d) => (.issued .bookmark b.id, d)
    | .error _ => (.refused .bookmark, d)
  | .relationship type target =>
    match d.addRelationship type target with
    | .ok (id, d) => (.issuedRelationship id, d)
    | .error _ => (.refused .relationship, d)
  | .next space =>
    match d.ids.issue? space with
    | some (id, ids) => (.issued space id, { d with ids })
    | none => (.refused space, d)

/-- What comes of requests in a row. -/
def answers (d : Document) : List IdRequest → List IdEvent
  | [] => []
  | r :: rest => (d.request r).1 :: answers (d.request r).2 rest

theorem request_eq (d : Document) (r : IdRequest) :
    (d.request r).1 = (d.ids.call r.call).1 ∧ (d.request r).2.ids = (d.ids.call r.call).2 := by
  cases r with
  | bookmark name =>
    simp only [request, startBookmark, IdRequest.call, Ids.call]
    cases d.ids.issue? .bookmark <;> exact ⟨rfl, rfl⟩
  | relationship type target =>
    simp only [request, addRelationship, IdRequest.call, Ids.call]
    cases d.ids.issueRelationship? <;> exact ⟨rfl, rfl⟩
  | next space =>
    simp only [request, IdRequest.call, Ids.call]
    cases d.ids.issue? space <;> exact ⟨rfl, rfl⟩

theorem answers_eq (d : Document) (requests : List IdRequest) :
    d.answers requests = d.ids.history (requests.map IdRequest.call) := by
  induction requests generalizing d with
  | nil => rfl
  | cons r rest ih =>
    obtain ⟨hevent, hids⟩ := d.request_eq r
    rw [answers, List.map_cons, Ids.history, hevent, ih, hids]

/-- Whether an id is never issued, whatever the document is asked for. -/
def Avoids (d : Document) (key : IdKey) : Prop :=
  ∀ requests, ∀ e ∈ d.answers requests, e.space = key.1 → e.issued? ≠ some key.2

theorem avoids_of_reserves {d : Document} {key : IdKey} (h : d.ids.Reserves key.1 key.2) :
    d.Avoids key := by
  intro requests e he hspace hissued
  rw [answers_eq] at he
  exact UInt32.lt_irrefl _ (Ids.lt_of_mem_history h he hspace hissued)

/-- No relationship is added by an id whose number is avoided. -/
theorem not_mem_answers {d : Document} {id : String}
    (h : ∀ n, relationshipNumber? id = some n → d.Avoids (.relationship, n))
    (requests : List IdRequest) : .issuedRelationship id ∉ d.answers requests := by
  intro hmem
  have hhistory := hmem
  rw [answers_eq] at hhistory
  obtain ⟨n, rfl⟩ := Ids.eq_relationshipId_of_mem_history hhistory
  have hn := relationshipNumber?_relationshipId n
  exact h n hn requests _ hmem rfl hn

/-! ### Opening a document -/

theorem ofPackage_eq_ok {p : Package} {d : Document} : ofPackage p = .ok d ↔
    ∃ contents main, p.get? p.mainPart = some contents ∧
      MainPart.read (Symbol.read contents) = .ok main ∧
        (scan (Symbol.read contents)).fault = none ∧
          d = { package := p.dropContents p.mainPart, body := main.body,
                attributes := main.attributes,
                ids := p.mainRelationships.entries.foldl (observeLinked (p.dropContents p.mainPart))
                  (({} : Ids).observeAll (Symbol.read contents)).1 } := by
  constructor
  · intro h
    simp only [ofPackage] at h
    split at h
    · cases h
    · next contents hget =>
      obtain ⟨main, hmain, h⟩ := bind_eq_ok.mp h
      have hids := Ids.observeAll_eq {} (Symbol.read contents)
      refine ⟨contents, main, hget, mapError_eq_ok.mp hmain, ?_⟩
      split at h
      · cases h
      · next ids hnone =>
        cases h
        rw [hnone] at hids ⊢
        exact ⟨(congrArg Prod.snd hids).symm, rfl⟩
  · rintro ⟨contents, main, hget, hmain, hfault, rfl⟩
    have hids := Ids.observeAll_eq {} (Symbol.read contents)
    rw [hfault] at hids
    simp only [ofPackage, hget, hmain, hids, Except.mapError]
    rfl

/-- The ids of the main part's marks and references are reserved. -/
theorem reserves_of_ofPackage {p : Package} {d : Document} (h : ofPackage p = .ok d)
    {contents : ByteArray} (hget : p.get? p.mainPart = some contents) {tag : Tag}
    (htag : tag ∈ (scan (Symbol.read contents)).tags) {key : IdKey}
    (hkey : tag.reference? = some key) : d.ids.Reserves key.1 key.2 := by
  obtain ⟨_, main, hget', -, -, rfl⟩ := ofPackage_eq_ok.mp h
  cases hget.symm.trans hget'
  exact (Ids.reserves_observeAll htag hkey {}).foldl
    fun _ r h => Ids.reserves_observeLinked (h.observeRelationship r.id)

/-- Nothing that the opened document is asked for has an id of its body, of a bookmark mark or a
reference in its main part that the body is without, or of a relationship. -/
theorem avoids_of_ofPackage {p : Package} {d : Document} (h : ofPackage p = .ok d) :
    (∀ key ∈ d.body.references, d.Avoids key) ∧
      (∃ contents, p.get? p.mainPart = some contents ∧
        ∀ tag ∈ (scan (Symbol.read contents)).tags, ∀ key ∈ tag.reference?, d.Avoids key) ∧
      ∀ r ∈ p.mainRelationships.entries,
        (∀ n, relationshipNumber? r.id = some n → d.Avoids (.relationship, n)) ∧
          ∀ requests, .issuedRelationship r.id ∉ d.answers requests := by
  obtain ⟨contents, main, hget, hmain, -, hd⟩ := ofPackage_eq_ok.mp h
  have hbody : d.body = main.body := by rw [hd]
  have hids : d.ids = p.mainRelationships.entries.foldl (observeLinked (p.dropContents p.mainPart))
      (({} : Ids).observeAll (Symbol.read contents)).1 := by rw [hd]
  have linked : ∀ {space n} (ids : Ids) (r : Relationship), ids.Reserves space n →
      (observeLinked (p.dropContents p.mainPart) ids r).Reserves space n :=
    fun _ r h => Ids.reserves_observeLinked (h.observeRelationship r.id)
  have tags : ∀ tag ∈ (scan (Symbol.read contents)).tags, ∀ key ∈ tag.reference?,
      d.Avoids key := by
    intro tag htag key hkey
    refine avoids_of_reserves ?_
    rw [hids]
    exact (Ids.reserves_observeAll htag hkey {}).foldl linked
  refine ⟨fun key hkey => ?_, ⟨contents, hget, tags⟩, fun r hr => ?_⟩
  · rw [hbody] at hkey
    obtain ⟨tag, htag, hkey⟩ := MainPart.exists_tag_of_mem_references hmain key hkey
    exact tags tag htag key hkey
  · have numbers : ∀ n, relationshipNumber? r.id = some n → d.Avoids (.relationship, n) := by
      intro n hn
      refine avoids_of_reserves ?_
      rw [hids]
      exact Ids.reserves_foldl hr
        (fun ids => Ids.reserves_observeLinked (Ids.reserves_observeRelationship hn ids)) linked _
    exact ⟨numbers, not_mem_answers numbers⟩

/-- One mark in the body, and one in an element that is passed over. -/
theorem avoids_of_ofPackage_passed :
    let main :=
      "<document><body><bookmarkEnd id=\"3\"/><x><bookmarkEnd id=\"7\"/></x></body></document>"
    let p := ((Package.ofMainPart "word/document.xml").putText "word/document.xml" main)
      |>.addMainRelationship "rId5" RelationshipType.image "media/image.png"
    ∃ d, ofPackage p = .ok d ∧ d.body.references = [(.bookmark, 3)] ∧ d.Avoids (.bookmark, 3) ∧
      d.Avoids (.bookmark, 7) ∧ d.Avoids (.relationship, 5) := by
  intro main p
  have hget : p.get? p.mainPart = some main.toUTF8 := by
    have hpath : p.mainPart = "word/document.xml" := by decide +kernel
    rw [hpath]
    exact KeyMap.find?_insert_self ..
  have hread : (MainPart.read (Symbol.ofString main)).map (·.body.references) =
      .ok [(.bookmark, 3)] := by decide +kernel
  have hscan : (scan (Symbol.ofString main)).fault = none ∧
      ∃ tag ∈ (scan (Symbol.ofString main)).tags, tag.reference? = some (.bookmark, 7) := by
    decide +kernel
  rw [← Symbol.read_toUTF8] at hread hscan
  obtain ⟨hfault, tag, htag, hkey⟩ := hscan
  obtain ⟨m, hm, hreferences⟩ := map_eq_ok.mp hread
  have hd := ofPackage_eq_ok.mpr ⟨_, m, hget, hm, hfault, rfl⟩
  obtain ⟨body, ⟨contents, hcontents, tags⟩, relationships⟩ := avoids_of_ofPackage hd
  refine ⟨_, hd, hreferences, body _ ?_, ?_, ?_⟩
  · rw [show _ = [_] from hreferences]
    exact List.mem_cons_self ..
  · cases hget.symm.trans hcontents
    exact tags tag htag _ hkey
  · exact (relationships ⟨"rId5", RelationshipType.image, "media/image.png", false⟩
      (by decide +kernel)).1 5 (by decide +kernel)

end Document

end Letterpress
