import Letterpress.Proofs.Document.FreshIds
import Letterpress.Proofs.Package.Lists

/-!
# Relationships of an edited document

A relationship is put in the place of the one with its id, so none is lost only if its id is new.
The ids that a document issues are: from the start on, and behind every call, the number of every
relationship's id is reserved. So relationships are only ever appended.
-/

namespace Letterpress

/-- A call that adds a relationship or takes an id. -/
inductive LinkCall where
  | relationship (type target : String)
  | part (path : String) (contents : ByteArray) (type : String) (relationship : Option String)
  | catalog (catalog : StyleCatalog)
  | bookmark (name : String)
  | next (space : IdSpace)

/-- A relationship as it is added: a hyperlink to the web leads outside. -/
def Relationship.added (id type target : String) : Relationship :=
  ⟨id, type, target, type = RelationshipType.hyperlink && Relationships.isWebAddress target⟩

namespace Document

/-- A document that is new or has been opened. -/
inductive IsBegun : Document → Prop
  | new : IsBegun new
  | opened {p : Package} {d : Document} : ofPackage p = .ok d → IsBegun d

/-- The relationships of the main part. -/
def links (d : Document) : List Relationship := d.package.mainRelationships.entries

/-- What comes of a call: the id of the relationship, if the call answers one. -/
def linkCall (d : Document) : LinkCall → Kept (Option String)
  | .relationship type target =>
    match d.addRelationship type target with
    | .ok (id, d) => (.ok (some id), d)
    | .error f => (.error f, d)
  | .part path contents type relationship => d.addPart path contents type relationship
  | .catalog catalog =>
    match d.setStyleCatalog catalog with
    | (.ok (), d) => (.ok none, d)
    | (.error f, d) => (.error f, d)
  | .bookmark name =>
    match d.startBookmark name with
    | .ok (_, d) => (.ok none, d)
    | .error f => (.error f, d)
  | .next space =>
    match d.ids.issue? space with
    | some (_, ids) => (.ok none, { d with ids })
    | none => (.error (.exhausted space), d)

/-- The document behind calls in a row. -/
def linkCalls (d : Document) (calls : List LinkCall) : Document :=
  calls.foldl (fun d c => (d.linkCall c).2) d

/-- The type and the target of the relationship that a call is to add. -/
def link? (d : Document) : LinkCall → Option (String × String)
  | .relationship type target => some (type, target)
  | .part path _ _ relationship =>
    relationship.map fun type => (type, relativeTarget d.mainFolder (withoutSlash path))
  | .catalog _ =>
    if d.stylesPath?.isNone then
      some (RelationshipType.styles, relativeTarget d.mainFolder stylesPath)
    else none
  | .bookmark _ => none
  | .next _ => none

/-- What a call does to the relationships. -/
structure Appends (d : Document) (c : LinkCall) : Prop where
  /-- A call that is to add no relationship leaves them as they are. -/
  unasked : d.link? c = none → (d.linkCall c).2.links = d.links
  /-- So does one that fails. -/
  failed : ∀ f, (d.linkCall c).1 = .error f → (d.linkCall c).2.links = d.links
  /-- A call that is to add one succeeds as long as there are ids. -/
  succeeds : (d.link? c).isSome →
    ((∃ answer, (d.linkCall c).1 = .ok answer) ↔ (d.ids.peek .relationship).isSome)
  /-- Then the relationship comes last, by an id that none had before. -/
  added : ∀ type target answer, d.link? c = some (type, target) →
    (d.linkCall c).1 = .ok answer → ∃ id, id ∉ d.links.map (·.id) ∧
      (answer = some id ∨ answer = none ∧ ∃ catalog, c = .catalog catalog) ∧
        (d.linkCall c).2.links = d.links ++ [.added id type target]

/-- Whether no number of a relationship's id comes next. -/
def Covers (d : Document) : Prop :=
  ∀ r ∈ d.links, ∀ n, relationshipNumber? r.id = some n → d.ids.Reserves .relationship n

variable {d d' : Document} {n : UInt32}

theorem Covers.mono (h : d.Covers) (hlinks : d'.links = d.links)
    (hids : ∀ n, d.ids.Reserves .relationship n → d'.ids.Reserves .relationship n) : d'.Covers :=
  fun r hr n hn => hids n (h r (hlinks ▸ hr) n hn)

/-- A call for an id leaves the numbers reserved. -/
theorem Covers.call (h : d.Covers) (c : IdCall) (hlinks : d'.links = d.links)
    (hids : d'.ids = (d.ids.call c).2) : d'.Covers :=
  h.mono hlinks fun _ hn => hids ▸ hn.call c

theorem Covers.not_mem (h : d.Covers) (hn : d.ids.peek .relationship = some n) :
    relationshipId n ∉ d.links.map (·.id) := by
  intro hmem
  obtain ⟨r, hr, hid⟩ := List.mem_map.mp hmem
  have hnumber : relationshipNumber? r.id = some n := hid ▸ relationshipNumber?_relationshipId n
  exact UInt32.lt_irrefl n (h r hr n hnumber n hn)

theorem covers_new : new.Covers := by
  have hlinks : new.links = [⟨"rId1", RelationshipType.styles, "styles.xml", false⟩] := by
    decide +kernel
  intro r hr n hn
  rw [hlinks, List.mem_singleton] at hr
  subst hr
  exact Ids.reserves_observeRelationship hn {}

theorem covers_of_ofPackage {p : Package} (h : ofPackage p = .ok d) : d.Covers := by
  obtain ⟨contents, main, -, -, -, rfl⟩ := ofPackage_eq_ok.mp h
  intro r hr n hn
  exact Ids.reserves_foldl hr
    (fun ids => Ids.reserves_observeLinked (Ids.reserves_observeRelationship hn ids))
    (fun _ r h => Ids.reserves_observeLinked (h.observeRelationship r.id)) _

theorem IsBegun.covers (h : d.IsBegun) : d.Covers := by
  cases h with
  | new => exact covers_new
  | opened h => exact covers_of_ofPackage h

/-- A relationship is refused if there is no id left, and else comes last by the next id. -/
theorem Covers.addRelationship (h : d.Covers) (type target : String) :
    (d.ids.peek .relationship = none ∧
        d.addRelationship type target = .error (.exhausted .relationship)) ∨
      ∃ n d', d.ids.peek .relationship = some n ∧
        d.addRelationship type target = .ok (relationshipId n, d') ∧ d'.Covers ∧
          d'.links = d.links ++ [.added (relationshipId n) type target] := by
  rw [Document.addRelationship, Ids.issueRelationship?, Ids.issue?]
  cases hn : d.ids.peek .relationship with
  | none => exact .inl ⟨rfl, rfl⟩
  | some n =>
    refine .inr ⟨n, _, rfl, rfl, ?_⟩
    have hlinks : (d.package.addMainRelationship (relationshipId n) type target).mainRelationships =
        ⟨d.links ++ [.added (relationshipId n) type target]⟩ :=
      Relationships.put_of_not_mem (h.not_mem hn)
    refine ⟨fun r hr m hm => ?_, congrArg Relationships.entries hlinks⟩
    rw [links, hlinks] at hr
    rcases List.mem_append.mp hr with hr | hr
    · exact (h r hr m hm).set hn
    · rw [List.mem_singleton.mp hr, Relationship.added, relationshipNumber?_relationshipId] at hm
      exact Option.some.inj hm ▸ Ids.reserves_set d.ids .relationship n

/-! ### Calls -/

variable {c : LinkCall}

/-- Leads the main part to a target and finishes, or stops. -/
def linked (d : Document) (type target : String) (answer : String → Option String)
    (finish : Document → Document) : Kept (Option String) :=
  match d.addRelationship type target with
  | .ok (id, d) => (.ok (answer id), finish d)
  | .error f => (.error f, d)

theorem linkCall_relationship {type target : String} :
    d.linkCall (.relationship type target) = d.linked type target some id := rfl

theorem linkCall_part {path type relationship : String} {contents : ByteArray} :
    d.linkCall (.part path contents type (some relationship)) =
      (d.putPart (withoutSlash path) contents type).linked relationship
        (relativeTarget d.mainFolder (withoutSlash path)) some id := rfl

theorem linkCall_catalog_some {catalog : StyleCatalog} {path : String}
    (h : d.stylesPath? = some path) :
    d.linkCall (.catalog catalog) = (.ok none, { d with styles := some catalog }) := by
  simp only [linkCall, setStyleCatalog, h]

theorem linkCall_catalog_none {catalog : StyleCatalog} (h : d.stylesPath? = none) :
    d.linkCall (.catalog catalog) =
      linked { d with package := d.package.setType stylesPath ContentType.styles }
        RelationshipType.styles (relativeTarget d.mainFolder stylesPath) (fun _ => none)
        fun e => { e with styles := some catalog } := by
  have hfolder : mainFolder { d with package := d.package.setType stylesPath ContentType.styles } =
      d.mainFolder := rfl
  simp only [linkCall, setStyleCatalog, h, hfolder, linked]
  cases addRelationship _ _ _ <;> rfl

theorem Appends.of_unasked (hlink : d.link? c = none) (hlinks : (d.linkCall c).2.links = d.links) :
    d.Appends c where
  unasked _ := hlinks
  failed _ _ := hlinks
  succeeds h := by rw [hlink] at h; cases h
  added _ _ _ h _ := by rw [hlink] at h; cases h

/-- A call that adds a relationship to the document `d'`, where there are the same relationships and
ids. -/
theorem Covers.linkCall_of_linked (h : d.Covers) {type target : String} {d' : Document}
    {answer : String → Option String} {finish : Document → Document}
    (hcall : d.linkCall c = d'.linked type target answer finish)
    (hlink : d.link? c = some (type, target)) (hlinks : d'.links = d.links) (hids : d'.ids = d.ids)
    (hanswer : ∀ id, answer id = some id ∨ answer id = none ∧ ∃ catalog, c = .catalog catalog)
    (hfinish : ∀ e, (finish e).links = e.links ∧ (finish e).ids = e.ids) :
    d.Appends c ∧ (d.linkCall c).2.Covers := by
  have h' : d'.Covers := h.mono hlinks fun _ hn => hids ▸ hn
  rcases h'.addRelationship type target with ⟨hn, hadd⟩ | ⟨n, e, hn, hadd, hcovers, hlast⟩
  · rw [linked, hadd] at hcall
    rw [hids] at hn
    refine ⟨⟨fun _ => ?_, fun _ _ => ?_, fun _ => ?_, fun _ _ _ _ hok => ?_⟩, ?_⟩
    · rw [hcall, hlinks]
    · rw [hcall, hlinks]
    · simp [hcall, hn]
    · rw [hcall] at hok
      cases hok
    · rwa [hcall]
  · rw [linked, hadd] at hcall
    rw [hids] at hn
    refine ⟨⟨fun hnone => ?_, fun _ hf => ?_, fun _ => ?_, fun _ _ _ hsome hok => ?_⟩, ?_⟩
    · rw [hlink] at hnone
      cases hnone
    · rw [hcall] at hf
      cases hf
    · simp [hcall, hn]
    · rw [hcall] at hok ⊢
      rw [hlink] at hsome
      cases hsome
      cases hok
      exact ⟨_, h.not_mem hn, hanswer _, by rw [(hfinish e).1, hlast, hlinks]⟩
    · rw [hcall]
      exact hcovers.mono (hfinish e).1 fun _ hm => (hfinish e).2 ▸ hm

/-- Every call appends what it is to add, by an id that is new, and leaves the numbers reserved. -/
theorem Covers.linkCall (h : d.Covers) (c : LinkCall) :
    d.Appends c ∧ (d.linkCall c).2.Covers := by
  cases c with
  | relationship type target =>
    exact h.linkCall_of_linked linkCall_relationship rfl rfl rfl (fun _ => .inl rfl)
      fun _ => ⟨rfl, rfl⟩
  | part path contents type relationship =>
    cases relationship with
    | none => exact ⟨.of_unasked rfl rfl, h.mono rfl fun _ => id⟩
    | some relationship =>
      exact h.linkCall_of_linked linkCall_part rfl rfl rfl (fun _ => .inl rfl) fun _ => ⟨rfl, rfl⟩
  | catalog catalog =>
    cases hpath : d.stylesPath? with
    | some path =>
      rw [linkCall_catalog_some hpath]
      exact ⟨.of_unasked (by simp [link?, hpath]) (by rw [linkCall_catalog_some hpath]; rfl), h⟩
    | none =>
      exact h.linkCall_of_linked (linkCall_catalog_none hpath) (by simp [link?, hpath]) rfl rfl
        (fun _ => .inr ⟨rfl, catalog, rfl⟩) fun _ => ⟨rfl, rfl⟩
  | bookmark name =>
    have hlinks : (d.linkCall (.bookmark name)).2.links = d.links := by
      simp only [Document.linkCall, startBookmark]
      cases d.ids.issue? .bookmark <;> rfl
    refine ⟨.of_unasked rfl hlinks, h.call (.issue .bookmark) hlinks ?_⟩
    simp only [Document.linkCall, startBookmark, Ids.call]
    cases d.ids.issue? .bookmark <;> rfl
  | next space =>
    have hlinks : (d.linkCall (.next space)).2.links = d.links := by
      simp only [Document.linkCall]
      cases d.ids.issue? space <;> rfl
    refine ⟨.of_unasked rfl hlinks, h.call (.issue space) hlinks ?_⟩
    simp only [Document.linkCall, Ids.call]
    cases d.ids.issue? space <;> rfl

theorem Covers.linkCalls (h : d.Covers) (calls : List LinkCall) : (d.linkCalls calls).Covers := by
  induction calls generalizing d with
  | nil => exact h
  | cons c rest ih => exact ih (h.linkCall c).2

/-- Relationships that are there stay first, in their order. -/
theorem Appends.prefix_links (h : d.Appends c) : d.links <+: (d.linkCall c).2.links := by
  have stays : (d.linkCall c).2.links = d.links → d.links <+: (d.linkCall c).2.links :=
    fun h => h ▸ List.prefix_refl _
  cases hlink : d.link? c with
  | none => exact stays (h.unasked hlink)
  | some link =>
    cases hanswer : (d.linkCall c).1 with
    | error f => exact stays (h.failed f hanswer)
    | ok answer =>
      obtain ⟨id, -, -, hlast⟩ := h.added _ _ answer hlink hanswer
      exact hlast ▸ List.prefix_append _ _

theorem Covers.prefix_links (h : d.Covers) (calls : List LinkCall) :
    d.links <+: (d.linkCalls calls).links := by
  induction calls generalizing d with
  | nil => exact List.prefix_refl _
  | cons c rest ih => exact (h.linkCall c).1.prefix_links.trans (ih (h.linkCall c).2)

/-- Behind any calls on a document that is new or opened, a relationship is added by an id that none
has, behind the others, and those that are there at any time stay as and where they are. -/
theorem appends_linkCalls (h : d.IsBegun) (calls : List LinkCall) :
    (∀ c, (d.linkCalls calls).Appends c) ∧
      ∀ behind, (d.linkCalls calls).links <+: (d.linkCalls (calls ++ behind)).links := by
  have hcovers := h.covers.linkCalls calls
  refine ⟨fun c => (hcovers.linkCall c).1, fun behind => ?_⟩
  rw [linkCalls, linkCalls, List.foldl_append]
  exact hcovers.prefix_links behind

/-- Two numbers that are taken in other spellings, and an id without a number. -/
theorem appends_linkCalls_spellings :
    let main := "<document><body></body></document>"
    let p := ((Package.ofMainPart "word/document.xml").putText "word/document.xml" main)
      |>.addMainRelationship "RId7" RelationshipType.styles "styles.xml"
      |>.addMainRelationship "rid+08" RelationshipType.image "logo.png"
      |>.addMainRelationship "logo" RelationshipType.image "logo.png"
    let calls : List LinkCall := [.part "/word/media/a.png" .empty "image/png"
      (some RelationshipType.image), .next .relationship]
    let c : LinkCall := .relationship RelationshipType.hyperlink "https://a.b"
    ∃ d, ofPackage p = .ok d ∧ (d.linkCalls calls).Appends c ∧
      d.links <+: (d.linkCalls calls).links ∧
        (d.linkCalls (calls ++ [c])).links = p.mainRelationships.entries ++
          [⟨"rId9", RelationshipType.image, "media/a.png", false⟩,
            ⟨"rId11", RelationshipType.hyperlink, "https://a.b", true⟩] := by
  intro main p calls c
  have hlinks : (ofPackage p).map (fun d => (d.linkCalls (calls ++ [c])).links) =
      .ok (p.mainRelationships.entries ++
        [⟨"rId9", RelationshipType.image, "media/a.png", false⟩,
          ⟨"rId11", RelationshipType.hyperlink, "https://a.b", true⟩]) := by decide +kernel
  obtain ⟨d, hd, hlinks⟩ := map_eq_ok.mp hlinks
  exact ⟨d, hd, (appends_linkCalls (.opened hd) calls).1 c,
    (appends_linkCalls (.opened hd) []).2 calls, hlinks⟩

end Document

end Letterpress
