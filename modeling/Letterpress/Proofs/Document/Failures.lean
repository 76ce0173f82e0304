import Letterpress.Proofs.Document.Links
import Letterpress.Proofs.KeyMap

/-!
# What is left of a failed call

A call fails if there is no id left for it. The calls that do something before they ask for the id
leave it done: a part that cannot be linked is stored with its type, and `word/styles.xml` has its
type while no catalog supplies it. This is all that is left: every later call answers as if the
failed one had not been.
-/

namespace Letterpress

theorem KeyMap.insert_eq_self_iff {α : Type} {m : KeyMap α} {key : String} {value : α} :
    m.insert key value = m ↔ m.find? key = some value := by
  constructor
  · intro h
    rw [← h, find?_insert_self]
  · intro h
    have hentry := KeyMap.find?_eq_some_iff.mp h
    refine ext_entries fun e => mem_insert.trans ⟨?_, fun he => ?_⟩
    · rintro (rfl | ⟨he, -⟩)
      · exact hentry
      · exact he
    · by_cases hkey : e.1 = key
      · obtain ⟨k, v⟩ := e
        cases hkey
        exact .inl (by rw [m.sorted.eq_of_mem he hentry])
      · exact .inr ⟨he, hkey⟩

namespace ContentTypes

theorem replaceOrAdd_eq_self_iff {key type : String} {entries : List (String × String)} :
    replaceOrAdd key type entries = entries ↔ entries.lookup key = some type := by
  induction entries with
  | nil => simp [replaceOrAdd]
  | cons e rest ih =>
    rw [replaceOrAdd]
    by_cases he : e.1 = key
    · rw [if_pos he, List.lookup_cons, beq_iff_eq.mpr he.symm]
      obtain ⟨k, v⟩ := e
      cases he
      simp [eq_comm]
    · rw [if_neg he, List.lookup_cons, beq_eq_false_iff_ne.mpr (Ne.symm he), List.cons.injEq, ih]
      simp

theorem addOverride_eq_self_iff {c : ContentTypes} {path type : String} :
    c.addOverride path type = c ↔ c.override? path = some type := by
  refine Iff.trans ⟨congrArg overrides, fun h => ?_⟩ replaceOrAdd_eq_self_iff
  exact congrArg (fun l => { c with overrides := l }) h

end ContentTypes

namespace Document

/-- The space of ids from which a call draws. -/
def draws? (d : Document) : LinkCall → Option IdSpace
  | .relationship _ _ => some .relationship
  | .part _ _ _ relationship => relationship.map fun _ => .relationship
  | .catalog _ => if d.stylesPath?.isNone then some .relationship else none
  | .bookmark _ => some .bookmark
  | .next space => some space

/-- What a call that draws an id has done before it does. -/
def begun (d : Document) : LinkCall → Document
  | .part path contents type _ => d.putPart (withoutSlash path) contents type
  | .catalog _ => { d with package := d.package.setType stylesPath ContentType.styles }
  | .relationship _ _ => d
  | .bookmark _ => d
  | .next _ => d

/-- Whether that is done already. -/
def HasBegun (d : Document) : LinkCall → Prop
  | .part path contents type _ =>
    d.package.get? (withoutSlash path) = some contents ∧
      d.package.types.override? (withoutSlash path) = some type
  | .catalog _ => d.package.types.override? stylesPath = some ContentType.styles
  | .relationship _ _ => True
  | .bookmark _ => True
  | .next _ => True

/-- What calls in a row answer. -/
def linkAnswers (d : Document) : List LinkCall → List (Except Failure (Option String))
  | [] => []
  | c :: rest => (d.linkCall c).1 :: linkAnswers (d.linkCall c).2 rest

/-- Documents that differ at most in their parts and the types of these. -/
def SameButParts (d d' : Document) : Prop :=
  ∃ parts types, d' = { d with package := { d.package with parts, types } }

variable {d d' : Document} {c : LinkCall}

theorem putPart_eq_self_iff {path type : String} {contents : ByteArray} :
    d.putPart path contents type = d ↔
      d.package.get? path = some contents ∧ d.package.types.override? path = some type := by
  rw [Package.get?, ← KeyMap.insert_eq_self_iff, ← ContentTypes.addOverride_eq_self_iff]
  constructor
  · intro h
    exact ⟨congrArg (·.package.parts) h, congrArg (·.package.types) h⟩
  · rintro ⟨hparts, htypes⟩
    rw [putPart, Package.setType, Package.put, hparts, htypes]

theorem begun_eq_self_iff (d : Document) (c : LinkCall) : d.begun c = d ↔ d.HasBegun c := by
  cases c with
  | relationship type target | bookmark name | next space => exact iff_of_true rfl trivial
  | part path contents type relationship => exact putPart_eq_self_iff
  | catalog catalog =>
    refine Iff.trans ⟨congrArg (·.package.types), fun h => ?_⟩ ContentTypes.addOverride_eq_self_iff
    exact congrArg (fun types => { d with package := { d.package with types } }) h

theorem sameButParts_begun (d : Document) (c : LinkCall) : d.SameButParts (d.begun c) := by
  cases c with
  | relationship type target | bookmark name | next space => exact ⟨_, _, rfl⟩
  | part path contents type relationship => exact ⟨_, _, rfl⟩
  | catalog catalog => exact ⟨_, _, rfl⟩

/-! ### Failed calls, and calls behind them -/

theorem addRelationship_eq_error_iff {type target : String} {f : Failure} :
    d.addRelationship type target = .error f ↔
      d.ids.peek .relationship = none ∧ f = .exhausted .relationship := by
  rw [addRelationship, Ids.issueRelationship?, Ids.issue?]
  cases d.ids.peek .relationship <;> simp [eq_comm]

theorem linked_eq_error_iff {type target : String} {answer : String → Option String}
    {finish : Document → Document} {f : Failure} :
    d.linked type target answer finish = (.error f, d') ↔
      (d.ids.peek .relationship = none ∧ f = .exhausted .relationship) ∧ d' = d := by
  rw [linked, ← addRelationship_eq_error_iff]
  cases d.addRelationship type target <;> simp [eq_comm]

theorem linkCall_eq_error {f : Failure} : d.linkCall c = (.error f, d') ↔
    (∃ space, d.draws? c = some space ∧ d.ids.peek space = none ∧ f = .exhausted space) ∧
      d' = d.begun c := by
  cases c with
  | relationship type target =>
    rw [linkCall_relationship, linked_eq_error_iff]
    simp [draws?, begun]
  | part path contents type relationship =>
    cases relationship with
    | none => simp [linkCall, addPart, draws?]
    | some relationship =>
      rw [linkCall_part, linked_eq_error_iff]
      simp [draws?, begun, putPart]
  | catalog catalog =>
    cases hpath : d.stylesPath? with
    | some path => simp [linkCall_catalog_some hpath, draws?, hpath]
    | none =>
      rw [linkCall_catalog_none hpath, linked_eq_error_iff]
      simp [draws?, begun, hpath]
  | bookmark name =>
    simp only [linkCall, startBookmark, Ids.issue?]
    cases hpeek : d.ids.peek .bookmark <;> simp [draws?, begun, hpeek, eq_comm]
  | next space =>
    simp only [linkCall, Ids.issue?]
    cases hpeek : d.ids.peek space <;> simp [draws?, begun, hpeek, eq_comm]

theorem SameButParts.mainFolder_eq (h : d.SameButParts d') : d'.mainFolder = d.mainFolder := by
  obtain ⟨parts, types, rfl⟩ := h
  rfl

theorem SameButParts.stylesPath?_eq (h : d.SameButParts d') : d'.stylesPath? = d.stylesPath? := by
  obtain ⟨parts, types, rfl⟩ := h
  rfl

theorem SameButParts.linked (h : d.SameButParts d') (type target : String)
    (answer : String → Option String) {finish : Document → Document}
    (hfinish : ∀ e e', e.SameButParts e' → (finish e).SameButParts (finish e')) :
    (d'.linked type target answer finish).1 = (d.linked type target answer finish).1 ∧
      (d.linked type target answer finish).2.SameButParts
        (d'.linked type target answer finish).2 := by
  have hd := h
  obtain ⟨parts, types, rfl⟩ := h
  simp only [Document.linked, addRelationship, Ids.issueRelationship?, Ids.issue?]
  cases d.ids.peek .relationship with
  | none => exact ⟨rfl, hd⟩
  | some n => exact ⟨rfl, hfinish _ _ ⟨_, _, rfl⟩⟩

/-- What a call answers, and what it does, does not hang on the parts. -/
theorem SameButParts.linkCall (h : d.SameButParts d') (c : LinkCall) :
    (d'.linkCall c).1 = (d.linkCall c).1 ∧ (d.linkCall c).2.SameButParts (d'.linkCall c).2 := by
  have hid : ∀ e e' : Document, e.SameButParts e' → (id e).SameButParts (id e') := fun _ _ h => h
  cases c with
  | relationship type target => exact h.linked type target some hid
  | part path contents type relationship =>
    have hput : (d.putPart (withoutSlash path) contents type).SameButParts
        (d'.putPart (withoutSlash path) contents type) := by
      obtain ⟨parts, types, rfl⟩ := h
      exact ⟨_, _, rfl⟩
    cases relationship with
    | none => exact ⟨rfl, hput⟩
    | some relationship =>
      rw [linkCall_part, linkCall_part, h.mainFolder_eq]
      exact hput.linked relationship _ some hid
  | catalog catalog =>
    -- Whether a styles part is linked is told by the relationships, which are the same.
    have hfinish : ∀ e e' : Document, e.SameButParts e' →
        SameButParts { e with styles := some catalog } { e' with styles := some catalog } := by
      rintro e _ ⟨parts, types, rfl⟩
      exact ⟨_, _, rfl⟩
    cases hpath : d.stylesPath? with
    | some path =>
      rw [linkCall_catalog_some hpath, linkCall_catalog_some (h.stylesPath?_eq.trans hpath)]
      exact ⟨rfl, hfinish d d' h⟩
    | none =>
      have hset : SameButParts
          { d with package := d.package.setType stylesPath ContentType.styles }
          { d' with package := d'.package.setType stylesPath ContentType.styles } := by
        obtain ⟨parts, types, rfl⟩ := h
        exact ⟨_, _, rfl⟩
      rw [linkCall_catalog_none hpath, linkCall_catalog_none (h.stylesPath?_eq.trans hpath),
        h.mainFolder_eq]
      exact hset.linked _ _ _ hfinish
  | bookmark name =>
    obtain ⟨parts, types, rfl⟩ := h
    simp only [Document.linkCall, startBookmark, Ids.issue?]
    cases d.ids.peek .bookmark with
    | none => exact ⟨rfl, _, _, rfl⟩
    | some id => exact ⟨rfl, _, _, rfl⟩
  | next space =>
    obtain ⟨parts, types, rfl⟩ := h
    simp only [Document.linkCall, Ids.issue?]
    cases d.ids.peek space with
    | none => exact ⟨rfl, _, _, rfl⟩
    | some id => exact ⟨rfl, _, _, rfl⟩

theorem SameButParts.linkCalls (h : d.SameButParts d') (calls : List LinkCall) :
    d'.linkAnswers calls = d.linkAnswers calls ∧
      (d.linkCalls calls).SameButParts (d'.linkCalls calls) := by
  induction calls generalizing d d' with
  | nil => exact ⟨rfl, h⟩
  | cons c rest ih =>
    obtain ⟨hanswer, hsame⟩ := h.linkCall c
    obtain ⟨hanswers, hrest⟩ := ih hsame
    exact ⟨by rw [linkAnswers, linkAnswers, hanswer, hanswers], hrest⟩

/-- A call fails just if there is no id left that it has to draw. Then what it did before is left:
nothing, if it has only to draw the id or if the part and its type were there before. Whatever is
called afterwards, the answers, the relationships, the catalog and the ids are the same as without
the call. -/
theorem linkCall_eq_error_iff (d : Document) (c : LinkCall) :
    (∀ f d', d.linkCall c = (.error f, d') ↔
      (∃ space, d.draws? c = some space ∧ d.ids.peek space = none ∧ f = .exhausted space) ∧
        d' = d.begun c) ∧
      (d.begun c = d ↔ d.HasBegun c) ∧
      ∀ calls, (d.begun c).linkAnswers calls = d.linkAnswers calls ∧
        (d.linkCalls calls).SameButParts ((d.begun c).linkCalls calls) :=
  ⟨fun _ _ => linkCall_eq_error, d.begun_eq_self_iff c, (d.sameButParts_begun c).linkCalls⟩

/-- A part that cannot be linked is stored, and `word/styles.xml` has a type. -/
theorem addPart_eq_error_stored :
    let main := "<document><body></body></document>"
    let p := ((Package.ofMainPart "word/document.xml").putText "word/document.xml" main)
      |>.addMainRelationship "rId4294967295" RelationshipType.image "logo.png"
    let path := "word/media/a.png"
    let catalog : StyleCatalog := ⟨[], "<styles/>"⟩
    ∃ d, ofPackage p = .ok d ∧
      (d.addPart path .empty "image/png" (some RelationshipType.image)).1 =
        .error (.exhausted .relationship) ∧
      d.package.get? path = none ∧
      (d.addPart path .empty "image/png" (some RelationshipType.image)).2.package.get? path =
        some .empty ∧
      (d.setStyleCatalog catalog).1.isOk = false ∧
      d.package.types.override? stylesPath = none ∧
      (d.setStyleCatalog catalog).2.package.types.override? stylesPath =
        some ContentType.styles := by
  intro main p path catalog
  have hvalues : (ofPackage p).map (fun d =>
      (((d.addPart path .empty "image/png" (some RelationshipType.image)).1, d.package.get? path,
        (d.addPart path .empty "image/png" (some RelationshipType.image)).2.package.get? path),
        (d.setStyleCatalog catalog).1.isOk, d.package.types.override? stylesPath,
        (d.setStyleCatalog catalog).2.package.types.override? stylesPath)) =
      .ok ((.error (.exhausted .relationship), none, some .empty), false, none,
        some ContentType.styles) := by decide +kernel
  obtain ⟨d, hd, hvalues⟩ := map_eq_ok.mp hvalues
  simp only [Prod.mk.injEq] at hvalues
  obtain ⟨⟨hpart, hbefore, hstored⟩, hcatalog, hnone, htype⟩ := hvalues
  exact ⟨d, hd, hpart, hbefore, hstored, hcatalog, hnone, htype⟩

end Document

end Letterpress
