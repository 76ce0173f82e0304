import Letterpress.Proofs.Document.Building
import Letterpress.Proofs.Document.Links

/-!
# Bookmarks around what is added

A bookmark is begun with an id that no mark of the body has, and whoever began it holds it until it
is ended. What is added comes behind everything else that is not a section setup, so what stands
between the two marks is what was added between the two calls.
-/

namespace Letterpress

open Markup Text

/-- A call that adds to a body or sets up its section. -/
inductive BodyCall where
  | add (a : Addition)
  | element (e : Element) (unmarked : ∀ n, (.bookmark, n) ∉ e.references)
  | setSection (s : Section)
  | startBookmark (name : String)
  | endBookmark (b : Bookmark)

/-- A document and the bookmarks of it that are begun but not ended. -/
structure Session where
  document : Document
  held : List Bookmark := []

namespace Session

/-- The session behind a call, if the call can be made: a bookmark is held to be ended. -/
def call? (s : Session) : BodyCall → Option Session
  | .add a => (s.document.addition? a).map ({ s with document := · })
  | .element e _ => some { s with document := s.document.add e }
  | .setSection x => some { s with document := s.document.setSection x }
  | .startBookmark name =>
    match s.document.startBookmark name with
    | .ok (b, d) => some ⟨d, b :: s.held⟩
    | .error _ => some s
  | .endBookmark b =>
    if b ∈ s.held then some ⟨s.document.endBookmark b, s.held.erase b⟩ else none

/-- The session behind calls in a row. -/
def callAll? (s : Session) : List BodyCall → Option Session
  | [] => some s
  | c :: rest => (s.call? c).bind (·.callAll? rest)

/-- What a call adds to the body. -/
def added? (s : Session) : BodyCall → Option Element
  | .add a => a.element?
  | .element e _ => some e
  | .setSection x => some (.setup x)
  | .startBookmark name => (s.document.ids.peek .bookmark).map fun id => .bookmarkStart ⟨id, name⟩
  | .endBookmark b => some (.bookmarkEnd b.id)

/-- What calls in a row add, in their order. -/
def addedAll (s : Session) : List BodyCall → List Element
  | [] => []
  | c :: rest => (s.added? c).toList ++ ((s.call? c).map (·.addedAll rest)).getD []

end Session

namespace Body

/-- The elements that are no section setups. -/
def contents (b : Body) : List Element := b.elements.filter (·.setup?.isNone)

/-- Whether a bookmark stands around these elements, and no other mark has its id. -/
def Brackets (body : Body) (b : Bookmark) (inside : List Element) : Prop :=
  ∃ ahead behind,
    body.contents = ahead ++ .bookmarkStart b :: inside ++ .bookmarkEnd b.id :: behind ∧
      ∀ part ∈ [ahead, inside, behind], (.bookmark, b.id) ∉ Element.referencesOf part

end Body

namespace Element

theorem references_of_setup? {e : Element} {s : Section} (h : e.setup? = some s) :
    e.references = [] := by
  cases e with
  | setup s => rfl
  | _ => cases h

theorem mem_referencesOf_start {b : Bookmark} {n : UInt32} :
    (.bookmark, n) ∈ referencesOf (some (.bookmarkStart b)).toList ↔ n = b.id := by
  simp [referencesOf, references]

theorem mem_referencesOf_end {id n : UInt32} :
    (.bookmark, n) ∈ referencesOf (some (.bookmarkEnd id)).toList ↔ n = id := by
  simp [referencesOf, references]

theorem not_mem_referencesOf_toList {e? : Option Element} {key : IdKey}
    (h : ∀ e ∈ e?, key ∉ e.references) : key ∉ referencesOf e?.toList := by
  cases e? with
  | none => exact List.not_mem_nil
  | some e =>
    rw [Option.toList_some, referencesOf_singleton]
    exact h e rfl

theorem referencesOf_filter (elements : List Element) :
    referencesOf (elements.filter (·.setup?.isNone)) = referencesOf elements := by
  induction elements with
  | nil => rfl
  | cons e rest ih =>
    rw [List.filter_cons, referencesOf]
    split
    · rw [referencesOf, ih]
    · next h =>
      obtain ⟨s, hs⟩ := Option.ne_none_iff_exists'.mp (by simpa using h)
      rw [ih, references_of_setup? hs, List.nil_append]

end Element

theorem Body.contents_push (b : Body) (e : Element) :
    (b.push e).contents = b.contents ++ [e].filter (·.setup?.isNone) :=
  List.filter_append ..

theorem Body.referencesOf_contents (b : Body) : Element.referencesOf b.contents = b.references :=
  Element.referencesOf_filter b.elements

theorem Addition.references_of_element? {a : Addition} {e : Element} (h : a.element? = some e) :
    e.references = [] := by
  cases a with
  | paragraph text => cases h; rfl
  | formatted text f size => cases h; rfl
  | heading text level => cases h; rfl
  | table rows columns =>
    obtain ⟨t, ht, rfl⟩ := Option.map_eq_some_iff.mp h
    obtain rfl := Table.eq_ofSize ht
    simp [Element.references, Table.references, Table.ofSize, Row.references, Cell.references,
      Paragraph.references]

namespace Session

/-- What a call does to the ids and the bookmarks that are held, by what it adds. -/
inductive Turns (s s' : Session) : Option Element → Prop
  | begins (b : Bookmark) (id : s.document.ids.peek .bookmark = some b.id)
      (ids : s'.document.ids = s.document.ids.set .bookmark (nextId b.id))
      (held : s'.held = b :: s.held) : Turns s s' (some (.bookmarkStart b))
  | ends (b : Bookmark) (mem : b ∈ s.held) (ids : s'.document.ids = s.document.ids)
      (held : s'.held = s.held.erase b) : Turns s s' (some (.bookmarkEnd b.id))
  | keeps {e? : Option Element} (unmarked : ∀ e ∈ e?, ∀ n, (.bookmark, n) ∉ e.references)
      (ids : s'.document.ids = s.document.ids) (held : s'.held = s.held) : Turns s s' e?

variable {s s' : Session} {c : BodyCall} {calls : List BodyCall} {n : UInt32} {b : Bookmark}

/-- What a call adds comes behind the other elements, section setups apart. -/
theorem turns_call? (h : s.call? c = some s') :
    s'.document.body.contents =
        s.document.body.contents ++ (s.added? c).toList.filter (·.setup?.isNone) ∧
      s.Turns s' (s.added? c) := by
  cases c with
  | add a =>
    rw [call?, Document.addition?_eq, Option.map_map] at h
    obtain ⟨e, he, rfl⟩ := Option.map_eq_some_iff.mp h
    rw [added?, he]
    refine ⟨Body.contents_push .., .keeps (fun e' he' => ?_) rfl rfl⟩
    rw [← Option.some.inj he', Addition.references_of_element? he]
    exact fun _ => List.not_mem_nil
  | element e unmarked =>
    cases h
    exact ⟨Body.contents_push .., .keeps (fun e' he' => Option.some.inj he' ▸ unmarked) rfl rfl⟩
  | setSection x =>
    cases h
    refine ⟨?_, .keeps (fun e' he' => Option.some.inj he' ▸ fun _ => List.not_mem_nil) rfl rfl⟩
    simp [Body.contents, Document.setSection, Body.setSection, added?, Element.setup?]
  | startBookmark name =>
    rw [call?, Document.startBookmark, Ids.issue?] at h
    rw [added?]
    cases hid : s.document.ids.peek .bookmark with
    | none =>
      rw [hid] at h
      cases h
      have hnone : ∀ e ∈ (none : Option Element), ∀ n, (.bookmark, n) ∉ e.references :=
        fun e he => absurd he (Option.not_mem_none e)
      exact ⟨(List.append_nil _).symm, .keeps hnone rfl rfl⟩
    | some id =>
      rw [hid] at h
      cases h
      exact ⟨Body.contents_push .., .begins ⟨id, name⟩ hid rfl rfl⟩
  | endBookmark b =>
    rw [call?] at h
    split at h
    · next hb =>
      cases h
      exact ⟨Body.contents_push .., .ends b hb rfl rfl⟩
    · cases h

theorem reserves_call? (h : s.call? c = some s') (hn : s.document.ids.Reserves .bookmark n) :
    s'.document.ids.Reserves .bookmark n := by
  have hturn := (turns_call? h).2
  generalize s.added? c = e? at hturn
  cases hturn with
  | begins b id ids held => exact ids ▸ hn.set id
  | ends b mem ids held => exact ids ▸ hn
  | keeps unmarked ids held => exact ids ▸ hn

theorem callAll?_append (s : Session) (calls rest : List BodyCall) :
    s.callAll? (calls ++ rest) = (s.callAll? calls).bind (·.callAll? rest) := by
  induction calls generalizing s with
  | nil => rfl
  | cons c calls ih =>
    rw [List.cons_append, callAll?, callAll?, Option.bind_assoc]
    exact congrArg _ (funext ih)

theorem addedAll_cons (h : s.call? c = some s') (rest : List BodyCall) :
    s.addedAll (c :: rest) = (s.added? c).toList ++ s'.addedAll rest := by
  rw [addedAll, h]
  rfl

theorem contents_callAll? (h : s.callAll? calls = some s') : s'.document.body.contents =
    s.document.body.contents ++ (s.addedAll calls).filter (·.setup?.isNone) := by
  induction calls generalizing s with
  | nil =>
    cases h
    exact (List.append_nil _).symm
  | cons c rest ih =>
    obtain ⟨t, ht, h⟩ := Option.bind_eq_some_iff.mp h
    rw [ih h, (turns_call? ht).1, addedAll_cons ht, List.filter_append, List.append_assoc]

theorem reserves_callAll? (h : s.callAll? calls = some s')
    (hn : s.document.ids.Reserves .bookmark n) : s'.document.ids.Reserves .bookmark n := by
  induction calls generalizing s with
  | nil =>
    cases h
    exact hn
  | cons c rest ih =>
    obtain ⟨t, ht, h⟩ := Option.bind_eq_some_iff.mp h
    exact ih h (reserves_call? ht hn)

/-! ### Ids of marks -/

/-- Whether no call marks anything with the id any more. -/
structure Spent (s : Session) (n : UInt32) : Prop where
  reserved : s.document.ids.Reserves .bookmark n
  not_held : ∀ b ∈ s.held, b.id ≠ n

theorem Spent.call? (hn : s.Spent n) (h : s.call? c = some s') :
    s'.Spent n ∧ (.bookmark, n) ∉ Element.referencesOf (s.added? c).toList := by
  have hreserved := reserves_call? h hn.reserved
  have hturn := (turns_call? h).2
  generalize s.added? c = e? at hturn ⊢
  cases hturn with
  | begins b id ids held =>
    have hne : n ≠ b.id := UInt32.ne_of_lt (hn.reserved b.id id)
    refine ⟨⟨hreserved, ?_⟩, mt Element.mem_referencesOf_start.mp hne⟩
    rw [held]
    exact List.forall_mem_cons.mpr ⟨hne.symm, hn.not_held⟩
  | ends b mem ids held =>
    refine ⟨⟨hreserved, ?_⟩, mt Element.mem_referencesOf_end.mp (hn.not_held b mem).symm⟩
    rw [held]
    exact fun b hb => hn.not_held b (List.mem_of_mem_erase hb)
  | keeps unmarked ids held =>
    exact ⟨⟨hreserved, held ▸ hn.not_held⟩,
      Element.not_mem_referencesOf_toList fun e he => unmarked e he n⟩

theorem Spent.callAll? (hn : s.Spent n) (h : s.callAll? calls = some s') :
    s'.Spent n ∧ (.bookmark, n) ∉ Element.referencesOf (s.addedAll calls) := by
  induction calls generalizing s with
  | nil =>
    cases h
    exact ⟨hn, List.not_mem_nil⟩
  | cons c rest ih =>
    obtain ⟨t, ht, h⟩ := Option.bind_eq_some_iff.mp h
    obtain ⟨hspent, hc⟩ := hn.call? ht
    obtain ⟨hlast, hrest⟩ := ih hspent h
    rw [addedAll_cons ht, Element.referencesOf_append]
    exact ⟨hlast, fun hmem => (List.mem_append.mp hmem).elim hc hrest⟩

/-- The marks of the body and the bookmarks that are held have ids that are reserved, and no two
bookmarks that are held have the same. -/
structure Orderly (s : Session) : Prop where
  marks : ∀ n, (.bookmark, n) ∈ s.document.body.references → s.document.ids.Reserves .bookmark n
  held : ∀ b ∈ s.held, s.document.ids.Reserves .bookmark b.id
  apart : (s.held.map (·.id)).Nodup

theorem Orderly.call? (hs : s.Orderly) (h : s.call? c = some s') : s'.Orderly := by
  have hmono : ∀ n, s.document.ids.Reserves .bookmark n → s'.document.ids.Reserves .bookmark n :=
    fun _ => reserves_call? h
  have hheld : ∀ b ∈ s.held, s'.document.ids.Reserves .bookmark b.id :=
    fun b hb => hmono _ (hs.held b hb)
  have hreferences := congrArg Element.referencesOf (turns_call? h).1
  rw [Element.referencesOf_append, Element.referencesOf_filter, Body.referencesOf_contents,
    Body.referencesOf_contents] at hreferences
  have hmarks : (∀ n, (.bookmark, n) ∈ Element.referencesOf (s.added? c).toList →
      s'.document.ids.Reserves .bookmark n) →
      ∀ n, (.bookmark, n) ∈ s'.document.body.references → s'.document.ids.Reserves .bookmark n := by
    intro hadded n hn
    rw [hreferences] at hn
    exact (List.mem_append.mp hn).elim (fun hn => hmono n (hs.marks n hn)) (hadded n)
  have hturn := (turns_call? h).2
  generalize s.added? c = e? at hturn hmarks
  cases hturn with
  | begins b id ids held =>
    have hb : s'.document.ids.Reserves .bookmark b.id := ids ▸ Ids.reserves_set _ _ _
    refine ⟨hmarks fun n hn => ?_, held ▸ List.forall_mem_cons.mpr ⟨hb, hheld⟩, ?_⟩
    · exact Element.mem_referencesOf_start.mp hn ▸ hb
    · rw [held, List.map_cons, List.nodup_cons]
      refine ⟨fun hmem => ?_, hs.apart⟩
      obtain ⟨b', hb', heq⟩ := List.mem_map.mp hmem
      exact UInt32.lt_irrefl _ (heq ▸ hs.held b' hb' b.id id)
  | ends b mem ids held =>
    have hsub : s'.held.Sublist s.held := held ▸ List.erase_sublist
    refine ⟨hmarks fun n hn => ?_, fun b hb => hheld b (hsub.subset hb),
      hs.apart.sublist (hsub.map _)⟩
    exact Element.mem_referencesOf_end.mp hn ▸ hheld b mem
  | keeps unmarked ids held =>
    have hnone : ∀ n, (.bookmark, n) ∉ Element.referencesOf e?.toList :=
      fun n => Element.not_mem_referencesOf_toList fun e he => unmarked e he n
    exact ⟨hmarks fun n hn => absurd hn (hnone n), held ▸ hheld, held ▸ hs.apart⟩

theorem Orderly.callAll? (hs : s.Orderly) (h : s.callAll? calls = some s') : s'.Orderly := by
  induction calls generalizing s with
  | nil =>
    cases h
    exact hs
  | cons c rest ih =>
    obtain ⟨t, ht, h⟩ := Option.bind_eq_some_iff.mp h
    exact ih (hs.call? ht) h

theorem Orderly.spent_of_erase (hs : s.Orderly) (hb : b ∈ s.held)
    (hids : s'.document.ids = s.document.ids) (hheld : s'.held = s.held.erase b) :
    s'.Spent b.id := by
  refine ⟨hids ▸ hs.held b hb, fun b' hb' heq => ?_⟩
  have happart := ((List.perm_cons_erase hb).map Bookmark.id).nodup_iff.mp hs.apart
  rw [hheld] at hb'
  exact (List.nodup_cons.mp happart).1 (List.mem_map.mpr ⟨b', hb', heq⟩)

/-- A bookmark stays held, and nothing is marked with its id, up to the call that ends it. -/
theorem Orderly.held_call? (hs : s.Orderly) (hb : b ∈ s.held) (h : s.call? c = some s') :
    s'.Spent b.id ∨
      b ∈ s'.held ∧ (.bookmark, b.id) ∉ Element.referencesOf (s.added? c).toList := by
  have hturn := (turns_call? h).2
  generalize s.added? c = e? at hturn ⊢
  cases hturn with
  | begins b' id ids held =>
    have hne : b.id ≠ b'.id := UInt32.ne_of_lt (hs.held b hb b'.id id)
    exact .inr ⟨held ▸ List.mem_cons_of_mem b' hb, mt Element.mem_referencesOf_start.mp hne⟩
  | ends b' mem ids held =>
    by_cases heq : b = b'
    · subst heq
      exact .inl (hs.spent_of_erase hb ids held)
    · have hne : b.id ≠ b'.id := fun hid => heq (List.inj_on_of_nodup_map hs.apart hb mem hid)
      exact .inr ⟨held ▸ (List.mem_erase_of_ne heq).mpr hb, mt Element.mem_referencesOf_end.mp hne⟩
  | keeps unmarked ids held =>
    exact .inr ⟨held ▸ hb, Element.not_mem_referencesOf_toList fun e he => unmarked e he b.id⟩

theorem Orderly.held_callAll? (hs : s.Orderly) (hb : b ∈ s.held)
    (h : s.callAll? calls = some s') (hb' : b ∈ s'.held) :
    (.bookmark, b.id) ∉ Element.referencesOf (s.addedAll calls) := by
  induction calls generalizing s with
  | nil => exact List.not_mem_nil
  | cons c rest ih =>
    obtain ⟨t, ht, h⟩ := Option.bind_eq_some_iff.mp h
    rcases hs.held_call? hb ht with hspent | ⟨hmem, hc⟩
    · exact absurd rfl ((hspent.callAll? h).1.not_held b hb')
    · rw [addedAll_cons ht, Element.referencesOf_append]
      exact fun hkey => (List.mem_append.mp hkey).elim hc (ih (hs.call? ht) hmem h)

/-! ### Beginning and ending -/

/-- Between the call that begins a bookmark and the one that ends it, what is added comes between
its marks. -/
theorem Orderly.brackets (hs : s.Orderly) {name : String} {d : Document}
    (hstart : s.document.startBookmark name = .ok (b, d)) {mid behind : List BodyCall}
    (h : Session.callAll? ⟨d, b :: s.held⟩ (mid ++ .endBookmark b :: behind) = some s') :
    s'.document.body.Brackets b
      ((Session.addedAll ⟨d, b :: s.held⟩ mid).filter (·.setup?.isNone)) := by
  have hcall : s.call? (.startBookmark name) = some ⟨d, b :: s.held⟩ := by
    rw [Session.call?, hstart]
  -- `s₁`, `s₂` and `s₃` stand behind the beginning, before the end and behind it
  obtain ⟨hid, -, rfl⟩ := Document.startBookmark_eq_ok.mp hstart
  have hbegun := hs.call? hcall
  generalize hs₁ : Session.mk _ (b :: s.held) = s₁ at h hbegun
  have hmem : b ∈ s₁.held := hs₁ ▸ List.mem_cons_self
  have hopen : s₁.document.body.contents = s.document.body.contents ++ [.bookmarkStart b] :=
    hs₁ ▸ Body.contents_push ..
  rw [callAll?_append] at h
  obtain ⟨s₂, hmid, h⟩ := Option.bind_eq_some_iff.mp h
  obtain ⟨s₃, hend, hbehind⟩ := Option.bind_eq_some_iff.mp h
  rw [Session.call?] at hend
  split at hend
  · next hheld =>
    have hclose : s₃.document.body.contents = s₂.document.body.contents ++ [.bookmarkEnd b.id] := by
      cases hend
      exact Body.contents_push ..
    have hspent : s₃.Spent b.id := by
      cases hend
      exact (hbegun.callAll? hmid).spent_of_erase hheld rfl rfl
    refine ⟨s.document.body.contents, (s₃.addedAll behind).filter (·.setup?.isNone), ?_, ?_⟩
    · rw [contents_callAll? hbehind, hclose, contents_callAll? hmid, hopen]
      simp
    · simp only [List.forall_mem_cons, Element.referencesOf_filter, Body.referencesOf_contents]
      refine ⟨fun hkey => ?_, hbegun.held_callAll? hmem hmid hheld, (hspent.callAll? hbehind).2,
        nofun⟩
      exact UInt32.lt_irrefl _ (hs.marks _ hkey _ hid)
  · cases hend

theorem orderly_of_isBegun {d : Document} (h : d.IsBegun) : Session.Orderly ⟨d, []⟩ := by
  refine ⟨fun n hn => ?_, List.forall_mem_nil _, List.nodup_nil⟩
  cases h with
  | new =>
    have hnone : Document.new.body.references = [] := by decide +kernel
    rw [hnone] at hn
    cases hn
  | @opened p _ hopen =>
    obtain ⟨contents, main, hget, hmain, -, hd⟩ := Document.ofPackage_eq_ok.mp hopen
    have hbody : d.body = main.body := by rw [hd]
    obtain ⟨tag, htag, hkey⟩ := MainPart.exists_tag_of_mem_references hmain _ (hbody ▸ hn)
    exact Document.reserves_of_ofPackage hopen hget htag hkey

/-- Behind any calls on a document that is new or opened, a bookmark is refused only if there is no id
left, and everything stays as it is then. Else its id is none of a mark of the body, and none of a
mark that the opened main part has anywhere. What is added before it is ended, section setups apart,
comes between its marks. -/
theorem brackets_callAll? {d : Document} (hd : d.IsBegun) {before : List BodyCall} {s : Session}
    (hs : Session.callAll? ⟨d, []⟩ before = some s) (name : String) :
    (∀ f, s.document.startBookmark name = .error f →
        s.document.ids.peek .bookmark = none ∧ s.call? (.startBookmark name) = some s) ∧
      ∀ b d', s.document.startBookmark name = .ok (b, d') →
        s.call? (.startBookmark name) = some ⟨d', b :: s.held⟩ ∧
          (.bookmark, b.id) ∉ s.document.body.references ∧
          (∀ p contents, Document.ofPackage p = .ok d → p.get? p.mainPart = some contents →
            ∀ tag ∈ (scan (Symbol.read contents)).tags,
              tag.reference? ≠ some (.bookmark, b.id)) ∧
          ∀ mid behind last,
            Session.callAll? ⟨d', b :: s.held⟩ (mid ++ .endBookmark b :: behind) = some last →
              last.document.body.Brackets b
                ((Session.addedAll ⟨d', b :: s.held⟩ mid).filter (·.setup?.isNone)) := by
  have horderly := (orderly_of_isBegun hd).callAll? hs
  refine ⟨fun f hf => ⟨Document.peek_of_startBookmark_eq_error hf, by rw [call?, hf]⟩,
    fun b d' hstart => ?_⟩
  obtain ⟨hid, -, -⟩ := Document.startBookmark_eq_ok.mp hstart
  refine ⟨by rw [call?, hstart], fun hkey => ?_, fun p contents hopen hget tag htag hkey => ?_,
    fun mid behind last hlast => horderly.brackets hstart hlast⟩
  · exact UInt32.lt_irrefl _ (horderly.marks _ hkey _ hid)
  · have hreserved := Document.reserves_of_ofPackage hopen hget htag hkey
    exact UInt32.lt_irrefl _ (reserves_callAll? hs hreserved _ hid)

/-- Two bookmarks that overlap, behind a mark in a control and one that is passed over. -/
theorem brackets_callAll?_overlapping :
    let main := "<document><body><sdt><sdtContent><bookmarkStart id=\"4\"/></sdtContent></sdt>" ++
      "<sectPr/><x><bookmarkEnd id=\"6\"/></x></body></document>"
    let p := (Package.ofMainPart "word/document.xml").putText "word/document.xml" main
    let before : List BodyCall := [.add (.paragraph "a"), .startBookmark "outer"]
    let mid : List BodyCall :=
      [.add (.heading "b" 1), .endBookmark ⟨7, "outer"⟩, .setSection {}, .add (.table 1 1)]
    ∃ d s d' last, Document.ofPackage p = .ok d ∧ Session.callAll? ⟨d, []⟩ before = some s ∧
      s.document.startBookmark "inner" = .ok (⟨8, "inner"⟩, d') ∧
      (.bookmark, 8) ∉ s.document.body.references ∧
      Session.callAll? ⟨d', ⟨8, "inner"⟩ :: s.held⟩ (mid ++ [.endBookmark ⟨8, "inner"⟩]) =
        some last ∧
      last.document.body.Brackets ⟨8, "inner"⟩
        [.paragraph ((Paragraph.ofText "b").setStyle "Heading1"), .bookmarkEnd 7,
          .table (.ofSize 1 1)] := by
  intro main p before mid
  have hrun : (Document.ofPackage p).map (fun d =>
      (Session.callAll? ⟨d, []⟩ before).map fun s =>
        (s.document.startBookmark "inner").map fun (b, d') => (b, s.held,
          (Session.callAll? ⟨d', b :: s.held⟩ (mid ++ [.endBookmark ⟨8, "inner"⟩])).isSome)) =
      .ok (some (.ok (⟨8, "inner"⟩, [⟨7, "outer"⟩], true))) := by
    decide +kernel
  obtain ⟨d, hd, hrun⟩ := map_eq_ok.mp hrun
  obtain ⟨s, hs, hrun⟩ := Option.map_eq_some_iff.mp hrun
  obtain ⟨⟨b, d'⟩, hstart, hrun⟩ := map_eq_ok.mp hrun
  simp only [Prod.mk.injEq] at hrun
  obtain ⟨rfl, hheld, hlast⟩ := hrun
  obtain ⟨last, hlast⟩ := Option.isSome_iff_exists.mp hlast
  obtain ⟨-, hfresh, -, hbrackets⟩ :=
    (brackets_callAll? (.opened hd) hs "inner").2 _ d' hstart
  refine ⟨d, s, d', last, hd, hs, hstart, hfresh, hlast, ?_⟩
  have hbracket := hbrackets mid [] last hlast
  rw [hheld] at hbracket
  exact hbracket

end Session

end Letterpress
