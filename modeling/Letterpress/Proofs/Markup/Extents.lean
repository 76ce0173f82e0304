import Letterpress.Proofs.Markup.Truncated

/-!
# How far an element reaches

An element reaches from its start tag through the end tag that matches it. Where the element is
passed over or kept, reading goes on behind this end tag, and what is kept is read again as the same
events.
-/

namespace Letterpress.Markup

open Text

/-- Events in which every start tag is matched by an end tag. -/
inductive Balanced : List Event → Prop
  | nil : Balanced []
  | element {tag : Tag} {inner rest : List Event} : Balanced inner → Balanced rest →
      Balanced (.opening tag :: (inner ++ .closing tag.name :: rest))
  | front {event : Event} {rest : List Event} : (Content.front? event).isSome → Balanced rest →
      Balanced (event :: rest)

/-- The events through the end tag of an element, and those behind it; `depth` elements are open
inside it. -/
def throughEnd? (depth : Nat) : List Event → Option (List Event × List Event)
  | [] => none
  | .opening tag :: events =>
    (throughEnd? (depth + 1) events).map fun p => (.opening tag :: p.1, p.2)
  | .closing name :: events =>
    match depth with
    | 0 => some ([.closing name], events)
    | depth + 1 => (throughEnd? depth events).map fun p => (.closing name :: p.1, p.2)
  | event :: events => (throughEnd? depth events).map fun p => (event :: p.1, p.2)

theorem throughEnd?_cons_of_front? {event : Event} (h : (Content.front? event).isSome)
    (depth : Nat) (events : List Event) : throughEnd? depth (event :: events) =
      (throughEnd? depth events).map fun p => (event :: p.1, p.2) := by
  cases event with
  | opening | closing => cases h
  | empty | text | cdata | aside => rfl

/-- Events in which all is matched are passed at any depth. -/
theorem Balanced.throughEnd?_append {inner : List Event} (h : Balanced inner) (depth : Nat)
    (events : List Event) : throughEnd? depth (inner ++ events) =
      (throughEnd? depth events).map fun p => (inner ++ p.1, p.2) := by
  induction h generalizing depth events with
  | nil => simp
  | element _ _ ihInner ihRest =>
    rw [List.cons_append, List.append_assoc, List.cons_append, throughEnd?, ihInner, throughEnd?,
      ihRest, Option.map_map, Option.map_map, Option.map_map]
    simp [Function.comp_def]
  | front hfront _ ih =>
    rw [List.cons_append, throughEnd?_cons_of_front? hfront, ih, Option.map_map]
    rfl

theorem Balanced.throughEnd? {inner : List Event} (h : Balanced inner) (name : List Symbol)
    (behind : List Event) : throughEnd? 0 (inner ++ .closing name :: behind) =
      some (inner ++ [.closing name], behind) := by
  rw [h.throughEnd?_append]
  rfl

theorem isSome_text?_iff {symbols : List Symbol} :
    (text? symbols).isSome ↔ ∀ b, .stray b ∉ symbols := by
  constructor
  · intro h b hb
    obtain ⟨s, hs⟩ := Option.isSome_iff_exists.mp h
    rw [← Symbol.ofString_of_text? hs, Symbol.ofString, List.mem_map] at hb
    obtain ⟨c, -, hc⟩ := hb
    cases hc
  · intro h
    obtain ⟨s, hs⟩ : ∃ s, Symbol.ofString s = symbols := by
      induction symbols with
      | nil => exact ⟨"", rfl⟩
      | cons symbol rest ih =>
        obtain ⟨s, hs⟩ := ih fun b hb => h b (List.mem_cons_of_mem _ hb)
        cases symbol with
        | stray b => exact absurd (List.mem_cons_self ..) (h b)
        | char c => exact ⟨String.ofList (c :: s.toList), by simp [Symbol.ofString, ← hs]⟩
    rw [← hs, text?_ofString]
    rfl

theorem stray_not_mem_literal (b : UInt8) (s : String) : Symbol.stray b ∉ literal s := by
  simp [literal, Symbol.ofString]

theorem mem_of_divide? {mark input before behind : List Symbol} (hmark : mark ≠ [])
    (h : divide? mark input = some (before, behind)) {s : Symbol} (hs : s ∈ before) :
    s ∈ input := by
  rw [eq_append_of_divide? hmark h, List.append_assoc]
  exact List.mem_append_left _ hs

theorem mem_of_tagEnd? {quote : Option Symbol} {input content rest : List Symbol}
    (h : tagEnd? quote input = some (content, rest)) {s : Symbol} (hs : s ∈ content) :
    s ∈ input := by
  rw [(openQuote?_of_tagEnd? h).1]
  exact List.mem_append_left _ hs

/-- What is no text in an event as it is written is so in what it is scanned from. -/
theorem ScansTo.stray_mem {input rest : List Symbol} {event : Event} {b : UInt8}
    (h : ScansTo input event rest) (hb : .stray b ∈ event.source) : .stray b ∈ input := by
  cases h with
  | @comment _ _ content _ hword hend =>
    have hcontent : .stray b ∈ content := by
      simpa [Event.source, stray_not_mem_literal] using hb
    have hin := (suffix_of_dropWord? hword).subset (mem_of_divide? (by decide) hend hcontent)
    exact List.mem_cons_of_mem _ (List.mem_cons_of_mem _ hin)
  | @cdata _ content _ _ hend =>
    have hcontent : .stray b ∈ content := by
      simpa [Event.source, stray_not_mem_literal] using hb
    have hin := List.mem_of_mem_drop (mem_of_divide? (by decide) hend hcontent)
    exact List.mem_cons_of_mem _ (List.mem_cons_of_mem _ hin)
  | @doctype _ _ behind content _ _ hword hend =>
    have hcontent : .stray b ∈ content := (List.dropWhile_suffix _).subset
      (by simpa [Event.source, stray_not_mem_literal] using hb)
    have hbehind : .stray b ∈ behind := by
      rw [eq_append_of_doctypeEnd? hend]
      exact List.mem_append_left _ hcontent
    have hin := (suffix_of_dropWord? hword).subset hbehind
    exact List.mem_cons_of_mem _ (List.mem_cons_of_mem _ hin)
  | @instruction _ content _ _ hend =>
    have hcontent : .stray b ∈ content := by
      simpa [Event.source, stray_not_mem_literal] using hb
    exact List.mem_cons_of_mem _ (mem_of_divide? (by decide) hend hcontent)
  | @closing _ content _ hend =>
    have hname : .stray b ∈ closingName content := by
      simpa [Event.source, stray_not_mem_literal] using hb
    obtain ⟨blanks, hcontent, -⟩ := closingName_spec content
    have hin : .stray b ∈ content := hcontent ▸ List.mem_append_left blanks hname
    exact List.mem_cons_of_mem _ (mem_of_tagEnd? hend hin)
  | start _ _ _ hend =>
    rw [source_startTag] at hb
    exact mem_of_tagEnd? hend (by simpa using hb)

theorem stray_mem_of_scans {used : List Symbol} {event : Event} {b : UInt8}
    (h : Scans used event) (hb : .stray b ∈ event.source) : .stray b ∈ used := by
  have hscan := (scanMarkup_eq_ok_iff.mp (h [])).stray_mem hb
  rwa [List.append_nil] at hscan

namespace Content

/-! ### The events of a content -/

/-- The events a content is read from, up to the end tag of its element. -/
def events : Content → List Event
  | done => []
  | cut _ => []
  | element tag inner rest => .opening tag :: (inner.events ++ .closing tag.name :: rest.events)
  | empty tag rest => .empty tag :: rest.events
  | text content rest => .text content :: rest.events
  | cdata content rest => .cdata content :: rest.events
  | aside source rest => .aside source :: rest.events

theorem events_of_front? {event : Event} {f : Content → Content} (h : front? event = some f)
    (c : Content) : (f c).events = event :: c.events := by
  cases event <;> cases h <;> rfl

namespace Spelled

variable {name used : List Symbol} {c : Content}

theorem balanced (h : Spelled name used c) : Balanced c.events := by
  induction h with
  | done => exact .nil
  | element _ _ _ ih₁ ih₂ => exact .element ih₁ ih₂
  | front hf _ _ ih =>
    rw [events_of_front? hf]
    exact .front (by rw [hf]; rfl) ih
  | text _ _ _ _ ih => exact .front rfl ih

/-- Whatever follows, the events up to the end tag are those of the content. -/
theorem scanFrom_append (h : Spelled name used c) (opened : List (List Symbol))
    (more : List Symbol) : scanFrom (name :: opened) (used ++ more) =
      (c.events ++ [Event.closing name]).foldr Events.cons (scanFrom opened more) := by
  induction h generalizing opened more with
  | done hscan =>
    rw [List.cons_append, scanFrom_markup (hscan more) (by rw [enter, if_pos rfl])]
    rfl
  | element hscan _ _ ih₁ ih₂ =>
    rw [List.cons_append, List.append_assoc, List.append_assoc, scanFrom_markup (hscan _) rfl,
      ih₁, ih₂]
    simp [events, List.foldr_append]
  | front hf hscan _ ih =>
    rw [List.cons_append, List.append_assoc, scanFrom_markup (hscan _) (enter_of_front? hf _), ih,
      events_of_front? hf]
    rfl
  | @text name content used c hne hmem hhead _ ih =>
    have hrest : (used ++ more).head? = some (.char '<') := by rw [List.head?_append, hhead]; rfl
    rw [List.append_assoc, scanFrom_text hne hmem (.inr hrest), ih]
    rfl

theorem cut?_eq_none (h : Spelled name used c) : c.cut? = none := by
  induction h with
  | done => rfl
  | element _ _ _ ih₁ ih₂ => exact cut?_element.mpr ⟨ih₁, ih₂⟩
  | front hf _ _ ih => rwa [cut?_of_front? hf]
  | text _ _ _ _ ih => exact ih

theorem stray_mem (h : Spelled name used c) {b : UInt8} (hb : .stray b ∈ c.closedSource name) :
    .stray b ∈ used := by
  induction h with
  | done hscan => exact List.mem_cons_of_mem _ (stray_mem_of_scans hscan hb)
  | @element name used used₁ used₂ tag c₁ c₂ hscan _ _ ih₁ ih₂ =>
    have hparts : .stray b ∈ (Event.opening tag).source ∨ .stray b ∈ c₁.closedSource tag.name ∨
        .stray b ∈ c₂.closedSource name := by
      simpa [closedSource, source, Event.source, endSource, or_assoc] using hb
    refine List.mem_cons_of_mem _ ?_
    rcases hparts with htag | hinner | hrest
    · exact List.mem_append_left _ (stray_mem_of_scans hscan htag)
    · exact List.mem_append_right _ (List.mem_append_left _ (ih₁ hinner))
    · exact List.mem_append_right _ (List.mem_append_right _ (ih₂ hrest))
  | front hf hscan _ ih =>
    rw [closedSource, source_of_front? hf, List.append_assoc, List.mem_append] at hb
    refine List.mem_cons_of_mem _ (List.mem_append.mpr ?_)
    exact hb.imp (stray_mem_of_scans hscan) ih
  | text _ _ _ _ ih =>
    rw [closedSource, source, List.append_assoc, List.mem_append] at hb
    exact List.mem_append.mpr (hb.imp_right ih)

end Spelled

/-- A content is cut off by what ends the events. -/
theorem eq_fault_of_cut? (fault : Option Fault) (list : List Event) :
    ∀ c ∈ (list.foldr (put fault) ⟨cut fault, []⟩).here ::
      (list.foldr (put fault) ⟨cut fault, []⟩).around, ∀ f, c.cut? = some f → f = fault := by
  induction list with
  | nil => simp [cut?, eq_comm]
  | cons event list ih =>
    rw [List.foldr_cons]
    generalize list.foldr (put fault) ⟨cut fault, []⟩ = n at ih ⊢
    obtain ⟨here, around⟩ := n
    obtain ⟨hhere, haround⟩ := List.forall_mem_cons.mp ih
    cases event with
    | opening tag =>
      refine List.forall_mem_cons.mpr
        ⟨fun f hf => ?_, fun c hc => haround c (List.mem_of_mem_drop hc)⟩
      cases hinner : here.cut? with
      | some inside =>
        rw [put, cut?, hinner] at hf
        cases hf
        exact hhere _ hinner
      | none =>
        rw [put, cut?, hinner] at hf
        cases around with
        | nil => exact (Option.some.inj hf).symm
        | cons c more => exact haround c (List.mem_cons_self ..) f hf
    | closing name =>
      refine List.forall_mem_cons.mpr ⟨fun f hf => ?_, ih⟩
      cases hf
    | empty | text | cdata | aside => exact List.forall_mem_cons.mpr ⟨hhere, haround⟩

/-- Where an end tag is found, the contents up to it are not cut off. -/
theorem exists_closed_of_throughEnd? (fault : Option Fault) (list : List Event) {depth : Nat}
    (h : (throughEnd? depth list).isSome) : ∃ closed rest,
      (list.foldr (put fault) ⟨cut fault, []⟩).here ::
        (list.foldr (put fault) ⟨cut fault, []⟩).around = closed ++ rest ∧
      closed.length = depth + 1 ∧ ∀ c ∈ closed, c.cut? = none := by
  induction list generalizing depth with
  | nil => cases h
  | cons event list ih =>
    rw [List.foldr_cons]
    generalize list.foldr (put fault) ⟨cut fault, []⟩ = n at ih ⊢
    obtain ⟨here, around⟩ := n
    have front : ∀ f, front? event = some f → ∃ closed rest,
        (put fault event ⟨here, around⟩).here :: (put fault event ⟨here, around⟩).around =
          closed ++ rest ∧ closed.length = depth + 1 ∧ ∀ c ∈ closed, c.cut? = none := by
      intro f hf
      rw [throughEnd?_cons_of_front? (by rw [hf]; rfl), Option.isSome_map] at h
      obtain ⟨closed, rest, heq, hlength, hclosed⟩ := ih h
      obtain ⟨c, closed, rfl⟩ := List.exists_cons_of_length_eq_add_one hlength
      obtain ⟨rfl, rfl⟩ := List.cons.inj heq
      rw [put_of_front? hf]
      refine ⟨f here :: closed, rest, rfl, hlength, ?_⟩
      rw [List.forall_mem_cons] at hclosed ⊢
      rwa [cut?_of_front? hf]
    cases event with
    | opening tag =>
      rw [throughEnd?, Option.isSome_map] at h
      obtain ⟨closed, rest, heq, hlength, hclosed⟩ := ih h
      match closed, hlength with
      | inner :: behind :: closed, hlength =>
        obtain ⟨rfl, rfl⟩ := List.cons.inj heq
        simp only [List.forall_mem_cons] at hclosed
        refine ⟨element tag here behind :: closed, rest, rfl, by simpa using hlength, ?_⟩
        exact List.forall_mem_cons.mpr
          ⟨cut?_element.mpr ⟨hclosed.1, hclosed.2.1⟩, hclosed.2.2⟩
    | closing name =>
      cases depth with
      | zero => exact ⟨[done], here :: around, rfl, rfl, by simp [cut?]⟩
      | succ depth =>
        rw [throughEnd?, Option.isSome_map] at h
        obtain ⟨closed, rest, heq, hlength, hclosed⟩ := ih h
        refine ⟨done :: closed, rest, congrArg (done :: ·) heq, by simp [hlength], ?_⟩
        exact List.forall_mem_cons.mpr ⟨rfl, hclosed⟩
    | empty tag => exact front _ rfl
    | text content => exact front _ rfl
    | cdata content => exact front _ rfl
    | aside written => exact front _ rfl

/-! ### Elements that are passed over or kept -/

variable {source input : List Symbol} {tag : Tag}

/-- How far an element reaches that is read as `inner` behind its start tag: its events are
`consumed`, scanned from `used`, and reading goes on with `more`. -/
structure Extent (opened : List (List Symbol)) (source : List Symbol) (tag : Tag) (inner : Content)
    (consumed : List Event) (used more : List Symbol) : Prop where
  written : .char '<' :: source = startSource tag ++ (used ++ more)
  scanned : scanFrom (tag.name :: opened) used = ⟨consumed, none⟩
  matched : ∃ events, Balanced events ∧ consumed = events ++ [.closing tag.name]
  behind : nested opened (.char '<' :: source) = (nested opened more).mapHere (element tag inner)

/-- The text of an element that is kept, which is read again as the same events and the same
content. -/
structure IsKept (tag : Tag) (inner : Content) (consumed : List Event) (kept : String) : Prop where
  text : elementText tag inner = .ok kept
  scanned : scan (Symbol.ofString kept) = ⟨.opening tag :: consumed, none⟩
  again : read (Symbol.ofString kept) = element tag inner (cut none)

theorem eq_startSource_of_scanMarkup (h : scanMarkup source = .ok (.opening tag, input)) :
    .char '<' :: source = startSource tag ++ input := by
  generalize hevent : Event.opening tag = event at h
  cases scanMarkup_eq_ok_iff.mp h with
  | comment | cdata | doctype | instruction | closing => cases hevent
  | @start _ content _ _ _ _ hend =>
    have hstart := source_startTag content
    rw [← hevent] at hstart
    rw [(openQuote?_of_tagEnd? hend).1, show startSource tag = _ from hstart]
    simp

theorem isKept_of_spelled {used : List Symbol} {inner : Content}
    (htag : (Event.opening tag).IsRead) (h : Spelled tag.name used inner)
    (htext : (text? (startSource tag ++ used)).isSome) :
    ∃ kept, IsKept tag inner (inner.events ++ [.closing tag.name]) kept := by
  obtain ⟨written, hstart, hscan⟩ := htag
  replace hstart : startSource tag = .char '<' :: written := hstart
  have hsource : (element tag inner done).source =
      startSource tag ++ inner.closedSource tag.name := by
    simp [closedSource, source, Event.source, endSource]
  have hstray : ∀ b, .stray b ∉ (element tag inner done).source := by
    intro b hb
    rw [hsource, List.mem_append] at hb
    exact isSome_text?_iff.mp htext b (List.mem_append.mpr (hb.imp_right h.stray_mem))
  obtain ⟨kept, hkept⟩ := Option.isSome_iff_exists.mp (isSome_text?_iff.mpr hstray)
  have hsymbols : Symbol.ofString kept =
      .char '<' :: (written ++ (inner.closedSource tag.name ++ [])) := by
    rw [Symbol.ofString_of_text? hkept, hsource, hstart, List.append_nil]
    rfl
  have hclosed := (spelled_closedSource h).1
  have hmark : (Symbol.char '<' :: (written ++ (inner.closedSource tag.name ++ []))).head? ≠
      some (.char '\uFEFF') := fun h => absurd (Option.some.inj h) (by decide)
  refine ⟨kept, ?_, ?_, ?_⟩
  · rw [elementText, skip, h.cut?_eq_none, hkept]
    rfl
  · rw [hsymbols, scan_of_head? hmark, scanFrom_markup (hscan _) rfl,
      hclosed.scanFrom_append, scanFrom, Events.foldr_cons, List.append_nil]
    rfl
  · rw [hsymbols, read_markup, nested_markup (hscan _) rfl, hclosed.nested_append, nested_nil]
    rfl

/-- Where the content of an element is cut off, no end tag matches its start tag. -/
theorem throughEnd?_eq_none {opened : List (List Symbol)} {fault : Option Fault}
    (h : (nested opened input).here.cut? = some fault) :
    throughEnd? 0 (scanFrom opened input).list = none := by
  rw [← Option.not_isSome_iff_eq_none]
  intro hfound
  obtain ⟨closed, rest, heq, hlength, hclosed⟩ :=
    exists_closed_of_throughEnd? (scanFrom opened input).fault (scanFrom opened input).list hfound
  obtain ⟨c, rfl⟩ := List.length_eq_one_iff.mp hlength
  have hc : (nested opened input).here = c := (List.cons.inj heq).1
  rw [hc, hclosed c (List.mem_cons_self ..)] at h
  cases h

theorem Spelled.extent {used more : List Symbol} {inner : Content}
    (h : Spelled tag.name used inner)
    (hstart : scanMarkup source = .ok (.opening tag, used ++ more))
    (opened : List (List Symbol)) :
    Extent opened source tag inner (inner.events ++ [.closing tag.name]) used more where
  written := eq_startSource_of_scanMarkup hstart
  scanned := by
    have := h.scanFrom_append opened []
    rwa [List.append_nil, scanFrom, Events.foldr_cons, List.append_nil] at this
  matched := ⟨inner.events, h.balanced, rfl⟩
  behind := by
    rw [nested_markup hstart rfl, h.nested_append]
    rfl

/-- Passing over an element and keeping it as it is written both read through the matching end tag,
and reading goes on behind it; an element that is left open is refused by both. -/
theorem extent_element (hstart : scanMarkup source = .ok (.opening tag, input))
    (opened : List (List Symbol)) :
    let inner := (nested (tag.name :: opened) input).here
    let events := scanFrom (tag.name :: opened) input
    match throughEnd? 0 events.list with
    | some (consumed, behind) => ∃ used more, Extent opened source tag inner consumed used more ∧
        scanFrom opened more = ⟨behind, events.fault⟩ ∧ inner.skip = .ok () ∧
        ((text? (startSource tag ++ used)).isSome → ∃ kept, IsKept tag inner consumed kept)
    | none => inner.skip = .error (.ofCut events.fault) ∧
        elementText tag inner = .error (.ofCut events.fault) := by
  intro inner events
  cases hcut : inner.cut? with
  | some fault =>
    have hfault : fault = events.fault :=
      eq_fault_of_cut? events.fault events.list inner (List.mem_cons_self ..) fault hcut
    have hskip : inner.skip = .error (.ofCut events.fault) := by rw [skip, hcut, hfault]
    rw [throughEnd?_eq_none hcut]
    exact ⟨hskip, by rw [elementText, hskip]; rfl⟩
  | none =>
    obtain ⟨used, more, c, rfl, spelled⟩ := exists_spelled input hcut
    have hinner : inner = c := congrArg Nested.here (spelled.nested_append opened more)
    have hevents : events = ⟨c.events ++ .closing tag.name :: (scanFrom opened more).list,
        (scanFrom opened more).fault⟩ := by
      show scanFrom _ _ = _
      rw [spelled.scanFrom_append, Events.foldr_cons, List.append_assoc]
      rfl
    have hskip : c.skip = .ok () := by rw [skip, spelled.cut?_eq_none]
    rw [hinner, hevents, spelled.balanced.throughEnd?]
    exact ⟨used, more, spelled.extent hstart opened, rfl, hskip,
      isKept_of_spelled (isRead_of_scanMarkup hstart) spelled⟩

/-- An element with one of its own name inside it, and with its end tag in a comment and in a
section of plain text. -/
theorem extent_element_note :
    let source := Symbol.ofString
      "x n='1'><x><y/></x><!-- </x> --><![CDATA[</x>]]>&lt;</x ><b/></w:p>"
    let tag : Tag := ⟨Symbol.ofString "x n='1'"⟩
    let consumed : List Event := [.opening ⟨Symbol.ofString "x"⟩, .empty ⟨Symbol.ofString "y"⟩,
      .closing (Symbol.ofString "x"), .aside (Symbol.ofString "<!-- </x> -->"),
      .cdata (Symbol.ofString "</x>"), .text (Symbol.ofString "&lt;"),
      .closing (Symbol.ofString "x")]
    ∃ inner used more, scanMarkup source = .ok (.opening tag, used ++ more) ∧
      Extent [Symbol.ofString "w:p"] source tag inner consumed used more ∧
      scanFrom [Symbol.ofString "w:p"] more =
        ⟨[.empty ⟨Symbol.ofString "b"⟩, .closing (Symbol.ofString "w:p")], none⟩ ∧
      inner.skip = .ok () ∧ IsKept tag inner consumed
        "<x n='1'><x><y/></x><!-- </x> --><![CDATA[</x>]]>&lt;</x>" := by
  intro source tag consumed
  obtain ⟨input, hinput⟩ : ∃ input, input = Symbol.ofString
      "<x><y/></x><!-- </x> --><![CDATA[</x>]]>&lt;</x ><b/></w:p>" := ⟨_, rfl⟩
  have hstart : scanMarkup source = .ok (.opening tag, input) := by
    rw [hinput]
    decide +kernel
  have hevents : scanFrom (tag.name :: [Symbol.ofString "w:p"]) input = ⟨consumed ++
      [.empty ⟨Symbol.ofString "b"⟩, .closing (Symbol.ofString "w:p")], none⟩ := by
    rw [hinput]
    decide +kernel
  have hfound : throughEnd? 0 (consumed ++ [.empty ⟨Symbol.ofString "b"⟩,
      .closing (Symbol.ofString "w:p")]) = some (consumed, [.empty ⟨Symbol.ofString "b"⟩,
        .closing (Symbol.ofString "w:p")]) := by
    decide +kernel
  have hextent := extent_element hstart [Symbol.ofString "w:p"]
  dsimp only at hextent
  rw [hevents, hfound] at hextent
  obtain ⟨used, more, extent, hmore, hskip, hkept⟩ := hextent
  have hinside : input = used ++ more := List.append_cancel_left
    ((eq_startSource_of_scanMarkup hstart).symm.trans extent.written)
  have htext : (text? (startSource tag ++ used)).isSome := by
    refine isSome_text?_iff.mpr fun b hb => ?_
    have hsource : .stray b ∈ Symbol.char '<' :: source := by
      rw [extent.written, ← List.append_assoc]
      exact List.mem_append_left _ hb
    exact stray_not_mem_literal b _ ((List.mem_cons.mp hsource).resolve_left nofun)
  obtain ⟨kept, isKept⟩ := hkept htext
  have hkept : elementText tag (nested (tag.name :: [Symbol.ofString "w:p"]) input).here =
      .ok "<x n='1'><x><y/></x><!-- </x> --><![CDATA[</x>]]>&lt;</x>" := by
    rw [hinput]
    decide +kernel
  obtain rfl := Except.ok.inj (isKept.text.symm.trans hkept)
  exact ⟨_, used, more, hinside ▸ hstart, extent, hmore, hskip, isKept⟩

end Content

end Letterpress.Markup
