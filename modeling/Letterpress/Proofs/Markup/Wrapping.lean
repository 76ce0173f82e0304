import Letterpress.Proofs.Markup.Extents

/-!
# Elements put around events

Events in which every start tag is matched are read as a row of their own, in front of whatever is
read behind them. Where they stand in a text, tags can be put around them.
-/

namespace Letterpress.Markup

open Text

variable {events : List Event}

theorem Balanced.append {more : List Event} (h : Balanced events) (hmore : Balanced more) :
    Balanced (events ++ more) := by
  induction h with
  | nil => exact hmore
  | element hinner _ _ ih =>
    rw [List.cons_append, List.append_assoc]
    exact .element hinner ih
  | front hfront _ ih => exact .front hfront ih

/-- Behind complete events the same elements are open as before them. -/
theorem Balanced.foldlM_enter (h : Balanced events) (opened : List (List Symbol)) :
    events.foldlM enter opened = .ok opened := by
  induction h generalizing opened with
  | nil => rfl
  | @element tag inner rest _ _ ihInner ihRest =>
    have hclosing : enter (tag.name :: opened) (.closing tag.name) = .ok opened := by
      rw [enter, if_pos rfl]
    rw [List.foldlM_cons, enter, ok_bind, List.foldlM_append, ihInner, ok_bind, List.foldlM_cons,
      hclosing, ok_bind, ihRest]
  | front hfront _ ih =>
    obtain ⟨f, hf⟩ := Option.isSome_iff_exists.mp hfront
    rw [List.foldlM_cons, Content.enter_of_front? hf, ok_bind, ih]

/-- Events that leave these elements open, the first of them outermost. -/
inductive Opens : List Tag → List Event → Prop
  | nothing {events : List Event} : Balanced events → Opens [] events
  | opening {before inner : List Event} {tag : Tag} {tags : List Tag} :
      Balanced before → Opens tags inner → Opens (tag :: tags) (before ++ .opening tag :: inner)

namespace Content

/-- A content with another one behind it. -/
def append : Content → Content → Content
  | done, c => c
  | cut fault, _ => cut fault
  | element tag inner rest, c => element tag inner (rest.append c)
  | empty tag rest, c => empty tag (rest.append c)
  | text content rest, c => text content (rest.append c)
  | cdata content rest, c => cdata content (rest.append c)
  | aside source rest, c => aside source (rest.append c)

@[simp] theorem append_done (c : Content) : c.append done = c := by
  induction c <;> simp_all [append]

theorem append_of_front? {event : Event} {f : Content → Content} (h : front? event = some f)
    (c d : Content) : (f c).append d = f (c.append d) := by
  cases event <;> cases h <;> rfl

theorem cut?_append {a b : Content} :
    (a.append b).cut? = none ↔ a.cut? = none ∧ b.cut? = none := by
  induction a with
  | done => exact ⟨fun h => ⟨rfl, h⟩, And.right⟩
  | cut fault => exact iff_of_false nofun fun h => nomatch h.1
  | element tag inner rest _ ih => rw [append, cut?_element, ih, cut?_element, and_assoc]
  | empty tag rest ih | text content rest ih | cdata content rest ih | aside source rest ih =>
    exact ih

/-- What complete events are read as. -/
def ofRow (events : List Event) : Content := (events.foldr (put none) ⟨done, []⟩).here

theorem exists_row (h : Balanced events) : ∃ row : Content, row.cut? = none ∧ ∀ fault n,
    events.foldr (put fault) n = n.mapHere row.append := by
  induction h with
  | nil => exact ⟨done, rfl, fun _ _ => rfl⟩
  | @element tag inner rest _ _ ihInner ihRest =>
    obtain ⟨row₁, hcut₁, hrow₁⟩ := ihInner
    obtain ⟨row₂, hcut₂, hrow₂⟩ := ihRest
    refine ⟨element tag row₁ row₂, cut?_element.mpr ⟨hcut₁, hcut₂⟩, fun fault n => ?_⟩
    rw [List.foldr_cons, List.foldr_append, List.foldr_cons, hrow₂, hrow₁]
    simp [put, Nested.mapHere, append]
  | @front event rest hfront _ ih =>
    obtain ⟨f, hf⟩ := Option.isSome_iff_exists.mp hfront
    obtain ⟨row, hcut, hrow⟩ := ih
    refine ⟨f row, (cut?_of_front? hf row).trans hcut, fun fault n => ?_⟩
    rw [List.foldr_cons, hrow, put_of_front? hf]
    simp [Nested.mapHere, append_of_front? hf]

/-- Complete events are read in front of what is read behind them. -/
theorem foldr_put_row (h : Balanced events) (fault : Option Fault) (n : Nested) :
    events.foldr (put fault) n = n.mapHere (ofRow events).append := by
  obtain ⟨row, -, hrow⟩ := exists_row h
  have hevents : ofRow events = row := by rw [ofRow, hrow, Nested.mapHere, append_done]
  rw [hevents, hrow]

theorem cut?_ofRow (h : Balanced events) : (ofRow events).cut? = none := by
  obtain ⟨row, hcut, hrow⟩ := exists_row h
  rw [ofRow, hrow, Nested.mapHere, append_done, hcut]

/-- What follows the elements around a place does not hang on what is read there. -/
theorem around_of_opens {tags : List Tag} (h : Opens tags events) (fault : Option Fault)
    (n : Nested) : (events.foldr (put fault) n).around = n.around.drop tags.length := by
  induction h with
  | nothing hevents =>
    rw [foldr_put_row hevents]
    rfl
  | @opening before inner tag tags hbefore _ ih =>
    rw [List.foldr_append, List.foldr_cons, foldr_put_row hbefore]
    show ((inner.foldr (put fault) n).around).drop 1 = _
    rw [ih, List.drop_drop]
    rfl

/-- What is read of events up to a place inside an element. -/
theorem here_of_opens {before inner : List Event} {tag : Tag} {tags : List Tag}
    (hbefore : Balanced before) (hinner : Opens tags inner) (fault : Option Fault) (n : Nested) :
    ((before ++ .opening tag :: inner).foldr (put fault) n).here =
      (ofRow before).append (element tag (inner.foldr (put fault) n).here
        ((n.around.drop tags.length).headD (cut fault))) := by
  rw [List.foldr_append, List.foldr_cons, foldr_put_row hbefore, ← around_of_opens hinner fault n]
  rfl

/-- Whether a content around a place is cut off hangs on what is read there only as far as this is
cut off. -/
theorem exists_cut?_opens {tags : List Tag} (h : Opens tags events) (fault : Option Fault)
    (around : List Content) : ∃ closed : Prop, ∀ c,
      (events.foldr (put fault) ⟨c, around⟩).here.cut? = none ↔ c.cut? = none ∧ closed := by
  induction h with
  | nothing hevents =>
    refine ⟨True, fun c => ?_⟩
    rw [foldr_put_row hevents, Nested.mapHere, cut?_append, and_true]
    exact and_iff_right (cut?_ofRow hevents)
  | @opening before inner tag tags hbefore hinner ih =>
    obtain ⟨closed, hclosed⟩ := ih
    refine ⟨closed ∧ ((around.drop tags.length).headD (cut fault)).cut? = none, fun c => ?_⟩
    rw [here_of_opens hbefore hinner, cut?_append, cut?_element, hclosed, and_assoc,
      and_iff_right (cut?_ofRow hbefore)]

/-! ### Wrapped events -/

/-- Events with elements around them, the first of these outermost. -/
def wrapEvents (tags : List Tag) (events : List Event) : List Event :=
  tags.foldr (fun tag inner => .opening tag :: (inner ++ [.closing tag.name])) events

/-- A text with elements around it. -/
def wrapSource (tags : List Tag) (source : List Symbol) : List Symbol :=
  tags.foldr (fun tag inner => startSource tag ++ (inner ++ endSource tag)) source

theorem balanced_wrapEvents (h : Balanced events) (tags : List Tag) :
    Balanced (wrapEvents tags events) := by
  induction tags with
  | nil => exact h
  | cons tag tags ih => exact .element ih .nil

theorem ofRow_wrapEvents_cons (h : Balanced events) (tag : Tag) (tags : List Tag) :
    ofRow (wrapEvents (tag :: tags) events) =
      element tag (ofRow (wrapEvents tags events)) done := by
  show ofRow (.opening tag :: (wrapEvents tags events ++ [.closing tag.name])) = _
  rw [ofRow, List.foldr_cons, List.foldr_append, foldr_put_row (balanced_wrapEvents h tags)]
  simp [put, Nested.mapHere]

end Content

/-- Both tags of an element are read as they are written. -/
structure Tag.IsElement (tag : Tag) : Prop where
  opening : (Event.opening tag).IsRead
  closing : (Event.closing tag.name).IsRead

namespace ScansAs

variable {text : List Symbol}

/-- Whatever follows, tags around a text are scanned around its events. -/
theorem scanFrom_element (h : ScansAs text events) (hevents : Balanced events) {tag : Tag}
    (htag : tag.IsElement) (opened : List (List Symbol)) (more : List Symbol) :
    scanFrom opened (Content.startSource tag ++ (text ++ Content.endSource tag) ++ more) =
      (.opening tag :: (events ++ [.closing tag.name])).foldr Events.cons
        (scanFrom opened more) := by
  obtain ⟨⟨start, hstart, hscanStart⟩, ⟨stop, hstop, hscanStop⟩⟩ := htag
  replace hstart : Content.startSource tag = .char '<' :: start := hstart
  replace hstop : Content.endSource tag = .char '<' :: stop := hstop
  have hclosing : enter (tag.name :: opened) (.closing tag.name) = .ok opened := by
    rw [enter, if_pos rfl]
  rw [hstart, hstop, List.cons_append, List.cons_append, List.append_assoc, List.append_assoc,
    scanFrom_markup (hscanStart _) rfl, h (hevents.foldlM_enter _) _ (.inr rfl), List.cons_append,
    scanFrom_markup (hscanStop _) hclosing]
  simp [List.foldr_append]

theorem wrap (h : ScansAs text events) (hevents : Balanced events) {tags : List Tag}
    (htags : ∀ tag ∈ tags, tag.IsElement) :
    ScansAs (Content.wrapSource tags text) (Content.wrapEvents tags events) := by
  induction tags with
  | nil => exact h
  | cons tag tags ih =>
    obtain ⟨htag, htags⟩ := List.forall_mem_cons.mp htags
    intro opened inside hinside more _
    have hwhole := Content.balanced_wrapEvents hevents (tag :: tags)
    obtain rfl := Except.ok.inj (hinside.symm.trans (hwhole.foldlM_enter opened))
    exact (ih htags).scanFrom_element (Content.balanced_wrapEvents hevents tags) htag _ more

end ScansAs

open Content in
/-- Where complete events are scanned, elements can be put around the text they are scanned from. -/
theorem exists_wrapped {opened : List (List Symbol)} {input : List Symbol}
    {front seq behind : List Event} {fault : Option Fault}
    (h : scanFrom opened input = ⟨front ++ (seq ++ behind), fault⟩) (hseq : Balanced seq) :
    ∃ before inside after, input = before ++ (inside ++ after) ∧
      scanFrom opened before = ⟨front, none⟩ ∧
      ∀ tags : List Tag, (∀ tag ∈ tags, tag.IsElement) →
        scanFrom opened (before ++ (wrapSource tags inside ++ after)) =
          ⟨front ++ (wrapEvents tags seq ++ behind), fault⟩ := by
  obtain ⟨before, more, place, rfl, hfront, hplace, hmore⟩ := exists_scansAs h
  obtain ⟨inside, after, place', rfl, hinside, hplace', hafter⟩ := exists_scansAs hmore
  obtain rfl : place' = place := Except.ok.inj (hplace'.symm.trans (hseq.foldlM_enter place))
  refine ⟨before, inside, after, rfl, hfront.scanFrom_eq hplace, fun tags htags => ?_⟩
  cases tags with
  | nil => exact h
  | cons tag tags =>
    obtain ⟨htag, htags⟩ := List.forall_mem_cons.mp htags
    have hbegins : (wrapSource (tag :: tags) inside ++ after).head? = some (.char '<') := rfl
    have hwrapped : scanFrom place' (wrapSource (tag :: tags) inside ++ after) =
        (wrapEvents (tag :: tags) seq).foldr Events.cons (scanFrom place' after) :=
      (hinside.wrap hseq htags).scanFrom_element (balanced_wrapEvents hseq tags) htag _ after
    rw [hfront hplace _ (.inr hbegins), hwrapped, hafter, Events.foldr_cons, Events.foldr_cons]

end Letterpress.Markup
