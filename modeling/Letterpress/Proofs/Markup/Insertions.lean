import Letterpress.Proofs.Markup.Extents

/-!
# Elements put into a text

Where a text is scanned up to some place without a fault, an element can be put there. What is
scanned before it and behind it stays what it is, but a text is cut in two.
-/

namespace Letterpress.Markup

open Text

/-- What events become when text is read on behind them. -/
inductive Joins : List Event → List Symbol → List Event → Prop
  | new {content : List Symbol} : Joins [] content [.text content]
  | onto {first content : List Symbol} : Joins [.text first] content [.text (first ++ content)]
  | cons {event : Event} {events joined : List Event} {content : List Symbol} :
      Joins events content joined → Joins (event :: events) content (event :: joined)

/-- How a text is scanned behind the events `front`, inside the elements `opened`. -/
structure Stops (opened : List (List Symbol)) (before : List Symbol) (front : List Event)
    (inside : List (List Symbol)) : Prop where
  markup : ∀ more, more = [] ∨ more.head? = some (.char '<') →
    scanFrom opened (before ++ more) = front.foldr Events.cons (scanFrom inside more)
  text : ∀ content more, content ≠ [] → .char '<' ∉ content →
    more = [] ∨ more.head? = some (.char '<') → ∃ joined, Joins front content joined ∧
      scanFrom opened (before ++ (content ++ more)) =
        joined.foldr Events.cons (scanFrom inside more)

theorem Stops.cons {opened opened' inside : List (List Symbol)} {before rest : List Symbol}
    {front : List Event} {event : Event} (h : Stops opened' rest front inside)
    (hscan : ∀ more,
      scanFrom opened (before ++ more) = (scanFrom opened' (rest ++ more)).cons event) :
    Stops opened before (event :: front) inside where
  markup more hmore := by
    rw [hscan, h.markup more hmore]
    rfl
  text content more hne hmem hmore := by
    obtain ⟨joined, joins, hjoined⟩ := h.text content more hne hmem hmore
    refine ⟨event :: joined, .cons joins, ?_⟩
    rw [hscan, hjoined]
    rfl

/-- A place in front of which a text is scanned without a fault can be read on from. -/
theorem exists_stops {front : List Event} :
    ∀ {opened : List (List Symbol)} {before : List Symbol},
      scanFrom opened before = ⟨front, none⟩ → ∃ inside, Stops opened before front inside := by
  induction front with
  | nil =>
    intro opened before h
    obtain rfl := Content.eq_nil_of_scanFrom h
    exact ⟨opened, fun _ _ => rfl,
      fun content more hne hmem hmore => ⟨_, .new, scanFrom_text hne hmem hmore⟩⟩
  | cons event front ih =>
    intro opened before h
    rcases scanFrom_eq_cons h with ⟨used, rest, opened', rfl, hused, henter, hrest⟩ |
      ⟨first, rest, rfl, rfl, hne, hmem, hhead, hrest⟩
    · obtain ⟨inside, stops⟩ := ih hrest
      refine ⟨inside, stops.cons fun more => ?_⟩
      rw [List.cons_append, List.append_assoc, scanFrom_markup (hused _) henter]
    rcases hhead with rfl | hhead
    · -- The text before the place reaches up to it.
      rw [scanFrom] at hrest
      cases hrest
      refine ⟨opened, fun more hmore => ?_, fun content more hcontent hno hmore => ?_⟩
      · rw [List.append_nil, scanFrom_text hne hmem hmore]
        rfl
      · refine ⟨_, .onto, ?_⟩
        rw [List.append_nil, ← List.append_assoc,
          scanFrom_text (by simp [hne]) (by simp [hmem, hno]) hmore]
        rfl
    · obtain ⟨inside, stops⟩ := ih hrest
      refine ⟨inside, stops.cons fun more => ?_⟩
      have hbegins : (rest ++ more).head? = some (.char '<') := by
        rw [List.head?_append, hhead]
        rfl
      rw [List.append_assoc, scanFrom_text hne hmem (.inr hbegins)]

namespace Content

/-- What is read on behind a place. -/
theorem nested_of_scanFrom {opened inside : List (List Symbol)} {input more : List Symbol}
    {front : List Event}
    (h : scanFrom opened input = front.foldr Events.cons (scanFrom inside more)) :
    nested opened input = front.foldr (put (scanFrom inside more).fault) (nested inside more) := by
  rw [nested, h, Events.foldr_cons]
  exact List.foldr_append

/-- The text is one element with this tag, with an end tag or empty. -/
def IsOne (source : List Symbol) (tag : Tag) : Prop :=
  (∃ inner, inner.cut? = none ∧ (nested [] source).here = element tag inner (cut none)) ∨
    (nested [] source).here = empty tag (cut none)

/-- What one element is read as before what follows. -/
inductive One (tag : Tag) : (Content → Content) → Prop
  | element {inner : Content} : inner.cut? = none → One tag (element tag inner)
  | empty : One tag (empty tag)

/-- Whatever follows, there is a fault behind the content if there is one in what follows. -/
theorem Spelled.fault_append {name used : List Symbol} {c : Content} (h : Spelled name used c)
    (opened : List (List Symbol)) (more : List Symbol) :
    (scanFrom (name :: opened) (used ++ more)).fault = (scanFrom opened more).fault := by
  rw [h.scanFrom_append, Events.foldr_cons]

/-- One element is read wherever it stands, and what follows is read as if it were not there. -/
theorem IsOne.reads {source : List Symbol} {tag : Tag} (h : IsOne source tag) :
    ∃ k, One tag k ∧ source.head? = some (.char '<') ∧ ∀ opened more,
      nested opened (source ++ more) = (nested opened more).mapHere k ∧
        (scanFrom opened (source ++ more)).fault = (scanFrom opened more).fault := by
  rcases h with ⟨inner, hcut, hread⟩ | hread
  · obtain ⟨used, used₁, rfl, hscan, spelled⟩ := spelled_of_here_eq_element hread hcut
    refine ⟨element tag inner, .element hcut, rfl, fun opened more => ?_⟩
    rw [List.cons_append, List.append_assoc, nested_markup (hscan _) rfl, spelled.nested_append,
      scanFrom_markup (hscan _) rfl]
    exact ⟨rfl, spelled.fault_append opened more⟩
  · obtain ⟨used, rfl, hscan⟩ := scan_of_here_eq_empty hread
    refine ⟨empty tag, .empty, rfl, fun opened more => ?_⟩
    rw [List.cons_append, nested_markup (hscan _) rfl, scanFrom_markup (hscan _) rfl]
    exact ⟨rfl, rfl⟩

end Content

end Letterpress.Markup
