import Letterpress.Proofs.Markup.Sources
import Letterpress.Proofs.Results

/-!
# Empty tags and pairs of tags

In a text an empty tag can be replaced by a start tag with its end tag. The events before it and
behind it stay what they are.
-/

namespace Letterpress.Markup

open Text

/-- The first event of a text is scanned from markup, or it is the text before markup. -/
theorem scanFrom_eq_cons {opened : List (List Symbol)} {input : List Symbol} {event : Event}
    {events : List Event} {fault : Option Fault}
    (h : scanFrom opened input = ⟨event :: events, fault⟩) :
    (∃ used rest opened', input = .char '<' :: (used ++ rest) ∧ Scans used event ∧
      enter opened event = .ok opened' ∧ scanFrom opened' rest = ⟨events, fault⟩) ∨
    ∃ content rest, input = content ++ rest ∧ event = .text content ∧ content ≠ [] ∧
      .char '<' ∉ content ∧ (rest = [] ∨ rest.head? = some (.char '<')) ∧
      scanFrom opened rest = ⟨events, fault⟩ := by
  cases Content.start opened input with
  | nil =>
    rw [scanFrom] at h
    cases h
  | fault _ hfault =>
    rw [Content.nested, h] at hfault
    cases event <;> cases hfault
  | markup hscan henter =>
    rw [scanFrom_markup (hscan _) henter, Events.cons, Events.mk.injEq, List.cons.injEq] at h
    obtain ⟨⟨rfl, rfl⟩, rfl⟩ := h
    exact .inl ⟨_, _, _, rfl, hscan, henter, rfl⟩
  | text hne hmem hrest =>
    rw [scanFrom_text hne hmem hrest, Events.cons, Events.mk.injEq, List.cons.injEq] at h
    obtain ⟨⟨rfl, rfl⟩, rfl⟩ := h
    exact .inr ⟨_, _, rfl, rfl, hne, hmem, hrest, rfl⟩

/-- Whether what stands behind a bracket begins a start tag or an empty tag. -/
def BeginsTag (input : List Symbol) : Prop :=
  input.head? ≠ some (.char '!') ∧ input.head? ≠ some (.char '/') ∧ input.head? ≠ some (.char '?')

theorem scanMarkup_of_beginsTag {input : List Symbol} (h : BeginsTag input) :
    scanMarkup input = scanTag startTag input :=
  scanMarkup_of_head? h.1 h.2.1 h.2.2

theorem beginsTag_append_bracket {content : List Symbol} (h : BeginsTag content)
    (more : List Symbol) : BeginsTag (content ++ .char '>' :: more) := by
  cases content with
  | nil => simp [BeginsTag]
  | cons s rest => exact h

/-- A slash neither opens nor closes a quote. -/
theorem openQuote?_of_append_slash {content : List Symbol}
    (h : openQuote? none (content ++ [Symbol.char '/']) = some none) :
    openQuote? none content = some none := by
  rw [openQuote?_append, Option.bind_eq_some_iff] at h
  obtain ⟨open?, hopen, hslash⟩ := h
  have hquote := isQuote_of_openQuote? (fun q hq => absurd hq (Option.not_mem_none q)) hopen
  cases open? with
  | none => exact hopen
  | some q => rcases hquote q rfl with rfl | rfl <;> cases hslash

/-- What an empty tag is scanned from. -/
theorem eq_of_scanMarkup_empty {input rest : List Symbol} {tag : Tag}
    (h : scanMarkup input = .ok (.empty tag, rest)) :
    input = tag.content ++ .char '/' :: .char '>' :: rest ∧
      openQuote? none tag.content = some none ∧ BeginsTag tag.content := by
  generalize hevent : Event.empty tag = event at h
  cases scanMarkup_eq_ok_iff.mp h with
  | comment | cdata | doctype | instruction | closing => cases hevent
  | @start _ content _ hbang hslash hquestion hend =>
    obtain ⟨hinput, hquotes⟩ := openQuote?_of_tagEnd? hend
    unfold startTag at hevent
    split at hevent
    · next hlast =>
      obtain ⟨written, rfl⟩ := List.getLast?_eq_some_iff.mp hlast
      rw [List.dropLast_concat] at hevent
      cases hevent
      refine ⟨by rw [hinput, List.append_assoc]; rfl, openQuote?_of_append_slash hquotes, ?_⟩
      rw [hinput] at hbang hslash hquestion
      cases written with
      | nil => exact ⟨nofun, nofun, nofun⟩
      | cons s written => exact ⟨hbang, hslash, hquestion⟩
    · cases hevent

/-- A tag that can be written as a pair: its name closes the quotes it opens, and its content does
not end in the slash of an empty tag. -/
structure Tag.IsPaired (t : Tag) : Prop where
  name : openQuote? none t.name = some none
  last : t.content.getLast? ≠ some (.char '/')

/-- The start tag and the end tag of an empty element. -/
def Content.pairSource (tag : Tag) : List Symbol := startSource tag ++ endSource tag

theorem closingName_name (tag : Tag) : closingName tag.name = tag.name := by
  have hblank : ∀ s ∈ tag.name.reverse, (fun s => !s.isBlank) s := fun s hs =>
    List.all_eq_true.mp List.all_takeWhile s (List.mem_reverse.mp hs)
  have hname : tag.name.reverse.dropWhile Symbol.isBlank = tag.name.reverse := by
    cases hr : tag.name.reverse with
    | nil => rfl
    | cons s rest =>
      rw [hr] at hblank
      have hs : s.isBlank = false := by simpa using hblank s (List.mem_cons_self ..)
      exact List.dropWhile_cons_of_neg (by simp [hs])
  unfold closingName
  rw [hname]
  split
  · rfl
  · exact List.reverse_reverse _

theorem scanFrom_pairSource {tag : Tag} (h : tag.IsPaired) {input rest : List Symbol}
    (hscan : scanMarkup input = .ok (.empty tag, rest)) (opened : List (List Symbol))
    (more : List Symbol) : scanFrom opened (Content.pairSource tag ++ more) =
      ((scanFrom opened more).cons (.closing tag.name)).cons (.opening tag) := by
  obtain ⟨-, hquotes, hbegins⟩ := eq_of_scanMarkup_empty hscan
  have hstart : ∀ w, scanMarkup (tag.content ++ .char '>' :: w) = .ok (.opening tag, w) := by
    intro w
    rw [scanMarkup_of_beginsTag (beginsTag_append_bracket hbegins w), scanTag_append hquotes,
      startTag, if_neg h.last]
  have hend : Scans (.char '/' :: (tag.name ++ [Symbol.char '>'])) (.closing tag.name) := by
    have := scans_closing h.name
    rwa [closingName_name] at this
  have hsource : Content.pairSource tag ++ more = .char '<' :: (tag.content ++ .char '>' ::
      .char '<' :: ((.char '/' :: (tag.name ++ [Symbol.char '>'])) ++ more)) := by
    simp [Content.pairSource, Content.startSource, Content.endSource, literal, Symbol.ofString]
  have henter : enter (tag.name :: opened) (.closing tag.name) = .ok opened := by
    rw [enter, if_pos rfl]
  rw [hsource, scanFrom_markup (hstart _) rfl, scanFrom_markup (hend _) henter]

/-- The text is scanned as these events wherever they may stand, if markup or nothing follows. -/
def ScansAs (text : List Symbol) (events : List Event) : Prop :=
  ∀ ⦃opened inside⦄, events.foldlM enter opened = .ok inside →
    ∀ more, more = [] ∨ more.head? = some (.char '<') →
      scanFrom opened (text ++ more) = events.foldr Events.cons (scanFrom inside more)

/-- A text is cut where its events are. -/
theorem exists_scansAs {front behind : List Event} {fault : Option Fault} :
    ∀ {opened : List (List Symbol)} {input : List Symbol},
    scanFrom opened input = ⟨front ++ behind, fault⟩ →
      ∃ text more inside, input = text ++ more ∧ ScansAs text front ∧
        front.foldlM enter opened = .ok inside ∧ scanFrom inside more = ⟨behind, fault⟩ := by
  induction front with
  | nil =>
    intro opened input h
    refine ⟨[], input, opened, rfl, fun _ _ hinside more _ => ?_, rfl, h⟩
    cases hinside
    rfl
  | cons event front ih =>
    intro opened input h
    rcases scanFrom_eq_cons h with ⟨used, rest, opened', rfl, hscan, henter, hrest⟩ |
      ⟨content, rest, rfl, rfl, hne, hmem, hhead, hrest⟩
    · obtain ⟨text, more, inside, rfl, hfront, hinside, hmore⟩ := ih hrest
      refine ⟨.char '<' :: (used ++ text), more, inside, by simp, fun _ _ h more hm => ?_, ?_,
        hmore⟩
      · rw [List.foldlM_cons, bind_eq_ok] at h
        obtain ⟨next, hnext, h⟩ := h
        rw [List.cons_append, List.append_assoc, scanFrom_markup (hscan _) hnext, hfront h more hm]
        rfl
      · rw [List.foldlM_cons, henter, ok_bind, hinside]
    · obtain ⟨text, more, inside, rfl, hfront, hinside, hmore⟩ := ih hrest
      refine ⟨content ++ text, more, inside, by simp, fun _ _ h more hm => ?_, hinside, hmore⟩
      have hbegins : text ++ more = [] ∨ (text ++ more).head? = some (.char '<') := by
        cases text with
        | nil => exact hm
        | cons s text => exact .inr (by simpa using hhead)
      rw [List.append_assoc, scanFrom_text hne hmem hbegins, hfront h more hm]
      rfl

theorem Events.foldr_cons (front : List Event) (events : Events) :
    front.foldr Events.cons events = ⟨front ++ events.list, events.fault⟩ := by
  induction front with
  | nil => rfl
  | cons event front ih => rw [List.foldr_cons, ih]; rfl

/-- A text that is scanned as events is so on its own. -/
theorem ScansAs.scanFrom_eq {text : List Symbol} {events : List Event}
    {opened inside : List (List Symbol)} (h : ScansAs text events)
    (hinside : events.foldlM enter opened = .ok inside) :
    scanFrom opened text = ⟨events, none⟩ := by
  have hnil : scanFrom inside [] = ⟨[], none⟩ := by rw [scanFrom]
  have := h hinside [] (.inl rfl)
  rwa [List.append_nil, hnil, Events.foldr_cons, List.append_nil] at this

/-! ### Replacing an empty tag -/

theorem scanFrom_replaced {opened : List (List Symbol)} {input : List Symbol}
    {front behind : List Event} {tag : Tag} {fault : Option Fault} (htag : tag.IsPaired)
    (h : scanFrom opened input = ⟨front ++ .empty tag :: behind, fault⟩) :
    ∃ before after, input = before ++ (Content.emptySource tag ++ after) ∧
      scanFrom opened before = ⟨front, none⟩ ∧
      scanFrom opened (before ++ (Content.pairSource tag ++ after)) =
        ⟨front ++ .opening tag :: .closing tag.name :: behind, fault⟩ := by
  obtain ⟨before, more, inside, rfl, hfront, hinside, hmore⟩ := exists_scansAs h
  rcases scanFrom_eq_cons hmore with ⟨used, after, opened', rfl, hscan, henter, hafter⟩ |
    ⟨_, _, _, htext, _⟩
  · cases henter
    refine ⟨before, after, ?_, hfront.scanFrom_eq hinside, ?_⟩
    · rw [(eq_of_scanMarkup_empty (hscan after)).1]
      simp [Content.emptySource, literal, Symbol.ofString]
    · rw [hfront hinside _ (.inr rfl), scanFrom_pairSource htag (hscan after), hafter,
        Events.foldr_cons]
      rfl
  · cases htext

theorem scan_of_head? {input : List Symbol} (h : input.head? ≠ some (.char '\uFEFF')) :
    scan input = scanFrom [] input := by
  unfold scan
  split
  · exact absurd rfl h
  · rfl

/-- Where the scanner finds an empty tag, the tag stands in the text; and where a pair stands in its
place, the scanner finds the pair. -/
theorem scan_replaced {source : List Symbol} {front behind : List Event} {tag : Tag}
    {fault : Option Fault} (htag : tag.IsPaired)
    (h : scan source = ⟨front ++ .empty tag :: behind, fault⟩) :
    ∃ before after, source = before ++ (Content.emptySource tag ++ after) ∧
      scan before = ⟨front, none⟩ ∧
      scan (before ++ (Content.pairSource tag ++ after)) =
        ⟨front ++ .opening tag :: .closing tag.name :: behind, fault⟩ := by
  by_cases hmark : source.head? = some (.char '\uFEFF')
  · obtain ⟨rest, rfl⟩ := List.head?_eq_some_iff.mp hmark
    obtain ⟨before, after, rfl, hbefore, hpair⟩ := scanFrom_replaced htag (h : scanFrom [] rest = _)
    exact ⟨.char '\uFEFF' :: before, after, rfl, hbefore, hpair⟩
  · rw [scan_of_head? hmark] at h
    obtain ⟨before, after, rfl, hbefore, hpair⟩ := scanFrom_replaced htag h
    refine ⟨before, after, rfl, ?_, ?_⟩
    · rw [scan_of_head?, hbefore]
      cases before with
      | nil => nofun
      | cons s before => exact hmark
    · rw [scan_of_head?, hpair]
      cases before with
      | nil => exact fun h => absurd (Option.some.inj h) (by decide)
      | cons s before => exact hmark

end Letterpress.Markup
