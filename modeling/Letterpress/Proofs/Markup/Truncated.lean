import Letterpress.Proofs.Markup.Pairs
import Letterpress.Proofs.Text.Utf8

/-!
# Texts that are cut off

A text that is cut off is scanned as the whole text is, up to the event that the cut falls into. Of
that event at most a piece of text is left.
-/

namespace Letterpress.Markup

open Text

theorem suffix_of_divide? {mark input before behind : List Symbol} {s : Symbol}
    (hmark : mark.getLast? = some s) (h : divide? mark input = some (before, behind)) :
    s :: behind <:+ input := by
  obtain ⟨first, rfl⟩ := List.getLast?_eq_some_iff.mp hmark
  exact ⟨before ++ first, by rw [eq_append_of_divide? (by simp) h]; simp⟩

theorem suffix_of_doctypeEnd? {depth : Nat} {input before behind : List Symbol}
    (h : doctypeEnd? depth input = some (before, behind)) : .char '>' :: behind <:+ input :=
  ⟨before, (eq_append_of_doctypeEnd? h).symm⟩

theorem suffix_of_dropWord? {word : List Char} {input rest : List Symbol}
    (h : dropWord? word input = some rest) : rest <:+ input := by
  obtain ⟨used, rfl, -⟩ := dropWord?_append h
  exact List.suffix_append ..

theorem suffix_of_tagEnd? {quote : Option Symbol} {input before behind : List Symbol}
    (h : tagEnd? quote input = some (before, behind)) : .char '>' :: behind <:+ input :=
  ⟨before, (openQuote?_of_tagEnd? h).1.symm⟩

/-- The symbols of markup end with a bracket. -/
theorem ScansTo.suffix {input rest : List Symbol} {event : Event} (h : ScansTo input event rest) :
    .char '>' :: rest <:+ input := by
  cases h with
  | @comment input behind _ _ hword hend =>
    have hbehind : behind <:+ .char '!' :: .char '-' :: input :=
      (suffix_of_dropWord? hword).trans ⟨[.char '!', .char '-'], rfl⟩
    exact (suffix_of_divide? rfl hend).trans hbehind
  | @cdata input _ _ _ hend =>
    have hbehind : input.drop 6 <:+ .char '!' :: .char '[' :: input :=
      (List.drop_suffix ..).trans ⟨[.char '!', .char '['], rfl⟩
    exact (suffix_of_divide? rfl hend).trans hbehind
  | @doctype c input behind _ _ _ hword hend =>
    have hbehind : behind <:+ .char '!' :: .char c :: input :=
      (suffix_of_dropWord? hword).trans ⟨[.char '!', .char c], rfl⟩
    exact (suffix_of_doctypeEnd? hend).trans hbehind
  | instruction _ hend => exact (suffix_of_divide? rfl hend).trans (List.suffix_cons ..)
  | closing hend => exact (suffix_of_tagEnd? hend).trans (List.suffix_cons ..)
  | start _ _ _ hend => exact suffix_of_tagEnd? hend

theorem getLast?_of_scans {used : List Symbol} {event : Event} (h : Scans used event) :
    used.getLast? = some (.char '>') := by
  have hscan := h []
  rw [List.append_nil] at hscan
  obtain ⟨before, rfl⟩ := (scanMarkup_eq_ok_iff.mp hscan).suffix
  exact List.getLast?_concat

/-! ### Cuts -/

/-- What may be left of an event that the cut falls into. -/
def IsRemnant (events : List Event) : Prop := events = [] ∨ ∃ content, events = [.text content]

theorem scanFrom_of_not_mem {input : List Symbol} (h : .char '<' ∉ input)
    (opened : List (List Symbol)) : IsRemnant (scanFrom opened input).list := by
  have hnil : scanFrom opened [] = ⟨[], none⟩ := by rw [scanFrom]
  cases input with
  | nil => exact .inl (congrArg Events.list hnil)
  | cons s rest =>
    have htext : scanFrom opened (s :: rest ++ []) = _ :=
      scanFrom_text (List.cons_ne_nil s rest) h (.inl rfl)
    rw [List.append_nil, hnil] at htext
    exact .inr ⟨_, congrArg Events.list htext⟩

theorem not_mem_of_areStray {strays : List Symbol} (h : Symbol.AreStray strays) (c : Char) :
    .char c ∉ strays := by
  intro hc
  obtain ⟨b, hb⟩ := h _ hc
  cases hb

/-- A cut behind the last symbol of a stretch is not in the stretch. -/
theorem exists_of_cut {s : Symbol} (used rest : List Symbol) {before strays : List Symbol}
    (h : before ++ strays = used ++ rest) (hlast : used.getLast? = some s) (hs : s ∉ strays) :
    ∃ more, before = used ++ more ∧ rest = more ++ strays := by
  rcases List.append_eq_append_iff.mp h with ⟨more, hused, hstrays⟩ | ⟨more, hbefore, hrest⟩
  · cases hmore : more.getLast? with
    | none =>
      rw [List.getLast?_eq_none_iff.mp hmore] at hused hstrays
      exact ⟨[], by simpa using hused.symm, by simpa using hstrays.symm⟩
    | some t =>
      rw [hused, List.getLast?_append, hmore] at hlast
      cases hlast
      have hmem := List.mem_of_getLast? hmore
      exact absurd (hstrays ▸ List.mem_append_left rest hmem) hs
  · exact ⟨more, hbefore, hrest⟩

theorem list_scanFrom_ne_nil {opened : List (List Symbol)} {before behind : List Symbol}
    (hbehind : behind ≠ []) (hfault : (scanFrom opened (before ++ behind)).fault = none) :
    (scanFrom opened (before ++ behind)).list ≠ [] := by
  intro hlist
  have hempty : scanFrom opened (before ++ behind) = ⟨[], none⟩ := by rw [← hlist, ← hfault]
  exact hbehind (List.append_eq_nil_iff.mp (Content.eq_nil_of_scanFrom hempty)).2

/-- How the events of a text that is cut off agree with those of the whole text. -/
structure CutsOff (whole cut : Events) (front lost left : List Event) : Prop where
  whole : whole.list = front ++ lost
  cut : cut.list = front ++ left
  left : IsRemnant left

theorem CutsOff.cons {whole cut : Events} {front lost left : List Event}
    (h : CutsOff whole cut front lost left) (event : Event) :
    CutsOff (whole.cons event) (cut.cons event) (event :: front) lost left :=
  ⟨congrArg (event :: ·) h.whole, congrArg (event :: ·) h.cut, h.left⟩

/-- A text that is cut off is scanned as the whole text is up to the cut; `strays` are left of the
character that is cut. -/
theorem scanFrom_cut {strays : List Symbol} (hstrays : Symbol.AreStray strays)
    (behind : List Symbol) {opened : List (List Symbol)} {before : List Symbol} : ∃ front lost left,
    CutsOff (scanFrom opened (before ++ behind)) (scanFrom opened (before ++ strays))
      front lost left ∧
        (behind ≠ [] → (scanFrom opened (before ++ behind)).fault = none → lost ≠ []) := by
  generalize hscan : scanFrom opened (before ++ strays) = scanned
  obtain ⟨list, fault⟩ := scanned
  induction list generalizing opened before with
  | nil => exact ⟨[], _, [], ⟨rfl, rfl, .inl rfl⟩, list_scanFrom_ne_nil⟩
  | cons event list ih =>
    rcases scanFrom_eq_cons hscan with ⟨used, rest, opened', hinput, hused, henter, hrest⟩ |
      ⟨content, rest, hinput, rfl, hne, hmem, hhead, hrest⟩
    · have hbracket : (Symbol.char '<' :: used).getLast? = some (.char '>') := by
        rw [List.getLast?_cons, getLast?_of_scans hused]
        rfl
      obtain ⟨more, rfl, rfl⟩ := exists_of_cut (.char '<' :: used) rest hinput hbracket
        (not_mem_of_areStray hstrays _)
      rw [List.append_assoc, List.cons_append, scanFrom_markup (hused _) henter]
      obtain ⟨front, lost, left, hcut, hlost⟩ := ih hrest
      exact ⟨event :: front, lost, left, hcut.cons event, hlost⟩
    rcases hhead with rfl | hhead
    · rw [scanFrom] at hrest
      cases hrest
      exact ⟨[], _, _, ⟨rfl, rfl, .inr ⟨content, rfl⟩⟩, list_scanFrom_ne_nil⟩
    · obtain ⟨r, rfl⟩ := List.head?_eq_some_iff.mp hhead
      obtain ⟨more, rfl, rfl⟩ := exists_of_cut (content ++ [.char '<']) r
        (by rw [hinput]; simp) List.getLast?_concat (not_mem_of_areStray hstrays _)
      have hwhole : content ++ [.char '<'] ++ more ++ behind =
          content ++ ((.char '<' :: more) ++ behind) := by simp
      rw [hwhole, scanFrom_text hne hmem (.inr rfl)]
      obtain ⟨front, lost, left, hcut, hlost⟩ := @ih _ (.char '<' :: more) hrest
      exact ⟨_, lost, left, hcut.cons _, hlost⟩

/-- The first events of a text are those of a text that it begins with. -/
theorem exists_scanFrom_prefix {front lost : List Event} {fault : Option Fault}
    {opened : List (List Symbol)} {input : List Symbol}
    (h : scanFrom opened input = ⟨front ++ lost, fault⟩) :
    ∃ before behind, input = before ++ behind ∧ scanFrom opened before = ⟨front, none⟩ := by
  obtain ⟨before, behind, inside, hinput, hfront, hinside, -⟩ := exists_scansAs h
  exact ⟨before, behind, hinput, hfront.scanFrom_eq hinside⟩

theorem exists_scan_prefix {front lost : List Event} {fault : Option Fault} {input : List Symbol}
    (h : scan input = ⟨front ++ lost, fault⟩) :
    ∃ before behind, input = before ++ behind ∧ scan before = ⟨front, none⟩ := by
  by_cases hmark : input.head? = some (.char '\uFEFF')
  · obtain ⟨rest, rfl⟩ := List.head?_eq_some_iff.mp hmark
    obtain ⟨before, behind, rfl, hbefore⟩ := exists_scanFrom_prefix (h : scanFrom [] rest = _)
    exact ⟨.char '\uFEFF' :: before, behind, rfl, hbefore⟩
  · rw [scan_of_head? hmark] at h
    obtain ⟨before, behind, rfl, hbefore⟩ := exists_scanFrom_prefix h
    refine ⟨before, behind, rfl, ?_⟩
    rw [scan_of_head?, hbefore]
    cases before with
    | nil => nofun
    | cons s before => exact hmark

theorem scan_cut {strays : List Symbol} (hstrays : Symbol.AreStray strays)
    (behind before : List Symbol) : ∃ front lost left,
    CutsOff (scan (before ++ behind)) (scan (before ++ strays)) front lost left ∧
      (behind ≠ [] → (scan (before ++ behind)).fault = none →
        (scan (before ++ behind)).list ≠ [] → lost ≠ []) := by
  have hmark : ∀ more, before.head? = some (.char '\uFEFF') →
      scan (before ++ more) = scanFrom [] (before.tail ++ more) := by
    intro more h
    obtain ⟨rest, rfl⟩ := List.head?_eq_some_iff.mp h
    rfl
  by_cases h : before.head? = some (.char '\uFEFF')
  · rw [hmark _ h, hmark _ h]
    obtain ⟨front, lost, left, hcut, hlost⟩ := scanFrom_cut hstrays behind
    exact ⟨front, lost, left, hcut, fun hbehind hfault _ => hlost hbehind hfault⟩
  cases before with
  | nil =>
    have hscan : scan strays = scanFrom [] strays := by
      refine scan_of_head? fun hhead => ?_
      exact not_mem_of_areStray hstrays _ (List.mem_of_head? hhead)
    refine ⟨[], _, _, ⟨rfl, rfl, ?_⟩, fun _ _ hlist => hlist⟩
    rw [List.nil_append, hscan]
    exact scanFrom_of_not_mem (not_mem_of_areStray hstrays _) []
  | cons s before =>
    have hscan : ∀ more, scan (s :: before ++ more) = scanFrom [] (s :: before ++ more) :=
      fun more => scan_of_head? h
    rw [hscan, hscan]
    obtain ⟨front, lost, left, hcut, hlost⟩ := scanFrom_cut hstrays behind
    exact ⟨front, lost, left, hcut, fun hbehind hfault _ => hlost hbehind hfault⟩

end Letterpress.Markup
