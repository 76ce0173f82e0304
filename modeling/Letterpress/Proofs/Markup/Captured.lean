import Mathlib.Data.List.Infix
import Letterpress.Part
import Letterpress.Proofs.Markup.Nested

/-!
# Kept markup is read back

An element that is complete where it is read is read in the same way wherever it stands. So the
markup of one element that is kept as it is written can be written again.
-/

namespace Letterpress.Markup

open Text

theorem divide?_append {mark : List Symbol} (hmark : mark ≠ []) :
    ∀ {input before behind : List Symbol}, divide? mark input = some (before, behind) →
      ∃ used, input = used ++ behind ∧ mark.length ≤ used.length ∧
        ∀ more, divide? mark (used ++ more) = some (before, more)
  | [], _, _, h => by simp [divide?] at h
  | s :: input, before, behind, h => by
    unfold divide? at h
    split at h
    · next hprefix =>
      obtain ⟨more, hinput⟩ := List.isPrefixOf_iff_prefix.mp hprefix
      obtain ⟨c, cs, rfl⟩ := List.exists_cons_of_ne_nil hmark
      simp only [List.cons_append, List.cons.injEq] at hinput
      obtain ⟨rfl, rfl⟩ := hinput
      simp only [List.length_cons, Nat.add_sub_cancel, List.drop_left, Option.some.injEq,
        Prod.mk.injEq] at h
      obtain ⟨rfl, rfl⟩ := h
      refine ⟨c :: cs, rfl, Nat.le_refl _, fun more => ?_⟩
      have hfound : (c :: cs).isPrefixOf (c :: (cs ++ more)) :=
        List.isPrefixOf_iff_prefix.mpr ⟨more, rfl⟩
      rw [List.cons_append, divide?, if_pos hfound]
      simp
    · next hprefix =>
      obtain ⟨p, hp, he⟩ := Option.map_eq_some_iff.mp h
      obtain ⟨used, rfl, hlength, hused⟩ := divide?_append hmark (hp : _ = some (p.1, p.2))
      simp only [Prod.mk.injEq] at he
      obtain ⟨rfl, rfl⟩ := he
      refine ⟨s :: used, rfl, Nat.le_succ_of_le hlength, fun more => ?_⟩
      have hnot : ¬ mark.isPrefixOf (s :: (used ++ more)) := by
        intro hm
        have hshort : mark <+: s :: used :=
          List.prefix_of_prefix_length_le (List.isPrefixOf_iff_prefix.mp hm) ⟨more, rfl⟩
            (Nat.le_succ_of_le hlength)
        exact hprefix (List.isPrefixOf_iff_prefix.mpr (hshort.trans ⟨p.2, rfl⟩))
      rw [List.cons_append, divide?, if_neg hnot, hused]
      rfl

theorem openQuote?_of_tagEnd? {quote : Option Symbol} :
    ∀ {input before behind : List Symbol}, tagEnd? quote input = some (before, behind) →
      input = before ++ .char '>' :: behind ∧ openQuote? quote before = some none := by
  intro input
  induction input generalizing quote with
  | nil => intro before behind h; simp [tagEnd?] at h
  | cons s input ih =>
    intro before behind h
    unfold tagEnd? at h
    split at h
    · next hs =>
      simp only [Option.some.injEq, Prod.mk.injEq] at h
      obtain ⟨rfl, rfl⟩ := h
      exact ⟨by rw [hs.1]; rfl, by rw [openQuote?, hs.2]⟩
    · next hs =>
      obtain ⟨p, hp, he⟩ := Option.map_eq_some_iff.mp h
      simp only [Prod.mk.injEq] at he
      obtain ⟨rfl, rfl⟩ := he
      obtain ⟨rfl, hquote⟩ := ih (hp : _ = some (p.1, p.2))
      exact ⟨rfl, by rw [openQuote?, if_neg hs, hquote]⟩

theorem tagEnd?_settles {input content rest : List Symbol}
    (h : tagEnd? none input = some (content, rest)) :
    ∃ used, input = used ++ rest ∧ ∀ more, tagEnd? none (used ++ more) = some (content, more) := by
  obtain ⟨rfl, hquotes⟩ := openQuote?_of_tagEnd? h
  refine ⟨content ++ [.char '>'], by simp, fun more => ?_⟩
  rw [List.append_assoc, List.singleton_append, tagEnd?_append hquotes]
  simp [tagEnd?]

theorem doctypeEnd?_append : ∀ {input before behind : List Symbol} {depth : Nat},
    doctypeEnd? depth input = some (before, behind) →
      ∃ used, input = used ++ behind ∧
        ∀ more, doctypeEnd? depth (used ++ more) = some (before, more)
  | [], _, _, _, h => by simp [doctypeEnd?] at h
  | s :: input, before, behind, depth, h => by
    unfold doctypeEnd? at h
    split at h
    · next hs =>
      simp only [Option.some.injEq, Prod.mk.injEq] at h
      obtain ⟨rfl, rfl⟩ := h
      exact ⟨[s], rfl, fun more => by rw [List.singleton_append, doctypeEnd?, if_pos hs]⟩
    · next hs =>
      obtain ⟨p, hp, he⟩ := Option.map_eq_some_iff.mp h
      obtain ⟨used, rfl, hused⟩ := doctypeEnd?_append (hp : _ = some (p.1, p.2))
      simp only [Prod.mk.injEq] at he
      obtain ⟨rfl, rfl⟩ := he
      refine ⟨s :: used, rfl, fun more => ?_⟩
      rw [List.cons_append, doctypeEnd?, if_neg hs]
      dsimp only
      rw [hused]
      rfl

theorem dropWord?_append : ∀ {word : List Char} {input rest : List Symbol},
    dropWord? word input = some rest →
      ∃ used, input = used ++ rest ∧ ∀ more, dropWord? word (used ++ more) = some more
  | [], input, rest, h => by
    cases (Option.some.inj h : input = rest)
    exact ⟨[], rfl, fun _ => rfl⟩
  | c :: word, .char d :: input, rest, h => by
    unfold dropWord? at h
    split at h
    · next hc =>
      obtain ⟨used, rfl, hused⟩ := dropWord?_append h
      exact ⟨.char d :: used, rfl,
        fun more => by rw [List.cons_append, dropWord?, if_pos hc, hused]⟩
    · simp at h
  | _ :: _, [], _, h => by simp [dropWord?] at h
  | _ :: _, .stray _ :: _, _, h => by simp [dropWord?] at h

/-- Symbols behind a bracket that are scanned as the event, whatever follows. -/
def Scans (used : List Symbol) (event : Event) : Prop :=
  ∀ more, scanMarkup (used ++ more) = .ok (event, more)

/-- The event and the symbols used for it do not depend on what follows. -/
def Settles (f : List Symbol → Scanned) (input : List Symbol) : Prop :=
  ∀ {event rest}, f input = .ok (event, rest) →
    ∃ used, input = used ++ rest ∧ ∀ more, f (used ++ more) = .ok (event, more)

theorem ScansTo.exists_used {input rest : List Symbol} {event : Event}
    (h : ScansTo input event rest) :
    ∃ used, input = used ++ rest ∧ ∀ more, ScansTo (used ++ more) event more := by
  cases h with
  | comment hword hend =>
    obtain ⟨word, rfl, hdropped⟩ := dropWord?_append hword
    obtain ⟨used, rfl, -, hused⟩ := divide?_append (by decide) hend
    refine ⟨.char '!' :: .char '-' :: (word ++ used), by simp, fun more => ?_⟩
    rw [List.cons_append, List.cons_append, List.append_assoc]
    exact .comment (hdropped _) (hused more)
  | cdata hprefix hend =>
    obtain ⟨input, rfl⟩ := List.isPrefixOf_iff_prefix.mp hprefix
    have hdrop : ∀ w, (literal "CDATA[" ++ w).drop 6 = w := fun w => List.drop_left' rfl
    rw [hdrop] at hend
    obtain ⟨used, rfl, -, hused⟩ := divide?_append (by decide) hend
    refine ⟨.char '!' :: .char '[' :: (literal "CDATA[" ++ used), by simp, fun more => ?_⟩
    have hfound : (literal "CDATA[").isPrefixOf (literal "CDATA[" ++ (used ++ more)) :=
      List.isPrefixOf_iff_prefix.mpr ⟨_, rfl⟩
    rw [List.cons_append, List.cons_append, List.append_assoc]
    exact .cdata hfound (by rw [hdrop, hused])
  | @doctype c _ _ _ _ hc hword hend hcontent =>
    obtain ⟨word, rfl, hdropped⟩ := dropWord?_append hword
    obtain ⟨used, rfl, hused⟩ := doctypeEnd?_append hend
    refine ⟨.char '!' :: .char c :: (word ++ used), by simp, fun more => ?_⟩
    rw [List.cons_append, List.cons_append, List.append_assoc]
    exact .doctype hc (hdropped _) (hused more) hcontent
  | instruction hhead hend =>
    obtain ⟨used, rfl, hlength, hused⟩ := divide?_append (by decide) hend
    refine ⟨.char '?' :: used, rfl, fun more => .instruction ?_ (hused more)⟩
    cases used with
    | nil => exact absurd hlength (by decide)
    | cons s used => exact hhead
  | closing hend =>
    obtain ⟨used, rfl, hused⟩ := tagEnd?_settles hend
    exact ⟨.char '/' :: used, rfl, fun more => .closing (hused more)⟩
  | start hbang hslash hquestion hend =>
    obtain ⟨used, rfl, hused⟩ := tagEnd?_settles hend
    refine ⟨used, rfl, fun more => ?_⟩
    cases used with
    | nil => cases hused []
    | cons s used => exact .start hbang hslash hquestion (hused more)

theorem settles_scanMarkup (input : List Symbol) : Settles scanMarkup input := by
  intro event rest h
  obtain ⟨used, hinput, hused⟩ := (scanMarkup_eq_ok_iff.mp h).exists_used
  exact ⟨used, hinput, fun more => scanMarkup_eq_ok_iff.mpr (hused more)⟩

namespace Content

open Piece

/-! ### Complete content -/

/-- What stands at the start of a text: nothing, a fault, markup, or a text before markup. -/
inductive Start (opened : List (List Symbol)) : List Symbol → Prop
  | nil : Start opened []
  | fault {input : List Symbol} {fault : Fault} : input ≠ [] →
      nested opened input = ⟨cut (some fault), []⟩ → Start opened input
  | markup {used rest : List Symbol} {event : Event} {opened' : List (List Symbol)} :
      (∀ more, scanMarkup (used ++ more) = .ok (event, more)) → enter opened event = .ok opened' →
        Start opened (.char '<' :: (used ++ rest))
  | text {content rest : List Symbol} : content ≠ [] → .char '<' ∉ content →
      (rest = [] ∨ rest.head? = some (.char '<')) → Start opened (content ++ rest)

theorem start (opened : List (List Symbol)) : ∀ input, Start opened input
  | [] => .nil
  | s :: input => by
    by_cases hs : s = .char '<'
    · subst hs
      match hscan : scanMarkup input with
      | .error fault => exact .fault (List.cons_ne_nil _ _) (nested_fault opened (.inl hscan))
      | .ok (event, rest) =>
        match henter : enter opened event with
        | .error fault => exact .fault (List.cons_ne_nil _ _) (nested_fault opened (.inr ⟨event, rest, hscan, henter⟩))
        | .ok opened' =>
          obtain ⟨used, rfl, hused⟩ := settles_scanMarkup _ hscan
          exact .markup hused henter
    · obtain ⟨content, rest, rfl, hmem, hrest⟩ := exists_upToMarkup input
      rw [← List.cons_append]
      exact .text (List.cons_ne_nil _ _)
        (List.not_mem_cons_of_ne_of_not_mem (Ne.symm hs) hmem) hrest

theorem cut?_element {tag : Tag} {inner rest : Content} :
    (element tag inner rest).cut? = none ↔ inner.cut? = none ∧ rest.cut? = none := by
  rw [cut?]
  cases inner.cut? <;> simp

/-- What an event puts before the content behind it, unless it opens or closes an element. -/
def front? : Event → Option (Content → Content)
  | .empty tag => some (.empty tag)
  | .text content => some (.text content)
  | .cdata content => some (.cdata content)
  | .aside written => some (.aside written)
  | .opening _ => none
  | .closing _ => none

theorem put_of_front? {event : Event} {f : Content → Content} (h : front? event = some f)
    (fault : Option Fault) (n : Nested) : put fault event n = n.mapHere f := by
  cases event <;> cases h <;> rfl

theorem enter_of_front? {event : Event} {f : Content → Content} (h : front? event = some f)
    (opened : List (List Symbol)) : enter opened event = .ok opened := by
  cases event <;> cases h <;> rfl

theorem cut?_of_front? {event : Event} {f : Content → Content} (h : front? event = some f)
    (c : Content) : (f c).cut? = c.cut? := by
  cases event <;> cases h <;> rfl

/-- How a content is spelled up to the end tag of its element, and with it. -/
inductive Spelled : List Symbol → List Symbol → Content → Prop
  | done {name used : List Symbol} :
      Scans used (.closing name) → Spelled name (.char '<' :: used) done
  | element {name used used₁ used₂ : List Symbol} {tag : Tag} {c₁ c₂ : Content} :
      Scans used (.opening tag) → Spelled tag.name used₁ c₁ → Spelled name used₂ c₂ →
        Spelled name (.char '<' :: (used ++ (used₁ ++ used₂))) (element tag c₁ c₂)
  | front {name used used₂ : List Symbol} {event : Event} {f : Content → Content} {c : Content} :
      front? event = some f → Scans used event → Spelled name used₂ c →
        Spelled name (.char '<' :: (used ++ used₂)) (f c)
  | text {name content used : List Symbol} {c : Content} :
      content ≠ [] → .char '<' ∉ content → used.head? = some (.char '<') → Spelled name used c →
        Spelled name (content ++ used) (text content c)

namespace Spelled

variable {name used : List Symbol} {c : Content}

theorem ne_nil (h : Spelled name used c) : used ≠ [] := by
  cases h with
  | text hne => simp [hne]
  | done | element | front => exact List.cons_ne_nil _ _

/-- Whatever follows, the content is read up to the end tag. -/
theorem nested_append (h : Spelled name used c) (opened : List (List Symbol))
    (more : List Symbol) : nested (name :: opened) (used ++ more) =
      ⟨c, (nested opened more).here :: (nested opened more).around⟩ := by
  induction h generalizing opened more with
  | done hscan =>
    rw [List.cons_append, nested_markup (hscan more) (by rw [enter, if_pos rfl])]
    rfl
  | element hscan _ _ ih₁ ih₂ =>
    rw [List.cons_append, List.append_assoc, List.append_assoc, nested_markup (hscan _) rfl, ih₁, ih₂]
    rfl
  | front hf hscan _ ih =>
    rw [List.cons_append, List.append_assoc, nested_markup (hscan _) (enter_of_front? hf _),
      put_of_front? hf, ih]
    rfl
  | @text name content used c hne hmem hhead _ ih =>
    have hrest : (used ++ more).head? = some (.char '<') := by rw [List.head?_append, hhead]; rfl
    rw [List.append_assoc, nested_text hne hmem (.inr hrest), ih]
    rfl

end Spelled

/-- A content that is not cut off is spelled in the text it is read from. -/
theorem exists_spelled :
    ∀ (input : List Symbol) {name : List Symbol} {opened : List (List Symbol)},
    (nested (name :: opened) input).here.cut? = none →
      ∃ used rest c, input = used ++ rest ∧ Spelled name used c := by
  intro input
  induction hn : input.length using Nat.strong_induction_on generalizing input with
  | _ n ih =>
  intro name opened hcut
  subst hn
  cases start (name :: opened) input with
  | nil => simp [nested_nil, cut?] at hcut
  | fault hne hfault => simp [hfault, cut?] at hcut
  | @markup used rest event opened' hscan henter =>
    rw [nested_markup (hscan rest) henter] at hcut
    have hshorter : rest.length < (Symbol.char '<' :: (used ++ rest)).length := by
      simp only [List.length_cons, List.length_append]
      omega
    have front : ∀ f, front? event = some f → ∃ used' rest' c,
        .char '<' :: (used ++ rest) = used' ++ rest' ∧ Spelled name used' c := by
      intro f hf
      cases (enter_of_front? hf _).symm.trans henter
      rw [put_of_front? hf] at hcut
      obtain ⟨used₂, rest₂, c, rfl, behind⟩ :=
        ih rest.length hshorter rest rfl ((cut?_of_front? hf _).symm.trans hcut)
      exact ⟨.char '<' :: (used ++ used₂), rest₂, f c, by simp, .front hf hscan behind⟩
    cases event with
    | opening tag =>
      cases (Except.ok.inj henter : tag.name :: name :: opened = opened')
      obtain ⟨hinner, hbehind⟩ := cut?_element.mp hcut
      obtain ⟨used₁, rest₁, c₁, rfl, inner⟩ := ih rest.length hshorter rest rfl hinner
      rw [inner.nested_append] at hbehind
      obtain ⟨used₂, rest₂, c₂, rfl, behind⟩ :=
        ih rest₁.length (by simp at hshorter ⊢; omega) rest₁ rfl hbehind
      exact ⟨.char '<' :: (used ++ (used₁ ++ used₂)), rest₂, .element tag c₁ c₂, by simp,
        .element hscan inner behind⟩
    | closing found =>
      have hfound : found = name := by
        by_contra hne
        simp [enter, hne] at henter
      exact ⟨.char '<' :: used, rest, .done, rfl, .done (hfound ▸ hscan)⟩
    | empty tag => exact front _ rfl
    | text content => exact front _ rfl
    | cdata content => exact front _ rfl
    | aside written => exact front _ rfl
  | @text content rest hne hmem hrest =>
    rw [nested_text hne hmem hrest] at hcut
    have hshorter : rest.length < (content ++ rest).length := by
      have := List.length_pos_iff.mpr hne
      simp
      omega
    obtain ⟨used₂, rest₂, c, rfl, behind⟩ := ih rest.length hshorter rest rfl hcut
    have hhead : used₂.head? = some (.char '<') := by
      obtain ⟨s, used₂, rfl⟩ := List.exists_cons_of_ne_nil behind.ne_nil
      simpa using hrest
    exact ⟨content ++ used₂, rest₂, .text content c, by simp, .text hne hmem hhead behind⟩

/-! ### Kept markup -/

/-- Whether the markup is that of one element of a kind with a start and an end tag, in the form in
which elements are kept. -/
def isElement (isKind : Tag → Bool) (markup : String) : Bool :=
  match read (Symbol.ofString markup) with
  | element tag inner (cut none) =>
    isKind tag && inner.cut? = none && (element tag inner done).source = Symbol.ofString markup
  | _ => false

/-- Whether the markup is one empty tag of a kind, in the form in which empty tags are kept. -/
def isEmptyTag (isKind : Tag → Bool) (markup : String) : Bool :=
  match read (Symbol.ofString markup) with
  | empty tag (cut none) => isKind tag && emptySource tag = Symbol.ofString markup
  | _ => false

theorem read_markup (input : List Symbol) :
    read (.char '<' :: input) = (nested [] (.char '<' :: input)).here := by
  have hmark : scan (.char '<' :: input) = scanFrom [] (.char '<' :: input) := by
    unfold scan
    split
    · next h => exact absurd (List.cons.inj h).1 (by decide)
    · rfl
  rw [read, hmark]
  rfl

theorem eq_nil_of_here_eq_cut {opened : List (List Symbol)} {input : List Symbol}
    (h : (nested opened input).here = cut none) : input = [] := by
  cases start opened input with
  | nil => rfl
  | fault hne hfault => simp [hfault] at h
  | markup hscan henter =>
    rw [nested_markup (hscan _) henter] at h
    rename_i event opened'
    cases event <;> simp [put] at h
  | text hne hmem hrest =>
    rw [nested_text hne hmem hrest] at h
    simp [Nested.mapHere] at h

theorem eq_nil_of_scanFrom {opened : List (List Symbol)} {input : List Symbol}
    (h : scanFrom opened input = ⟨[], none⟩) : input = [] := by
  have hhere : (nested opened input).here = cut none := by
    rw [nested, h]
    rfl
  exact eq_nil_of_here_eq_cut hhere

/-- A text that is read as one element is that element's start tag and its content, spelled out. -/
theorem spelled_of_here_eq_element {input : List Symbol} {tag : Tag} {inner : Content}
    (h : (nested [] input).here = element tag inner (cut none)) (hcut : inner.cut? = none) :
    ∃ used used₁, input = .char '<' :: (used ++ used₁) ∧ Scans used (.opening tag) ∧
      Spelled tag.name used₁ inner := by
  cases start [] input with
  | nil => simp [nested_nil] at h
  | fault hne hfault => simp [hfault] at h
  | @markup used rest event opened' hscan henter =>
    rw [nested_markup (hscan _) henter] at h
    cases event with
    | opening found =>
      cases (Except.ok.inj henter : [found.name] = opened')
      simp only [put, element.injEq] at h
      obtain ⟨rfl, hinner, hrest⟩ := h
      obtain ⟨used₁, rest₁, c, rfl, spelled⟩ := exists_spelled rest (hinner ▸ hcut)
      rw [spelled.nested_append] at hinner hrest
      obtain rfl := eq_nil_of_here_eq_cut hrest
      exact ⟨used, used₁, by simp, hscan, hinner ▸ spelled⟩
    | closing | empty | text | cdata | aside => simp [put] at h
  | text hne hmem hrest =>
    rw [nested_text hne hmem hrest] at h
    simp [Nested.mapHere] at h

theorem scan_of_here_eq_empty {input : List Symbol} {tag : Tag}
    (h : (nested [] input).here = empty tag (cut none)) :
    ∃ used, input = .char '<' :: used ∧ Scans used (.empty tag) := by
  cases start [] input with
  | nil => simp [nested_nil] at h
  | fault hne hfault => simp [hfault] at h
  | @markup used rest event opened' hscan henter =>
    rw [nested_markup (hscan _) henter] at h
    cases event with
    | empty found =>
      simp only [put, empty.injEq] at h
      obtain ⟨rfl, hrest⟩ := h
      obtain rfl := eq_nil_of_here_eq_cut hrest
      exact ⟨used, by simp, hscan⟩
    | closing | opening | text | cdata | aside => simp [put] at h
  | text hne hmem hrest =>
    rw [nested_text hne hmem hrest] at h
    simp [Nested.mapHere] at h

theorem symbols_verbatim (markup : String) :
    symbols [.verbatim markup] = Symbol.ofString markup := by
  rw [symbols_cons, symbols_nil, List.append_nil]
  rfl

/-- An element in the form in which elements are kept is read back and kept again. -/
theorem reads_of_isElement {isKind : Tag → Bool} {markup : String} (h : isElement isKind markup) :
    ∃ tag inner, isKind tag ∧ inner.cut? = none ∧ elementText tag inner = .ok markup ∧
      Reads [.verbatim markup] (element tag inner) := by
  unfold isElement at h
  split at h
  · next tag inner hread =>
    simp only [Bool.and_eq_true, decide_eq_true_eq] at h
    obtain ⟨⟨hkind, hcut⟩, hsource⟩ := h
    obtain ⟨w, hw⟩ : ∃ w, Symbol.ofString markup = .char '<' :: w := ⟨_, hsource.symm⟩
    rw [hw, read_markup] at hread
    obtain ⟨used, used₁, hinput, hscan, spelled⟩ := spelled_of_here_eq_element hread hcut
    refine ⟨tag, inner, hkind, hcut, ?_, ?_, fun opened rest => ?_⟩
    · rw [elementText, skip, hcut, hsource, text?_ofString]
      rfl
    · rw [symbols_verbatim, hw]
      exact .inr rfl
    · rw [symbols_verbatim, hw, hinput, List.cons_append, List.append_assoc,
        nested_markup (hscan _) rfl, spelled.nested_append]
      rfl
  · simp at h

/-- So is an empty tag. -/
theorem reads_of_isEmptyTag {isKind : Tag → Bool} {markup : String} (h : isEmptyTag isKind markup) :
    ∃ tag, isKind tag ∧ emptyText tag = .ok markup ∧ Reads [.verbatim markup] (empty tag) := by
  unfold isEmptyTag at h
  split at h
  · next tag hread =>
    simp only [Bool.and_eq_true, decide_eq_true_eq] at h
    obtain ⟨hkind, hsource⟩ := h
    obtain ⟨w, hw⟩ : ∃ w, Symbol.ofString markup = .char '<' :: w := ⟨_, hsource.symm⟩
    rw [hw, read_markup] at hread
    obtain ⟨used, hinput, hscan⟩ := scan_of_here_eq_empty hread
    refine ⟨tag, hkind, ?_, ?_, fun opened rest => ?_⟩
    · rw [emptyText, hsource, text?_ofString]
    · rw [symbols_verbatim, hw]
      exact .inr rfl
    · rw [symbols_verbatim, hw, hinput, List.cons_append]
      exact nested_markup (hscan _) rfl
  · simp at h

end Content

end Letterpress.Markup
