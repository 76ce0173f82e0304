import Mathlib.Data.List.DropRight
import Letterpress.Proofs.Markup.Captured

/-!
# What is read is read again from its source

A content is written without the blanks behind the names of end tags, and a declaration of a type
with one spelling of its keyword. What is written so is read as the same content. So the markup of
an element that is kept is in the form in which elements are kept.
-/

namespace Letterpress.Markup

open Text

/-- An event as it is written. -/
def Event.source : Event → List Symbol
  | .opening tag => Content.startSource tag
  | .empty tag => Content.emptySource tag
  | .closing name => literal "</" ++ name ++ literal ">"
  | .text content => content
  | .cdata content => literal "<![CDATA[" ++ (content ++ literal "]]>")
  | .aside written => written

/-- The event is scanned from its source. -/
def Event.IsRead (event : Event) : Prop :=
  ∃ used, event.source = .char '<' :: used ∧ Scans used event

theorem eq_append_of_divide? {mark : List Symbol} (hmark : mark ≠ []) :
    ∀ {input before behind : List Symbol}, divide? mark input = some (before, behind) →
      input = before ++ mark ++ behind
  | [], _, _, h => by simp [divide?] at h
  | s :: input, before, behind, h => by
    unfold divide? at h
    split at h
    · next hprefix =>
      obtain ⟨more, hinput⟩ := List.isPrefixOf_iff_prefix.mp hprefix
      obtain ⟨c, cs, rfl⟩ := List.exists_cons_of_ne_nil hmark
      simp only [List.cons_append, List.cons.injEq] at hinput
      obtain ⟨rfl, rfl⟩ := hinput
      simp only [List.length_cons, Nat.add_sub_cancel, List.drop_left, Option.some.injEq,
        Prod.mk.injEq] at h
      obtain ⟨rfl, rfl⟩ := h
      rfl
    · obtain ⟨p, hp, he⟩ := Option.map_eq_some_iff.mp h
      simp only [Prod.mk.injEq] at he
      obtain ⟨rfl, rfl⟩ := he
      rw [eq_append_of_divide? hmark (hp : _ = some (p.1, p.2))]
      rfl

/-- The mark that ends a stretch is found again, whatever follows. -/
theorem divide?_append_mark {mark input before behind : List Symbol} (hmark : mark ≠ [])
    (h : divide? mark input = some (before, behind)) (more : List Symbol) :
    divide? mark (before ++ mark ++ more) = some (before, more) := by
  obtain ⟨used, hinput, -, hused⟩ := divide?_append hmark h
  have hsame : used ++ behind = before ++ mark ++ behind :=
    hinput.symm.trans (eq_append_of_divide? hmark h)
  rw [← List.append_cancel_right hsame]
  exact hused more

theorem eq_append_of_doctypeEnd? : ∀ {input before behind : List Symbol} {depth : Nat},
    doctypeEnd? depth input = some (before, behind) → input = before ++ .char '>' :: behind
  | [], _, _, _, h => by simp [doctypeEnd?] at h
  | s :: input, before, behind, depth, h => by
    unfold doctypeEnd? at h
    split at h
    · next hs =>
      simp only [Option.some.injEq, Prod.mk.injEq] at h
      obtain ⟨rfl, rfl⟩ := h
      rw [hs.1]
      rfl
    · obtain ⟨p, hp, he⟩ := Option.map_eq_some_iff.mp h
      simp only [Prod.mk.injEq] at he
      obtain ⟨rfl, rfl⟩ := he
      rw [eq_append_of_doctypeEnd? (hp : _ = some (p.1, p.2))]
      rfl

theorem doctypeEnd?_append_bracket {input before behind : List Symbol} {depth : Nat}
    (h : doctypeEnd? depth input = some (before, behind)) (more : List Symbol) :
    doctypeEnd? depth (before ++ .char '>' :: more) = some (before, more) := by
  obtain ⟨used, hinput, hused⟩ := doctypeEnd?_append h
  have hsame : used ++ behind = (before ++ [Symbol.char '>']) ++ behind := by
    rw [← hinput, eq_append_of_doctypeEnd? h, List.append_assoc]
    rfl
  have := hused more
  rwa [List.append_cancel_right hsame, List.append_assoc] at this

theorem doctypeEnd?_cons_of_isBlank {s : Symbol} (hs : s.isBlank) (depth : Nat)
    (input : List Symbol) :
    doctypeEnd? depth (s :: input) = (doctypeEnd? depth input).map fun p => (s :: p.1, p.2) := by
  have hclose : s ≠ .char '>' := by rintro rfl; exact absurd hs (by decide)
  have hopen : s ≠ .char '<' := by rintro rfl; exact absurd hs (by decide)
  rw [doctypeEnd?, if_neg (by simp [hclose]), if_neg hopen, if_neg hclose]

/-- Blanks at the start of a declaration do not count. -/
theorem doctypeEnd?_dropWhile {content more : List Symbol} {depth : Nat}
    (h : doctypeEnd? depth (content ++ .char '>' :: more) = some (content, more)) :
    doctypeEnd? depth (content.dropWhile Symbol.isBlank ++ .char '>' :: more) =
      some (content.dropWhile Symbol.isBlank, more) := by
  induction content with
  | nil => exact h
  | cons s rest ih =>
    by_cases hs : s.isBlank
    · rw [List.cons_append, doctypeEnd?_cons_of_isBlank hs, Option.map_eq_some_iff] at h
      obtain ⟨p, hp, he⟩ := h
      obtain ⟨hbefore, rfl⟩ := Prod.mk.inj he
      rw [List.dropWhile_cons_of_pos hs]
      exact ih (by rw [hp, ← (List.cons.inj hbefore).2])
    · rw [List.dropWhile_cons_of_neg hs]
      exact h

theorem openQuote?_blanks {w : List Symbol} (h : ∀ s ∈ w, s.isBlank) {quote : Option Symbol}
    (hq : ∀ q ∈ quote, q = .char '"' ∨ q = .char '\'') : openQuote? quote w = some quote := by
  induction w with
  | nil => rfl
  | cons s rest ih =>
    obtain ⟨hs, hrest⟩ := List.forall_mem_cons.mp h
    have hplain : s ≠ .char '>' ∧ s ≠ .char '"' ∧ s ≠ .char '\'' := by
      refine ⟨?_, ?_, ?_⟩ <;> (rintro rfl; exact absurd hs (by decide))
    have hturn : turnQuote quote s = quote := by
      cases quote with
      | none => rw [turnQuote, if_neg (by simp [hplain])]
      | some q =>
        rw [turnQuote, if_neg]
        rintro rfl
        exact (hq s rfl).elim hplain.2.1 hplain.2.2
    rw [openQuote?, if_neg (by simp [hplain]), hturn]
    exact ih hrest

theorem isQuote_of_openQuote? {w : List Symbol} {quote : Option Symbol}
    (h : ∀ q ∈ quote, q = .char '"' ∨ q = .char '\'') {open? : Option Symbol}
    (hw : openQuote? quote w = some open?) : ∀ q ∈ open?, q = .char '"' ∨ q = .char '\'' := by
  induction w generalizing quote with
  | nil =>
    cases hw
    exact h
  | cons s rest ih =>
    unfold openQuote? at hw
    split at hw
    · cases hw
    · refine ih ?_ hw
      intro q hq
      unfold turnQuote at hq
      split at hq
      · split at hq
        · cases hq
        · exact h q hq
      · split at hq
        · next hs =>
          cases hq
          exact hs
        · cases hq

/-- The name of an end tag is what it is without the blanks behind it. -/
theorem closingName_spec (content : List Symbol) :
    ∃ blanks, content = closingName content ++ blanks ∧ (∀ s ∈ blanks, s.isBlank) ∧
      closingName (closingName content) = closingName content := by
  have hsplit := List.takeWhile_append_dropWhile (p := Symbol.isBlank) (l := content.reverse)
  unfold closingName
  cases hname : content.reverse.dropWhile Symbol.isBlank with
  | nil => exact ⟨[], by simp, nofun, by simp [hname]⟩
  | cons s name =>
    refine ⟨(content.reverse.takeWhile Symbol.isBlank).reverse, ?_, ?_, ?_⟩
    · rw [hname] at hsplit
      rw [← List.reverse_append, hsplit, List.reverse_reverse]
    · intro t ht
      exact List.all_eq_true.mp List.all_takeWhile t (List.mem_reverse.mp ht)
    · have hs : s.isBlank = false := by
        have := List.head?_dropWhile_not Symbol.isBlank content.reverse
        simpa [hname] using this
      rw [List.reverse_reverse, List.dropWhile_cons_of_neg (by simp [hs])]

theorem scans_closing {content : List Symbol} (h : openQuote? none content = some none) :
    Scans (.char '/' :: (closingName content ++ [Symbol.char '>']))
      (.closing (closingName content)) := by
  intro more
  obtain ⟨blanks, hcontent, hblanks, hname⟩ := closingName_spec content
  have hquotes : openQuote? none (closingName content) = some none := by
    rw [hcontent, openQuote?_append, Option.bind_eq_some_iff] at h
    obtain ⟨open?, hopen, hclosed⟩ := h
    have hq := isQuote_of_openQuote? (fun q hq => absurd hq (Option.not_mem_none q)) hopen
    rw [openQuote?_blanks hblanks hq] at hclosed
    rw [hopen, hclosed]
  rw [List.cons_append, List.append_assoc, List.singleton_append, scanMarkup,
    scanTag_append hquotes, hname]

theorem source_startTag (content : List Symbol) :
    (startTag content).source = .char '<' :: (content ++ [Symbol.char '>']) := by
  unfold startTag
  split
  · next hslash =>
    have hcontent : content.dropLast ++ [Symbol.char '/'] = content :=
      List.dropLast_append_getLast? _ hslash
    show Content.emptySource ⟨content.dropLast⟩ = _
    conv_rhs => rw [← hcontent]
    simp [Content.emptySource, literal, Symbol.ofString]
  · rfl

/-! ### All events -/

theorem isRead_instruction {input content rest : List Symbol}
    (hhead : input.head? ≠ some (.char '>'))
    (h : divide? (literal "?>") input = some (content, rest)) :
    (Event.aside (literal "<?" ++ content ++ literal "?>")).IsRead := by
  refine ⟨.char '?' :: (content ++ literal "?>"),
    by simp [Event.source, literal, Symbol.ofString], fun more => ?_⟩
  have hfirst : (content ++ literal "?>" ++ more).head? ≠ some (.char '>') := by
    rw [eq_append_of_divide? (by decide) h] at hhead
    cases content with
    | nil => simp [literal, Symbol.ofString]
    | cons s content => simpa using hhead
  exact scanMarkup_eq_ok_iff.mpr (.instruction hfirst (divide?_append_mark (by decide) h more))

theorem isRead_doctype {input content rest : List Symbol}
    (h : doctypeEnd? 0 input = some (content, rest))
    (hcontent : content.dropWhile Symbol.isBlank ≠ []) :
    (Event.aside
      (literal "<!DOCTYPE " ++ content.dropWhile Symbol.isBlank ++ literal ">")).IsRead := by
  obtain ⟨declared, hcut⟩ : ∃ declared, content.dropWhile Symbol.isBlank = declared := ⟨_, rfl⟩
  rw [hcut] at hcontent ⊢
  refine ⟨literal "!DOCTYPE " ++ (declared ++ [Symbol.char '>']),
    by simp [Event.source, literal, Symbol.ofString], fun more => ?_⟩
  have hdeclared := doctypeEnd?_dropWhile (doctypeEnd?_append_bracket h more)
  rw [hcut] at hdeclared
  have hend : doctypeEnd? 0 (.char ' ' :: (declared ++ .char '>' :: more)) =
      some (.char ' ' :: declared, more) := by
    rw [doctypeEnd?_cons_of_isBlank rfl, hdeclared]
    rfl
  have hstart : (Symbol.char ' ' :: declared).dropWhile Symbol.isBlank = declared := by
    rw [List.dropWhile_cons_of_pos rfl, ← hcut, List.dropWhile_idempotent]
  have hsource : literal "!DOCTYPE " ++ (declared ++ [Symbol.char '>']) ++ more =
      .char '!' :: .char 'D' ::
        (literal "OCTYPE" ++ .char ' ' :: (declared ++ .char '>' :: more)) := by
    simp [literal, Symbol.ofString]
  have hword : ∀ w, dropWord? ['O', 'C', 'T', 'Y', 'P', 'E'] (literal "OCTYPE" ++ w) = some w :=
    fun _ => rfl
  have hscan := ScansTo.doctype (.inl rfl) (hword _) hend (by rwa [hstart])
  rw [hstart] at hscan
  rw [hsource, scanMarkup_eq_ok_iff]
  exact hscan

theorem isRead_comment {input content rest : List Symbol}
    (h : divide? (literal "-->") input = some (content, rest)) :
    (Event.aside (literal "<!--" ++ content ++ literal "-->")).IsRead := by
  refine ⟨literal "!--" ++ (content ++ literal "-->"),
    by simp [Event.source, literal, Symbol.ofString], fun more => ?_⟩
  have hmark := divide?_append_mark (by decide) h more
  have hdash : ∀ w, dropWord? ['-'] (.char '-' :: w) = some w := fun _ => rfl
  exact scanMarkup_eq_ok_iff.mpr (.comment (hdash _) hmark)

theorem isRead_cdata {input content rest : List Symbol}
    (h : divide? (literal "]]>") input = some (content, rest)) : (Event.cdata content).IsRead := by
  refine ⟨literal "![CDATA[" ++ (content ++ literal "]]>"),
    by simp [Event.source, literal, Symbol.ofString], fun more => ?_⟩
  have hmark := divide?_append_mark (by decide) h more
  have hfound : (literal "CDATA[").isPrefixOf
      (literal "CDATA[" ++ (content ++ literal "]]>" ++ more)) :=
    List.isPrefixOf_iff_prefix.mpr ⟨_, rfl⟩
  have hdrop : (literal "CDATA[" ++ (content ++ literal "]]>" ++ more)).drop 6 =
      content ++ literal "]]>" ++ more := List.drop_left' rfl
  have hscan := ScansTo.cdata hfound (hdrop ▸ hmark)
  exact scanMarkup_eq_ok_iff.mpr hscan

theorem isRead_of_scanMarkup {input rest : List Symbol} {event : Event}
    (h : scanMarkup input = .ok (event, rest)) : event.IsRead := by
  have hsettles := settles_scanMarkup input h
  cases scanMarkup_eq_ok_iff.mp h with
  | comment _ hend => exact isRead_comment hend
  | cdata _ hend => exact isRead_cdata hend
  | doctype _ _ hend hcontent => exact isRead_doctype hend hcontent
  | instruction hhead hend => exact isRead_instruction hhead hend
  | closing hend =>
    exact ⟨_, by simp [Event.source, literal, Symbol.ofString],
      scans_closing (openQuote?_of_tagEnd? hend).2⟩
  | @start _ content _ _ _ _ hend =>
    obtain ⟨used, hused, hscan⟩ := hsettles
    have hinput := (openQuote?_of_tagEnd? hend).1
    have hsame : used ++ rest = (content ++ [Symbol.char '>']) ++ rest := by
      rw [← hused, hinput, List.append_assoc]
      rfl
    exact ⟨content ++ [Symbol.char '>'], source_startTag content,
      List.append_cancel_right hsame ▸ hscan⟩

namespace Content

theorem source_of_front? {event : Event} {f : Content → Content} (h : front? event = some f)
    (c : Content) : (f c).source = event.source ++ c.source := by
  cases event <;> cases h <;> simp [source, Event.source]

/-- How a content is written up to the end tag of its element, and with it. -/
def closedSource (name : List Symbol) (c : Content) : List Symbol :=
  c.source ++ (Event.closing name).source

theorem spelled_closedSource {name used : List Symbol} {c : Content} (h : Spelled name used c) :
    Spelled name (c.closedSource name) c ∧
      (used.head? = some (.char '<') → (c.closedSource name).head? = some (.char '<')) := by
  induction h with
  | @done name used hscan =>
    obtain ⟨written, hsource, hread⟩ := isRead_of_scanMarkup (hscan [])
    rw [closedSource, source, List.nil_append, hsource]
    exact ⟨.done hread, fun _ => rfl⟩
  | @element name used used₁ used₂ tag c₁ c₂ hscan _ _ ih₁ ih₂ =>
    obtain ⟨written, hsource, hread⟩ := isRead_of_scanMarkup (hscan [])
    have hclosed : (element tag c₁ c₂).closedSource name =
        .char '<' :: (written ++ (c₁.closedSource tag.name ++ c₂.closedSource name)) := by
      have hstart : startSource tag = .char '<' :: written := hsource
      simp [closedSource, source, hstart, Event.source, endSource]
    rw [hclosed]
    exact ⟨.element hread ih₁.1 ih₂.1, fun _ => rfl⟩
  | @front name used used₂ event f c hf hscan _ ih =>
    obtain ⟨written, hsource, hread⟩ := isRead_of_scanMarkup (hscan [])
    have hclosed : (f c).closedSource name = .char '<' :: (written ++ c.closedSource name) := by
      simp [closedSource, source_of_front? hf, hsource]
    rw [hclosed]
    exact ⟨.front hf hread ih.1, fun _ => rfl⟩
  | @text name content used c hne hmem hhead _ ih =>
    have hclosed : (text content c).closedSource name = content ++ c.closedSource name := by
      simp [closedSource, source]
    rw [hclosed]
    refine ⟨.text hne hmem (ih.2 hhead) ih.1, fun hstart => ?_⟩
    obtain ⟨s, content, rfl⟩ := List.exists_cons_of_ne_nil hne
    rw [List.cons_append, List.head?_cons, Option.some.injEq] at hstart
    exact absurd (hstart ▸ List.mem_cons_self ..) hmem

/-! ### Kept elements -/

theorem symbols_of_elementText {tag : Tag} {inner : Content} {markup : String}
    (h : elementText tag inner = .ok markup) :
    inner.cut? = none ∧ Symbol.ofString markup = (element tag inner done).source := by
  unfold elementText skip at h
  cases hcut : inner.cut? with
  | some fault =>
    rw [hcut] at h
    cases h
  | none =>
    rw [hcut] at h
    refine ⟨rfl, ?_⟩
    cases htext : text? (element tag inner done).source with
    | none =>
      rw [htext] at h
      cases h
    | some s =>
      rw [htext] at h
      cases h
      exact Symbol.ofString_of_text? htext

theorem symbols_of_emptyText {tag : Tag} {markup : String} (h : emptyText tag = .ok markup) :
    Symbol.ofString markup = emptySource tag := by
  unfold emptyText at h
  split at h
  · next htext =>
    cases h
    exact Symbol.ofString_of_text? htext
  · cases h

/-- An element whose content is spelled out is in the form in which elements are kept. -/
theorem isElement_of_spelled {tag : Tag} {inner : Content} {used : List Symbol}
    (htag : (Event.opening tag).IsRead) (h : Spelled tag.name used inner) {isKind : Tag → Bool}
    {markup : String} (hkind : isKind tag) (hmarkup : elementText tag inner = .ok markup) :
    isElement isKind markup := by
  obtain ⟨hcut, hsymbols⟩ := symbols_of_elementText hmarkup
  obtain ⟨written, hstart, hscan⟩ := htag
  have hsource : (element tag inner done).source =
      .char '<' :: (written ++ (inner.closedSource tag.name ++ [])) := by
    have hstart : startSource tag = .char '<' :: written := hstart
    simp [closedSource, source, hstart, Event.source, endSource]
  have hread : read (Symbol.ofString markup) = element tag inner (cut none) := by
    rw [hsymbols, hsource, read_markup, nested_markup (hscan _) rfl,
      (spelled_closedSource h).1.nested_append, nested_nil]
    rfl
  rw [isElement, hread]
  simp [hkind, hcut, hsymbols]

theorem isEmptyTag_of_isRead {tag : Tag} (h : (Event.empty tag).IsRead) {isKind : Tag → Bool}
    {markup : String} (hkind : isKind tag) (hmarkup : emptyText tag = .ok markup) :
    isEmptyTag isKind markup := by
  have hsymbols := symbols_of_emptyText hmarkup
  obtain ⟨written, hsource, hscan⟩ := h
  have hread : read (Symbol.ofString markup) = empty tag (cut none) := by
    have hscan := hscan []
    have hsource : emptySource tag = .char '<' :: written := hsource
    rw [List.append_nil] at hscan
    rw [hsymbols, hsource, read_markup, nested_markup hscan rfl, nested_nil]
    rfl
  rw [isEmptyTag, hread]
  simp [hkind, hsymbols]

/-- Whether an element would be kept in the form in which elements are kept. -/
def KeepsElement (tag : Tag) (inner : Content) : Prop :=
  ∀ (isKind : Tag → Bool) (markup : String), isKind tag → elementText tag inner = .ok markup →
    isElement isKind markup

def KeepsEmptyTag (tag : Tag) : Prop :=
  ∀ (isKind : Tag → Bool) (markup : String), isKind tag → emptyText tag = .ok markup →
    isEmptyTag isKind markup

/-- Whether every element and every empty tag in a content would be kept in this form. -/
def Keeps : Content → Prop
  | done => True
  | cut _ => True
  | element tag inner rest => KeepsElement tag inner ∧ Keeps inner ∧ Keeps rest
  | empty tag rest => KeepsEmptyTag tag ∧ Keeps rest
  | text _ rest => Keeps rest
  | cdata _ rest => Keeps rest
  | aside _ rest => Keeps rest

theorem keeps_nested : ∀ (input : List Symbol) (opened : List (List Symbol)),
    (nested opened input).here.Keeps ∧ ∀ c ∈ (nested opened input).around, c.Keeps := by
  intro input
  induction hn : input.length using Nat.strong_induction_on generalizing input with
  | _ n ih =>
  intro opened
  subst hn
  cases start opened input with
  | nil => simp [nested_nil, Keeps]
  | fault hne hfault => simp [hfault, Keeps]
  | @markup used rest event opened' hscan henter =>
    rw [nested_markup (hscan rest) henter]
    have hshorter : rest.length < (.char '<' :: (used ++ rest)).length := by
      rw [List.length_cons, List.length_append]
      omega
    obtain ⟨here, around⟩ := ih rest.length hshorter rest rfl opened'
    have hread := isRead_of_scanMarkup (hscan [])
    cases event with
    | opening tag =>
      cases (Except.ok.inj henter : tag.name :: opened = opened')
      refine ⟨⟨fun isKind markup hkind hmarkup => ?_, here, ?_⟩,
        fun c hc => around c (List.mem_of_mem_drop hc)⟩
      · have hclosed := (symbols_of_elementText hmarkup).1
        obtain ⟨used₁, rest₁, c₁, rfl, spelled⟩ := exists_spelled rest hclosed
        rw [spelled.nested_append] at hmarkup
        exact isElement_of_spelled hread spelled hkind hmarkup
      · cases hbehind : (nested (tag.name :: opened) rest).around with
        | nil => trivial
        | cons c more => exact around c (by simp [hbehind])
    | closing name =>
      exact ⟨trivial, List.forall_mem_cons.mpr ⟨here, around⟩⟩
    | empty tag =>
      exact ⟨⟨fun _ _ hkind hmarkup => isEmptyTag_of_isRead hread hkind hmarkup, here⟩, around⟩
    | text content => exact ⟨here, around⟩
    | cdata content => exact ⟨here, around⟩
    | aside written => exact ⟨here, around⟩
  | @text content rest hne hmem hrest =>
    rw [nested_text hne hmem hrest]
    have hshorter : rest.length < (content ++ rest).length := by
      have := List.length_pos_iff.mpr hne
      simp
      omega
    exact ih rest.length hshorter rest rfl opened

/-- What is kept of a text that is read is in the form in which markup is kept. -/
theorem keeps_read (input : List Symbol) : (read input).Keeps := by
  unfold read scan
  split <;> exact (keeps_nested _ _).1

end Content

end Letterpress.Markup
