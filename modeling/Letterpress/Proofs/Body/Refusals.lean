import Letterpress.Proofs.Body.Forms

/-!
# What is refused

A body is refused if something in it has no written form and would be written, and for no other
reason. Of the section setups in the body itself, that is the last one; the others do not matter.
-/

namespace Letterpress

open Markup Number

namespace Body

/-- An element that is written, by itself or in a content control. -/
inductive Writes (b : Body) : Element → Prop
  | element {e : Element} : e ∈ b.elements → e.setup? = none → b.Writes e
  /-- The last setup in the body itself. -/
  | setup {before behind : List Element} {s : Section} : b.elements = before ++ .setup s :: behind →
      (∀ e ∈ behind, e.setup? = none) → b.Writes (.setup s)
  | inner {properties : ControlProperties} {content : List Element} {e : Element} :
      b.Writes (.control properties content) → e ∈ content → b.Writes e

/-- A paragraph that is written, by itself or in a cell. -/
inductive WritesParagraph (b : Body) : Paragraph → Prop
  | element {p : Paragraph} : b.Writes (.paragraph p) → b.WritesParagraph p
  | cell {t : Table} {r : Row} {c : Cell} {p : Paragraph} : b.Writes (.table t) → r ∈ t.rows →
      c ∈ r.cells → p ∈ c.paragraphs → b.WritesParagraph p

/-- A reason to refuse a body, from something that would be written. -/
inductive Refused (b : Body) : Unwritable → Prop
  | headingLevel {p : Paragraph} {numeral : String} {level : UInt32} : b.WritesParagraph p →
      p.properties.style = some ("Heading" ++ numeral) → uint32? numeral = some level →
      ¬(1 ≤ level ∧ level ≤ 9) → b.Refused (.headingLevel level)
  | sizeZero {p : Paragraph} {r : Run} : b.WritesParagraph p → r ∈ p.runs → r.isMark = false →
      r.properties.size = some 0 → b.Refused .sizeZero
  | spanZero {t : Table} {r : Row} {c : Cell} : b.Writes (.table t) → r ∈ t.rows → c ∈ r.cells →
      c.properties.span = some 0 → b.Refused .spanZero
  | rowWithoutCells {t : Table} {index : Nat} {r : Row} : b.Writes (.table t) →
      t.rows[index]? = some r → r.cells = [] → b.Refused (.rowWithoutCells index)
  /-- A setup that a paragraph carries. -/
  | columnsZero {p : Paragraph} {s : Section} {c : Columns} : b.WritesParagraph p →
      p.properties.sectionEnd = some s → s.columns = some c → c.count = 0 → b.Refused .columnsZero
  /-- A setup that is an element. -/
  | setupColumnsZero {s : Section} {c : Columns} : b.Writes (.setup s) → s.columns = some c →
      c.count = 0 → b.Refused .columnsZero

end Body

/-- The name of a heading style ends in the numeral of its level. -/
theorem headingLevel?_eq_some_iff {style : String} {level : UInt32} :
    headingLevel? style = some level ↔
      ∃ numeral, style = "Heading" ++ numeral ∧ uint32? numeral = some level := by
  have hlength : "Heading".toList.length = 7 := by decide
  constructor
  · intro h
    unfold headingLevel? at h
    split at h
    · next hprefix =>
      obtain ⟨rest, hrest⟩ := List.isPrefixOf_iff_prefix.mp hprefix
      refine ⟨String.ofList rest, String.toList_inj.mp ?_, ?_⟩
      · rw [String.toList_append, String.toList_ofList (l := rest), hrest]
      · rwa [← hrest, ← hlength, List.drop_left, ← String.toList_ofList (l := rest)] at h
    · cases h
  · rintro ⟨numeral, rfl, h⟩
    rw [headingLevel?, String.toList_append, if_pos (by simp), ← hlength, List.drop_left]
    exact h

variable {b : Body} {why : Unwritable}

/-- Of two steps that do not hang on each other, one failed. -/
theorem eq_error_or_of_bind {x y : Writing} {f : List Piece → List Piece → List Piece}
    (h : (x >>= fun a => y >>= fun b => pure (f a b)) = .error why) :
    x = .error why ∨ y = .error why := by
  refine (bind_eq_error.mp h).imp_right fun ⟨_, _, h⟩ => ?_
  exact (bind_eq_error.mp h).elim id fun ⟨_, _, h⟩ => nomatch h

theorem eq_error_of_bind {x : Writing} {f : List Piece → List Piece}
    (h : (x >>= fun a => pure (f a)) = .error why) : x = .error why :=
  (bind_eq_error.mp h).elim id fun ⟨_, _, h⟩ => nomatch h

/-- Of a row written one by one, one failed. -/
theorem exists_mem_of_eq_error {α : Type} (one : α → Writing) (all : List α → Writing)
    (hnil : all [] = .ok [])
    (hcons : ∀ a rest, all (a :: rest) =
      one a >>= fun here => all rest >>= fun behind => pure (here ++ behind))
    {row : List α} (h : all row = .error why) : ∃ a ∈ row, one a = .error why := by
  induction row with
  | nil => rw [hnil] at h; cases h
  | cons a rest ih =>
    rw [hcons] at h
    rcases eq_error_or_of_bind h with h | h
    · exact ⟨a, List.mem_cons_self .., h⟩
    · obtain ⟨a', ha', h⟩ := ih h
      exact ⟨a', List.mem_cons_of_mem _ ha', h⟩

theorem Section.pieces_eq_error {s : Section} (h : s.pieces = .error why) :
    why = .columnsZero ∧ ∃ c, s.columns = some c ∧ c.count = 0 := by
  unfold Section.pieces at h
  dsimp only at h
  split at h
  · next c hc =>
    have h := eq_error_of_bind h
    unfold Columns.pieces at h
    split at h
    · next hzero =>
      cases h
      exact ⟨rfl, c, hc, hzero⟩
    · cases h
  · cases h

theorem Run.pieces_eq_error {r : Run} (h : r.pieces = .error why) :
    why = .sizeZero ∧ r.isMark = false ∧ r.properties.size = some 0 := by
  unfold Run.pieces at h
  split at h
  · cases h
  · next hmark =>
    have h := eq_error_of_bind h
    unfold RunProperties.pieces at h
    split at h
    · cases h
    · split at h
      · next hzero =>
        cases h
        exact ⟨rfl, Bool.eq_false_iff.mpr hmark, hzero⟩
      · cases h

theorem runsPieces_eq_error {link : Option Hyperlink} {runs : List Run}
    (h : runsPieces link runs = .error why) : ∃ r ∈ runs, r.pieces = .error why := by
  induction runs generalizing link with
  | nil => cases h
  | cons r rest ih =>
    rcases eq_error_or_of_bind h with h | h
    · exact ⟨r, List.mem_cons_self .., h⟩
    · obtain ⟨r', hr', h⟩ := ih h
      exact ⟨r', List.mem_cons_of_mem _ hr', h⟩

theorem checkStyle_eq_error {style : String} (h : checkStyle style = .error why) :
    ∃ level, headingLevel? style = some level ∧ ¬(1 ≤ level ∧ level ≤ 9) ∧
      why = .headingLevel level := by
  unfold checkStyle at h
  split at h
  · next level hlevel =>
    split at h
    · cases h
    · next hout =>
      cases h
      exact ⟨level, hlevel, hout, rfl⟩
  · cases h

theorem ParagraphProperties.pieces_eq_error {p : ParagraphProperties} (h : p.pieces = .error why) :
    (∃ style, p.style = some style ∧ checkStyle style = .error why) ∨
      ∃ s, p.sectionEnd = some s ∧ s.pieces = .error why := by
  unfold ParagraphProperties.pieces at h
  dsimp only at h
  split at h
  · cases h
  · split at h
    · next style hstyle =>
      rcases bind_eq_error.mp h with h | ⟨_, _, h⟩
      · exact .inl ⟨style, hstyle, h⟩
      · split at h
        · next s hs => exact .inr ⟨s, hs, eq_error_of_bind h⟩
        · cases h
    · split at h
      · next s hs => exact .inr ⟨s, hs, eq_error_of_bind h⟩
      · cases h

theorem paragraphsPieces_eq_error {paragraphs : List Paragraph}
    (h : paragraphsPieces paragraphs = .error why) : ∃ p ∈ paragraphs, p.pieces = .error why :=
  exists_mem_of_eq_error Paragraph.pieces paragraphsPieces rfl (fun _ _ => rfl) h

theorem CellProperties.pieces_eq_error {p : CellProperties} (h : p.pieces = .error why) :
    why = .spanZero ∧ p.span = some 0 := by
  unfold CellProperties.pieces at h
  split at h
  · cases h
  · split at h
    · next hzero =>
      cases h
      exact ⟨rfl, hzero⟩
    · cases h

theorem cellsPieces_eq_error {cells : List Cell} (h : cellsPieces cells = .error why) :
    ∃ c ∈ cells, c.pieces = .error why :=
  exists_mem_of_eq_error Cell.pieces cellsPieces rfl (fun _ _ => rfl) h

theorem Row.pieces_eq_error {r : Row} {index : Nat} (h : r.pieces index = .error why) :
    (why = .rowWithoutCells index ∧ r.cells = []) ∨ ∃ c ∈ r.cells, c.pieces = .error why := by
  unfold Row.pieces at h
  split at h
  · next hempty =>
    cases h
    exact .inl ⟨rfl, List.isEmpty_iff.mp hempty⟩
  · exact .inr (cellsPieces_eq_error (eq_error_of_bind h))

theorem rowsPieces_eq_error {index : Nat} {rows : List Row}
    (h : rowsPieces index rows = .error why) :
    ∃ (i : Nat) (r : Row), rows[i]? = some r ∧ r.pieces (index + i) = .error why := by
  induction rows generalizing index with
  | nil => cases h
  | cons r rest ih =>
    rcases eq_error_or_of_bind h with h | h
    · exact ⟨0, r, rfl, h⟩
    · obtain ⟨i, r', hr', h⟩ := ih h
      exact ⟨i + 1, r', hr', by rwa [Nat.add_right_comm] at h⟩

/-! ### Only what is written is refused -/

namespace Body

theorem Refused.of_paragraph {p : Paragraph} (hp : b.WritesParagraph p)
    (h : p.pieces = .error why) : b.Refused why := by
  rcases eq_error_or_of_bind h with h | h
  · rcases p.properties.pieces_eq_error h with ⟨style, hstyle, h⟩ | ⟨s, hs, h⟩
    · obtain ⟨level, hlevel, hout, rfl⟩ := checkStyle_eq_error h
      obtain ⟨numeral, rfl, hnumeral⟩ := headingLevel?_eq_some_iff.mp hlevel
      exact .headingLevel hp hstyle hnumeral hout
    · obtain ⟨rfl, c, hc, hzero⟩ := s.pieces_eq_error h
      exact .columnsZero hp hs hc hzero
  · obtain ⟨r, hr, h⟩ := runsPieces_eq_error h
    obtain ⟨rfl, hmark, hzero⟩ := r.pieces_eq_error h
    exact .sizeZero hp hr hmark hzero

theorem Refused.of_table {t : Table} (ht : b.Writes (.table t)) (h : t.pieces = .error why) :
    b.Refused why := by
  obtain ⟨index, r, hr, h⟩ := rowsPieces_eq_error (eq_error_of_bind h)
  -- The rows are counted from 0, so the row that is named is the one that has no cells.
  rw [Nat.zero_add] at h
  rcases r.pieces_eq_error h with ⟨rfl, hempty⟩ | ⟨c, hc, h⟩
  · exact .rowWithoutCells ht hr hempty
  · have hr := List.mem_of_getElem? hr
    rcases eq_error_or_of_bind h with h | h
    · obtain ⟨rfl, hzero⟩ := c.properties.pieces_eq_error h
      exact .spanZero ht hr hc hzero
    · obtain ⟨p, hp, h⟩ := paragraphsPieces_eq_error h
      exact .of_paragraph (.cell ht hr hc hp) h

mutual

theorem Refused.of_element : ∀ {e : Element}, b.Writes e → e.pieces = .error why → b.Refused why
  | .paragraph _, he, h => .of_paragraph (.element he) (by rwa [Element.pieces] at h)
  | .table _, he, h => .of_table he (by rwa [Element.pieces] at h)
  | .setup s, he, h => by
    rw [Element.pieces] at h
    obtain ⟨rfl, c, hc, hzero⟩ := s.pieces_eq_error h
    exact .setupColumnsZero he hc hzero
  | .control _ content, he, h => by
    rw [Element.pieces] at h
    have hcontent : ∀ e ∈ content, b.Writes e := fun _ => .inner he
    exact .of_elements hcontent (eq_error_of_bind h)
  | .bookmarkStart _, _, h => by rw [Element.pieces] at h; cases h
  | .bookmarkEnd _, _, h => by rw [Element.pieces] at h; cases h

theorem Refused.of_elements : ∀ {elements : List Element}, (∀ e ∈ elements, b.Writes e) →
    Element.piecesOf elements = .error why → b.Refused why
  | [], _, h => by rw [Element.piecesOf] at h; cases h
  | e :: rest, hwrites, h => by
    rw [Element.piecesOf] at h
    rcases eq_error_or_of_bind h with h | h
    · exact .of_element (hwrites e (List.mem_cons_self ..)) h
    · exact .of_elements (fun e' he' => hwrites e' (List.mem_cons_of_mem _ he')) h

end

/-- The setup that counts is the last one. -/
theorem section?_eq_some_iff {s : Section} : b.section? = some s ↔
    ∃ before behind, b.elements = before ++ .setup s :: behind ∧
      ∀ e ∈ behind, e.setup? = none := by
  rw [section?, List.findSome?_eq_some_iff]
  constructor
  · rintro ⟨behind, e, before, helements, he, hbehind⟩
    cases e <;> cases he
    refine ⟨before.reverse, behind.reverse, ?_, fun e he => hbehind e (List.mem_reverse.mp he)⟩
    rw [← List.reverse_reverse b.elements, helements]
    simp
  · rintro ⟨before, behind, helements, hbehind⟩
    refine ⟨behind.reverse, .setup s, before.reverse, ?_, rfl, fun e he =>
      hbehind e (List.mem_reverse.mp he)⟩
    rw [helements]
    simp

theorem writes_of_section? {s : Section} (h : b.section? = some s) : b.Writes (.setup s) :=
  have ⟨_, _, helements, hbehind⟩ := section?_eq_some_iff.mp h
  .setup helements hbehind

theorem refused_of_pieces (h : b.pieces = .error why) : b.Refused why := by
  rcases bind_eq_error.mp h with h | ⟨_, _, h⟩
  -- The setups in the body itself are left out here, and only one of them is written below.
  · refine .of_elements (fun e he => ?_) h
    obtain ⟨he, hsetup⟩ := List.mem_filter.mp he
    exact .element he (Option.isNone_iff_eq_none.mp hsetup)
  · dsimp only at h
    split at h
    · next s hs =>
      have h := map_eq_error.mp (eq_error_of_bind h)
      obtain ⟨rfl, c, hc, hzero⟩ := s.pieces_eq_error h
      exact .setupColumnsZero (writes_of_section? hs) hc hzero
    · cases h

theorem Writes.hasForm (hb : b.hasForm) {e : Element} (he : b.Writes e) : e.hasForm := by
  obtain ⟨helements, hsection⟩ := Bool.and_eq_true_iff.mp hb
  induction he with
  | element he hsetup =>
    exact List.all_eq_true.mp helements _
      (List.mem_filter.mpr ⟨he, Option.isNone_iff_eq_none.mpr hsetup⟩)
  | setup heq hbehind =>
    rw [section?_eq_some_iff.mpr ⟨_, _, heq, hbehind⟩, Option.all_some] at hsection
    rwa [Element.hasForm]
  | inner _ he ih =>
    rw [Element.hasForm, Element.haveForms_eq_all] at ih
    exact List.all_eq_true.mp ih _ he

theorem Writes.hasForm_row (hb : b.hasForm) {t : Table} (ht : b.Writes (.table t)) {r : Row}
    (hr : r ∈ t.rows) : r.cells ≠ [] ∧ ∀ c ∈ r.cells, c.hasForm := by
  have hform := ht.hasForm hb
  rw [Element.hasForm] at hform
  obtain ⟨hcells, hform⟩ := Bool.and_eq_true_iff.mp (List.all_eq_true.mp hform r hr)
  exact ⟨by simpa using hcells, List.all_eq_true.mp hform⟩

theorem WritesParagraph.hasForm (hb : b.hasForm) {p : Paragraph} (hp : b.WritesParagraph p) :
    p.properties.hasForm ∧ ∀ r ∈ p.runs, r.hasForm := by
  suffices p.hasForm from
    (Bool.and_eq_true_iff.mp this).imp_right List.all_eq_true.mp
  cases hp with
  | element hp =>
    have hform := hp.hasForm hb
    rwa [Element.hasForm] at hform
  | cell ht hr hc hp =>
    have hform := (ht.hasForm_row hb hr).2 _ hc
    exact List.all_eq_true.mp (Bool.and_eq_true_iff.mp hform).2 _ hp

theorem not_hasForm_columns {s : Section} {c : Columns} (hc : s.columns = some c)
    (hzero : c.count = 0) : ¬s.hasForm := by
  simp [Section.hasForm, hc, hzero]

theorem Refused.not_hasForm (h : b.Refused why) : ¬b.hasForm := by
  intro hb
  cases h with
  | headingLevel hp hstyle hnumeral hout =>
    have hform := (Bool.and_eq_true_iff.mp (hp.hasForm hb).1).1
    rw [hstyle, Option.all_some, headingLevel?_eq_some_iff.mpr ⟨_, rfl, hnumeral⟩,
      Option.all_some] at hform
    exact hout (of_decide_eq_true hform)
  | sizeZero hp hr hmark hzero =>
    have hform := (hp.hasForm hb).2 _ hr
    rw [Run.hasForm, hmark, Bool.false_or, RunProperties.hasForm, hzero] at hform
    exact of_decide_eq_true hform rfl
  | spanZero ht hr hc hzero =>
    have hform := (Bool.and_eq_true_iff.mp ((ht.hasForm_row hb hr).2 _ hc)).1
    rw [CellProperties.hasForm, hzero] at hform
    exact of_decide_eq_true hform rfl
  | rowWithoutCells ht hr hempty =>
    exact (ht.hasForm_row hb (List.mem_of_getElem? hr)).1 hempty
  | columnsZero hp hs hc hzero =>
    have hform := (Bool.and_eq_true_iff.mp (hp.hasForm hb).1).2
    rw [hs, Option.all_some] at hform
    exact not_hasForm_columns hc hzero hform
  | setupColumnsZero hs hc hzero =>
    have hform := hs.hasForm hb
    rw [Element.hasForm] at hform
    exact not_hasForm_columns hc hzero hform

/-! ### The setups before the last one -/

theorem pieces_eq_of_setup {before between behind : List Element} {s last : Section} :
    pieces ⟨before ++ .setup s :: between ++ .setup last :: behind⟩ =
      pieces ⟨before ++ between ++ .setup last :: behind⟩ := by
  have hsection : (⟨before ++ .setup s :: between ++ .setup last :: behind⟩ : Body).section? =
      (⟨before ++ between ++ .setup last :: behind⟩ : Body).section? := by
    simp [section?, List.findSome?_append, List.findSome?_cons, Element.setup?]
  have hfilter : (before ++ .setup s :: between ++ .setup last :: behind).filter
      (·.setup?.isNone) = (before ++ between ++ .setup last :: behind).filter (·.setup?.isNone) := by
    simp [List.filter_append, Element.setup?]
  rw [pieces, pieces, hsection, hfilter]

/-- A body is refused just if something that would be written has no written form, and the reason
given is one of those. A setup before the last one makes no difference. -/
theorem xml_eq_error_iff (b : Body) :
    ((∃ why, b.xml = .error why) ↔ ∃ why, b.Refused why) ∧
      (∀ why, b.xml = .error why → b.Refused why) ∧
      ∀ before between behind s last,
        xml ⟨before ++ .setup s :: between ++ .setup last :: behind⟩ =
          xml ⟨before ++ between ++ .setup last :: behind⟩ := by
  have hrefused (why) (h : b.xml = .error why) : b.Refused why :=
    refused_of_pieces (map_eq_error.mp h)
  refine ⟨⟨fun ⟨why, h⟩ => ⟨why, hrefused why h⟩, fun ⟨why, h⟩ => ?_⟩, hrefused, ?_⟩
  · have hform := h.not_hasForm
    rw [← b.isOk_pieces] at hform
    cases hpieces : b.pieces with
    | error why' => exact ⟨why', map_eq_error.mpr hpieces⟩
    | ok pieces =>
      rw [hpieces] at hform
      exact absurd rfl hform
  · intro before between behind s last
    rw [xml, xml, pieces_eq_of_setup]

end Body

end Letterpress
