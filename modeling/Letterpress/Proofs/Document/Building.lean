import Letterpress.Document
import Letterpress.Proofs.Body.Forms
import Letterpress.Proofs.Number.Binary

/-!
# Documents from builders

Texts, headings, empty tables and bookmarks are added to a new document. A table is refused if the
number of its columns is zero as a word. What is added has a written form, but for texts of a size
above zero that has no half points.
-/

namespace Letterpress

open Number

/-- What a builder adds to the end of a document. -/
inductive Addition where
  | paragraph (text : String)
  /-- The size is a number of single precision. -/
  | formatted (text : String) (f : TextFormat) (size : ∀ p ∈ f.size, p.IsIn single)
  | heading (text : String) (level : Int)
  | table (rows columns : Nat)

namespace Addition

/-- The element that is added, if there is one. -/
def element? : Addition → Option Element
  | paragraph text => some (.paragraph (.ofText text))
  | formatted text f _ => some (.paragraph (({} : Paragraph).addFormatted text f))
  | heading text level =>
    some (.paragraph ((Paragraph.ofText text).setStyle
      ("Heading" ++ toString (Document.headingLevel level))))
  | table rows columns => (Table.ofSize? rows columns).map .table

/-- A table has columns as a word counts them, or is given one for none. -/
def IsBuildable : Addition → Prop
  | paragraph _ => True
  | formatted .. => True
  | heading .. => True
  | table _ columns => columns = 0 ∨ ¬UInt32.size ∣ columns

/-- A size above zero is a quarter of a point at the least. -/
def IsWritable : Addition → Prop
  | paragraph _ => True
  | formatted _ f _ => ∀ p ∈ f.size, ∀ x ∈ p.value?, 0 < x → 1 / 4 ≤ x
  | heading .. => True
  | table .. => True

end Addition

inductive BuilderCall where
  | add (a : Addition)
  | startBookmark (name : String)
  | endBookmark (b : Bookmark)

namespace Document

/-- The document with an addition. -/
def addition? (d : Document) : Addition → Option Document
  | .paragraph text => some (d.addParagraph text)
  | .formatted text f _ => some (d.addFormatted text f)
  | .heading text level => some (d.addHeading text level)
  | .table rows columns => d.addTable? rows columns

theorem addition?_eq (d : Document) (a : Addition) : d.addition? a = a.element?.map d.add := by
  cases a with
  | paragraph text => rfl
  | formatted text f size => rfl
  | heading text level => rfl
  | table rows columns => exact (Option.map_map d.add Element.table _).symm

/-- The document behind a call, if there is one. Without an id left no bookmark is begun. -/
def build? (d : Document) : BuilderCall → Option Document
  | .add a => d.addition? a
  | .startBookmark name =>
    match d.startBookmark name with
    | .ok (_, d) => some d
    | .error _ => some d
  | .endBookmark b => some (d.endBookmark b)

/-- The document behind calls in a row, if every call gives one. -/
def buildAll? (d : Document) (calls : List BuilderCall) : Option Document := calls.foldlM build? d

end Document

theorem Body.hasForm_push (b : Body) {e : Element} (h : e.setup? = none) :
    (b.push e).hasForm = (b.hasForm && e.hasForm) := by
  have hsection : (b.push e).section? = b.section? := by
    simp [section?, push, h]
  rw [hasForm, hasForm, hsection, push, List.filter_append, List.all_append]
  simp only [h, Option.isNone_none, List.filter_cons_of_pos, List.filter_nil, List.all_cons,
    List.all_nil, Bool.and_true]
  rw [Bool.and_right_comm]

theorem hasForm_paragraph_ofText (text : String) : (Element.paragraph (.ofText text)).hasForm := by
  simp [Element.hasForm, Paragraph.hasForm, Paragraph.ofText, Paragraph.addText, Paragraph.add,
    ParagraphProperties.hasForm, Run.ofText, Run.ofContent, Run.hasForm, RunProperties.hasForm]

/-- The style of a heading is the one of its level, which is kept between 1 and 9. -/
theorem hasForm_heading (text : String) (level : Int) :
    (Element.paragraph ((Paragraph.ofText text).setStyle
      ("Heading" ++ toString (Document.headingLevel level)))).hasForm := by
  have hbounds : 1 ≤ Document.headingLevel level ∧ Document.headingLevel level ≤ 9 := by
    unfold Document.headingLevel
    omega
  have hlevels : ∀ level ∈ List.range' 1 9,
      (headingLevel? ("Heading" ++ toString (level : Int))).all fun level =>
        1 ≤ level ∧ level ≤ 9 := by
    decide
  have hstyle := hlevels (Document.headingLevel level).toNat
    (List.mem_range'_1.mpr (by omega))
  rw [Int.toNat_of_nonneg (by omega)] at hstyle
  have htext := hasForm_paragraph_ofText text
  simp only [Element.hasForm, Paragraph.hasForm, ParagraphProperties.hasForm, Paragraph.setStyle,
    Option.all_some, hstyle, Bool.true_and, Bool.and_eq_true] at htext ⊢
  exact ⟨htext.1.2, htext.2⟩

theorem Table.eq_ofSize {rows columns : Nat} {t : Table} (h : ofSize? rows columns = some t) :
    t = ofSize rows columns := by
  rw [ofSize?] at h
  split at h
  · cases h
  · exact (Option.some.inj h).symm

theorem Table.hasForm_ofSize (rows columns : Nat) : (Table.ofSize rows columns).hasForm := by
  rw [Table.hasForm, List.all_eq_true]
  intro r hr
  rw [ofSize, List.mem_replicate] at hr
  obtain ⟨-, rfl⟩ := hr
  have hcolumns : max columns 1 ≠ 0 := by omega
  simp [Row.hasForm, Cell.hasForm, CellProperties.hasForm, Paragraph.hasForm,
    ParagraphProperties.hasForm, hcolumns]

/-- The half points of a size are kept if it is positive, and there are some from a quarter of a
point on. -/
theorem hasForm_formatted_iff (text : String) {f : TextFormat} (h : ∀ p ∈ f.size, p.IsIn single) :
    (Element.paragraph (({} : Paragraph).addFormatted text f)).hasForm ↔
      ∀ p ∈ f.size, ∀ x ∈ p.value?, 0 < x → 1 / 4 ≤ x := by
  have hsize : (Element.paragraph (({} : Paragraph).addFormatted text f)).hasForm ↔
      (f.size.filter Points.isPositive).map Points.halves ≠ some 0 := by
    simp [Element.hasForm, Paragraph.hasForm, ParagraphProperties.hasForm, Paragraph.addFormatted,
      Paragraph.add, Run.hasForm, Run.isMark, RunProperties.hasForm, TextFormat.properties]
  rw [hsize]
  constructor
  · intro hsome p hp x hx hpos
    have hpositive := (Points.isPositive_iff hx).mpr hpos
    by_contra hlt
    refine hsome ?_
    have hzero := (Points.halves_eq_zero_iff (h p hp) hpositive).mpr ⟨x, hx, not_le.mp hlt⟩
    rw [Option.mem_def.mp hp, Option.filter_some, if_pos hpositive, Option.map_some, hzero]
  · intro hquarter hsome
    obtain ⟨p, hp, hzero⟩ := Option.map_eq_some_iff.mp hsome
    obtain ⟨hp, hpositive⟩ := Option.filter_eq_some_iff.mp hp
    obtain ⟨x, hx, hlt⟩ := (Points.halves_eq_zero_iff (h p hp) hpositive).mp hzero
    exact absurd (hquarter p hp x hx ((Points.isPositive_iff hx).mp hpositive)) hlt.not_ge

theorem Table.ofSize?_isSome_iff (rows columns : Nat) :
    (ofSize? rows columns).isSome ↔ columns = 0 ∨ ¬UInt32.size ∣ columns := by
  have hword : UInt32.ofNat (max columns 1) = 0 ↔ UInt32.size ∣ max columns 1 := by
    rw [← UInt32.toNat_inj, UInt32.toNat_ofNat', UInt32.toNat_zero]
    exact (Nat.dvd_iff_mod_eq_zero ..).symm
  have hone : ¬UInt32.size ∣ 1 := by decide
  have hsome : (ofSize? rows columns).isSome ↔ ¬UInt32.size ∣ max columns 1 := by
    rw [ofSize?, ← hword]
    split
    · next h => exact iff_of_false (nomatch ·) (not_not_intro h)
    · next h => exact iff_of_true rfl h
  rw [hsome]
  rcases Nat.eq_zero_or_pos columns with rfl | hpos
  · exact iff_of_true hone (.inl rfl)
  · rw [Nat.max_eq_left hpos, or_iff_right hpos.ne']

namespace Addition

variable {a : Addition} {e : Element}

theorem element?_isSome_iff : a.element?.isSome ↔ a.IsBuildable := by
  cases a with
  | paragraph text => exact iff_of_true rfl trivial
  | formatted text f size => exact iff_of_true rfl trivial
  | heading text level => exact iff_of_true rfl trivial
  | table rows columns =>
    rw [element?, Option.isSome_map]
    exact Table.ofSize?_isSome_iff rows columns

theorem setup?_of_element? (h : a.element? = some e) : e.setup? = none := by
  cases a with
  | paragraph text => exact Option.some.inj h ▸ rfl
  | formatted text f size => exact Option.some.inj h ▸ rfl
  | heading text level => exact Option.some.inj h ▸ rfl
  | table rows columns =>
    obtain ⟨t, -, rfl⟩ := Option.map_eq_some_iff.mp h
    rfl

theorem hasForm_iff_of_element? (h : a.element? = some e) : e.hasForm ↔ a.IsWritable := by
  cases a with
  | paragraph text => exact iff_of_true (Option.some.inj h ▸ hasForm_paragraph_ofText text) trivial
  | formatted text f size => exact Option.some.inj h ▸ hasForm_formatted_iff text size
  | heading text level => exact iff_of_true (Option.some.inj h ▸ hasForm_heading text level) trivial
  | table rows columns =>
    obtain ⟨t, ht, rfl⟩ := Option.map_eq_some_iff.mp h
    obtain rfl := Table.eq_ofSize ht
    exact iff_of_true (Table.hasForm_ofSize rows columns) trivial

end Addition

/-! ### Calls in a row -/

namespace Document

variable {d d' : Document}

theorem isOk_xml (d : Document) : d.xml.isOk = d.body.hasForm := by
  rw [← isOk_mainPartXml d.body d.attributes, xml]
  cases mainPartXml d.body d.attributes <;> rfl

theorem startBookmark_eq_ok {name : String} {b : Bookmark} :
    d.startBookmark name = .ok (b, d') ↔ d.ids.peek .bookmark = some b.id ∧ b.name = name ∧
      d' = { d with ids := d.ids.set .bookmark (nextId b.id) }.add (.bookmarkStart b) := by
  rw [startBookmark, Ids.issue?]
  cases d.ids.peek .bookmark with
  | none => simp
  | some id =>
    constructor
    · intro h
      cases h
      exact ⟨rfl, rfl, rfl⟩
    · rintro ⟨hid, rfl, rfl⟩
      cases hid
      rfl

theorem peek_of_startBookmark_eq_error {name : String} {f : Failure}
    (h : d.startBookmark name = .error f) : d.ids.peek .bookmark = none := by
  rw [startBookmark, Ids.issue?] at h
  cases hid : d.ids.peek .bookmark with
  | none => rfl
  | some id =>
    rw [hid] at h
    cases h

theorem build?_isSome_iff (d : Document) (c : BuilderCall) :
    (d.build? c).isSome ↔ ∀ a, c = .add a → a.IsBuildable := by
  cases c with
  | add a =>
    rw [build?, addition?_eq, Option.isSome_map, Addition.element?_isSome_iff]
    simp
  | startBookmark name =>
    refine iff_of_true ?_ (fun _ => nofun)
    rw [build?]
    split <;> rfl
  | endBookmark b => exact iff_of_true rfl (fun _ => nofun)

/-- The body keeps its form just if what is added is writable. -/
theorem hasForm_of_build? {c : BuilderCall} (h : d.build? c = some d') :
    d'.body.hasForm ↔ d.body.hasForm ∧ ∀ a, c = .add a → a.IsWritable := by
  cases c with
  | add a =>
    rw [build?, addition?_eq] at h
    obtain ⟨e, he, rfl⟩ := Option.map_eq_some_iff.mp h
    rw [add, Body.hasForm_push d.body (Addition.setup?_of_element? he), Bool.and_eq_true,
      Addition.hasForm_iff_of_element? he]
    simp
  | startBookmark name =>
    rw [build?] at h
    rw [and_iff_left fun _ => nofun]
    split at h
    · next hstart =>
      cases h
      obtain ⟨-, -, rfl⟩ := startBookmark_eq_ok.mp hstart
      rw [add, Body.hasForm_push _ rfl, Element.hasForm, Bool.and_true]
    · cases h
      rfl
  | endBookmark b =>
    cases h
    rw [and_iff_left fun _ => nofun, endBookmark, add, Body.hasForm_push _ rfl, Element.hasForm,
      Bool.and_true]

theorem forall_add_mem_cons {P : Addition → Prop} {c : BuilderCall} {rest : List BuilderCall} :
    (∀ a, .add a ∈ c :: rest → P a) ↔ (∀ a, c = .add a → P a) ∧ ∀ a, .add a ∈ rest → P a := by
  simp only [List.mem_cons, or_imp, forall_and, eq_comm]

theorem buildAll?_isSome_iff (d : Document) (calls : List BuilderCall) :
    (d.buildAll? calls).isSome ↔ ∀ a, .add a ∈ calls → a.IsBuildable := by
  induction calls generalizing d with
  | nil => exact iff_of_true rfl (by simp)
  | cons c rest ih =>
    rw [forall_add_mem_cons, ← d.build?_isSome_iff, buildAll?, List.foldlM_cons]
    cases d.build? c with
    | none => simp
    | some d' => simpa [buildAll?] using ih d'

theorem hasForm_of_buildAll? {calls : List BuilderCall} (h : d.buildAll? calls = some d') :
    d'.body.hasForm ↔ d.body.hasForm ∧ ∀ a, .add a ∈ calls → a.IsWritable := by
  induction calls generalizing d with
  | nil =>
    obtain rfl := Option.some.inj h
    exact (and_iff_left (by simp)).symm
  | cons c rest ih =>
    rw [buildAll?, List.foldlM_cons] at h
    obtain ⟨e, he, h⟩ := Option.bind_eq_some_iff.mp h
    rw [ih h, hasForm_of_build? he, forall_add_mem_cons, and_assoc]

/-- A new document can be built unless a table has columns that a word counts as none. It can be
written, too, unless a text has a size above zero and below a quarter of a point. -/
theorem xml_buildAll?_new_iff (calls : List BuilderCall) :
    ((∃ d, new.buildAll? calls = some d) ↔ ∀ a, .add a ∈ calls → a.IsBuildable) ∧
      ((∃ d xml, new.buildAll? calls = some d ∧ d.xml = .ok xml) ↔
        ∀ a, .add a ∈ calls → a.IsBuildable ∧ a.IsWritable) := by
  have hbuilt := new.buildAll?_isSome_iff calls
  rw [Option.isSome_iff_exists] at hbuilt
  have hnew : new.body.hasForm := by decide
  refine ⟨hbuilt, ?_⟩
  rw [forall₂_and, ← hbuilt]
  constructor
  · rintro ⟨d, xml, hd, hxml⟩
    have hform : d.body.hasForm := by
      rw [← d.isOk_xml, ← exists_eq_ok]
      exact ⟨xml, hxml⟩
    exact ⟨⟨d, hd⟩, ((hasForm_of_buildAll? hd).mp hform).2⟩
  · rintro ⟨⟨d, hd⟩, hwritable⟩
    have hform := (hasForm_of_buildAll? hd).mpr ⟨hnew, hwritable⟩
    rw [← d.isOk_xml, ← exists_eq_ok] at hform
    obtain ⟨xml, hxml⟩ := hform
    exact ⟨d, xml, hd, hxml⟩

/-- A tenth of a point has no half points, and so many columns are none as a word. -/
theorem xml_buildAll?_new_eq_error :
    let tenth : Points := .finite false 13421773 (-27)
    (new.buildAll? [.add (.formatted "x" { size := some tenth } (by decide))]).map xml =
        some (.error (.during "serialize" "word/document.xml" (.unwritable .sizeZero))) ∧
      (new.buildAll? [.add (.table 1 4294967296)]).isNone := by
  decide +kernel

end Document

end Letterpress
