import Letterpress.Body.Reading
import Letterpress.Proofs.Results

/-!
# The steps of the readers

What a reader makes of one child or of one element, by the label of its tag and with what it read
inside. The result of a reader is taken apart here: what all results have in common is then shown
case by case over the steps.
-/

namespace Letterpress

open Markup Markup.Content

variable {tag : Tag} {inner rest : Content} {child : Child}

/-- What a child puts into a run. -/
inductive RunParts.Step (p : RunParts) : Child → RunParts → Prop
  | properties {tag : Tag} {inner : Content} {properties : RunProperties} :
      tag.label = "rPr" → RunProperties.read inner = .ok properties →
        Step p (.element tag inner) { p with properties }
  | words {tag : Tag} {inner : Content} {s : String} :
      tag.label = "t" → readText inner = .ok s → Step p (.element tag inner) (p.add [.text s])
  | code {tag : Tag} {inner : Content} {s : String} :
      tag.label = "instrText" → readText inner = .ok s →
        Step p (.element tag inner) (p.add [.fieldCode s])
  | drawing {tag : Tag} {inner : Content} {markup : String} :
      isGraphic tag.label → elementText tag inner = .ok markup →
        Step p (.element tag inner) (p.add [.drawing markup])
  | mark {tag : Tag} {inner : Content} :
      tag.label ≠ "rPr" → tag.label ≠ "t" → tag.label ≠ "instrText" → ¬isGraphic tag.label →
        inner.skip = .ok () → Step p (.element tag inner) (p.add (RunContent.ofTag? tag).toList)
  | emptyCode {tag : Tag} : tag.label = "instrText" → Step p (.empty tag) (p.add [.fieldCode ""])
  | emptyMark {tag : Tag} :
      tag.label ≠ "instrText" → Step p (.empty tag) (p.add (RunContent.ofTag? tag).toList)
  | text {content : List Text.Symbol} : Step p (.text content) p
  | cdata {content : List Text.Symbol} : Step p (.cdata content) p

theorem RunParts.step_of_child {p p' : RunParts} (h : p.child child = .ok p') :
    p.Step child p' := by
  cases child with
  | element tag inner =>
    rw [RunParts.child] at h
    split at h
    · next hl =>
      obtain ⟨properties, hread, h⟩ := bind_eq_ok.mp h
      cases h
      exact .properties hl hread
    split at h
    · next hl =>
      obtain ⟨s, hread, h⟩ := bind_eq_ok.mp h
      cases h
      exact .words hl hread
    split at h
    · next hl =>
      obtain ⟨s, hread, h⟩ := bind_eq_ok.mp h
      cases h
      exact .code hl hread
    split at h
    · next hl =>
      obtain ⟨markup, hread, h⟩ := bind_eq_ok.mp h
      cases h
      exact .drawing hl hread
    · next hproperties hwords hcode hdrawing =>
      obtain ⟨⟨⟩, hskip, h⟩ := bind_eq_ok.mp h
      cases h
      exact .mark hproperties hwords hcode hdrawing hskip
  | empty tag =>
    rw [RunParts.child] at h
    split at h
    · next hl =>
      cases h
      exact .emptyCode hl
    · next hl =>
      cases h
      exact .emptyMark hl
  | text content =>
    cases h
    exact .text
  | cdata content =>
    cases h
    exact .cdata

/-- The runs that one element gives. -/
inductive RunsOf (link : Option Hyperlink) (tag : Tag) (inner : Content) : List Run → Prop
  | run {p : RunParts} :
      tag.label = "r" → RunParts.read inner = .ok p → RunsOf link tag inner (p.runs link)
  | hyperlink {runs : List Run} :
      tag.label = "hyperlink" →
        readRuns (some ⟨tag.value? "id", tag.value? "anchor"⟩) inner = .ok runs →
          RunsOf link tag inner runs
  | group {runs : List Run} :
      isRunGroup tag.label → readRuns link inner = .ok runs → RunsOf link tag inner runs
  | mark :
      tag.label ≠ "r" → tag.label ≠ "hyperlink" → ¬isRunGroup tag.label → inner.skip = .ok () →
        RunsOf link tag inner (Run.ofMark? link tag).toList

theorem exists_runsOf {link : Option Hyperlink} {runs : List Run}
    (h : readRuns link (.element tag inner rest) = .ok runs) :
    ∃ here more, RunsOf link tag inner here ∧ readRuns link rest = .ok more ∧
      runs = here ++ more := by
  have behind : ∀ here, RunsOf link tag inner here →
      (do pure (here ++ (← readRuns link rest))) = Except.ok runs →
        ∃ here more, RunsOf link tag inner here ∧ readRuns link rest = .ok more ∧
          runs = here ++ more := by
    intro here hhere h
    obtain ⟨more, hmore, h⟩ := bind_eq_ok.mp h
    exact ⟨here, more, hhere, hmore, (Except.ok.inj h).symm⟩
  rw [readRuns] at h
  split at h
  · next hl =>
    obtain ⟨here, hhere, h⟩ := bind_eq_ok.mp h
    obtain ⟨p, hp, rfl⟩ := map_eq_ok.mp hhere
    exact behind _ (.run hl hp) h
  split at h
  · next hl =>
    obtain ⟨here, hhere, h⟩ := bind_eq_ok.mp h
    exact behind here (.hyperlink hl hhere) h
  split at h
  · next hl =>
    obtain ⟨here, hhere, h⟩ := bind_eq_ok.mp h
    exact behind here (.group hl hhere) h
  · next hrun hlink hgroup =>
    obtain ⟨⟨⟩, hskip, h⟩ := bind_eq_ok.mp h
    exact behind _ (.mark hrun hlink hgroup hskip) h

theorem exists_readRuns_of_empty {link : Option Hyperlink} {runs : List Run}
    (h : readRuns link (.empty tag rest) = .ok runs) :
    ∃ more, readRuns link rest = .ok more ∧ runs = (Run.ofMark? link tag).toList ++ more := by
  obtain ⟨more, hmore, h⟩ := bind_eq_ok.mp h
  exact ⟨more, hmore, (Except.ok.inj h).symm⟩

/-- What a child puts into a paragraph. -/
inductive Paragraph.Step (p : Paragraph) : Child → Paragraph → Prop
  | properties {tag : Tag} {inner : Content} {properties : ParagraphProperties} :
      tag.label = "pPr" → ParagraphProperties.read inner = .ok properties →
        Step p (.element tag inner) { p with properties }
  | runs {tag : Tag} {inner : Content} {runs : List Run} :
      tag.label ≠ "pPr" → readRuns none (.element tag inner .done) = .ok runs →
        Step p (.element tag inner) { p with runs := p.runs ++ runs }
  | mark {tag : Tag} : Step p (.empty tag) { p with runs := p.runs ++ (Run.ofMark? none tag).toList }
  | text {content : List Text.Symbol} : Step p (.text content) p
  | cdata {content : List Text.Symbol} : Step p (.cdata content) p

theorem Paragraph.step_of_child {p p' : Paragraph} (h : p.child child = .ok p') :
    p.Step child p' := by
  cases child with
  | element tag inner =>
    rw [Paragraph.child] at h
    split at h
    · next hl =>
      obtain ⟨properties, hread, h⟩ := bind_eq_ok.mp h
      cases h
      exact .properties hl hread
    · next hl =>
      obtain ⟨runs, hruns, h⟩ := bind_eq_ok.mp h
      cases h
      exact .runs hl hruns
  | empty tag =>
    cases h
    exact .mark
  | text content =>
    cases h
    exact .text
  | cdata content =>
    cases h
    exact .cdata

/-! ### Tables -/

/-- What a child puts into a cell. -/
inductive Cell.Step (c : Cell) : Child → Cell → Prop
  | properties {tag : Tag} {inner : Content} {properties : CellProperties} :
      tag.label = "tcPr" → CellProperties.read inner = .ok properties →
        Step c (.element tag inner) { c with properties }
  | paragraph {tag : Tag} {inner : Content} {p : Paragraph} :
      tag.label = "p" → Paragraph.read inner = .ok p →
        Step c (.element tag inner) { c with paragraphs := c.paragraphs ++ [p] }
  | passed {tag : Tag} {inner : Content} :
      tag.label ≠ "tcPr" → tag.label ≠ "p" → inner.skip = .ok () → Step c (.element tag inner) c
  | emptyParagraph {tag : Tag} :
      tag.label = "p" → Step c (.empty tag) { c with paragraphs := c.paragraphs ++ [{}] }
  | empty {tag : Tag} : tag.label ≠ "p" → Step c (.empty tag) c
  | text {content : List Text.Symbol} : Step c (.text content) c
  | cdata {content : List Text.Symbol} : Step c (.cdata content) c

theorem Cell.step_of_child {c c' : Cell} (h : c.child child = .ok c') : c.Step child c' := by
  cases child with
  | element tag inner =>
    rw [Cell.child] at h
    split at h
    · next hl =>
      obtain ⟨properties, hread, h⟩ := bind_eq_ok.mp h
      cases h
      exact .properties hl hread
    split at h
    · next hl =>
      obtain ⟨p, hread, h⟩ := bind_eq_ok.mp h
      cases h
      exact .paragraph hl hread
    · next hproperties hparagraph =>
      obtain ⟨⟨⟩, hskip, h⟩ := bind_eq_ok.mp h
      cases h
      exact .passed hproperties hparagraph hskip
  | empty tag =>
    cases h
    split
    · next hl => exact .emptyParagraph hl
    · next hl => exact .empty hl
  | text content =>
    cases h
    exact .text
  | cdata content =>
    cases h
    exact .cdata

/-- What a child puts into a row. -/
inductive Row.Step (r : Row) : Child → Row → Prop
  | properties {tag : Tag} {inner : Content} {properties : RowProperties} :
      tag.label = "trPr" → RowProperties.read inner = .ok properties →
        Step r (.element tag inner) { r with properties }
  | cell {tag : Tag} {inner : Content} {c : Cell} :
      tag.label = "tc" → Cell.read inner = .ok c →
        Step r (.element tag inner) { r with cells := r.cells ++ [c] }
  | passed {tag : Tag} {inner : Content} :
      tag.label ≠ "trPr" → tag.label ≠ "tc" → inner.skip = .ok () → Step r (.element tag inner) r
  | empty {tag : Tag} : Step r (.empty tag) r
  | text {content : List Text.Symbol} : Step r (.text content) r
  | cdata {content : List Text.Symbol} : Step r (.cdata content) r

theorem Row.step_of_child {r r' : Row} (h : r.child child = .ok r') : r.Step child r' := by
  cases child with
  | element tag inner =>
    rw [Row.child] at h
    split at h
    · next hl =>
      obtain ⟨properties, hread, h⟩ := bind_eq_ok.mp h
      cases h
      exact .properties hl hread
    split at h
    · next hl =>
      obtain ⟨c, hread, h⟩ := bind_eq_ok.mp h
      cases h
      exact .cell hl hread
    · next hproperties hcell =>
      obtain ⟨⟨⟩, hskip, h⟩ := bind_eq_ok.mp h
      cases h
      exact .passed hproperties hcell hskip
  | empty tag =>
    cases h
    exact .empty
  | text content =>
    cases h
    exact .text
  | cdata content =>
    cases h
    exact .cdata

/-- What a child puts into a table. -/
inductive Table.Step (t : Table) : Child → Table → Prop
  | properties {tag : Tag} {inner : Content} {properties : TableProperties} :
      tag.label = "tblPr" → TableProperties.read inner = .ok properties →
        Step t (.element tag inner) { t with properties }
  | grid {tag : Tag} {inner : Content} {grid : List UInt32} :
      tag.label = "tblGrid" → readGrid inner = .ok grid → Step t (.element tag inner) { t with grid }
  | row {tag : Tag} {inner : Content} {r : Row} :
      tag.label = "tr" → Row.read inner = .ok r →
        Step t (.element tag inner) { t with rows := t.rows ++ [r] }
  | passed {tag : Tag} {inner : Content} :
      tag.label ≠ "tblPr" → tag.label ≠ "tblGrid" → tag.label ≠ "tr" → inner.skip = .ok () →
        Step t (.element tag inner) t
  | empty {tag : Tag} : Step t (.empty tag) t
  | text {content : List Text.Symbol} : Step t (.text content) t
  | cdata {content : List Text.Symbol} : Step t (.cdata content) t

theorem Table.step_of_child {t t' : Table} (h : t.child child = .ok t') : t.Step child t' := by
  cases child with
  | element tag inner =>
    rw [Table.child] at h
    split at h
    · next hl =>
      obtain ⟨properties, hread, h⟩ := bind_eq_ok.mp h
      cases h
      exact .properties hl hread
    split at h
    · next hl =>
      obtain ⟨grid, hread, h⟩ := bind_eq_ok.mp h
      cases h
      exact .grid hl hread
    split at h
    · next hl =>
      obtain ⟨r, hread, h⟩ := bind_eq_ok.mp h
      cases h
      exact .row hl hread
    · next hproperties hgrid hrow =>
      obtain ⟨⟨⟩, hskip, h⟩ := bind_eq_ok.mp h
      cases h
      exact .passed hproperties hgrid hrow hskip
  | empty tag =>
    cases h
    exact .empty
  | text content =>
    cases h
    exact .text
  | cdata content =>
    cases h
    exact .cdata

/-! ### Elements and the main part -/

namespace Element

/-- The elements that one element of the text gives. -/
inductive ElementsOf (tag : Tag) (inner : Content) : List Element → Prop
  | paragraph {p : Paragraph} :
      tag.label = "p" → Paragraph.read inner = .ok p → ElementsOf tag inner [.paragraph p]
  | table {t : Table} :
      tag.label = "tbl" → Table.read inner = .ok t → ElementsOf tag inner [.table t]
  | setup {s : Section} :
      tag.label = "sectPr" → Section.read inner = .ok s → ElementsOf tag inner [.setup s]
  | control {p : ControlProperties} {content : List Element} :
      tag.label = "sdt" → readControl {} [] inner = .ok (p, content) →
        ElementsOf tag inner [.control p content]
  | mark :
      tag.label ≠ "p" → tag.label ≠ "tbl" → tag.label ≠ "sectPr" → tag.label ≠ "sdt" →
        inner.skip = .ok () → ElementsOf tag inner (ofMark? tag).toList

theorem exists_elementsOf {es : List Element}
    (h : readAll (.element tag inner rest) = .ok es) :
    ∃ here more, ElementsOf tag inner here ∧ readAll rest = .ok more ∧ es = here ++ more := by
  have behind : ∀ here, ElementsOf tag inner here →
      (do pure (here ++ (← readAll rest))) = Except.ok es →
        ∃ here more, ElementsOf tag inner here ∧ readAll rest = .ok more ∧ es = here ++ more := by
    intro here hhere h
    obtain ⟨more, hmore, h⟩ := bind_eq_ok.mp h
    exact ⟨here, more, hhere, hmore, (Except.ok.inj h).symm⟩
  rw [readAll] at h
  split at h
  · next hl =>
    obtain ⟨here, hhere, h⟩ := bind_eq_ok.mp h
    obtain ⟨p, hp, rfl⟩ := map_eq_ok.mp hhere
    exact behind _ (.paragraph hl hp) h
  split at h
  · next hl =>
    obtain ⟨here, hhere, h⟩ := bind_eq_ok.mp h
    obtain ⟨t, ht, rfl⟩ := map_eq_ok.mp hhere
    exact behind _ (.table hl ht) h
  split at h
  · next hl =>
    obtain ⟨here, hhere, h⟩ := bind_eq_ok.mp h
    obtain ⟨s, hs, rfl⟩ := map_eq_ok.mp hhere
    exact behind _ (.setup hl hs) h
  split at h
  · next hl =>
    obtain ⟨here, hhere, h⟩ := bind_eq_ok.mp h
    obtain ⟨⟨p, content⟩, hcontrol, rfl⟩ := map_eq_ok.mp hhere
    exact behind _ (.control hl hcontrol) h
  · next hparagraph htable hsetup hcontrol =>
    obtain ⟨⟨⟩, hskip, h⟩ := bind_eq_ok.mp h
    exact behind _ (.mark hparagraph htable hsetup hcontrol hskip) h

theorem exists_readAll_of_empty {es : List Element} (h : readAll (.empty tag rest) = .ok es) :
    ∃ more, readAll rest = .ok more ∧ es = (ofEmpty? tag).toList ++ more := by
  rw [readAll] at h
  obtain ⟨more, hmore, h⟩ := bind_eq_ok.mp h
  exact ⟨more, hmore, (Except.ok.inj h).symm⟩

/-- What one element puts into a control. -/
inductive ControlStep (p : ControlProperties) (content : List Element) (tag : Tag)
    (inner : Content) : ControlProperties → List Element → Prop
  | properties {properties : ControlProperties} :
      tag.label = "sdtPr" → ControlProperties.read {} inner = .ok properties →
        ControlStep p content tag inner properties content
  | content {es : List Element} :
      tag.label = "sdtContent" → readAll inner = .ok es → ControlStep p content tag inner p es
  | passed :
      tag.label ≠ "sdtPr" → tag.label ≠ "sdtContent" → inner.skip = .ok () →
        ControlStep p content tag inner p content

theorem exists_controlStep {p : ControlProperties} {content : List Element}
    {r : ControlProperties × List Element}
    (h : readControl p content (.element tag inner rest) = .ok r) :
    ∃ p' content', ControlStep p content tag inner p' content' ∧
      readControl p' content' rest = .ok r := by
  rw [readControl] at h
  split at h
  · next hl =>
    obtain ⟨properties, hread, h⟩ := bind_eq_ok.mp h
    exact ⟨_, _, .properties hl hread, h⟩
  split at h
  · next hl =>
    obtain ⟨es, hes, h⟩ := bind_eq_ok.mp h
    exact ⟨_, _, .content hl hes, h⟩
  · next hproperties hcontent =>
    obtain ⟨⟨⟩, hskip, h⟩ := bind_eq_ok.mp h
    exact ⟨_, _, .passed hproperties hcontent hskip, h⟩

end Element

namespace MainPart

/-- What one element puts into a main part. -/
inductive Partial.Step (m : Partial) (tag : Tag) (inner : Content) : Partial → Prop
  | document {m' : Partial} :
      tag.label = "document" → Partial.read { m with attributes := tag.texts } inner = .ok m' →
        Step m tag inner m'
  | body {es : List Element} :
      tag.label = "body" → Element.readAll inner = .ok es →
        Step m tag inner { m with body := some ⟨es⟩ }
  | passed :
      tag.label ≠ "document" → tag.label ≠ "body" → inner.skip = .ok () → Step m tag inner m

theorem Partial.exists_step {m m' : Partial} (h : m.read (.element tag inner rest) = .ok m') :
    ∃ next, m.Step tag inner next ∧ next.read rest = .ok m' := by
  rw [Partial.read] at h
  split at h
  · next hl =>
    obtain ⟨next, hread, h⟩ := bind_eq_ok.mp h
    exact ⟨next, .document hl hread, h⟩
  split at h
  · next hl =>
    obtain ⟨es, hes, h⟩ := bind_eq_ok.mp h
    exact ⟨_, .body hl hes, h⟩
  · next hdocument hbody =>
    obtain ⟨⟨⟩, hskip, h⟩ := bind_eq_ok.mp h
    exact ⟨m, .passed hdocument hbody hskip, h⟩

theorem read_eq_ok {source : List Text.Symbol} {m : MainPart} : read source = .ok m ↔
    Partial.read {} (Content.read source) = .ok ⟨m.attributes, some m.body⟩ := by
  rw [read, bind_eq_ok]
  constructor
  · rintro ⟨⟨attributes, body⟩, hread, h⟩
    cases body with
    | none => cases h
    | some body =>
      cases h
      exact hread
  · exact fun hread => ⟨_, hread, rfl⟩

end MainPart

end Letterpress
