import Letterpress.Engine
import Letterpress.Proofs.Body.Setups
import Letterpress.Proofs.Document.Building
import Letterpress.Proofs.Render.Fill
import Letterpress.Proofs.Text.Lines

/-!
# Texts as paragraphs

Without a document in its chain, a template is rendered to a text, and each line that is shown
becomes a paragraph of a new document. The page of the new document stands first in the body, and is
written last.
-/

namespace Letterpress

open Template Markup Markup.Piece

theorem Markup.Piece.join_append (a b : List Piece) : join (a ++ b) = join a ++ join b := by
  simp [join]

theorem Markup.Piece.join_cons (p : Piece) (rest : List Piece) :
    join (p :: rest) = p.source ++ join rest := by
  rw [join, List.map_cons, String.join_cons, join]

theorem Markup.Piece.join_nil : join [] = "" := rfl

theorem Markup.Piece.join_flatMap {α : Type} (f : α → List Piece) (l : List α) :
    join (l.flatMap f) = String.join (l.map fun a => join (f a)) := by
  induction l with
  | nil => rfl
  | cons a rest ih => rw [List.flatMap_cons, join_append, ih, List.map_cons, String.join_cons]

/-- Whether an element of a name begins. -/
def Markup.Piece.begins (name : String) : Piece → Bool
  | opening n _ => n = name
  | empty n _ => n = name
  | closing _ => false
  | text _ => false
  | verbatim _ => false

namespace Paragraph

/-- A paragraph of a style, if there is one, with a run for its text, if there is any. -/
def ofLine (style : Option String) (text : String) : Paragraph where
  properties := { style }
  runs := if text = "" then [] else [.ofText text]

@[simp] theorem text_ofLine (style : Option String) (text : String) :
    (ofLine style text).text = text := by
  by_cases h : text = "" <;> simp [ofLine, Paragraph.text, h, Run.text?, Run.ofText, Run.ofContent]

/-- What is written for the paragraph of a line. -/
def linePieces (style : Option String) (text : String) : List Piece :=
  element "w:p" []
    ((ifGiven style fun s => element "w:pPr" [] (valued "w:pStyle" s)) ++
      if text = "" then [] else element "w:r" [] (RunContent.text text).pieces)

theorem runsPieces_ofLine (style : Option String) (text : String) :
    runsPieces none (ofLine style text).runs =
      .ok (if text = "" then [] else element "w:r" [] (RunContent.text text).pieces) := by
  by_cases h : text = ""
  · rw [ofLine, if_pos h, if_pos h]
    rfl
  · rw [ofLine, if_neg h, if_neg h]
    simp [runsPieces, Run.pieces, Run.isMark, RunProperties.pieces, RunProperties.isEmpty,
      linkPieces, Run.ofText, Run.ofContent, pure, Except.pure]

theorem properties_pieces_of_style {style : Option String} {pieces : List Piece}
    (h : ({ style } : ParagraphProperties).pieces = .ok pieces) :
    pieces = ifGiven style fun s => element "w:pPr" [] (valued "w:pStyle" s) := by
  cases style with
  | none => exact (Except.ok.inj h).symm
  | some s =>
    obtain ⟨_, _, h⟩ := bind_eq_ok.mp h
    exact (Except.ok.inj h).symm

theorem pieces_ofLine {style : Option String} {text : String} {pieces : List Piece}
    (h : (ofLine style text).pieces = .ok pieces) : pieces = linePieces style text := by
  obtain ⟨properties, hproperties, h⟩ := bind_eq_ok.mp h
  rw [runsPieces_ofLine, ok_bind] at h
  rw [← Except.ok.inj h, properties_pieces_of_style hproperties]
  rfl

end Paragraph

namespace Element

/-- Paragraphs are written one behind the other, a line each. -/
theorem piecesOf_map_ofLine {style : Option String} {texts : List String} {pieces : List Piece}
    (h : piecesOf (texts.map fun s => paragraph (.ofLine style s)) = .ok pieces) :
    pieces = texts.flatMap fun s => Paragraph.linePieces style s ++ [lineEnd] := by
  induction texts generalizing pieces with
  | nil => exact (Except.ok.inj h).symm
  | cons s rest ih =>
    obtain ⟨here, hhere, h⟩ := bind_eq_ok.mp h
    obtain ⟨behind, hbehind, h⟩ := bind_eq_ok.mp h
    rw [List.flatMap_cons, ← ih hbehind, ← Paragraph.pieces_ofLine hhere, List.append_assoc]
    exact (Except.ok.inj h).symm

end Element

namespace Document

/-! ### The document of a text -/

/-- Whether a line gets a paragraph. -/
def keepsLine (settings : Settings) (line : String) : Bool :=
  settings.keepBlankLines || !Text.allBlank line

/-- The texts of the paragraphs that lines get: a blank one is empty. -/
def lineTexts (settings : Settings) (lines : List String) : List String :=
  (lines.filter (keepsLine settings)).map fun line => if Text.allBlank line then "" else line

theorem paragraphOfLine?_eq (settings : Settings) (line : String) :
    paragraphOfLine? settings line =
      if keepsLine settings line then
        some (.ofLine settings.paragraphStyle (if Text.allBlank line then "" else line))
      else none := by
  rw [paragraphOfLine?, keepsLine]
  by_cases hblank : Text.allBlank line
  · cases settings.keepBlankLines <;> cases settings.paragraphStyle <;>
      simp [hblank, Paragraph.ofLine, Paragraph.setStyle]
  · have hne : line ≠ "" := fun h => hblank (h ▸ rfl)
    cases settings.paragraphStyle <;>
      simp [hblank, hne, Paragraph.ofLine, Paragraph.ofText, Paragraph.addText, Paragraph.add,
        Paragraph.setStyle]

theorem filterMap_paragraphOfLine? (settings : Settings) (lines : List String) :
    lines.filterMap (paragraphOfLine? settings) =
      (lineTexts settings lines).map (Paragraph.ofLine settings.paragraphStyle) := by
  induction lines with
  | nil => rfl
  | cons line rest ih =>
    rw [List.filterMap_cons, paragraphOfLine?_eq, ih, lineTexts, lineTexts]
    by_cases hkept : keepsLine settings line
    · rw [if_pos hkept, List.filter_cons_of_pos hkept, List.map_cons, List.map_cons]
    · rw [if_neg hkept, List.filter_cons_of_neg hkept]

theorem foldl_add (paragraphs : List Paragraph) (d : Document) :
    paragraphs.foldl (fun d p => d.add (.paragraph p)) d =
      { d with body := ⟨d.body.elements ++ paragraphs.map .paragraph⟩ } := by
  induction paragraphs generalizing d with
  | nil => simp
  | cons p rest ih =>
    rw [List.foldl_cons, ih]
    simp [add, Body.push]

/-- The body of texts as paragraphs, behind the page of a new document. -/
def lineBody (style : Option String) (texts : List String) : Body :=
  ⟨.setup .a4 :: texts.map fun s => .paragraph (.ofLine style s)⟩

theorem ofText_eq (settings : Settings) (text : String) :
    ofText settings text = { new with
      body := lineBody settings.paragraphStyle (lineTexts settings (shownLines text)) } := by
  rw [ofText, foldl_add, filterMap_paragraphOfLine?, List.map_map]
  rfl

theorem isShown_shownLines (text : String) :
    Text.IsShown (shownLines text) (Text.cutLines text) := by
  rw [← Text.lines_eq_cutLines]
  exact Text.isShown_trimmed _

theorem lineTexts_eq_nil_iff {settings : Settings} {shown lines : List String}
    (h : Text.IsShown shown lines) :
    lineTexts settings shown = [] ↔ ∀ line ∈ lines, Text.allBlank line := by
  rw [← h.eq_nil_iff, lineTexts, List.map_eq_nil_iff]
  constructor
  · intro hnil
    cases shown with
    | nil => rfl
    | cons line rest =>
      have hline := List.filter_eq_nil_iff.mp hnil line (List.mem_cons_self ..)
      simp [keepsLine, h.first line rfl] at hline
  · rintro rfl
    rfl

/-! ### What is written of it -/

/-- The markup of the page of a new document. -/
def pageXml : String :=
  "<w:sectPr><w:pgSz w:w=\"11906\" w:h=\"16838\"/><w:pgMar w:top=\"1440\" w:right=\"1440\" " ++
    "w:bottom=\"1440\" w:left=\"1440\" w:header=\"720\" w:footer=\"720\" w:gutter=\"0\"/>" ++
    "<w:cols w:num=\"1\" w:space=\"720\"/><w:docGrid w:linePitch=\"360\"/></w:sectPr>"

section

variable {style : Option String} {texts : List String}

theorem paragraphs_lineBody :
    (lineBody style texts).paragraphs = texts.map (Paragraph.ofLine style) := by
  have hmap : Element.paragraph? ∘ (fun s => Element.paragraph (.ofLine style s)) =
      some ∘ Paragraph.ofLine style := rfl
  rw [lineBody, Body.paragraphs, List.filterMap_cons, List.filterMap_map, hmap,
    List.filterMap_eq_map]
  rfl

theorem section?_lineBody : (lineBody style texts).section? = some .a4 := by
  have hnone : (texts.map fun s => Element.paragraph (.ofLine style s)).reverse.findSome?
      Element.setup? = none := by
    simp [List.findSome?_eq_none_iff, Element.setup?]
  rw [lineBody, Body.section?, List.reverse_cons, List.findSome?_append, hnone]
  rfl

theorem filter_lineBody : (lineBody style texts).elements.filter (·.setup?.isNone) =
    texts.map fun s => .paragraph (.ofLine style s) := by
  rw [lineBody, List.filter_cons_of_neg (by simp [Element.setup?]), List.filter_eq_self]
  simp [Element.setup?]

/-- The page is written behind the paragraphs. -/
theorem pieces_lineBody {pieces : List Piece} (h : (lineBody style texts).pieces = .ok pieces) :
    ∃ page, Section.a4.pieces = .ok page ∧
      pieces = element "w:body" [] (lineEnd ::
        (texts.flatMap fun s => Paragraph.linePieces style s ++ [lineEnd]) ++
          (page ++ [lineEnd])) := by
  rw [pieces_of_section? section?_lineBody, filter_lineBody] at h
  obtain ⟨others, hothers, h⟩ := bind_eq_ok.mp h
  obtain ⟨page, hpage, h⟩ := bind_eq_ok.mp h
  exact ⟨page, hpage, by rw [← Element.piecesOf_map_ofLine hothers]; exact (Except.ok.inj h).symm⟩

theorem begins_of_mem_linePieces {text : String} {piece : Piece}
    (h : piece ∈ Paragraph.linePieces style text) : piece.begins "w:sectPr" = false := by
  have hall : (Paragraph.linePieces style text).all fun piece => !piece.begins "w:sectPr" := by
    cases style <;> by_cases h : text = "" <;>
      simp [Paragraph.linePieces, element, ifGiven, valued, RunContent.pieces, h, begins]
  simpa using List.all_eq_true.mp hall piece h

/-- One section is written. -/
theorem countP_pieces_lineBody {pieces : List Piece}
    (h : (lineBody style texts).pieces = .ok pieces) : pieces.countP (begins "w:sectPr") = 1 := by
  obtain ⟨page, hpage, rfl⟩ := pieces_lineBody h
  have hlines : (texts.flatMap fun s => Paragraph.linePieces style s ++ [lineEnd]).countP
      (begins "w:sectPr") = 0 := by
    refine List.countP_eq_zero.mpr fun piece hpiece => ?_
    obtain ⟨text, _, hpiece⟩ := List.mem_flatMap.mp hpiece
    rcases List.mem_append.mp hpiece with hpiece | hpiece
    · simp [begins_of_mem_linePieces hpiece]
    · simp [List.mem_singleton.mp hpiece, lineEnd, begins]
  have hone : ∀ page, Section.a4.pieces = .ok page → page.countP (begins "w:sectPr") = 1 := by
    rintro _ ⟨⟩
    decide +kernel
  simp only [element, List.cons_append, List.countP_cons, List.countP_append, hlines,
    hone page hpage]
  rfl

/-- The main part of a new document, around what is written of its paragraphs. -/
theorem xml_lineBody {d : Document} {xml : String} (hbody : d.body = lineBody style texts)
    (hattributes : d.attributes = []) (h : d.xml = .ok xml) :
    xml = declaration ++ (opening "w:document" defaultNamespaces).source ++ "\n<w:body>\n" ++
      String.join (texts.map fun s => join (Paragraph.linePieces style s) ++ "\n") ++
        pageXml ++ "\n</w:body>\n</w:document>" := by
  obtain ⟨pieces, hpieces, h⟩ := bind_eq_ok.mp (mapError_eq_ok.mp h)
  rw [hbody] at hpieces
  obtain ⟨page, hpage, rfl⟩ := pieces_lineBody hpieces
  have hjoin : ∀ page, Section.a4.pieces = .ok page → join page = pageXml := by
    rintro _ ⟨⟩
    decide +kernel
  have hnamespaces : rootAttributes [] = defaultNamespaces := rfl
  have hend : lineEnd.source = "\n" := by decide +kernel
  have hopen : "\n<w:body>\n" = "\n" ++ ((opening "w:body" []).source ++ "\n") := by decide +kernel
  have hclose : "\n</w:body>\n</w:document>" = "\n" ++ ((closing "w:body").source ++ ("\n" ++
      (closing "w:document").source)) := by
    decide +kernel
  rw [← Except.ok.inj h, hattributes, hnamespaces, hopen, hclose]
  simp only [element, List.cons_append, List.append_assoc, join_cons, join_append, join_flatMap,
    hjoin page hpage, hend, join_nil, String.append_assoc, String.append_empty]
  rfl

theorem hasForm_lineBody : (lineBody style texts).hasForm ↔
    texts = [] ∨ ∀ s ∈ style, ∀ level ∈ headingLevel? s, 1 ≤ level ∧ level ≤ 9 := by
  have hruns : ∀ text, (Paragraph.ofLine style text).runs.all Run.hasForm := by
    intro text
    by_cases h : text = "" <;>
      simp [Paragraph.ofLine, h, Run.hasForm, RunProperties.hasForm, Run.ofText, Run.ofContent]
  have hproperties : ({ style } : ParagraphProperties).hasForm ↔
      ∀ s ∈ style, ∀ level ∈ headingLevel? s, 1 ≤ level ∧ level ≤ 9 := by
    simp [ParagraphProperties.hasForm, Option.all_eq_true]
  have hpage : Section.hasForm .a4 := by decide
  have hparagraph : ∀ text, (Element.paragraph (.ofLine style text)).hasForm ↔
      ∀ s ∈ style, ∀ level ∈ headingLevel? s, 1 ≤ level ∧ level ≤ 9 := fun text => by
    rw [Element.hasForm, Paragraph.hasForm, hruns, Bool.and_true]
    exact hproperties
  rw [Body.hasForm, filter_lineBody, section?_lineBody, Option.all_some, hpage, Bool.and_true,
    List.all_map, List.all_eq_true]
  cases texts with
  | nil => simp
  | cons text rest =>
    rw [or_iff_right (List.cons_ne_nil _ _), ← hparagraph text]
    refine ⟨fun h => h text (List.mem_cons_self ..), fun h s _ => ?_⟩
    exact (hparagraph s).mpr ((hparagraph text).mp h)

end

/-- What it is for a document to show the lines of a text. -/
structure ShowsLines (settings : Settings) (text : String) (d : Document) : Prop where
  /-- The lines from the first to the last one that is not blank have a paragraph each, but for the
  blank ones that are not kept. -/
  texts : ∃ shown, Text.IsShown shown (Text.cutLines text) ∧
    d.body.paragraphs.map Paragraph.text = lineTexts settings shown
  paragraph : ∀ p ∈ d.body.paragraphs, p.properties = { style := settings.paragraphStyle } ∧
    p.runs = if p.text = "" then [] else [.ofText p.text]
  eq_nil_iff : d.body.paragraphs = [] ↔ ∀ line ∈ Text.cutLines text, Text.allBlank line
  /-- The page is put in first. -/
  elements : d.body.elements = .setup .a4 :: d.body.paragraphs.map .paragraph
  /-- The page is written last, and it is the only one. -/
  xml : ∀ xml, d.xml = .ok xml → (∀ pieces, d.body.pieces = .ok pieces →
      pieces.countP (begins "w:sectPr") = 1) ∧
    xml = declaration ++ (opening "w:document" defaultNamespaces).source ++ "\n<w:body>\n" ++
      String.join (d.body.paragraphs.map fun p =>
        join (Paragraph.linePieces settings.paragraphStyle p.text) ++ "\n") ++
          pageXml ++ "\n</w:body>\n</w:document>"
  isOk_xml : d.xml.isOk ↔ d.body.paragraphs = [] ∨
    ∀ s ∈ settings.paragraphStyle, ∀ level ∈ headingLevel? s, 1 ≤ level ∧ level ≤ 9

theorem showsLines_of_isShown {settings : Settings} {text : String} {d : Document}
    {shown : List String} (hshown : Text.IsShown shown (Text.cutLines text))
    (hbody : d.body = lineBody settings.paragraphStyle (lineTexts settings shown))
    (hattributes : d.attributes = []) : ShowsLines settings text d := by
  have hparagraphs : d.body.paragraphs =
      (lineTexts settings shown).map (.ofLine settings.paragraphStyle) := by
    rw [hbody, paragraphs_lineBody]
  have htexts : d.body.paragraphs.map Paragraph.text = lineTexts settings shown := by
    simp [hparagraphs, Function.comp_def]
  have hnil : d.body.paragraphs = [] ↔ lineTexts settings shown = [] := by
    rw [hparagraphs, List.map_eq_nil_iff]
  refine ⟨⟨shown, hshown, htexts⟩, fun p hp => ?_, ?_, ?_, fun xml hxml => ⟨?_, ?_⟩, ?_⟩
  · obtain ⟨line, _, rfl⟩ := List.mem_map.mp (hparagraphs ▸ hp)
    rw [Paragraph.text_ofLine]
    exact ⟨rfl, rfl⟩
  · rw [hnil, lineTexts_eq_nil_iff hshown]
  · rw [hparagraphs, hbody, lineBody, List.map_map]
    rfl
  · exact fun pieces hpieces => countP_pieces_lineBody (hbody ▸ hpieces)
  · rw [xml_lineBody hbody hattributes hxml, ← htexts, List.map_map]
    rfl
  · rw [Document.isOk_xml, hbody, hasForm_lineBody, ← hnil, hbody]

end Document

namespace Engine

/-- A template without a document in its chain shows the lines of its text as a document. -/
theorem renderDocument_showsLines {e : Engine} {name : String} {t : Template}
    (hget : e.get name = .ok t) (hbase : ∀ s ∈ t.chain, s.base = none) (filling : Filling) :
    ∃ text d, e.renderText name filling = .ok text ∧ e.renderDocument name filling = .ok d ∧
      d.ShowsLines e.settings text := by
  have hnone : t.base? = none := List.findSome?_eq_none_iff.mpr hbase
  let text := t.renderText e.settings filling
  refine ⟨text, .ofText e.settings text, ?_, ?_, ?_⟩
  · rw [renderText, hget]
    rfl
  · rw [renderDocument, hget, ok_bind, renderTemplate, Template.render, hnone]
    rfl
  · rw [Document.ofText_eq]
    exact Document.showsLines_of_isShown (Document.isShown_shownLines text) rfl rfl

/-- A value brings newlines and blank characters of its own, and a carriage return that gets in
front of a newline. -/
theorem renderDocument_showsLines_letter :
    let block := fun body => tagText "#block \"to\"" ++ body ++ tagText "/block"
    let p : Template := ⟨⟨"letter", " \r\n" ++ block "all" ++ "\r\r\n\u2003\r\n" ++
      tagText "name" ++ "\n\n", none⟩, []⟩
    let t : Template :=
      ⟨⟨"child", tagText "extends \"letter\"" ++ block "Dear <you>", none⟩, p.chain⟩
    let e : Engine := ⟨{ paragraphStyle := some "Heading9" }, KeyMap.empty.insert "child" t⟩
    let filling := Filling.setVariable {} "name" (.string "a\n\u00a0\nb\r")
    e.get "child" = .ok t ∧ (∀ s ∈ t.chain, s.base = none) ∧
      (∃ text d, e.renderText "child" filling = .ok text ∧
        e.renderDocument "child" filling = .ok d ∧ d.ShowsLines e.settings text) ∧
      (e.renderDocument "child" filling).map (fun d =>
        (d.body.paragraphs.map Paragraph.text, d.xml.isOk)) =
          .ok (["Dear <you>\r", "", "a", "", "b"], true) := by
  intro block p t e filling
  have hget : e.get "child" = .ok t := by simp [get, e]
  have hbase : ∀ s ∈ t.chain, s.base = none := by simp [t, p, Template.chain]
  exact ⟨hget, hbase, renderDocument_showsLines hget hbase filling, by decide +kernel⟩

end Engine

end Letterpress
