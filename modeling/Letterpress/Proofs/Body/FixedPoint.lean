import Letterpress.Proofs.Body.Forms
import Letterpress.Proofs.Body.RoundTrip
import Letterpress.Proofs.Body.Settled

/-!
# Writing again

What is written of a main part that is read is read back and written again. The second text is the
same, unless a cell had no paragraph: its empty one is spelled out when it is written again. From
then on nothing changes.
-/

namespace Letterpress

open Markup Markup.Content Markup.Piece Text

namespace Element

mutual

/-- The cells of all tables, in controls, too. -/
def cells : Element → List Cell
  | paragraph _ => []
  | table t => t.rows.flatMap Row.cells
  | setup _ => []
  | control _ content => cellsOf content
  | bookmarkStart _ => []
  | bookmarkEnd _ => []

def cellsOf : List Element → List Cell
  | [] => []
  | e :: rest => cells e ++ cellsOf rest

end

end Element

/-- Whether no cell lacks a paragraph. -/
def AllFilled (cells : List Cell) : Prop := ∀ c ∈ cells, c.paragraphs ≠ []

instance (cells : List Cell) : Decidable (AllFilled cells) :=
  inferInstanceAs (Decidable (∀ c ∈ cells, c.paragraphs ≠ []))

theorem Cell.paragraphs_normalize_ne_nil (c : Cell) : c.normalize.paragraphs ≠ [] := by
  rw [normalize]
  split
  · exact List.cons_ne_nil _ _
  · next h => simpa using h

theorem Cell.IsSettled.normalize {c : Cell} (h : c.IsSettled) : c.normalize.IsSettled := by
  refine ⟨h.properties, ?_⟩
  rw [Cell.normalize]
  split
  · exact List.forall_mem_singleton.mpr (List.forall_mem_nil _)
  · intro p hp
    obtain ⟨q, hq, rfl⟩ := List.mem_map.mp hp
    rw [(h.paragraphs q hq).normal]
    exact h.paragraphs q hq

theorem Cell.IsSettled.normal {c : Cell} (h : c.IsSettled) (hc : c.paragraphs ≠ []) :
    c.normalize = c := by
  have hparagraphs : c.paragraphs.map Paragraph.normalize = c.paragraphs := by
    conv_rhs => rw [← List.map_id c.paragraphs]
    exact List.map_congr_left fun p hp => (h.paragraphs p hp).normal
  rw [Cell.normalize, if_neg (by simpa using hc), hparagraphs]

namespace Element

mutual

theorem IsSettled.keeps : ∀ {e : Element}, e.IsSettled → e.keeps
  | paragraph _, h => Paragraph.IsSettled.keeps h
  | table t, h => by
    have hcell : ∀ r ∈ t.rows, ∀ c ∈ r.cells, c.keeps := by
      intro r hr c hc
      have hsettled := h.rows r hr c hc
      rw [Cell.keeps, hsettled.properties, Bool.true_and]
      exact List.all_eq_true.mpr fun p hp => (hsettled.paragraphs p hp).keeps
    rw [Element.keeps, Table.keeps, h.properties, Bool.true_and]
    exact List.all_eq_true.mpr fun r hr => List.all_eq_true.mpr (hcell r hr)
  | setup _, _ => rfl
  | control _ _, h => AreSettled.keeps h
  | bookmarkStart _, _ => rfl
  | bookmarkEnd _, _ => rfl

theorem AreSettled.keeps : ∀ {es : List Element}, AreSettled es → keepsAll es
  | [], _ => rfl
  | _ :: _, h => by
    rw [keepsAll, IsSettled.keeps h.1, AreSettled.keeps h.2]
    rfl

end

mutual

theorem cells_normalize : ∀ e : Element, e.normalize.cells = e.cells.map Cell.normalize
  | paragraph _ => rfl
  | table t => by
    simp [normalize, cells, Table.normalize, Row.normalize, List.flatMap_map, List.map_flatMap]
  | setup _ => rfl
  | control _ content => cellsOf_normalizeAll content
  | bookmarkStart _ => rfl
  | bookmarkEnd _ => rfl

theorem cellsOf_normalizeAll : ∀ es : List Element,
    cellsOf (normalizeAll es) = (cellsOf es).map Cell.normalize
  | [] => rfl
  | e :: rest => by
    rw [normalizeAll, cellsOf, cellsOf, List.map_append, cells_normalize e,
      cellsOf_normalizeAll rest]

end

mutual

theorem IsSettled.normalize : ∀ {e : Element}, e.IsSettled → e.normalize.IsSettled
  | paragraph p, h => by
    rw [Element.normalize, Paragraph.IsSettled.normal h]
    exact h
  | table t, h => by
    refine ⟨h.properties, fun r hr c hc => ?_⟩
    obtain ⟨row, hrow, rfl⟩ := List.mem_map.mp hr
    obtain ⟨cell, hcell, rfl⟩ := List.mem_map.mp hc
    exact (h.rows row hrow cell hcell).normalize
  | setup _, _ => trivial
  | control _ _, h => AreSettled.normalizeAll h
  | bookmarkStart _, _ => trivial
  | bookmarkEnd _, _ => trivial

theorem AreSettled.normalizeAll : ∀ {es : List Element}, AreSettled es →
    AreSettled (normalizeAll es)
  | [], _ => trivial
  | _ :: _, h => ⟨IsSettled.normalize h.1, AreSettled.normalizeAll h.2⟩

end

mutual

/-- Settled elements without empty cells are read back as they are. -/
theorem IsSettled.normal : ∀ {e : Element}, e.IsSettled → AllFilled e.cells → e.normalize = e
  | paragraph p, h, _ => congrArg paragraph (Paragraph.IsSettled.normal h)
  | table t, h, hc => by
    have hcells : ∀ r ∈ t.rows, r.cells.map Cell.normalize = r.cells := by
      intro r hr
      conv_rhs => rw [← List.map_id r.cells]
      exact List.map_congr_left fun c hmem =>
        (h.rows r hr c hmem).normal (hc c (List.mem_flatMap.mpr ⟨r, hr, hmem⟩))
    have hrows : t.rows.map Row.normalize = t.rows := by
      conv_rhs => rw [← List.map_id t.rows]
      exact List.map_congr_left fun r hr => by rw [Row.normalize, hcells r hr]; rfl
    rw [normalize, Table.normalize, hrows]
  | setup _, _, _ => rfl
  | control p content, h, hc => congrArg (control p) (AreSettled.normal h hc)
  | bookmarkStart _, _, _ => rfl
  | bookmarkEnd _, _, _ => rfl

theorem AreSettled.normal : ∀ {es : List Element}, AreSettled es → AllFilled (cellsOf es) →
    normalizeAll es = es
  | [], _, _ => rfl
  | e :: rest, h, hc => by
    obtain ⟨here, behind⟩ := List.forall_mem_append.mp hc
    rw [normalizeAll, IsSettled.normal h.1 here, AreSettled.normal h.2 behind]

end

theorem allFilled_normalizeAll (es : List Element) : AllFilled (cellsOf (normalizeAll es)) := by
  intro c hc
  rw [cellsOf_normalizeAll] at hc
  obtain ⟨c, -, rfl⟩ := List.mem_map.mp hc
  exact c.paragraphs_normalize_ne_nil

theorem AreSettled.normalizeAll_normalizeAll {es : List Element} (h : AreSettled es) :
    Element.normalizeAll (Element.normalizeAll es) = Element.normalizeAll es :=
  h.normalizeAll.normal (allFilled_normalizeAll es)

theorem AreSettled.filter {es : List Element} (h : AreSettled es) (p : Element → Bool) :
    AreSettled (es.filter p) := by
  induction es with
  | nil => exact h
  | cons e rest ih =>
    rw [List.filter_cons]
    split
    · exact ⟨h.1, ih h.2⟩
    · exact ih h.2

theorem setup?_normalize (e : Element) : e.normalize.setup? = e.setup? := by
  cases e <;> rfl

theorem filter_normalizeAll (es : List Element) :
    (normalizeAll es).filter (·.setup?.isNone) = normalizeAll (es.filter (·.setup?.isNone)) := by
  induction es with
  | nil => rfl
  | cons e rest ih =>
    rw [normalizeAll, List.filter_cons, List.filter_cons, setup?_normalize, ih]
    split <;> rfl

/-- A section setup has no cells. -/
theorem cellsOf_filter (es : List Element) :
    cellsOf (es.filter (·.setup?.isNone)) = cellsOf es := by
  induction es with
  | nil => rfl
  | cons e rest ih =>
    rw [List.filter_cons, cellsOf, ← ih]
    cases e <;> rfl

end Element

/-! ### What can be written again -/

theorem Run.isMark_normalize (r : Run) : r.normalize.isMark = r.isMark := rfl

/-- The size of the letters stays, and a mark has a form in any case. -/
theorem Run.hasForm_normalize (r : Run) : r.normalize.hasForm = r.hasForm := by
  rw [hasForm, hasForm, isMark_normalize]
  cases hmark : r.isMark with
  | true => rfl
  | false =>
    rw [normalize, hmark, if_neg Bool.false_ne_true]
    rfl

theorem Paragraph.hasForm_normalize (p : Paragraph) : p.normalize.hasForm = p.hasForm := by
  simp only [hasForm, normalize, List.all_map, Function.comp_def, Run.hasForm_normalize]

theorem Cell.hasForm_normalize (c : Cell) : c.normalize.hasForm = c.hasForm := by
  rw [hasForm, hasForm, normalize]
  congr 1
  by_cases hempty : c.paragraphs = []
  · rw [hempty]
    rfl
  · rw [if_neg (by simpa using hempty), List.all_map]
    exact congrArg c.paragraphs.all (funext Paragraph.hasForm_normalize)

theorem Row.hasForm_normalize (r : Row) : r.normalize.hasForm = r.hasForm := by
  simp only [hasForm, normalize, List.isEmpty_map, List.all_map, Function.comp_def,
    Cell.hasForm_normalize]

theorem Table.hasForm_normalize (t : Table) : t.normalize.hasForm = t.hasForm := by
  simp only [hasForm, normalize, List.all_map, Function.comp_def, Row.hasForm_normalize]

namespace Element

mutual

theorem hasForm_normalize : ∀ e : Element, e.normalize.hasForm = e.hasForm
  | paragraph p => p.hasForm_normalize
  | table t => t.hasForm_normalize
  | setup _ => rfl
  | control _ content => haveForms_normalizeAll content
  | bookmarkStart _ => rfl
  | bookmarkEnd _ => rfl

theorem haveForms_normalizeAll : ∀ es : List Element,
    haveForms (normalizeAll es) = haveForms es
  | [] => rfl
  | e :: rest => by
    rw [normalizeAll, haveForms, haveForms, hasForm_normalize e, haveForms_normalizeAll rest]

end

end Element

/-! ### Bodies and the main part -/

namespace Body

variable {b : Body}

theorem filter_normalize (b : Body) : b.normalize.elements.filter (·.setup?.isNone) =
    Element.normalizeAll (b.elements.filter (·.setup?.isNone)) := by
  have hsetup : (b.section?.map Element.setup).toList.filter (·.setup?.isNone) = [] := by
    cases b.section? <;> rfl
  rw [normalize, List.filter_append, hsetup, List.append_nil, Element.filter_normalizeAll,
    List.filter_filter]
  simp

theorem section?_normalize (b : Body) : b.normalize.section? = b.section? := by
  have hnone : (Element.normalizeAll (b.elements.filter (·.setup?.isNone))).reverse.findSome?
      Element.setup? = none := by
    rw [List.findSome?_eq_none_iff, ← Element.filter_normalizeAll]
    intro e he
    simpa using (List.mem_filter.mp (List.mem_reverse.mp he)).2
  rw [section?, normalize, List.reverse_append, List.findSome?_append, hnone]
  cases b.section? <;> rfl

theorem normalize_normalize (h : Element.AreSettled b.elements) :
    b.normalize.normalize = b.normalize := by
  rw [normalize, filter_normalize, section?_normalize,
    (h.filter _).normalizeAll_normalizeAll, normalize]

/-- A body without empty cells is written as its normal form is. -/
theorem pieces_normalize (h : Element.AreSettled b.elements)
    (hcells : AllFilled (Element.cellsOf b.elements)) : b.normalize.pieces = b.pieces := by
  have hfilled : AllFilled (Element.cellsOf (b.elements.filter (·.setup?.isNone))) := by
    rwa [Element.cellsOf_filter]
  rw [pieces, pieces, filter_normalize, section?_normalize, (h.filter _).normal hfilled]

theorem areSettled_normalize (h : Element.AreSettled b.elements) :
    Element.AreSettled b.normalize.elements := by
  refine Element.areSettled_append (h.filter _).normalizeAll ?_
  cases b.section?
  · trivial
  · exact ⟨trivial, trivial⟩

/-- The normal form of a body can be written just if the body can. -/
theorem hasForm_normalize (b : Body) : b.normalize.hasForm = b.hasForm := by
  rw [hasForm, hasForm, filter_normalize, section?_normalize, ← Element.haveForms_eq_all,
    ← Element.haveForms_eq_all, Element.haveForms_normalizeAll]

end Body

theorem rootAttributes_rootAttributes (attributes : List (String × String)) :
    rootAttributes (rootAttributes attributes) = rootAttributes attributes := by
  have hnone : defaultNamespaces.filter
      (fun n => !(rootAttributes attributes).any (·.1 = n.1)) = [] := by
    rw [List.filter_eq_nil_iff]
    intro n hn
    have hany : (rootAttributes attributes).any (·.1 = n.1) := by
      rw [rootAttributes, List.any_append, Bool.or_eq_true]
      by_cases h : attributes.any (·.1 = n.1)
      · exact .inl h
      · have hadded : n ∈ defaultNamespaces.filter fun n => !attributes.any (·.1 = n.1) :=
          List.mem_filter.mpr ⟨hn, by simpa only [Bool.not_eq_true', Bool.not_eq_true] using h⟩
        exact .inr (List.any_eq_true.mpr ⟨n, hadded, by simp⟩)
    rw [hany]
    exact Bool.false_ne_true
  rw [rootAttributes, hnone, List.append_nil]

/-- What is written of a main part that is read is read back, and written again as it is if all
cells have paragraphs. In any case what is written again stays as it is. -/
theorem mainPartXml_again {source : List Symbol} {m : MainPart} {xml : String}
    (hread : MainPart.read source = .ok m)
    (hquotes : ClosesQuotes (attributesSource (rootAttributes m.attributes)))
    (h : mainPartXml m.body m.attributes = .ok xml) :
    ∃ again, MainPart.read (Symbol.read xml.toUTF8) = .ok again ∧
      (AllFilled (Element.cellsOf m.body.elements) →
        mainPartXml again.body again.attributes = .ok xml) ∧
      ∃ settled, mainPartXml again.body again.attributes = .ok settled ∧
        MainPart.read (Symbol.read settled.toUTF8) = .ok again := by
  have sound : Attribute.Sound (rootAttributes m.attributes) :=
    sound_rootAttributes (MainPart.sound_attributes (map_eq_ok.mpr ⟨m, hread, rfl⟩))
  have hsettled := MainPart.areSettled_of_read hread
  refine ⟨⟨rootAttributes m.attributes, m.body.normalize⟩,
    read_written sound hquotes hsettled.keeps h, fun hcells => ?_, ?_⟩
  · rw [mainPartXml, Body.pieces_normalize hsettled hcells, rootAttributes_rootAttributes]
    exact h
  · have hform : m.body.normalize.hasForm := by
      rw [Body.hasForm_normalize, ← isOk_mainPartXml, h]
      rfl
    have idem := rootAttributes_rootAttributes m.attributes
    obtain ⟨settled, hagain⟩ : ∃ settled,
        mainPartXml m.body.normalize (rootAttributes m.attributes) = .ok settled :=
      exists_of_isOk (by rwa [isOk_mainPartXml])
    have hread' := read_written (idem.symm ▸ sound) (idem.symm ▸ hquotes)
      (Body.areSettled_normalize hsettled).keeps hagain
    refine ⟨_, hagain, hread'.trans ?_⟩
    rw [Body.normalize_normalize hsettled, idem]

theorem mainPartXml_again_graphic : ∃ m xml again,
    MainPart.read (Symbol.ofString
      ("<w:document b='1'><w:body><w:p><w:r><w:pict><v:f a='>'/></w:pict></w:r></w:p>" ++
      "<w:tbl><w:tr><w:tc><w:p/></w:tc></w:tr></w:tbl></w:body></w:document>")) = .ok m ∧
    mainPartXml m.body m.attributes = .ok xml ∧
    MainPart.read (Symbol.read xml.toUTF8) = .ok again ∧
    mainPartXml again.body again.attributes = .ok xml := by
  obtain ⟨m, hread, hm⟩ := map_eq_ok.mp (show (MainPart.read (Symbol.ofString
      ("<w:document b='1'><w:body><w:p><w:r><w:pict><v:f a='>'/></w:pict></w:r></w:p>" ++
      "<w:tbl><w:tr><w:tc><w:p/></w:tc></w:tr></w:tbl></w:body></w:document>"))).map
        (fun m => (m.attributes, m.body.pieces.isOk,
          decide (AllFilled (Element.cellsOf m.body.elements)))) = .ok ([("b", "1")], true, true) by
    rw [Symbol.ofString_append, Symbol.ofString_ofList, Symbol.ofString_ofList]
    decide +kernel)
  simp only [Prod.mk.injEq, decide_eq_true_eq] at hm
  obtain ⟨hattributes, hok, hfilled⟩ := hm
  cases hpieces : m.body.pieces with
  | error e =>
    rw [hpieces] at hok
    cases hok
  | ok pieces =>
    have hxml : mainPartXml m.body m.attributes = .ok _ := bind_eq_ok.mpr ⟨pieces, hpieces, rfl⟩
    have hquotes : ClosesQuotes (attributesSource (rootAttributes m.attributes)) := by
      rw [hattributes]
      exact closesQuotes_rootAttributes (by decide)
    obtain ⟨again, hagain, hsame, -⟩ := mainPartXml_again hread hquotes hxml
    exact ⟨m, _, again, hread, hxml, hagain, hsame hfilled⟩

theorem symbols_eq_of_written_eq {attributes : List (String × String)} {a b : List Piece}
    (h : join (.verbatim declaration ::
        Piece.element "w:document" attributes (lineEnd :: a ++ [lineEnd])) =
      join (.verbatim declaration ::
        Piece.element "w:document" attributes (lineEnd :: b ++ [lineEnd]))) :
    symbols a = symbols b := by
  have hwritten : ∀ c : List Piece, Symbol.ofString (join (.verbatim declaration ::
        Piece.element "w:document" attributes (lineEnd :: c ++ [lineEnd]))) =
      symbols [.verbatim declaration, .opening "w:document" attributes, lineEnd] ++
        (symbols c ++ symbols [lineEnd, .closing "w:document"]) := by
    intro c
    rw [← symbols_append, ← symbols_append, Piece.element]
    simp [symbols]
  have hsame := congrArg Symbol.ofString h
  rw [hwritten, hwritten] at hsame
  exact List.append_cancel_right (List.append_cancel_left hsame)

/-- The paragraph of an empty cell is spelled out when it is written again, and a quote in a name
may keep what is written from being read. -/
theorem mainPartXml_again_ne :
    (∃ m xml again other,
      MainPart.read (Symbol.ofString
        "<w:document><w:body><w:tbl><w:tr><w:tc></w:tc></w:tr></w:tbl></w:body></w:document>") =
          .ok m ∧
      mainPartXml m.body m.attributes = .ok xml ∧
      MainPart.read (Symbol.read xml.toUTF8) = .ok again ∧
      mainPartXml again.body again.attributes = .ok other ∧ other ≠ xml) ∧
    ∃ m xml,
      MainPart.read (Symbol.ofString
        ("<w:document xmlns:w=\"\" xmlns:r=\"\" xmlns:wp=\"\" xmlns:a=\"\" " ++
        "xmlns:pic=\"\" xmlns:mc=\"\" xmlns:v=\"\" xmlns:o=\"\" a\"b=\"x\" \"><w:body/></w:document>")) =
          .ok m ∧
      mainPartXml m.body m.attributes = .ok xml ∧
      ∀ again, MainPart.read (Symbol.read xml.toUTF8) ≠ .ok again := by
  refine ⟨?_, _, _, read_quotedAttributes, rfl, not_read_quotedAttributes rfl⟩
  let before : List Piece := [.opening "w:body" [], lineEnd, .opening "w:tbl" [],
    .opening "w:tblPr" [], .closing "w:tblPr", .opening "w:tblGrid" [], .closing "w:tblGrid",
    .opening "w:tr" [], .opening "w:tc" []]
  let behind : List Piece :=
    [.closing "w:tc", .closing "w:tr", .closing "w:tbl", lineEnd, .closing "w:body"]
  let explicit : List Piece := Piece.element "w:p" [] []
  obtain ⟨m, hread, hm⟩ := map_eq_ok.mp (show (MainPart.read (Symbol.ofString
      "<w:document><w:body><w:tbl><w:tr><w:tc></w:tc></w:tr></w:tbl></w:body></w:document>")).map
        (fun m => ((m.attributes, m.body.keeps), m.body.pieces, m.body.normalize.pieces)) =
      .ok (([], true), .ok (before ++ ([.empty "w:p" []] ++ behind)),
        .ok (before ++ (explicit ++ behind))) by
    rw [Symbol.ofString_ofList]
    decide +kernel)
  simp only [Prod.mk.injEq] at hm
  obtain ⟨⟨hattributes, hkeeps⟩, hpieces, hother⟩ := hm
  have hxml : mainPartXml m.body m.attributes = .ok _ := bind_eq_ok.mpr ⟨_, hpieces, rfl⟩
  have hagain := read_written (sound_rootAttributes (MainPart.sound_attributes
    (map_eq_ok.mpr ⟨m, hread, rfl⟩))) (by
      rw [hattributes]
      exact closesQuotes_rootAttributes (by decide)) hkeeps hxml
  refine ⟨m, _, _, _, hread, hxml, hagain, bind_eq_ok.mpr ⟨_, hother, rfl⟩, fun hsame => ?_⟩
  rw [rootAttributes_rootAttributes] at hsame
  have hspelled : symbols explicit ≠ symbols [.empty "w:p" []] := by decide +kernel
  have hbodies := symbols_eq_of_written_eq hsame
  rw [symbols_append, symbols_append before, symbols_append, symbols_append _ behind] at hbodies
  exact hspelled (List.append_cancel_right (List.append_cancel_left hbodies))

end Letterpress
