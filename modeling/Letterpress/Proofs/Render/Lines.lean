import Letterpress.Engine
import Letterpress.Proofs.Render.Overrides
import Letterpress.Proofs.Template.Around
import Letterpress.Proofs.Template.Joining

/-!
# A line for each paragraph

A template with a document can be filled in paragraph by paragraph, or as a text that has a line for
each paragraph. The two agree where each line is a template by itself: no tag is open at its end and
none is without a partner in it.
-/

namespace Letterpress

open Template

variable {μ ν : Type}

namespace Template

namespace Node

section

variable (blockText : BlockText) (s : Scope)

theorem fillAll_prepend (glyphs : List (Glyph μ)) (nodes : List (Node μ)) :
    fillAll blockText s (prepend glyphs nodes) =
      glyphs.map .kept ++ fillAll blockText s nodes := by
  unfold prepend
  split <;> simp [fillAll, fill]

theorem fillAll_join (nodes more : List (Node μ)) :
    fillAll blockText s (join nodes more) =
      fillAll blockText s nodes ++ fillAll blockText s more := by
  fun_induction join nodes more with
  | case1 more => rfl
  | case2 glyphs more => simp [fillAll_prepend, fillAll, fill]
  | case3 node rest more hnode ih => simp [fillAll, ih]

end

@[simp] theorem render_mapAll (s : Scope) (f : μ → ν) (nodes : List (Node μ)) :
    render s (mapAll f nodes) = render s nodes := by
  simp [render_eq_text, Filled.text, fillAll_map, List.flatMap_map]

@[simp] theorem paired_mapAll (f : μ → ν) (nodes : List (Node μ)) :
    Paired (mapAll f nodes) ↔ Paired nodes := by
  have hstray : ∀ n : Node μ, (n.map f).isStray = n.isStray := fun n => by cases n <;> rfl
  simp [Paired, flattenAll_mapAll, hstray]

end Node

/-- A text without marks. -/
def bare (cs : List Char) : List (Glyph Unit) := cs.map fun c => ⟨c, ()⟩

theorem map_eq_bare (gs : List (Glyph μ)) : gs.map (Glyph.map fun _ => ()) = bare (chars gs) := by
  simp [bare, chars, Glyph.map]

theorem mapAll_parseText (text : String) :
    Node.mapAll (fun _ => ()) (parseText text) = parse (bare text.toList) := by
  rw [parseText, ← parse_map, map_eq_bare, placed, chars_placedFrom]

theorem render_parseText (s : Scope) (text : String) :
    Node.render s (parseText text) = Node.render s (parse (bare text.toList)) := by
  rw [← mapAll_parseText, Node.render_mapAll]

theorem paired_parseText (text : String) :
    Node.Paired (parseText text) ↔ Node.Paired (parse (bare text.toList)) := by
  rw [← mapAll_parseText, Node.paired_mapAll]

/-- Whether a line is a template by itself: no tag is open at its end, and each has a partner. -/
structure IsWhole (line : String) : Prop where
  closed : IsClosed line.toList
  paired : Node.Paired (parseText line)

instance (line : String) : Decidable (IsWhole line) :=
  decidable_of_iff (IsClosed line.toList ∧ Node.Paired (parseText line))
    ⟨fun h => ⟨h.1, h.2⟩, fun h => ⟨h.closed, h.paired⟩⟩

theorem IsWhole.append_line {line more : String} (h : IsWhole line)
    (hmore : Node.Paired (parseText more)) :
    Node.Paired (parseText (line ++ "\n" ++ more)) ∧ ∀ s : Scope,
      Node.render s (parseText (line ++ "\n" ++ more)) =
        Node.render s (parseText line) ++ "\n" ++ Node.render s (parseText more) := by
  have hchars : bare (line ++ "\n" ++ more).toList =
      bare line.toList ++ ⟨'\n', ()⟩ :: bare more.toList := by
    simp [bare]
  have hclosed : IsClosed (chars (bare line.toList)) := by
    simpa [bare, chars, Function.comp_def] using h.closed
  have hline := (paired_parseText line).mp h.paired
  rw [paired_parseText] at hmore
  have hparse := parse_append hclosed hline hmore (g := ⟨'\n', ()⟩) (by simp)
  rw [paired_parseText, hchars, hparse]
  refine ⟨hline.join (hmore.prepend _), fun s => ?_⟩
  rw [render_parseText, render_parseText, render_parseText, hchars, hparse]
  simp [Node.render_eq_text, Filled.text, Node.fillAll_join, Node.fillAll_prepend, Filled.chars,
    String.append_assoc]

/-- Lines that are templates by themselves are filled in line by line. -/
theorem render_intercalate {lines : List String} (h : ∀ line ∈ lines, IsWhole line) :
    Node.Paired (parseText ("\n".intercalate lines)) ∧ ∀ s : Scope,
      Node.render s (parseText ("\n".intercalate lines)) =
        "\n".intercalate (lines.map fun line => Node.render s (parseText line)) := by
  induction lines with
  | nil =>
    have hnil : parseText "" = [] := rfl
    rw [String.intercalate_nil, hnil]
    exact ⟨List.forall_mem_nil _, fun _ => rfl⟩
  | cons line rest ih =>
    obtain ⟨hline, hrest⟩ := List.forall_mem_cons.mp h
    obtain ⟨hpaired, hrender⟩ := ih hrest
    cases rest with
    | nil => simpa using hline.paired
    | cons next rest =>
      obtain ⟨hwhole, hjoined⟩ := hline.append_line hpaired
      simp only [List.map_cons, String.intercalate_cons_cons] at *
      exact ⟨hwhole, fun s => by rw [hjoined, hrender]⟩

end Template

/-! ### Documents -/

namespace Element

mutual

/-- Whether there is nothing but paragraphs of text, bookmarks and setups, also in controls. -/
def isLines : Element → Bool
  | paragraph p => p.runs.all Run.isText
  | table _ => false
  | control _ content => areLines content
  | setup _ => true
  | bookmarkStart _ => true
  | bookmarkEnd _ => true

def areLines : List Element → Bool
  | [] => true
  | e :: rest => isLines e && areLines rest

end

mutual

theorem isText_of_mem_paragraphs : ∀ e : Element, e.isLines → ∀ p ∈ e.paragraphs,
    ∀ r ∈ p.runs, r.isText
  | paragraph _ => fun h _ hp => List.mem_singleton.mp hp ▸ List.all_eq_true.mp h
  | table _ => fun h => absurd h Bool.false_ne_true
  | control _ content => isText_of_mem_paragraphsOf content
  | setup _ | bookmarkStart _ | bookmarkEnd _ => fun _ _ hp => absurd hp List.not_mem_nil

theorem isText_of_mem_paragraphsOf : ∀ elements : List Element, areLines elements →
    ∀ p ∈ paragraphsOf elements, ∀ r ∈ p.runs, r.isText
  | [] => fun _ _ hp => absurd hp List.not_mem_nil
  | e :: rest => fun h p hp => by
    obtain ⟨he, hrest⟩ := Bool.and_eq_true_iff.mp h
    rcases List.mem_append.mp hp with hp | hp
    · exact isText_of_mem_paragraphs e he p hp
    · exact isText_of_mem_paragraphsOf rest hrest p hp

end

variable (blockText : BlockText) (s : Scope)

mutual

theorem paragraphs_fill : ∀ e : Element, e.isLines →
    (e.fill blockText s).paragraphs = e.paragraphs.map (Paragraph.fill blockText s)
  | paragraph _ | setup _ | bookmarkStart _ | bookmarkEnd _ => fun _ => rfl
  | table _ => fun h => absurd h Bool.false_ne_true
  | control _ content => paragraphsOf_fillAll content

/-- Without tables, the paragraphs of what is filled in are those of the elements filled in. -/
theorem paragraphsOf_fillAll : ∀ elements : List Element, areLines elements →
    paragraphsOf (fillAll blockText s elements) =
      (paragraphsOf elements).map (Paragraph.fill blockText s)
  | [] => fun _ => rfl
  | e :: rest => fun h => by
    obtain ⟨he, hrest⟩ := Bool.and_eq_true_iff.mp h
    rw [fillAll, paragraphsOf, paragraphs_fill e he, paragraphsOf_fillAll rest hrest,
      ← List.map_append]
    rfl

end

end Element

/-- A paragraph of text is filled in to what its text renders to if no condition needs to be decided
in what it becomes. -/
theorem Paragraph.text_fill_eq_of_isText {p : Paragraph} (ht : ∀ r ∈ p.runs, r.isText) (s : Scope)
    (h : tokenize p.text ≠ [] → ∀ f ∈ fragmentsOf (fun _ _ => none) s p.runs,
      holdsCondition (String.ofList f.text) = false) :
    (p.fill (fun _ _ => none) s).text = Node.render s (parseText p.text) := by
  rw [p.text_eq_rowText] at h ⊢
  have hrender : Node.render s (parseText (rowText p.runs)) =
      String.ofList ((fillRuns (fun _ _ => none) s p.runs).flatMap Run.chars) := by
    rw [chars_fillRuns_of_holdsCondition _ s h, Node.render_eq_text, Filled.text, filledRow]
  rw [hrender, Paragraph.text_fill, Paragraph.rows, Stretch.ofRuns_of_isText ht]
  by_cases hnil : p.runs = []
  · rw [hnil]
    rfl
  · simp [hnil, Stretch.texts?]

namespace Engine

/-- Filling in a document paragraph by paragraph gives the lines that its text renders to. -/
theorem renderDocument_eq_renderText {e : Engine} {name own : String} {d : Document}
    (hget : e.get name = .ok ⟨.ofDocument own d, []⟩) (hlines : Element.areLines d.body.elements)
    (hblocks : ((Node.blocks (parseText d.plainText)).map Prod.fst).Nodup)
    (hwhole : ∀ p ∈ Element.paragraphsOf d.body.elements, IsWhole p.text) (filling : Filling)
    (hconditions : ∀ p ∈ Element.paragraphsOf d.body.elements, tokenize p.text ≠ [] →
      ∀ f ∈ fragmentsOf (Template.overrideText ⟨.ofDocument own d, []⟩)
        ⟨filling, e.settings.missing, []⟩ p.runs, holdsCondition (String.ofList f.text) = false) :
    ∃ result : Document, e.renderDocument name filling = .ok result ∧
      e.renderText name filling = .ok result.plainText := by
  let t : Template := ⟨.ofDocument own d, []⟩
  let s : Scope := ⟨filling, e.settings.missing, []⟩
  have hoverride : t.overrideText = fun _ _ => none := rfl
  have hdocument : (t.render e.settings filling).plainText = "\n".intercalate
      ((Element.paragraphsOf d.body.elements).map fun p => Node.render s (parseText p.text)) := by
    have hfill : t.render e.settings filling = d.fill t.overrideText s := rfl
    rw [hfill, hoverride, Document.plainText, Body.plainText, Document.fill,
      Element.paragraphsOf_fillAll _ _ _ hlines, List.map_map]
    refine congrArg _ (List.map_congr_left fun p hp => ?_)
    exact p.text_fill_eq_of_isText (Element.isText_of_mem_paragraphsOf _ hlines p hp) s
      (hconditions p hp)
  have htext : t.renderText e.settings filling = "\n".intercalate
      ((Element.paragraphsOf d.body.elements).map fun p => Node.render s (parseText p.text)) := by
    rw [Template.renderText, resolved_eq_nodes t rfl hblocks]
    refine ((render_intercalate (List.forall_mem_map.mpr hwhole)).2 s).trans ?_
    rw [List.map_map]
    rfl
  refine ⟨t.render e.settings filling, ?_, ?_⟩
  · rw [renderDocument, hget]
    rfl
  · rw [renderText, hget, hdocument, ← htext]
    rfl

/-- A letter with a tag cut into two runs, a block and a loop in a control, a paragraph without a
run, and a loop over an unknown list behind a brace. A value has half a tag in it. -/
theorem renderDocument_eq_renderText_letter :
    let list := tagText "#each l" ++ tagText "this" ++ "," ++ tagText "/each"
    let d : Document := { Document.new with body := ⟨[.bookmarkStart ⟨1, "top"⟩,
      .paragraph { runs := [.ofText "Dear \x7b\x7b", .ofText "x\x7d\x7d\x7d:"] },
      .control {} [.paragraph {}, .paragraph { runs :=
        [.ofText (tagText "#block \"b\"" ++ list), .ofText ("etc." ++ tagText "/block")] }],
      .bookmarkEnd 1,
      .paragraph { runs := [.ofText ("\x7b" ++ tagText "#each u" ++ "-" ++ tagText "/each")] },
      .setup .a4]⟩ }
    let t : Template := ⟨.ofDocument "letter" d, []⟩
    let e : Engine := { cache := KeyMap.empty.insert "letter" t }
    let filling : Filling :=
      (Filling.setVariable {} "x" (.string "\x7b\x7b#if ")).setList "l" [.integer 1, .string "two"]
    e.get "letter" = .ok t ∧ Element.areLines d.body.elements ∧
      ((Node.blocks (parseText d.plainText)).map Prod.fst).Nodup ∧
      (∀ p ∈ Element.paragraphsOf d.body.elements, IsWhole p.text) ∧
      (∀ p ∈ Element.paragraphsOf d.body.elements, tokenize p.text ≠ [] →
        ∀ f ∈ fragmentsOf t.overrideText ⟨filling, e.settings.missing, []⟩ p.runs,
          holdsCondition (String.ofList f.text) = false) ∧
      e.renderText "letter" filling = .ok ("Dear \x7b\x7b#if \x7d:\n\n1,two,etc.\n\x7b" ++
        tagText "#each u" ++ "-" ++ tagText "/each") ∧
      ∃ result : Document, e.renderDocument "letter" filling = .ok result ∧
        e.renderText "letter" filling = .ok result.plainText := by
  intro list d t e filling
  have hget : e.get "letter" = .ok t := by simp [get, e]
  have hlines : Element.areLines d.body.elements := by decide +kernel
  have hblocks : ((Node.blocks (parseText d.plainText)).map Prod.fst).Nodup := by decide +kernel
  have hwhole : ∀ p ∈ Element.paragraphsOf d.body.elements, IsWhole p.text := by decide +kernel
  have hconditions : ∀ p ∈ Element.paragraphsOf d.body.elements, tokenize p.text ≠ [] →
      ∀ f ∈ fragmentsOf t.overrideText ⟨filling, e.settings.missing, []⟩ p.runs,
        holdsCondition (String.ofList f.text) = false := by
    decide +kernel
  exact ⟨hget, hlines, hblocks, hwhole, hconditions, by decide +kernel,
    renderDocument_eq_renderText hget hlines hblocks hwhole filling hconditions⟩

end Engine

end Letterpress
