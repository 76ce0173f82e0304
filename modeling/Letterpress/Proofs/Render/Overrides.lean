import Letterpress.Proofs.Render.Cuts
import Letterpress.Render

/-!
# Filling in and replacing blocks

Where conditions need not be decided anew, the text of a paragraph filled in is what its rows of text
are filled in to, and that is what they render to once the blocks' bodies are replaced. The two
differ in a loop over an unknown list alone. It is kept as it is written, so the bodies in it must
not have been replaced.
-/

namespace Letterpress

open Template

variable {μ : Type}

namespace Template.Node

variable (body? : String → Option (List (Node μ)))

mutual

/-- Whether replacing bodies does not show in the loops that are kept as they are written. -/
def keepsLoops : Scope → Node μ → Bool
  | s, pair .condition name _ body _ => !s.holds name || keepsLoopsAll s body
  | s, pair .loop name _ body _ =>
    match s.list? name with
    | some items => (s.over false items).all fun s => keepsLoopsAll s body
    | none => textOf (sourceAll (replaceAll body? body)) = textOf (sourceAll body)
  | s, pair .block name _ body _ => (body? name).isSome || keepsLoopsAll s body
  | _, text _ | _, placeholder _ _ | _, inherits _ _ | _, stray _ => true

def keepsLoopsAll : Scope → List (Node μ) → Bool
  | _, [] => true
  | s, node :: rest => keepsLoops s node && keepsLoopsAll s rest

end

variable {body?} {blockText : BlockText}

mutual

theorem chars_fill_replace (h : ∀ s name, blockText s name = (body? name).map (render s)) :
    ∀ (s : Scope) (node : Node μ), keepsLoops body? s node →
      (fill blockText s node).flatMap Filled.chars =
        (fill (fun _ _ => none) s (replace body? node)).flatMap Filled.chars
  | _, text _, _ => rfl
  | _, placeholder _ _, _ => rfl
  | _, inherits _ _, _ => rfl
  | _, stray _, _ => rfl
  | s, pair .condition name opening body closing, hk => by
    simp only [replace, fill, reduceCtorEq, if_false]
    simp only [keepsLoops, Bool.or_eq_true, Bool.not_eq_true'] at hk
    cases hc : s.holds name with
    | true => exact chars_fillAll_replace h s body (hk.resolve_left (by simp [hc]))
    | false => rfl
  | s, pair .loop name opening body closing, hk => by
    simp only [replace, fill, reduceCtorEq, if_false]
    simp only [keepsLoops] at hk
    cases hl : s.list? name with
    | some items =>
      simp only [hl, List.all_eq_true] at hk
      simp only [List.flatMap_assoc]
      exact List.flatMap_congr fun s' hs' => chars_fillAll_replace h s' body (hk s' hs')
    | none =>
      have hsource : chars (sourceAll (replaceAll body? body)) = chars (sourceAll body) := by
        simpa [hl, textOf, String.ofList_inj] using hk
      simp only [Filled.flatMap_chars_map_kept, chars_append, hsource]
  | s, pair .block name opening body closing, hk => by
    simp only [replace, fill, if_true, h]
    simp only [keepsLoops, Bool.or_eq_true] at hk
    cases hb : body? name with
    | some instead => simp [fill, Filled.chars, render_eq_text, Filled.text]
    | none => exact chars_fillAll_replace h s body (hk.resolve_left (by simp [hb]))

theorem chars_fillAll_replace (h : ∀ s name, blockText s name = (body? name).map (render s)) :
    ∀ (s : Scope) (nodes : List (Node μ)), keepsLoopsAll body? s nodes →
      (fillAll blockText s nodes).flatMap Filled.chars =
        (fillAll (fun _ _ => none) s (replaceAll body? nodes)).flatMap Filled.chars
  | _, [], _ => rfl
  | s, node :: rest, hk => by
    simp only [keepsLoopsAll, Bool.and_eq_true] at hk
    simp only [fillAll, replaceAll, List.flatMap_append]
    rw [chars_fill_replace h s node hk.1, chars_fillAll_replace h s rest hk.2]

end

/-- Without a tag all is kept. -/
theorem fillAll_parse_of_tokensOf_eq_nil (blockText : BlockText) (s : Scope) {gs : List (Glyph μ)}
    (h : tokensOf (lex gs) = []) : fillAll blockText s (parse gs) = gs.map .kept := by
  have keeps : ∀ nodes : List (Node μ), (∀ n ∈ flattenAll nodes, ∃ glyphs, n = text glyphs) →
      fillAll blockText s nodes = (sourceAll nodes).map .kept := by
    intro nodes hn
    induction nodes with
    | nil => rfl
    | cons node rest ih =>
      have ih := ih fun n hm => hn n (by simp [flattenAll, hm])
      obtain ⟨glyphs, hnode⟩ : ∃ glyphs, node = text glyphs :=
        hn node (by cases node <;> simp [flattenAll, flatten])
      simp [hnode, fillAll, fill, sourceAll, source, ih]
  have texts : ∀ n ∈ flattenAll (parse gs), ∃ glyphs, n = text glyphs :=
    forall_mem_parseLexemes (T := fun _ => False)
      ⟨fun glyphs => ⟨glyphs, rfl⟩, fun _ _ h => h.elim, fun _ _ h => h.elim,
        fun _ _ _ _ _ h _ => h.elim, fun _ h => h.elim⟩
      (by simp [h])
  rw [keeps _ texts, sourceAll_parse]

end Template.Node

/-! ### Rows of text and paragraphs -/

variable (blockText : BlockText) (s : Scope)

theorem Filled.written_id (filled : List (Filled μ)) :
    written id (filled.filter (!·.isVoid)) = filled.flatMap chars := by
  induction filled with
  | nil => rfl
  | cons x rest ih =>
    cases h : x.isVoid with
    | true =>
      have : x.chars = [] := by simpa [isVoid] using h
      simp [h, ih, this]
    | false =>
      have : written id (x :: rest.filter (!·.isVoid)) =
          x.chars ++ written id (rest.filter (!·.isVoid)) := by
        cases x <;> rfl
      simp [h, ih, this]

theorem chars_fillRuns_of_holdsCondition {runs : List Run}
    (h : tokenize (rowText runs) ≠ [] → ∀ f ∈ fragmentsOf blockText s runs,
      holdsCondition (String.ofList f.text) = false) :
    (fillRuns blockText s runs).flatMap Run.chars =
      (filledRow blockText s runs).flatMap Filled.chars := by
  by_cases hnone : tokenize (rowText runs) = []
  · rw [fillRuns_of_tokenize_eq_nil blockText s hnone, filledRow, parseText,
      Node.fillAll_parse_of_tokensOf_eq_nil blockText s hnone, Filled.flatMap_chars_map_kept,
      placed, chars_placedFrom, rowText, String.toList_ofList]
  have htexts : ∀ f ∈ fragmentsOf blockText s runs,
      judged s (String.ofList f.text) = String.ofList f.text :=
    fun f hf => judged_eq_self (h hnone f hf)
  have laid := laid_fragmentsOf blockText s runs
  rw [← Filled.written_id, ← laid.flatMap_chars, fillRuns_eq blockText s hnone]
  split
  · rfl
  · have htext : ∀ r ∈ (fragmentsOf blockText s runs).map Fragment.run, r.isText := by
      intro r hr
      obtain ⟨f, -, rfl⟩ := List.mem_map.mp hr
      rfl
    rw [(retexted_judgeRuns htext).flatMap_chars, List.flatMap_map, List.flatMap_map]
    refine List.flatMap_congr fun f hf => ?_
    rw [Fragment.chars_run, htexts f hf, String.toList_ofList]

theorem Paragraph.text_fill (p : Paragraph) :
    (p.fill blockText s).text =
      String.join (p.rows.map fun row =>
        String.ofList ((fillRuns blockText s row).flatMap Run.chars)) := by
  have rows : ∀ stretches : List Stretch, (∀ r, .other r ∈ stretches → r.isText = false) →
      rowText ((stretches.map (·.mapTexts (fillRuns blockText s))).flatMap Stretch.runs) =
        String.join ((stretches.filterMap Stretch.texts?).map fun row =>
          String.ofList ((fillRuns blockText s row).flatMap Run.chars)) := by
    intro stretches ho
    induction stretches with
    | nil => rfl
    | cons stretch rest ih =>
      have ih := ih fun r hr => ho r (List.mem_cons_of_mem _ hr)
      rw [rowText] at ih ⊢
      rw [List.map_cons, List.flatMap_cons, List.flatMap_append, String.ofList_append, ih]
      cases stretch with
      | texts row => exact (String.join_cons ..).symm
      | other r =>
        have hr : r.chars = [] := by
          have : r.text? = none := by simpa [Run.isText] using ho r (List.mem_cons_self ..)
          simp [Run.chars, this]
        simp [Stretch.mapTexts, Stretch.runs, Stretch.texts?, List.filterMap_cons, hr]
  rw [Paragraph.text_eq_rowText]
  exact rows _ fun r hr => Stretch.not_isText_of_mem_ofRuns hr

/-- Filling in a paragraph agrees with rendering its text, the blocks' bodies replaced. -/
theorem text_fill_eq_render (t : Template) (p : Paragraph)
    (h : ∀ row ∈ p.rows, tokenize (rowText row) ≠ [] → ∀ f ∈ fragmentsOf t.overrideText s row,
      holdsCondition (String.ofList f.text) = false) :
    (p.fill t.overrideText s).text =
        String.join (p.rows.map fun row => Filled.text (filledRow t.overrideText s row)) ∧
      ((∀ row ∈ p.rows, Node.keepsLoopsAll (t.overrides.lookup ·) s (parseText (rowText row))) →
        (p.fill t.overrideText s).text = String.join (p.rows.map fun row =>
          Node.render s (Node.replaceAll (t.overrides.lookup ·) (parseText (rowText row))))) := by
  have hfilled : (p.fill t.overrideText s).text =
      String.join (p.rows.map fun row => Filled.text (filledRow t.overrideText s row)) := by
    rw [Paragraph.text_fill]
    refine congrArg String.join (List.map_congr_left fun row hrow => ?_)
    rw [chars_fillRuns_of_holdsCondition t.overrideText s (h row hrow), Filled.text]
  refine ⟨hfilled, fun hk => ?_⟩
  rw [hfilled]
  refine congrArg String.join (List.map_congr_left fun row hrow => ?_)
  have hblocks : ∀ s name, t.overrideText s name = (t.overrides.lookup name).map (Node.render s) :=
    fun _ _ => rfl
  rw [Node.render_eq_text, Filled.text, Filled.text, filledRow,
    Node.chars_fillAll_replace hblocks s _ (hk row hrow)]

/-- A block's body is replaced inside a loop over a known list, and a loop over an unknown one is
kept. -/
theorem text_fill_eq_render_split :
    let block := tagText "#block \"b\"" ++ "<" ++ tagText "this" ++ ">" ++ tagText "/block"
    let t : Template := ⟨⟨"child", block, none⟩, [⟨"base", "", some .new⟩]⟩
    let s : Scope := ⟨Filling.setList {} "l" [.integer 1, .string "x"], .keep, []⟩
    let p : Paragraph := { runs :=
      [.ofText (tagText "#each l" ++ "\x7b\x7b#blo"),
        .ofText ("ck \"b\"\x7d\x7dold" ++ tagText "/block" ++ tagText "/each"), .ofContent .tab,
        .ofText (tagText "#each u" ++ tagText "y" ++ tagText "/each")] }
    (p.fill t.overrideText s).text = String.join (p.rows.map fun row =>
      Node.render s (Node.replaceAll (t.overrides.lookup ·) (parseText (rowText row)))) :=
  (text_fill_eq_render _ _ _ (by decide +kernel)).2 (by decide +kernel)

/-- A loop over an unknown list keeps the paragraph's own body of a block. -/
theorem text_fill_ne_render :
    let block := fun body => tagText "#block \"b\"" ++ body ++ tagText "/block"
    let t : Template := ⟨⟨"child", block "new", none⟩, [⟨"base", "", some .new⟩]⟩
    let s : Scope := ⟨{}, .keep, []⟩
    let p : Paragraph := { runs := [.ofText (tagText "#each u" ++ block "old" ++ tagText "/each")] }
    (∀ row ∈ p.rows, ∀ f ∈ fragmentsOf t.overrideText s row,
        holdsCondition (String.ofList f.text) = false) ∧
      (p.fill t.overrideText s).text ≠ String.join (p.rows.map fun row =>
        Node.render s (Node.replaceAll (t.overrides.lookup ·) (parseText (rowText row)))) := by
  decide +kernel

end Letterpress
