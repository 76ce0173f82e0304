import Letterpress.Proofs.Render.Formatting

/-!
# How a text is cut into runs

Two paragraphs with the same text are filled in to the same text, however it is cut into runs, as
long as deciding the conditions in each run by itself leaves what was kept as it is written. A
condition that is kept depends on the cuts.
-/

namespace Letterpress

open Template

variable (blockText : BlockText) (s : Scope)

theorem Paragraph.text_eq_rowText (p : Paragraph) : p.text = rowText p.runs := by
  have join : ∀ runs : List Run, String.join (runs.filterMap Run.text?) = rowText runs := by
    intro runs
    induction runs with
    | nil => rfl
    | cons r rest ih =>
      cases h : r.text? with
      | none => simpa [rowText, Run.chars, h] using ih
      | some text => simp [rowText, Run.chars, h, ih, String.join_cons, String.ofList_append]
  exact join p.runs

/-- What is written where values are `f` of what stands for them. -/
def Filled.written {μ : Type} (f : String → String) (filled : List (Filled μ)) : List Char :=
  filled.flatMap fun
    | kept g => [g.char]
    | value text _ => (f text).toList

theorem Laid.flatMap_text {μ : Type} {origin? : μ → Option Origin} {filled : List (Filled μ)}
    {fragments : List Fragment} (h : Laid origin? filled fragments) (f : String → String) :
    fragments.flatMap (fun x => if x.isValue then (f (String.ofList x.text)).toList else x.text) =
      Filled.written f filled := by
  unfold Filled.written
  induction h with
  | nil => rfl
  | @kept o glyphs rest fragments hne ho h ih =>
    rw [List.flatMap_cons, ih, List.flatMap_append, List.flatMap_map]
    congr 1
    exact List.map_eq_flatMap
  | value hne ho h ih => simp [ih]

theorem Retexted.flatMap_chars {f : String → String} {runs out : List Run}
    (h : Retexted f runs out) :
    out.flatMap Run.chars = runs.flatMap fun r => (f (String.ofList r.chars)).toList := by
  have chars_eq : ∀ {r : Run} {text : String},
      r.text? = some text → String.ofList r.chars = text := by
    intro r text h
    simp [Run.chars, h]
  induction h with
  | nil => rfl
  | keep htext hne h ih =>
    rw [List.flatMap_cons, List.flatMap_cons, ih, chars_eq htext]
    rfl
  | drop htext he h ih => rw [List.flatMap_cons, ih, chars_eq htext, he]; rfl

theorem Laid.flatMap_chars {μ : Type} {origin? : μ → Option Origin} {filled : List (Filled μ)}
    {fragments : List Fragment} (h : Laid origin? filled fragments) :
    (fragments.map Fragment.run).flatMap Run.chars = Filled.written id filled := by
  rw [← h.flatMap_text id, List.flatMap_map]
  exact List.flatMap_congr fun x _ => by simp

/-- Replacing the texts of fragments shows in the values alone where the others stay as they are. -/
theorem Retexted.flatMap_chars_of_laid {μ : Type} {origin? : μ → Option Origin}
    {filled : List (Filled μ)} {fragments : List Fragment} {f : String → String} {out : List Run}
    (h : Retexted f (fragments.map Fragment.run) out) (laid : Laid origin? filled fragments)
    (hf : ∀ x ∈ fragments, x.isValue = false → f (String.ofList x.text) = String.ofList x.text) :
    out.flatMap Run.chars = Filled.written f filled := by
  rw [h.flatMap_chars, ← laid.flatMap_text f, List.flatMap_map]
  refine List.flatMap_congr fun x hx => ?_
  rw [Fragment.chars_run]
  cases hv : x.isValue with
  | true => rfl
  | false => simp [hf x hx hv]

/-- The conditions in what is kept as it is written are left alone, one fragment after the other.
They are not decided anew where all tags are of conditions. -/
def LeavesKept (runs : List Run) : Prop :=
  (tokenize (rowText runs)).all (Tag.isCondition ·.tag) = true ∨
    ∀ f ∈ fragmentsOf blockText s runs, f.isValue = false →
      judged s (String.ofList f.text) = String.ofList f.text

instance (runs : List Run) : Decidable (LeavesKept blockText s runs) :=
  inferInstanceAs (Decidable (_ ∨ _))

theorem leavesKept_of_holdsCondition {runs : List Run}
    (h : ∀ f ∈ fragmentsOf blockText s runs, f.isValue = false →
      holdsCondition (String.ofList f.text) = false) : LeavesKept blockText s runs :=
  .inr fun f hf hv => judged_eq_self (h f hf hv)

/-- What a text is filled in to, with the conditions in values decided. -/
def filledChars (text : String) : List Char :=
  if tokenize text = [] then text.toList
  else
    Filled.written (if (tokenize text).all (Tag.isCondition ·.tag) then id else judged s)
      ((Node.fillAll blockText s (parseText text)).filter (!·.isVoid))

theorem flatMap_chars_fillRuns {runs : List Run} (h : LeavesKept blockText s runs) :
    (fillRuns blockText s runs).flatMap Run.chars = filledChars blockText s (rowText runs) := by
  by_cases hnone : tokenize (rowText runs) = []
  · rw [fillRuns_of_tokenize_eq_nil blockText s hnone, filledChars, if_pos hnone, rowText,
      String.toList_ofList]
  have laid := laid_fragmentsOf blockText s runs
  rw [fillRuns_eq blockText s hnone, filledChars, if_neg hnone]
  cases hall : (tokenize (rowText runs)).all (Tag.isCondition ·.tag) with
  | true => exact laid.flatMap_chars
  | false =>
    have htext : ∀ r ∈ (fragmentsOf blockText s runs).map Fragment.run, r.isText := by
      intro r hr
      obtain ⟨f, -, rfl⟩ := List.mem_map.mp hr
      rfl
    have hkept := h.resolve_left (by rw [hall]; exact Bool.false_ne_true)
    exact (retexted_judgeRuns htext).flatMap_chars_of_laid laid hkept

theorem Stretch.ofRuns_of_isText {runs : List Run} (h : ∀ r ∈ runs, r.isText) :
    ofRuns runs = if runs = [] then [] else [texts runs] := by
  induction runs with
  | nil => rfl
  | cons r rest ih =>
    have hr := h r (List.mem_cons_self ..)
    rw [ofRuns, ih fun r hr => h r (List.mem_cons_of_mem _ hr)]
    cases rest <;> simp [hr]

theorem text_fill_of_isText {p : Paragraph} (ht : ∀ r ∈ p.runs, r.isText)
    (hk : LeavesKept blockText s p.runs) :
    (p.fill blockText s).text = String.ofList (filledChars blockText s p.text) := by
  rw [Paragraph.text_eq_rowText, Paragraph.text_eq_rowText, ← flatMap_chars_fillRuns blockText s hk]
  simp only [rowText, Paragraph.fill, Stretch.ofRuns_of_isText ht]
  by_cases hnil : p.runs = []
  · simp [hnil, fillRuns, glyphsOf, glyphsFrom, lex, lexFrom, Reading.held, Lexeme.prepend,
      tokensOf]
  · simp [hnil, Stretch.mapTexts, Stretch.runs]

theorem flatMap_text_fragmentsOf (runs : List Run) :
    (fragmentsOf blockText s runs).flatMap Fragment.text =
      Filled.written id ((filledRow blockText s runs).filter (!·.isVoid)) := by
  rw [← (laid_fragmentsOf blockText s runs).flatMap_chars, List.flatMap_map]
  exact List.flatMap_congr fun f _ => (Fragment.chars_run f).symm

/-- How a text is cut into runs does not show in what it is filled in to, nor, if what is kept is
left alone, in what becomes of that when conditions are decided in each run. What is kept is left
alone if no condition opens in it. -/
theorem text_fill_eq_of_text_eq {p q : Paragraph} (hp : ∀ r ∈ p.runs, r.isText)
    (hq : ∀ r ∈ q.runs, r.isText) (h : p.text = q.text) :
    (fragmentsOf blockText s p.runs).flatMap Fragment.text =
        (fragmentsOf blockText s q.runs).flatMap Fragment.text ∧
      (LeavesKept blockText s p.runs → LeavesKept blockText s q.runs →
        (p.fill blockText s).text = (q.fill blockText s).text) ∧
      ((∀ f ∈ fragmentsOf blockText s p.runs ++ fragmentsOf blockText s q.runs,
          f.isValue = false → holdsCondition (String.ofList f.text) = false) →
        (p.fill blockText s).text = (q.fill blockText s).text) := by
  have hfill : LeavesKept blockText s p.runs → LeavesKept blockText s q.runs →
      (p.fill blockText s).text = (q.fill blockText s).text := fun hpk hqk => by
    rw [text_fill_of_isText blockText s hp hpk, text_fill_of_isText blockText s hq hqk, h]
  refine ⟨?_, hfill, fun hnone => ?_⟩
  · rw [Paragraph.text_eq_rowText, Paragraph.text_eq_rowText] at h
    rw [flatMap_text_fragmentsOf, flatMap_text_fragmentsOf, filledRow, filledRow, h]
  · obtain ⟨hpnone, hqnone⟩ := List.forall_mem_append.mp hnone
    exact hfill (leavesKept_of_holdsCondition blockText s hpnone)
      (leavesKept_of_holdsCondition blockText s hqnone)

/-- A condition in a value is decided, wherever the tags are cut. -/
theorem text_fill_eq_cut_tags :
    let condition := tagText "#if c" ++ "X" ++ tagText "/if"
    let s : Scope := ⟨Filling.setVariable {} "x" (.string (condition ++ "y")), .keep, []⟩
    let p : Paragraph := { runs :=
      [.ofText (tagText "#each u" ++ "\x7b\x7bx"),
        .ofText ("\x7d\x7d" ++ tagText "/each" ++ tagText "x")] }
    let q : Paragraph := { runs :=
      [.ofText "\x7b\x7b", .ofText ("#each u\x7d\x7d" ++ tagText "x" ++ tagText "/each" ++ "\x7b"),
        .ofText "\x7bx\x7d\x7d"] }
    (p.fill (fun _ _ => none) s).text = (q.fill (fun _ _ => none) s).text :=
  (text_fill_eq_of_text_eq _ _ (by decide +kernel) (by decide +kernel) (by decide +kernel)).2.1
    (by decide +kernel) (by decide +kernel)

/-- A loop over an unknown list is kept, but the condition in it is decided when it stands in a run
of its own. -/
theorem text_fill_ne_of_text_eq :
    let s : Scope := ⟨{}, .keep, []⟩
    let condition := tagText "#if c" ++ "X" ++ tagText "/if"
    let p : Paragraph := { runs := [.ofText (tagText "#each u" ++ condition ++ tagText "/each")] }
    let q : Paragraph :=
      { runs := [.ofText (tagText "#each u"), .ofText (condition ++ tagText "/each")] }
    (∀ r ∈ p.runs ++ q.runs, r.isText) ∧ p.text = q.text ∧
      (p.fill (fun _ _ => none) s).text ≠ (q.fill (fun _ _ => none) s).text := by
  decide +kernel

end Letterpress
