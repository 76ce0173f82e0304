import Letterpress.Proofs.Render.Lookups
import Letterpress.Proofs.Render.Overrides

/-!
# Values stay apart

What a paragraph becomes consists of kept runs and of values, and each value has a run of its own.
What is in a value has its conditions decided and is not read otherwise. So another value for a
variable changes the runs of that variable and no other run, whatever tags are in it.
-/

namespace Letterpress

open Template

variable {μ : Type}

/-- A part of what a paragraph becomes. -/
inductive Part where
  /-- A run without a value: one that is no text, or text that is kept. -/
  | kept (r : Run)
  /-- A value, and the run that its tag begins in. -/
  | value (r : Run) (text : String)

namespace Part

def kept? : Part → Option Run
  | kept r => some r
  | value _ _ => none

def value? : Part → Option String
  | kept _ => none
  | value _ text => some text

/-- The run of a part. The conditions in a value are decided; there is no run if nothing is left. -/
def runs (s : Scope) : Part → List Run
  | kept r => [r]
  | value r text => if judged s text = "" then [] else [r.setText (judged s text)]

end Part

section

variable (blockText : BlockText) (s : Scope)

/-- What a fragment of a row becomes. What is kept has the conditions in it decided, too, unless the
row has no other tags. -/
def partsOf (row : List Run) (f : Fragment) : List Part :=
  if f.isValue then [.value f.origin.run (String.ofList f.text)]
  else if (tokenize (rowText row)).all (Tag.isCondition ·.tag) then [.kept f.run]
  else (judgeRuns s [f.run]).map .kept

/-- The parts of what a row of text becomes. -/
def rowParts (row : List Run) : List Part :=
  if tokenize (rowText row) = [] then row.map .kept
  else (fragmentsOf blockText s row).flatMap (partsOf s row)

def Stretch.parts : Stretch → List Part
  | texts row => rowParts blockText s row
  | other r => [.kept r]

def Paragraph.parts (p : Paragraph) : List Part :=
  (Stretch.ofRuns p.runs).flatMap (Stretch.parts blockText s)

end

def Filled.value? : Filled μ → Option String
  | kept _ => none
  | value text _ => some text

theorem judgeRuns_eq_flatMap (s : Scope) (runs : List Run) :
    judgeRuns s runs = runs.flatMap fun r => judgeRuns s [r] := by
  induction runs with
  | nil => rfl
  | cons r rest ih =>
    have happend : judgeRuns s ([r] ++ rest) = judgeRuns s [r] ++ judgeRuns s rest := by
      rw [judgeRuns, List.map_append, List.filter_append]
      rfl
    rw [List.flatMap_cons, ← ih, ← happend]
    rfl

theorem judgeRuns_run (s : Scope) (f : Fragment) :
    judgeRuns s [f.run] = (Part.value f.origin.run (String.ofList f.text)).runs s := by
  by_cases h : judged s (String.ofList f.text) = "" <;>
    simp [judgeRuns, judgeRun, Part.runs, Fragment.run, Run.setText, Run.text?, h]

/-- Where all tags are of conditions, nothing is put in. -/
theorem value?_of_mem_fillAll {gs : List (Glyph μ)} (blockText : BlockText) (s : Scope)
    (h : ∀ t ∈ tokensOf (lex gs), Tag.isCondition t.tag = true) :
    ∀ x ∈ Node.fillAll blockText s (parse gs), x.value? = none := by
  refine Node.forall_mem_fillAll blockText (fun _ => rfl) s _ ?_
  exact forall_mem_parseLexemes (T := fun t => Tag.isCondition t.tag = true)
    ⟨fun _ => trivial, fun _ _ h => (nomatch h), fun _ _ _ => trivial,
      fun keyword _ _ _ _ ho _ => by
        cases keyword with
        | block => cases ho
        | condition | loop => trivial,
      fun _ _ => trivial⟩ h

/-- The values are those that are filled in, in their order. -/
theorem Laid.values {origin? : μ → Option Origin} {filled : List (Filled μ)}
    {fragments : List Fragment} (h : Laid origin? filled fragments) :
    (fragments.filter Fragment.isValue).map (fun f => String.ofList f.text) =
      filled.filterMap Filled.value? := by
  induction h with
  | nil => rfl
  | @kept o glyphs rest fragments hne ho h ih =>
    have hnone : (glyphs.map Filled.kept).filterMap Filled.value? = [] :=
      List.filterMap_eq_nil_iff.mpr (by simp [Filled.value?])
    simpa [List.filterMap_append, hnone] using ih
  | value hne ho h ih => simp [Filled.value?, ih]

theorem Filled.values_filter (filled : List (Filled μ)) :
    (filled.filter (!·.isVoid)).filterMap value? = (filled.filterMap value?).filter (· ≠ "") := by
  induction filled with
  | nil => rfl
  | cons x rest ih =>
    cases x with
    | kept g =>
      have hvoid : (kept g).isVoid = false := by simp [isVoid, chars]
      have hvalue : (kept g).value? = none := rfl
      simp only [List.filter_cons, List.filterMap_cons, hvoid, hvalue, Bool.not_false, if_true, ih]
    | value text tag =>
      have hvoid : ∀ text, (value text tag).isVoid = decide (text = "") := by simp [isVoid, chars]
      have hvalue : ∀ text, (value text tag).value? = some text := fun _ => rfl
      by_cases h : text = "" <;> simp [hvoid, hvalue, h, ih]

section

variable {blockText : BlockText} {s : Scope}

theorem values_fragmentsOf (blockText : BlockText) (s : Scope) (row : List Run) :
    ((fragmentsOf blockText s row).filter Fragment.isValue).map (fun f => String.ofList f.text) =
      ((filledRow blockText s row).filterMap Filled.value?).filter (· ≠ "") := by
  rw [(laid_fragmentsOf blockText s row).values, Filled.values_filter]

theorem isValue_of_mem_fragmentsOf {row : List Run}
    (h : (tokenize (rowText row)).all (Tag.isCondition ·.tag) = true) :
    ∀ f ∈ fragmentsOf blockText s row, f.isValue = false := by
  have hnone : (filledRow blockText s row).filterMap Filled.value? = [] :=
    List.filterMap_eq_nil_iff.mpr (value?_of_mem_fillAll blockText s (List.all_eq_true.mp h))
  have hvalues := values_fragmentsOf blockText s row
  rw [hnone, List.filter_nil, List.map_eq_nil_iff, List.filter_eq_nil_iff] at hvalues
  exact fun f hf => Bool.not_eq_true _ ▸ hvalues f hf

/-- The parts of a row are the runs that it becomes. -/
theorem runs_rowParts (row : List Run) :
    (rowParts blockText s row).flatMap (Part.runs s) = fillRuns blockText s row := by
  unfold rowParts
  split
  · next hnone =>
    rw [fillRuns_of_tokenize_eq_nil blockText s hnone, List.flatMap_map]
    exact List.flatMap_singleton' row
  · next hsome =>
    rw [fillRuns_eq blockText s hsome, List.flatMap_assoc]
    split
    · next hall =>
      rw [List.map_eq_flatMap]
      refine List.flatMap_congr fun f hf => ?_
      simp [partsOf, isValue_of_mem_fragmentsOf hall f hf, hall, Part.runs]
    · next hall =>
      rw [judgeRuns_eq_flatMap, List.flatMap_map]
      refine List.flatMap_congr fun f _ => ?_
      unfold partsOf
      split
      · rw [judgeRuns_run, List.flatMap_singleton]
      · rw [List.flatMap_map]
        exact List.flatMap_singleton' _

theorem values_rowParts (row : List Run) :
    (rowParts blockText s row).filterMap Part.value? =
      ((filledRow blockText s row).filterMap Filled.value?).filter (· ≠ "") := by
  unfold rowParts
  split
  · next hnone =>
    have hkept := Node.fillAll_parse_of_tokensOf_eq_nil blockText s hnone
    rw [filledRow, parseText, hkept]
    simp [List.filterMap_map, Function.comp_def, Part.value?, Filled.value?]
  · rw [← values_fragmentsOf]
    induction fragmentsOf blockText s row with
    | nil => rfl
    | cons f rest ih =>
      rw [List.flatMap_cons, List.filterMap_append, ih]
      cases hf : f.isValue with
      | true => simp [partsOf, hf, Part.value?]
      | false =>
        have hnone : (partsOf s row f).filterMap Part.value? = [] := by
          unfold partsOf
          rw [hf, if_neg Bool.false_ne_true]
          split <;> simp [List.filterMap_map, Function.comp_def, Part.value?]
        simp [hf, hnone]

namespace Paragraph

/-- The parts of a paragraph are the runs that it becomes. -/
theorem runs_fill_eq (p : Paragraph) :
    (p.fill blockText s).runs = (p.parts blockText s).flatMap (Part.runs s) := by
  rw [fill, parts, List.flatMap_assoc, List.flatMap_map]
  refine List.flatMap_congr fun stretch _ => ?_
  cases stretch with
  | texts row => exact (runs_rowParts row).symm
  | other r => rfl

theorem values_parts (p : Paragraph) : (p.parts blockText s).filterMap Part.value? =
    p.rows.flatMap fun row =>
      ((filledRow blockText s row).filterMap Filled.value?).filter (· ≠ "") := by
  unfold parts rows
  induction Stretch.ofRuns p.runs with
  | nil => rfl
  | cons stretch rest ih =>
    rw [List.flatMap_cons, List.filterMap_append, ih]
    cases stretch with
    | texts row => exact congrArg (· ++ _) (values_rowParts row)
    | other r => rfl

end Paragraph

end

/-! ### Two fillings -/

/-- What two values of one variable make of a place: the same, or one value in place of the other. -/
inductive Filled.Alike (v w : String) : Filled μ → Filled μ → Prop
  | refl (x : Filled μ) : Alike v w x x
  | value (tag : List (Glyph μ)) : Alike v w (.value v tag) (.value w tag)

inductive Fragment.Alike (v w : String) : Fragment → Fragment → Prop
  | refl (f : Fragment) : Alike v w f f
  | value (o : Origin) : Alike v w ⟨o, v.toList, true⟩ ⟨o, w.toList, true⟩

inductive Part.Alike (v w : String) : Part → Part → Prop
  | refl (x : Part) : Alike v w x x
  | value (r : Run) : Alike v w (.value r v) (.value r w)

section

variable {v w : String}

theorem Fragment.Alike.prepend (g : Glyph Origin) {a b : List Fragment}
    (h : List.Forall₂ (Alike v w) a b) :
    List.Forall₂ (Alike v w) (Fragment.prepend g a) (Fragment.prepend g b) := by
  cases h with
  | nil => exact .cons (.refl _) .nil
  | cons hf hrest =>
    cases hf with
    | refl f =>
      simp only [Fragment.prepend]
      split
      · exact .cons (.refl _) hrest
      · exact .cons (.refl _) (.cons (.refl _) hrest)
    | value o => exact .cons (.refl _) (.cons (.value o) hrest)

/-- Neither value is empty, so what is kept around them is cut alike. -/
theorem Filled.Alike.ofFilled (hv : v ≠ "") (hw : w ≠ "") {a b : List (Filled Origin)}
    (h : List.Forall₂ (Filled.Alike v w) a b) :
    List.Forall₂ (Fragment.Alike v w) (Fragment.ofFilled a) (Fragment.ofFilled b) := by
  induction h with
  | nil => exact .nil
  | @cons x y _ _ hx _ ih =>
    cases hx with
    | refl =>
      cases x with
      | kept g => exact Fragment.Alike.prepend g ih
      | value text tag =>
        cases tag with
        | nil => exact ih
        | cons g tag =>
          simp only [Fragment.ofFilled]
          split
          · exact ih
          · exact .cons (.refl _) ih
    | value tag =>
      cases tag with
      | nil => exact ih
      | cons g tag =>
        simp only [Fragment.ofFilled, hv, hw, if_false]
        exact .cons (.value _) ih

theorem Part.Alike.kept {a b : List Part} (h : List.Forall₂ (Part.Alike v w) a b) :
    a.filterMap Part.kept? = b.filterMap Part.kept? := by
  induction h with
  | nil => rfl
  | cons hx _ ih =>
    cases hx with
    | refl x => simp only [List.filterMap_cons, ih]
    | value r => exact ih

end

namespace Template.Node

mutual

theorem judge_congr {s s' : Scope} (h : ∀ name, s.holds name = s'.holds name) :
    ∀ node : Node μ, judge s node = judge s' node
  | text _ | placeholder _ _ | inherits _ _ | stray _ => rfl
  | pair keyword name opening body closing => by simp only [judge, h, judgeAll_congr h body]

theorem judgeAll_congr {s s' : Scope} (h : ∀ name, s.holds name = s'.holds name) :
    ∀ nodes : List (Node μ), judgeAll s nodes = judgeAll s' nodes
  | [] => rfl
  | node :: rest => by rw [judgeAll, judgeAll, judge_congr h node, judgeAll_congr h rest]

end

end Template.Node

/-- Whether two fillings give a variable values that are these texts, and are the same otherwise. -/
structure Filling.DifferAt (name v w : String) (f g : Filling) : Prop where
  left : (f.variables.find? name).map Json.display = some v
  right : (g.variables.find? name).map Json.display = some w
  others : ∀ other ≠ name, f.variables.find? other = g.variables.find? other
  lists : f.lists = g.lists
  conditions : f.conditions = g.conditions

section

variable {name v w : String} {f g : Filling} {missing : Missing} {passes : List Pass}

theorem Filling.DifferAt.holds (h : f.DifferAt name v w g) (condition : String) :
    (⟨f, missing, passes⟩ : Scope).holds condition =
      (⟨g, missing, passes⟩ : Scope).holds condition :=
  Scope.holds_congr (by rw [h.conditions])

theorem Filling.DifferAt.judged (h : f.DifferAt name v w g) :
    judged ⟨f, missing, passes⟩ = judged ⟨g, missing, passes⟩ := by
  funext text
  rw [Letterpress.judged, Letterpress.judged, Node.judgeAll_congr h.holds]

/-- At a placeholder stands what a loop gives in either case, or what the fillings give. -/
theorem Filling.DifferAt.alike_placeholder (h : f.DifferAt name v w g) (blockText : BlockText)
    (missing : Missing) (passes : List Pass) (asked : String) (raw : List (Glyph μ)) :
    List.Forall₂ (Filled.Alike v w)
      (Node.fill blockText ⟨f, missing, passes⟩ (.placeholder asked raw))
      (Node.fill blockText ⟨g, missing, passes⟩ (.placeholder asked raw)) := by
  have same : (⟨f, missing, passes⟩ : Scope).value? asked =
      (⟨g, missing, passes⟩ : Scope).value? asked →
        List.Forall₂ (Filled.Alike v w)
          (Node.fill blockText ⟨f, missing, passes⟩ (.placeholder asked raw))
          (Node.fill blockText ⟨g, missing, passes⟩ (.placeholder asked raw)) := by
    intro heq
    simp only [Node.fill, heq]
    exact List.forall₂_same.mpr fun x _ => .refl x
  by_cases hname : asked = name
  · subst hname
    cases hpasses : passes.findSome? (·.value? asked) with
    | some value => exact same (by simp only [Scope.value?, hpasses, Option.some_or])
    | none =>
      have hleft : (⟨f, missing, passes⟩ : Scope).value? asked = some v := by
        simp only [Scope.value?, hpasses, Option.none_or, h.left]
      have hright : (⟨g, missing, passes⟩ : Scope).value? asked = some w := by
        simp only [Scope.value?, hpasses, Option.none_or, h.right]
      simp only [Node.fill, hleft, hright]
      exact .cons (.value raw) .nil
  · exact same (Scope.value?_congr (h.others asked hname))

end

/-! ### Paragraphs -/

/-- Whether a template has no text for any block in a paragraph. -/
def Paragraph.KeepsBlocks (t : Template) (p : Paragraph) : Prop :=
  ∀ row ∈ p.rows, ∀ n ∈ Node.flattenAll (parseText (rowText row)),
    ∀ name ∈ n.argument? .block, t.overrides.lookup name = none

instance (t : Template) (p : Paragraph) : Decidable (p.KeepsBlocks t) :=
  inferInstanceAs (Decidable (∀ row ∈ p.rows, ∀ n ∈ Node.flattenAll (parseText (rowText row)),
    ∀ name ∈ n.argument? .block, t.overrides.lookup name = none))

section

variable {t : Template} {name v w : String} {f g : Filling} {missing : Missing}
  {passes : List Pass}

/-- A block is named alike whatever its text is marked with. -/
theorem argument?_of_mem_parse_glyphsOf {row : List Run} {n : Node Origin}
    (h : n ∈ Node.flattenAll (parse (glyphsOf row))) :
    ∃ n' ∈ Node.flattenAll (parseText (rowText row)),
      ∀ keyword, n'.argument? keyword = n.argument? keyword := by
  have hnodes : (Node.flattenAll (parse (glyphsOf row))).map (Node.map some) =
      (Node.flattenAll (parseText (rowText row))).map
        (Node.map fun q => originAt? 0 row q.offset) := by
    rw [← Node.flattenAll_mapAll, ← Node.flattenAll_mapAll, ← parse_map, parseText, ← parse_map,
      glyphsOf_eq]
  obtain ⟨n', hn', heq⟩ := List.mem_map.mp (hnodes ▸ List.mem_map_of_mem (f := Node.map some) h)
  refine ⟨n', hn', fun keyword => ?_⟩
  rw [← Node.argument?_map (fun q => originAt? 0 row q.offset), heq, Node.argument?_map]

theorem Filling.DifferAt.alike_fragmentsOf (h : f.DifferAt name v w g) (hv : v ≠ "")
    (hw : w ≠ "") {row : List Run} (hblocks : ∀ n ∈ Node.flattenAll (parseText (rowText row)),
      ∀ name ∈ n.argument? .block, t.overrides.lookup name = none) :
    List.Forall₂ (Fragment.Alike v w) (fragmentsOf t.overrideText ⟨f, missing, passes⟩ row)
      (fragmentsOf t.overrideText ⟨g, missing, passes⟩ row) := by
  refine Filled.Alike.ofFilled hv hw (Node.forall₂_fillAll .refl _ passes fun n hn => ?_)
  refine ⟨fun asked hasked passes => ?_, fun _ _ => by rw [h.lists],
    fun _ _ => by rw [h.conditions], fun block hblock passes => ?_⟩
  · match n, hasked with
    | .placeholder asked raw, rfl => exact h.alike_placeholder _ _ passes asked raw
  · obtain ⟨n', hn', hargument⟩ := argument?_of_mem_parse_glyphsOf hn
    simp only [overrideText, hblocks n' hn' block (hargument .block ▸ hblock), Option.map_none]

theorem Filling.DifferAt.alike_partsOf (h : f.DifferAt name v w g) (row : List Run)
    {a b : Fragment} (hab : Fragment.Alike v w a b) :
    List.Forall₂ (Part.Alike v w) (partsOf ⟨f, missing, passes⟩ row a)
      (partsOf ⟨g, missing, passes⟩ row b) := by
  cases hab with
  | refl =>
    have hrun : judgeRuns ⟨f, missing, passes⟩ [a.run] = judgeRuns ⟨g, missing, passes⟩ [a.run] := by
      rw [judgeRuns_run, judgeRuns_run, Part.runs, Part.runs, h.judged]
    rw [partsOf, partsOf, hrun]
    exact List.forall₂_same.mpr fun x _ => .refl x
  | value o =>
    simp only [partsOf, if_true, String.ofList_toList]
    exact .cons (.value o.run) .nil

theorem Filling.DifferAt.alike_parts (h : f.DifferAt name v w g) (hv : v ≠ "") (hw : w ≠ "")
    {p : Paragraph} (hp : p.KeepsBlocks t) :
    List.Forall₂ (Part.Alike v w) (p.parts t.overrideText ⟨f, missing, passes⟩)
      (p.parts t.overrideText ⟨g, missing, passes⟩) := by
  refine forall₂_flatMap fun stretch hstretch => ?_
  cases stretch with
  | other r => exact .cons (.refl _) .nil
  | texts row =>
    have hrow : row ∈ p.rows := Paragraph.mem_rows.mpr hstretch
    simp only [Stretch.parts, rowParts]
    split
    · exact List.forall₂_same.mpr fun x _ => .refl x
    · exact List.rel_flatMap (h.alike_fragmentsOf hv hw (hp row hrow))
        fun _ _ => h.alike_partsOf row

end

/-- Whatever text a variable has, the runs without a value stay the same, and a value gives one run
in the place of its tag: the text with the conditions in it decided, or no run if that is empty. -/
theorem Paragraph.fill_values (t : Template) (p : Paragraph) (hp : p.KeepsBlocks t) (s : Scope)
    (g : Filling) {name v w : String} (hv : v ≠ "") (hw : w ≠ "")
    (h : s.filling.DifferAt name v w g) :
    let s' : Scope := { s with filling := g }
    (∀ u : Scope, (p.fill t.overrideText u).runs =
        (p.parts t.overrideText u).flatMap (Part.runs u) ∧
      (p.parts t.overrideText u).filterMap Part.value? = p.rows.flatMap fun row =>
        ((filledRow t.overrideText u row).filterMap Filled.value?).filter (· ≠ "")) ∧
      judged s = judged s' ∧
      (p.parts t.overrideText s).filterMap Part.kept? =
        (p.parts t.overrideText s').filterMap Part.kept? ∧
      List.Forall₂ (Part.Alike v w) (p.parts t.overrideText s) (p.parts t.overrideText s') := by
  intro s'
  have halike : List.Forall₂ (Part.Alike v w) (p.parts t.overrideText s)
      (p.parts t.overrideText s') := h.alike_parts hv hw hp
  exact ⟨fun u => ⟨p.runs_fill_eq, p.values_parts⟩, h.judged, Part.Alike.kept halike, halike⟩

/-- Half a tag and half of another, between tags and texts that could make a whole of them. -/
theorem Paragraph.fill_values_half_tags :
    let v := tagText "#if c"
    let w := "\x7bc\x7d\x7d" ++ tagText "x" ++ "\x7b\x7b"
    let t : Template := ⟨⟨"page", tagText "#block \"head\"" ++ tagText "/block", none⟩, []⟩
    let p : Paragraph := { runs := [.ofText ("\x7b" ++ tagText "x" ++ "a\x7d\x7d"), .ofContent .tab,
      .ofText (tagText "#block \"foot\"" ++ tagText "x" ++ tagText "#each rows" ++ tagText "x" ++
        tagText "/each" ++ tagText "/if" ++ tagText "/block")] }
    let base : Filling := ({} : Filling).setList "rows" [.null, .object [("x", .string "c")]]
    let f := base.setVariable "x" (.string v)
    let g := base.setVariable "x" (.string w)
    let s : Scope := ⟨f, .keep, []⟩
    let s' : Scope := ⟨g, .keep, []⟩
    p.KeepsBlocks t ∧ v ≠ "" ∧ w ≠ "" ∧ f.DifferAt "x" v w g ∧
      (p.fill t.overrideText s).runs.map Run.chars =
        ["\x7b", v, "a\x7d\x7d", "", v, v, "c", tagText "/if"].map String.toList ∧
      (∀ u : Scope, (p.fill t.overrideText u).runs =
          (p.parts t.overrideText u).flatMap (Part.runs u) ∧
        (p.parts t.overrideText u).filterMap Part.value? = p.rows.flatMap fun row =>
          ((filledRow t.overrideText u row).filterMap Filled.value?).filter (· ≠ "")) ∧
      judged s = judged s' ∧
      (p.parts t.overrideText s).filterMap Part.kept? =
        (p.parts t.overrideText s').filterMap Part.kept? ∧
      List.Forall₂ (Part.Alike v w) (p.parts t.overrideText s) (p.parts t.overrideText s') := by
  intro v w t p base f g s s'
  have hp : p.KeepsBlocks t := by decide +kernel
  have hv : v ≠ "" := by decide +kernel
  have hw : w ≠ "" := by decide +kernel
  have h : f.DifferAt "x" v w g :=
    { left := by simp [f, Filling.setVariable, Json.display]
      right := by simp [g, Filling.setVariable, Json.display]
      others := fun other hne => by
        simp only [f, g, Filling.setVariable, KeyMap.find?_insert_of_ne _ _ hne]
      lists := rfl
      conditions := rfl }
  exact ⟨hp, hv, hw, h, by decide +kernel, fill_values t p hp s g hv hw h⟩

end Letterpress
