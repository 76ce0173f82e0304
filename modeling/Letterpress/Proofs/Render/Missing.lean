import Letterpress.Engine
import Letterpress.Proofs.Render.Erasing
import Letterpress.Proofs.Render.Names
import Letterpress.Proofs.Template.Around
import Letterpress.Proofs.Template.Spans

/-!
# Names that nothing gives

Where what is missing is kept, a template filled in without any of its names stays as it is written,
but for the conditions around which there is no loop: these do not hold. A paragraph keeps its runs,
however its tags are cut into them, and only empty ones go.
-/

namespace Letterpress

open Template

variable {μ : Type}

theorem Run.setText_text {r : Run} {text : String} (h : r.text? = some text) :
    r.setText text = r := by
  obtain ⟨properties, content, link⟩ := r
  cases content <;> simp_all [text?, setText]

namespace Template.Node

def isCondition : Node μ → Bool
  | pair .condition _ _ _ _ => true
  | _ => false

/-- Whether a node names nothing that the scope gives. A block or a parent is never kept. -/
def IsUnknown (s : Scope) : Node μ → Prop
  | placeholder name _ => s.value? name = none
  | pair .condition name _ _ _ => s.holds name = false
  | pair .loop name _ _ _ => s.list? name = none
  | pair .block _ _ _ _ | inherits _ _ => False
  | text _ | stray _ => True

variable (blockText : BlockText) {s : Scope} (hkeep : s.missing = .keep)

include hkeep

theorem fill_of_isUnknown {node : Node μ} (h : node.IsUnknown s) :
    fill blockText s node = if node.isCondition then [] else node.source.map .kept := by
  match node, h with
  | text glyphs, _ => rfl
  | placeholder name raw, h =>
    have hvalue : s.value? name = none := h
    simp [fill, hvalue, hkeep, isCondition, source]
  | stray raw, _ => rfl
  | pair .condition name opening body closing, h =>
    have hholds : s.holds name = false := h
    simp [fill, hholds, isCondition]
  | pair .loop name opening body closing, h =>
    have hlist : s.list? name = none := h
    simp [fill, hlist, isCondition, source]

/-- Conditions go, and all else is kept as it is written. -/
theorem fillAll_of_isUnknown {nodes : List (Node μ)} (h : ∀ n ∈ nodes, n.IsUnknown s) :
    fillAll blockText s nodes = (sourceAll (nodes.filter (!·.isCondition))).map .kept := by
  induction nodes with
  | nil => rfl
  | cons node rest ih =>
    obtain ⟨hnode, hrest⟩ := List.forall_mem_cons.mp h
    rw [fillAll, fill_of_isUnknown blockText hkeep hnode, ih hrest]
    cases hc : node.isCondition <;> simp [hc, sourceAll]

end Template.Node

namespace Template.Node

/-- Without the spans of some nodes in a row, the others are left as they are written. -/
theorem keptChars_of_stretch (q : Node Place → Bool) {s : String} {nodes : List (Node Place)}
    {before behind : List (Glyph Place)} (h : placed s = before ++ sourceAll nodes ++ behind)
    (hne : ∀ n ∈ nodes, n.source ≠ []) :
    keptChars ((nodes.filter q).map span) (byteSize before) (chars (sourceAll nodes)) =
      chars (sourceAll (nodes.filter (!q ·))) := by
  induction nodes generalizing before with
  | nil => rfl
  | cons node rest ih =>
    obtain ⟨hnode, hrest⟩ := List.forall_mem_cons.mp hne
    obtain ⟨atNode, atRest⟩ := stretches_of_cons h
    have hspan : node.span = ⟨byteSize before, byteSize before + byteSize node.source⟩ :=
      spanOf_stretch atNode hnode
    have hlater : ∀ later ∈ (rest.filter q).map span,
        byteSize before + byteSize node.source ≤ later.start := by
      intro later hmem
      rw [← byteSize_append]
      exact (tiles_of_stretch atRest hrest).le_start later
        ((List.filter_sublist.map _).subset hmem)
    have hbehind := ih atRest hrest
    rw [byteSize_append] at hbehind
    rw [sourceAll, chars_append, keptChars_append, ← byteSize_eq_sum]
    cases hq : q node with
    | false =>
      have hkept : keptChars ((rest.filter q).map span) (byteSize before) (chars node.source) =
          chars node.source := by
        refine keptChars_eq_self fun i _ hi => isOutside_of_lt_start fun later hmem => ?_
        rw [← byteSize_eq_sum] at hi
        exact Nat.lt_of_lt_of_le hi (hlater later hmem)
      simp only [List.filter_cons, hq, Bool.not_false, if_true, Bool.false_eq_true, if_false]
      rw [hkept, hbehind, sourceAll, chars_append]
    | true =>
      have hgone : keptChars (node.span :: (rest.filter q).map span) (byteSize before)
          (chars node.source) = [] := by
        refine keptChars_eq_nil fun i hi hlt => ?_
        rw [← byteSize_eq_sum] at hlt
        simp [isOutside, hspan, hi, hlt]
      simp only [List.filter_cons, hq, Bool.not_true, if_true, Bool.false_eq_true, if_false]
      rw [List.map_cons, hgone, List.nil_append,
        keptChars_cons_of_stop_le (Nat.le_of_eq (by rw [hspan])), hbehind]

theorem keptChars_parseText (q : Node Place → Bool) (text : String) :
    keptChars (((parseText text).filter q).map span) 0 text.toList =
      chars (sourceAll ((parseText text).filter (!q ·))) := by
  have hsource : sourceAll (parseText text) = placed text := sourceAll_parse _
  have hne : ∀ n ∈ parseText text, n.source ≠ [] :=
    (spellsAll_parseLexemes _).source_ne_nil isSound_of_mem_lex
  have hplaced : placed text = [] ++ sourceAll (parseText text) ++ [] := by simp [hsource]
  have hkept := keptChars_of_stretch q hplaced hne
  rw [hsource, placed, chars_placedFrom] at hkept
  exact hkept

/-! ### Texts -/

mutual

/-- The conditions in a node that stand in no loop and in no other condition. -/
def outerConditions : Node μ → List (Node μ)
  | pair .condition name opening body closing => [pair .condition name opening body closing]
  | pair .loop _ _ _ _ => []
  | pair .block _ _ body _ => outerConditionsAll body
  | text _ | placeholder _ _ | inherits _ _ | stray _ => []

def outerConditionsAll : List (Node μ) → List (Node μ)
  | [] => []
  | node :: rest => outerConditions node ++ outerConditionsAll rest

end

theorem blocks_eq_nil {nodes : List (Node μ)}
    (h : ∀ n ∈ flattenAll nodes, n.argument? .block = none) : blocks nodes = [] := by
  refine List.filterMap_eq_nil_iff.mpr fun n hn => ?_
  match n, h n hn with
  | pair .condition _ _ _ _, _ | pair .loop _ _ _ _, _ | text _, _ | placeholder _ _, _
  | inherits _ _, _ | stray _, _ => rfl

theorem outerConditionsAll_eq_filter {nodes : List (Node μ)}
    (h : ∀ n ∈ nodes, n.argument? .block = none) :
    outerConditionsAll nodes = nodes.filter isCondition := by
  induction nodes with
  | nil => rfl
  | cons node rest ih =>
    obtain ⟨hnode, hrest⟩ := List.forall_mem_cons.mp h
    rw [outerConditionsAll, ih hrest]
    match node, hnode with
    | pair .condition _ _ _ _, _ | pair .loop _ _ _ _, _ | text _, _ | placeholder _ _, _
    | inherits _ _, _ | stray _, _ => rfl

end Template.Node

/-- Whether a filling gives none of the names in a template. -/
structure Filling.GivesNone (f : Filling) (s : Template.Sheet) : Prop where
  «variables» : ∀ name ∈ s.variables, f.variables.find? name = none
  lists : ∀ name ∈ s.lists, f.lists.find? name = none
  conditions : ∀ name ∈ s.conditions, f.conditions.find? name = none

instance (f : Filling) (s : Template.Sheet) : Decidable (f.GivesNone s) :=
  decidable_of_iff ((∀ name ∈ s.variables, f.variables.find? name = none) ∧
      (∀ name ∈ s.lists, f.lists.find? name = none) ∧
        ∀ name ∈ s.conditions, f.conditions.find? name = none)
    ⟨fun ⟨hvariables, hlists, hconditions⟩ => ⟨hvariables, hlists, hconditions⟩,
      fun h => ⟨h.variables, h.lists, h.conditions⟩⟩

namespace Template

variable {sheet : Sheet}

theorem Sheet.argument?_block_of_blocks_eq_nil (h : sheet.blocks = []) :
    ∀ n ∈ Node.flattenAll sheet.nodes, n.argument? .block = none := by
  intro n hn
  cases hname : n.argument? .block with
  | none => rfl
  | some name =>
    have hmem : name ∈ sheet.blocks := Sheet.mem_arguments hn hname
    exact absurd hmem (h ▸ List.not_mem_nil)

theorem Node.isUnknown_of_givesNone {f : Filling} {missing : Missing} (hnone : f.GivesNone sheet)
    (hblocks : sheet.blocks = []) (hparent : sheet.parent? = none) :
    ∀ n ∈ Node.flattenAll sheet.nodes, n.IsUnknown ⟨f, missing, []⟩ := by
  intro n hn
  have hblock := Sheet.argument?_block_of_blocks_eq_nil hblocks n hn
  match n, hn, hblock with
  | .text _, _, _ | .stray _, _, _ => trivial
  | .placeholder name raw, hn, _ =>
    have hvalue := hnone.variables name (Sheet.mem_variables hn rfl)
    simp [IsUnknown, Scope.value?, hvalue]
  | .pair .condition name opening body closing, hn, _ =>
    have hcondition := hnone.conditions name (Sheet.mem_arguments hn rfl)
    simp [IsUnknown, Scope.holds, Scope.given, hcondition]
  | .pair .loop name opening body closing, hn, _ =>
    have hlist := hnone.lists name (Sheet.mem_arguments hn rfl)
    simp [IsUnknown, Scope.list?, Scope.itemList?, hlist]
  | .inherits parent raw, hn, _ =>
    have hfirst : ∀ n ∈ Node.flattenAll sheet.nodes, n.parent? = none := by
      simpa [Sheet.parent?, Node.findParent?] using hparent
    exact absurd (hfirst _ hn) (Option.some_ne_none parent)

end Template

namespace Engine

/-- A text without blocks and without a parent, filled in with none of its names, loses the
conditions that stand in no loop and nothing else. -/
theorem renderText_of_givesNone {e : Engine} {name : String} {t : Template} {f : Filling}
    (hget : e.get name = .ok t) (halone : t.ancestors = []) (hkeep : e.settings.missing = .keep)
    (hblocks : t.own.blocks = []) (hparent : t.own.parent? = none) (hnone : f.GivesNone t.own) :
    e.renderText name f = .ok (String.ofList (keptChars
        ((Node.outerConditionsAll t.own.nodes).map Node.span) 0 t.own.content.toList)) ∧
      (Node.outerConditionsAll t.own.nodes = [] → e.renderText name f = .ok t.own.content) := by
  let s : Scope := ⟨f, e.settings.missing, []⟩
  have hblock := Sheet.argument?_block_of_blocks_eq_nil hblocks
  have hresolved : t.resolved = t.own.nodes :=
    resolved_eq_nodes t halone (by simp [Node.blocks_eq_nil hblock])
  have hunknown : ∀ n ∈ t.own.nodes, n.IsUnknown s := fun n hn =>
    Node.isUnknown_of_givesNone hnone hblocks hparent n (Node.mem_flattenAll_of_mem hn)
  have houter : Node.outerConditionsAll t.own.nodes = t.own.nodes.filter Node.isCondition :=
    Node.outerConditionsAll_eq_filter fun n hn => hblock n (Node.mem_flattenAll_of_mem hn)
  have hrender : e.renderText name f = .ok (String.ofList (keptChars
      ((Node.outerConditionsAll t.own.nodes).map Node.span) 0 t.own.content.toList)) := by
    rw [houter, Sheet.nodes, Node.keptChars_parseText, renderText, hget]
    show Except.ok (Node.render s t.resolved) = _
    rw [hresolved, Node.render_eq_text, Node.fillAll_of_isUnknown _ hkeep hunknown,
      Filled.text_map_kept]
    rfl
  refine ⟨hrender, fun hall => ?_⟩
  rw [hrender, hall, List.map_nil, keptChars_eq_self fun _ _ _ => rfl, String.ofList_toList]

/-- Conditions inside each other go, but not the one in a loop over an unknown list. The placeholder
stands between three braces, two tags have no partner, and one more is not closed. -/
theorem renderText_of_givesNone_half_tags :
    let kept := "é\x7b" ++ tagText "x" ++ "\x7d" ++ tagText "#each u" ++ tagText "#if c" ++ "a" ++
      tagText "/if" ++ tagText "/each" ++ tagText "/if" ++ tagText "#each u" ++ tagText "x-y" ++
      "\x7b\x7b#each"
    let conditions := tagText "#if c" ++ "b" ++ tagText "#if d" ++ tagText "y" ++ tagText "/if" ++
      tagText "/if"
    let t : Template := ⟨⟨"t", kept ++ conditions ++ "…", none⟩, []⟩
    let t' : Template := ⟨⟨"t'", kept, none⟩, []⟩
    let e : Engine := { cache := (KeyMap.empty.insert "t" t).insert "t'" t' }
    let f := Filling.setVariable {} "z" (.string "1")
    e.get "t" = .ok t ∧ e.get "t'" = .ok t' ∧ t.own.blocks = [] ∧ t'.own.blocks = [] ∧
      t.own.parent? = none ∧ t'.own.parent? = none ∧ f.GivesNone t.own ∧ f.GivesNone t'.own ∧
      String.ofList (keptChars ((Node.outerConditionsAll t.own.nodes).map Node.span) 0
        t.own.content.toList) = kept ++ "…" ∧
      Node.outerConditionsAll t'.own.nodes = [] ∧
      e.renderText "t" f = .ok (String.ofList (keptChars
        ((Node.outerConditionsAll t.own.nodes).map Node.span) 0 t.own.content.toList)) ∧
      e.renderText "t'" f = .ok t'.own.content := by
  intro kept conditions t t' e f
  have hget : e.get "t" = .ok t := by simp [get, e, KeyMap.find?_insert_of_ne]
  have hget' : e.get "t'" = .ok t' := by simp [get, e]
  have sheets : ∀ sheet ∈ [t.own, t'.own],
      sheet.blocks = [] ∧ sheet.parent? = none ∧ f.GivesNone sheet := by
    decide +kernel
  obtain ⟨hblocks, hparent, hnone⟩ := sheets t.own (by simp)
  obtain ⟨hblocks', hparent', hnone'⟩ := sheets t'.own (by simp)
  have houter : Node.outerConditionsAll t'.own.nodes = [] :=
    List.isEmpty_iff.mp (by decide +kernel)
  exact ⟨hget, hget', hblocks, hblocks', hparent, hparent', hnone, hnone', by decide +kernel,
    houter, (renderText_of_givesNone hget rfl rfl hblocks hparent hnone).1,
    (renderText_of_givesNone hget' rfl rfl hblocks' hparent' hnone').2 houter⟩

end Engine

/-! ### Paragraphs -/

/-- What is kept of all glyphs are the runs that have any. -/
theorem runsOf_glyphsFrom {runs : List Run} (ht : ∀ r ∈ runs, r.isText) (index : Nat) :
    runsOf ((glyphsFrom index runs).map .kept) = runs.filter (·.text? ≠ some "") := by
  induction runs generalizing index with
  | nil => rfl
  | cons r rest ih =>
    obtain ⟨hr, hrest⟩ := List.forall_mem_cons.mp ht
    obtain ⟨text, htext⟩ := Option.isSome_iff_exists.mp hr
    have hchars : r.chars = text.toList := by simp [Run.chars, htext]
    by_cases hempty : text = ""
    · have hnone : r.chars = [] := by simp [hchars, hempty]
      rw [glyphsFrom, hnone, List.map_nil, List.nil_append, ih hrest]
      simp [htext, hempty]
    · have hsome : r.chars ≠ [] := by simpa [hchars] using hempty
      have hlater : ∀ g ∈ glyphsFrom (index + 1) rest, g.mark.index ≠ index :=
        fun g hg => Nat.ne_of_gt (index_of_mem_glyphsFrom hg)
      have hsame : Fragment.run ⟨⟨index, r⟩, r.chars, false⟩ = r := by
        rw [Fragment.run, hchars, String.ofList_toList, Run.setText_text htext]
      have hbehind := ih hrest (index + 1)
      rw [runsOf] at hbehind
      rw [glyphsFrom, runsOf, Fragment.ofFilled_map_mark hsome hlater, List.map_cons, hsame,
        hbehind]
      simp [htext, hempty]

/-- Whether a tag stays as it is written where what is missing is kept. -/
def Template.Tag.isKept (s : Scope) : Tag → Bool
  | placeholder name => (s.value? name).isNone
  | opens .loop name => (s.list? name).isNone
  | closes _ => true
  | opens .condition _ | opens .block _ | inherits _ => false

/-- Runs of text in a row without the empty ones, unless there is no tag in the row. -/
def tidyRuns (runs : List Run) : List Run :=
  if (tokenize (rowText runs)).isEmpty then runs else runs.filter (·.text? ≠ some "")

/-- The paragraph without the empty runs of text in rows with a tag. -/
def Paragraph.tidied (p : Paragraph) : Paragraph :=
  { p with runs := ((Stretch.ofRuns p.runs).map (·.mapTexts tidyRuns)).flatMap Stretch.runs }

variable (blockText : BlockText) (s : Scope)

theorem Template.Node.fillAll_parse_of_isKept (hkeep : s.missing = .keep) {gs : List (Glyph μ)}
    (h : ∀ t ∈ tokensOf (lex gs), t.tag.isKept s) :
    fillAll blockText s (parse gs) = gs.map .kept := by
  have hnodes : ∀ n ∈ flattenAll (parse gs), n.IsUnknown s ∧ n.isCondition = false :=
    forall_mem_parseLexemes (T := fun t => t.tag.isKept s)
      ⟨fun _ => ⟨trivial, rfl⟩, fun _ _ h => ⟨Option.isNone_iff_eq_none.mp h, rfl⟩,
        fun _ _ h => (nomatch h),
        fun keyword argument opening body closing ho _ => by
          cases keyword with
          | loop => exact ⟨Option.isNone_iff_eq_none.mp ho, rfl⟩
          | condition | block => exact (nomatch ho),
        fun _ _ => ⟨trivial, rfl⟩⟩ h
  have hall : (parse gs).filter (!·.isCondition) = parse gs :=
    List.filter_eq_self.mpr fun n hn => by simp [(hnodes n (mem_flattenAll_of_mem hn)).2]
  rw [fillAll_of_isUnknown blockText hkeep fun n hn => (hnodes n (mem_flattenAll_of_mem hn)).1,
    hall, sourceAll_parse]

theorem judgeRuns_eq_filter {runs : List Run}
    (h : ∀ r ∈ runs, holdsCondition (String.ofList r.chars) = false) :
    judgeRuns s runs = runs.filter (·.text? ≠ some "") := by
  have hrun : ∀ r ∈ runs, judgeRun s r = r := by
    intro r hr
    unfold judgeRun
    split
    · next text htext =>
      have htext' : String.ofList r.chars = text := by simp [Run.chars, htext]
      rw [judged_eq_self (htext' ▸ h r hr), Run.setText_text htext]
    · rfl
  rw [judgeRuns, List.map_congr_left hrun, List.map_id']

theorem fillRuns_of_isKept (hkeep : s.missing = .keep) {runs : List Run}
    (ht : ∀ r ∈ runs, r.isText) (htags : ∀ t ∈ tokenize (rowText runs), t.tag.isKept s)
    (hown : ∀ r ∈ runs, holdsCondition (String.ofList r.chars) = false) :
    fillRuns blockText s runs = tidyRuns runs := by
  by_cases hnone : tokenize (rowText runs) = []
  · rw [fillRuns_of_tokenize_eq_nil blockText s hnone, tidyRuns, hnone]
    rfl
  have hmarked : ∀ tag ∈ (tokensOf (lex (glyphsOf runs))).map Token.tag, tag.isKept s := by
    rw [map_tag_tokensOf_glyphsOf]
    exact List.forall_mem_map.mpr htags
  have hfilled : (fragmentsOf blockText s runs).map Fragment.run =
      runs.filter (·.text? ≠ some "") := by
    have hglyphs := List.forall_mem_map.mp hmarked
    rw [fragmentsOf, Node.fillAll_parse_of_isKept blockText s hkeep hglyphs]
    exact runsOf_glyphsFrom ht 0
  have hjudged : judgeRuns s (runs.filter (·.text? ≠ some "")) =
      runs.filter (·.text? ≠ some "") := by
    rw [judgeRuns_eq_filter s fun r hr => hown r (List.mem_of_mem_filter hr), List.filter_filter]
    simp
  rw [fillRuns_eq blockText s hnone, hfilled, hjudged, ite_self, tidyRuns,
    if_neg (by rwa [List.isEmpty_iff])]

namespace Paragraph

theorem mem_of_mem_rows {p : Paragraph} {row : List Run} (h : row ∈ p.rows) {r : Run}
    (hr : r ∈ row) : r ∈ p.runs := by
  rw [← Stretch.runs_ofRuns p.runs]
  exact List.mem_flatMap.mpr ⟨_, mem_rows.mp h, hr⟩

/-- A paragraph without a tag stays as it is. One without conditions, blocks and parents, filled in
with none of the names in its tags, loses the empty runs in rows with a tag and nothing else. -/
theorem fill_of_missing (p : Paragraph) :
    ((∀ row ∈ p.rows, tokenize (rowText row) = []) → p.fill blockText s = p) ∧
      (s.missing = .keep → (∀ row ∈ p.rows, ∀ t ∈ tokenize (rowText row), t.tag.isKept s) →
        (∀ r ∈ p.runs, holdsCondition (String.ofList r.chars) = false) →
          p.fill blockText s = p.tidied) := by
  refine ⟨fun hnone => ?_, fun hkeep htags hown => ?_⟩
  · have hsame : ∀ row ∈ p.rows, fillRuns blockText s row = id row := fun row hrow =>
      fillRuns_of_tokenize_eq_nil blockText s (hnone row hrow)
    have hid : (fun stretch : Stretch => stretch.mapTexts id) = id := by
      funext stretch
      cases stretch <;> rfl
    show { p with runs := _ } = p
    rw [Stretch.map_mapTexts_congr hsame, hid, List.map_id, Stretch.runs_ofRuns]
  · have htidy : ∀ row ∈ p.rows, fillRuns blockText s row = tidyRuns row := fun row hrow =>
      fillRuns_of_isKept blockText s hkeep
        (Stretch.isText_of_mem_ofRuns (mem_rows.mp hrow)) (htags row hrow)
        fun r hr => hown r (mem_of_mem_rows hrow hr)
    show { p with runs := _ } = { p with runs := _ }
    rw [Stretch.map_mapTexts_congr htidy]

/-- A placeholder and a loop over an unknown list are cut into runs with an empty one in the middle.
The row behind the drawing has no tag and keeps its empty run. -/
theorem fill_of_missing_drawing :
    let s : Scope := ⟨Filling.setVariable {} "z" (.string "1"), .keep, [⟨.integer 1, 0, 1, false⟩]⟩
    let blockText : BlockText := fun _ _ => some "instead"
    let bold (text : String) : Run := (Run.ofText text).setBold true
    let p : Paragraph := { runs := [.ofText "Dear \x7b", bold "\x7bna", .ofText "", bold "me\x7d",
      .ofText "\x7d:\x7b\x7b#each u", bold "\x7d\x7d-\x7b\x7b/each", .linked "\x7d\x7d" "rId1",
      .ofContent (.drawing "<w:drawing/>"), .ofText "", .ofText "plain", .ofContent .tab,
      .ofText (tagText "/if"), .ofText ""] }
    let plain : Paragraph := { runs := [.ofText "", .ofContent .tab, .ofText "x"] }
    (∀ row ∈ plain.rows, tokenize (rowText row) = []) ∧
      (∀ row ∈ p.rows, ∀ t ∈ tokenize (rowText row), t.tag.isKept s) ∧
      (∀ r ∈ p.runs, holdsCondition (String.ofList r.chars) = false) ∧
      p.tidied.runs = [.ofText "Dear \x7b", bold "\x7bna", bold "me\x7d",
        .ofText "\x7d:\x7b\x7b#each u", bold "\x7d\x7d-\x7b\x7b/each", .linked "\x7d\x7d" "rId1",
        .ofContent (.drawing "<w:drawing/>"), .ofText "", .ofText "plain", .ofContent .tab,
        .ofText (tagText "/if")] ∧
      plain.fill blockText s = plain ∧ p.fill blockText s = p.tidied := by
  intro s blockText bold p plain
  have hplain : ∀ row ∈ plain.rows, tokenize (rowText row) = [] := by decide +kernel
  have hkept : ∀ row ∈ p.rows, ∀ t ∈ tokenize (rowText row), t.tag.isKept s := by
    decide +kernel
  have hown : ∀ r ∈ p.runs, holdsCondition (String.ofList r.chars) = false := by
    decide +kernel
  exact ⟨hplain, hkept, hown, by decide +kernel, (fill_of_missing blockText s plain).1 hplain,
    (fill_of_missing blockText s p).2 rfl hkept hown⟩

end Paragraph

end Letterpress
