import Letterpress.Proofs.Render.Unrolling

/-!
# Conditions in the rows of a loop

What the conditions of a filling are does not show in the rows that are made for the items of a
list, as long as an item answers each condition that is asked. The only other ones are those asked
right in an inner loop, for an item without fields: such a condition is answered by the filling.
-/

namespace Letterpress

open Template

variable {μ : Type}

/-- Whether the innermost item answers, and not the filling. -/
def Scope.answersAlone (s : Scope) (name : String) : Bool :=
  match s.passes with
  | [] => false
  | p :: _ => name = "@first" || name = "@last" || p.item.fields?.isSome || p.itemOnly

/-- Conditions that are asked, each with the scope that it is asked in. -/
abbrev Asked := List (Scope × String)

/-- What is asked for the text in place of a block, if it is not the block's body. -/
abbrev BlockAsks := Scope → String → Option Asked

namespace Template.Node

mutual

/-- The conditions that are asked when a node is filled in. -/
def asks (blockAsks : BlockAsks) : Scope → Node μ → Asked
  | s, pair .condition name _ body _ =>
    (s, name) :: if s.holds name then asksAll blockAsks s body else []
  | s, pair .loop name _ body _ =>
    match s.list? name with
    | some items => (s.over false items).flatMap fun s => asksAll blockAsks s body
    | none => []
  | s, pair .block name _ body _ =>
    match blockAsks s name with
    | some asked => asked
    | none => asksAll blockAsks s body
  | _, text _ => []
  | _, placeholder _ _ => []
  | _, inherits _ _ => []
  | _, stray _ => []

def asksAll (blockAsks : BlockAsks) : Scope → List (Node μ) → Asked
  | _, [] => []
  | s, node :: rest => asks blockAsks s node ++ asksAll blockAsks s rest

end

end Template.Node

/-- What is asked for the text in place of a block of the template's document. -/
def Template.overrideAsks (t : Template) : BlockAsks := fun s name =>
  (t.overrides.lookup name).map (Node.asksAll (fun _ _ => none) s)

def Paragraph.asks (t : Template) (s : Scope) (p : Paragraph) : Asked :=
  p.rows.flatMap fun row => Node.asksAll t.overrideAsks s (parse (glyphsOf row))

/-- The conditions that the tags of a row ask when it is filled in for the items of a list. -/
def Row.asks (t : Template) (s : Scope) (list : String) (r : Row) : Asked :=
  (s.over true ((s.list? list).getD [])).flatMap fun inner =>
    (r.withoutLoop list).paragraphs.flatMap (·.asks t inner)

/-- Whether what is asked for a block is asked inside the loops around the block. -/
def BlockAsks.IsInside (blockAsks : BlockAsks) : Prop :=
  ∀ s name asked, blockAsks s name = some asked → ∀ a ∈ asked, s.passes <:+ a.1.passes

namespace Template.Node

variable {blockAsks : BlockAsks}

mutual

theorem suffix_of_mem_asks (hb : blockAsks.IsInside) : ∀ (node : Node μ) (s : Scope),
    ∀ a ∈ asks blockAsks s node, s.passes <:+ a.1.passes
  | text _, _ | placeholder _ _, _ | inherits _ _, _ | stray _, _ => List.forall_mem_nil _
  | pair .condition name _ body _, s => by
    refine List.forall_mem_cons.mpr ⟨List.suffix_refl _, fun a ha => ?_⟩
    split at ha
    · exact suffix_of_mem_asksAll hb body s a ha
    · exact absurd ha List.not_mem_nil
  | pair .loop name _ body _, s => by
    intro a ha
    simp only [asks] at ha
    split at ha
    · obtain ⟨inner, hinner, ha⟩ := List.mem_flatMap.mp ha
      obtain ⟨x, -, rfl⟩ := List.mem_map.mp hinner
      exact (List.suffix_cons ..).trans (suffix_of_mem_asksAll hb body _ a ha)
    · exact absurd ha List.not_mem_nil
  | pair .block name _ body _, s => by
    intro a ha
    simp only [asks] at ha
    split at ha
    · next asked hasked => exact hb s name asked hasked a ha
    · exact suffix_of_mem_asksAll hb body s a ha

/-- What is asked is asked inside the loops around the nodes. -/
theorem suffix_of_mem_asksAll (hb : blockAsks.IsInside) : ∀ (nodes : List (Node μ)) (s : Scope),
    ∀ a ∈ asksAll blockAsks s nodes, s.passes <:+ a.1.passes
  | [], _ => List.forall_mem_nil _
  | node :: rest, s =>
    List.forall_mem_append.mpr ⟨suffix_of_mem_asks hb node s, suffix_of_mem_asksAll hb rest s⟩

end

end Template.Node

theorem Template.isInside_overrideAsks (t : Template) : t.overrideAsks.IsInside := by
  have hnone : BlockAsks.IsInside fun _ _ => none := fun _ _ _ h => (nomatch h)
  intro s name asked hasked
  obtain ⟨body, -, rfl⟩ := Option.map_eq_some_iff.mp hasked
  exact Node.suffix_of_mem_asksAll hnone body s

/-- A condition of a row that the filling answers is asked in an inner loop, for an item without
fields. -/
theorem Row.exists_inner_of_mem_asks {t : Template} {s : Scope} {list : String} {r : Row}
    {a : Scope × String} (ha : a ∈ r.asks t s list) (h : a.1.answersAlone a.2 = false) :
    ∃ inner rest, a.1.passes = inner :: rest ∧ s.passes.length < rest.length ∧
      inner.itemOnly = false ∧ inner.item.fields? = none := by
  obtain ⟨outer, houter, ha⟩ := List.mem_flatMap.mp ha
  obtain ⟨x, -, rfl⟩ := List.mem_map.mp houter
  obtain ⟨p, -, ha⟩ := List.mem_flatMap.mp ha
  obtain ⟨row, -, ha⟩ := List.mem_flatMap.mp ha
  have hsuffix := Node.suffix_of_mem_asksAll t.isInside_overrideAsks _ _ a ha
  cases hpasses : a.1.passes with
  | nil => exact absurd (hpasses ▸ hsuffix) (by simp)
  | cons inner rest =>
    simp only [Scope.answersAlone, hpasses, Bool.or_eq_false_iff, Option.isSome_eq_false_iff,
      Option.isNone_iff_eq_none] at h
    refine ⟨inner, rest, rfl, ?_, h.2, h.1.2⟩
    rcases List.suffix_cons_iff.mp (hpasses ▸ hsuffix) with heq | hrest
    · cases heq
      exact absurd h.2 (by simp)
    · exact hrest.length_le

/-! ### Two fillings -/

/-- Whether a condition holds with another filling just if it holds. -/
def Filling.AnswersAlike (g : Filling) (s : Scope) (name : String) : Prop :=
  s.holds name = { s with filling := g }.holds name

theorem Filling.answersAlike_of_answersAlone {g : Filling} {s : Scope} {name : String}
    (h : s.answersAlone name) : g.AnswersAlike s name := by
  obtain ⟨f, missing, passes⟩ := s
  cases passes with
  | nil => exact absurd h Bool.false_ne_true
  | cons p passes =>
    simp only [Scope.answersAlone, Bool.or_eq_true, decide_eq_true_eq] at h
    simp only [AnswersAlike, Scope.holds]
    rcases h with ((hfirst | hlast) | hfields) | honly
    · simp only [hfirst, if_true]
    · simp only [hlast, if_true]
    · obtain ⟨fields, hfields⟩ := Option.isSome_iff_exists.mp hfields
      simp only [hfields]
    · simp only [honly, Bool.not_true, Bool.false_and]

section

variable {f g : Filling} {missing : Missing}

/-- Whether the blocks get the same texts with either filling, if what is asked for a text is
answered alike. -/
structure BlockAsks.Covers (blockAsks : BlockAsks) (blockText : BlockText) (f g : Filling)
    (missing : Missing) : Prop where
  own : ∀ passes name, blockAsks ⟨f, missing, passes⟩ name = none →
    blockText ⟨f, missing, passes⟩ name = none ∧ blockText ⟨g, missing, passes⟩ name = none
  instead : ∀ passes name asked, blockAsks ⟨f, missing, passes⟩ name = some asked →
    (∀ a ∈ asked, g.AnswersAlike a.1 a.2) → ∃ text,
      blockText ⟨f, missing, passes⟩ name = some text ∧
        blockText ⟨g, missing, passes⟩ name = some text

namespace Template.Node

variable {blockAsks : BlockAsks} {blockText : BlockText}

mutual

theorem fill_eq_of_asks (hvariables : f.variables = g.variables) (hlists : f.lists = g.lists)
    (hc : blockAsks.Covers blockText f g missing) : ∀ (node : Node μ) (passes : List Pass),
      (∀ a ∈ asks blockAsks ⟨f, missing, passes⟩ node, g.AnswersAlike a.1 a.2) →
        fill blockText ⟨f, missing, passes⟩ node = fill blockText ⟨g, missing, passes⟩ node
  | text _, _, _ | inherits _ _, _, _ | stray _, _, _ => rfl
  | placeholder name raw, passes, _ => by
    have hvalue : (⟨f, missing, passes⟩ : Scope).value? name =
        (⟨g, missing, passes⟩ : Scope).value? name := Scope.value?_congr (by rw [hvariables])
    simp only [fill, hvalue]
  | pair .condition name opening body closing, passes, h => by
    obtain ⟨hname, hbody⟩ := List.forall_mem_cons.mp h
    have hholds : (⟨f, missing, passes⟩ : Scope).holds name =
        (⟨g, missing, passes⟩ : Scope).holds name := hname
    simp only [fill, ← hholds]
    split
    · next hyes =>
      rw [if_pos hyes] at hbody
      exact fillAll_eq_of_asks hvariables hlists hc body passes hbody
    · rfl
  | pair .loop name opening body closing, passes, h => by
    have hlist : (⟨f, missing, passes⟩ : Scope).list? name =
        (⟨g, missing, passes⟩ : Scope).list? name := Scope.list?_congr (by rw [hlists])
    simp only [asks] at h
    simp only [fill, ← hlist]
    cases hitems : (⟨f, missing, passes⟩ : Scope).list? name with
    | none => rfl
    | some items =>
      simp only [hitems, Scope.over, List.flatMap_map] at h ⊢
      refine List.flatMap_congr fun x hx => fillAll_eq_of_asks hvariables hlists hc body _ ?_
      exact fun a ha => h a (List.mem_flatMap.mpr ⟨x, hx, ha⟩)
  | pair .block name opening body closing, passes, h => by
    simp only [asks] at h
    simp only [fill]
    cases hasked : blockAsks ⟨f, missing, passes⟩ name with
    | none =>
      obtain ⟨hf, hg⟩ := hc.own passes name hasked
      rw [hasked] at h
      rw [hf, hg]
      exact fillAll_eq_of_asks hvariables hlists hc body passes h
    | some asked =>
      rw [hasked] at h
      obtain ⟨text, hf, hg⟩ := hc.instead passes name asked hasked h
      rw [hf, hg]

/-- Fillings that differ in conditions make the same of nodes if the conditions that are asked are
answered alike. -/
theorem fillAll_eq_of_asks (hvariables : f.variables = g.variables) (hlists : f.lists = g.lists)
    (hc : blockAsks.Covers blockText f g missing) : ∀ (nodes : List (Node μ)) (passes : List Pass),
      (∀ a ∈ asksAll blockAsks ⟨f, missing, passes⟩ nodes, g.AnswersAlike a.1 a.2) →
        fillAll blockText ⟨f, missing, passes⟩ nodes = fillAll blockText ⟨g, missing, passes⟩ nodes
  | [], _, _ => rfl
  | node :: rest, passes, h => by
    obtain ⟨hnode, hrest⟩ := List.forall_mem_append.mp h
    rw [fillAll, fillAll, fill_eq_of_asks hvariables hlists hc node passes hnode,
      fillAll_eq_of_asks hvariables hlists hc rest passes hrest]

end

end Template.Node

theorem Template.covers_overrideText (t : Template) (hvariables : f.variables = g.variables)
    (hlists : f.lists = g.lists) : t.overrideAsks.Covers t.overrideText f g missing where
  own passes name h := by
    have hnone : t.overrides.lookup name = none := Option.map_eq_none_iff.mp h
    simp only [overrideText, hnone, Option.map_none, and_self]
  instead passes name asked h halike := by
    obtain ⟨body, hbody, rfl⟩ := Option.map_eq_some_iff.mp h
    have hnone : BlockAsks.Covers (fun _ _ => none) (fun _ _ => none) f g missing :=
      ⟨fun _ _ _ => ⟨rfl, rfl⟩, fun _ _ _ h => absurd h.symm (Option.some_ne_none _)⟩
    have hrender : Node.render ⟨g, missing, passes⟩ body =
        Node.render ⟨f, missing, passes⟩ body := by
      rw [Node.render_eq_text, Node.render_eq_text,
        Node.fillAll_eq_of_asks hvariables hlists hnone body passes halike]
    refine ⟨Node.render ⟨f, missing, passes⟩ body, ?_, ?_⟩
    · simp only [overrideText, hbody, Option.map_some]
    · simp only [overrideText, hbody, Option.map_some, hrender]

variable (t : Template) (hvariables : f.variables = g.variables) (hlists : f.lists = g.lists)
  {pass : Pass} (hpass : pass.itemOnly = true) {passes : List Pass}

include hvariables hlists hpass

/-- In a pass that asks the item only, values have their conditions decided without the filling. -/
theorem fillRuns_eq_of_asks {runs : List Run}
    (h : ∀ a ∈ Node.asksAll t.overrideAsks ⟨f, missing, pass :: passes⟩ (parse (glyphsOf runs)),
      g.AnswersAlike a.1 a.2) :
    fillRuns t.overrideText ⟨f, missing, pass :: passes⟩ runs =
      fillRuns t.overrideText ⟨g, missing, pass :: passes⟩ runs := by
  have hfill := Node.fillAll_eq_of_asks hvariables hlists (t.covers_overrideText hvariables hlists)
    _ _ h
  have hholds : ∀ name, (⟨f, missing, pass :: passes⟩ : Scope).holds name =
      (⟨g, missing, pass :: passes⟩ : Scope).holds name := fun name =>
    Filling.answersAlike_of_answersAlone (by simp only [Scope.answersAlone, hpass, Bool.or_true])
  have hjudged : judged ⟨f, missing, pass :: passes⟩ = judged ⟨g, missing, pass :: passes⟩ := by
    funext text
    rw [judged, judged, Node.judgeAll_congr hholds]
  have hjudge : judgeRun ⟨f, missing, pass :: passes⟩ = judgeRun ⟨g, missing, pass :: passes⟩ := by
    funext r
    rw [judgeRun, judgeRun, hjudged]
  by_cases hnone : tokenize (rowText runs) = []
  · rw [fillRuns_of_tokenize_eq_nil _ _ hnone, fillRuns_of_tokenize_eq_nil _ _ hnone]
  · rw [fillRuns_eq _ _ hnone, fillRuns_eq _ _ hnone, fragmentsOf, fragmentsOf, hfill, judgeRuns,
      judgeRuns, hjudge]

theorem Paragraph.fill_eq_of_asks {p : Paragraph}
    (h : ∀ a ∈ p.asks t ⟨f, missing, pass :: passes⟩, g.AnswersAlike a.1 a.2) :
    p.fill t.overrideText ⟨f, missing, pass :: passes⟩ =
      p.fill t.overrideText ⟨g, missing, pass :: passes⟩ := by
  have hrows : ∀ row ∈ p.rows, fillRuns t.overrideText ⟨f, missing, pass :: passes⟩ row =
      fillRuns t.overrideText ⟨g, missing, pass :: passes⟩ row := fun row hrow =>
    fillRuns_eq_of_asks t hvariables hlists hpass fun a ha =>
      h a (List.mem_flatMap.mpr ⟨row, hrow, ha⟩)
  simp only [fill, Stretch.map_mapTexts_congr hrows]

theorem Row.fill_eq_of_asks {r : Row}
    (h : ∀ p ∈ r.paragraphs, ∀ a ∈ p.asks t ⟨f, missing, pass :: passes⟩, g.AnswersAlike a.1 a.2) :
    r.fill t.overrideText ⟨f, missing, pass :: passes⟩ =
      r.fill t.overrideText ⟨g, missing, pass :: passes⟩ := by
  have hcells : ∀ c ∈ r.cells,
      c.paragraphs.map (·.fill t.overrideText ⟨f, missing, pass :: passes⟩) =
        c.paragraphs.map (·.fill t.overrideText ⟨g, missing, pass :: passes⟩) := fun c hc =>
    List.map_congr_left fun p hp => p.fill_eq_of_asks t hvariables hlists hpass
      (h p (List.mem_flatMap.mpr ⟨c, hc, hp⟩))
  have hall := List.map_congr_left fun c hc =>
    congrArg (fun paragraphs => { c with paragraphs : Cell }) (hcells c hc)
  exact congrArg (fun cells => { r with cells : Row }) hall

end

/-- Fillings that differ in conditions make the same rows of a loop's row if the items answer all
conditions, or if the fillings answer alike those that are left. These are asked in an inner loop,
for an item without fields. -/
theorem Table.fill_of_answered (t : Template) (s : Scope) (g : Filling) (table : Table)
    {before behind : List Row} {r : Row} {list : String}
    (hvariables : s.filling.variables = g.variables) (hlists : s.filling.lists = g.lists)
    (hrows : table.rows = before ++ r :: behind) (hbefore : ∀ q ∈ before, q.loop? = none)
    (hr : r.loop? = some list)
    (hasks : ∀ a ∈ r.asks t s list, a.1.answersAlone a.2 = true ∨
      a.1.filling.conditions.find? a.2 = g.conditions.find? a.2) :
    let s' : Scope := { s with filling := g }
    (∃ produced : List Row, produced.length = ((s.list? list).getD []).length ∧
      (table.fill t.overrideText s).rows = before.map (Row.fill t.overrideText s) ++
        (produced ++ behind.map (Row.fill t.overrideText s)) ∧
      (table.fill t.overrideText s').rows = before.map (Row.fill t.overrideText s') ++
        (produced ++ behind.map (Row.fill t.overrideText s'))) ∧
      ∀ a ∈ r.asks t s list, a.1.answersAlone a.2 = false →
        ∃ inner rest, a.1.passes = inner :: rest ∧ s.passes.length < rest.length ∧
          inner.itemOnly = false ∧ inner.item.fields? = none := by
  intro s'
  have halike : ∀ a ∈ r.asks t s list, g.AnswersAlike a.1 a.2 := fun a ha => by
    rcases hasks a ha with halone | hsame
    · exact Filling.answersAlike_of_answersAlone halone
    · exact Scope.holds_congr hsame
  have hitems : s'.list? list = s.list? list := Scope.list?_congr (by rw [hlists])
  have hproduced : r.unroll t.overrideText s' list = r.unroll t.overrideText s list := by
    rw [Row.unroll_eq, Row.unroll_eq, hitems]
    simp only [Scope.over, List.map_map]
    refine List.map_congr_left fun x hx => ?_
    refine (Row.fill_eq_of_asks t hvariables hlists rfl fun p hp a ha => halike a ?_).symm
    exact List.mem_flatMap.mpr
      ⟨_, List.mem_map.mpr ⟨x, hx, rfl⟩, List.mem_flatMap.mpr ⟨p, hp, ha⟩⟩
  refine ⟨⟨r.unroll t.overrideText s list, ?_, ?_, ?_⟩, fun a => Row.exists_inner_of_mem_asks⟩
  · rw [Row.unroll_eq, List.length_map]
    simp [Scope.over]
  · rw [fill, hrows, fillRows_of_loop?_eq_some _ _ hbefore hr]
  · rw [fill, hrows, fillRows_of_loop?_eq_some _ _ hbefore hr, hproduced]

/-- Conditions in a row, in a value, in the text of a block and in inner loops, one over items
without fields. Both fillings give conditions of their names. -/
theorem Table.fill_of_answered_people :
    let t : Template := ⟨⟨"child", tagText "#block \"b\"" ++ tagText "#if vip" ++ "!" ++
      tagText "/if" ++ tagText "/block", none⟩, [⟨"base", "", some .new⟩]⟩
    let title : Row := .ofTexts [tagText "#if vip" ++ "VIP" ++ tagText "/if"]
    let loop : Row := .ofTexts [tagText "#each people" ++ tagText "note",
      tagText "#each jobs" ++ tagText "#if paid" ++ "$" ++ tagText "/if" ++ tagText "/each",
      tagText "#each tags" ++ tagText "#if @first" ++ tagText "this" ++ tagText "/if" ++
        tagText "/each" ++ tagText "#block \"b\"" ++ tagText "/block" ++ tagText "/each"]
    let person (vip : Bool) : Json := .object [("jobs", .array [.object [("paid", .bool vip)]]),
      ("note", .string (tagText "#if vip" ++ "*" ++ tagText "/if")),
      ("tags", .array [.string "x", .string "y"]), ("vip", .bool vip)]
    let base : Filling := Filling.setList {} "people" [person true, person false]
    let g : Filling := base.setCondition "paid" true
    let s : Scope := ⟨base.setCondition "vip" true, .keep, []⟩
    let s' : Scope := { s with filling := g }
    let table : Table := { rows := [title, loop, title] }
    (∀ q ∈ [title], q.loop? = none) ∧ loop.loop? = some "people" ∧
      (∀ a ∈ loop.asks t s "people", a.1.answersAlone a.2 = true) ∧
      (table.fill t.overrideText s).rows.map (fun r => r.cells.map Cell.text) =
        [["VIP"], ["*", "$", "x!"], ["", "", "x"], ["VIP"]] ∧
      ∃ produced : List Row, produced.length = ((s.list? "people").getD []).length ∧
        (table.fill t.overrideText s).rows = [title.fill t.overrideText s] ++
          (produced ++ [title.fill t.overrideText s]) ∧
        (table.fill t.overrideText s').rows = [title.fill t.overrideText s'] ++
          (produced ++ [title.fill t.overrideText s']) := by
  intro t title loop person base g s s' table
  have hbefore : ∀ q ∈ [title], q.loop? = none := by decide +kernel
  have hloop : loop.loop? = some "people" := by decide +kernel
  have hasks : ∀ a ∈ loop.asks t s "people", a.1.answersAlone a.2 = true := by decide +kernel
  have hrows : table.rows = [title] ++ loop :: [title] := rfl
  exact ⟨hbefore, hloop, hasks, by decide +kernel,
    (fill_of_answered t s g table rfl rfl hrows hbefore hloop fun a ha => .inl (hasks a ha)).1⟩

/-- In an inner loop over texts, a condition of the filling counts. -/
theorem Table.fill_ne_of_not_answered :
    let loop : Row := .ofTexts [tagText "#each people" ++ tagText "#each tags" ++
      tagText "#if vip" ++ tagText "this" ++ tagText "/if" ++ tagText "/each" ++ tagText "/each"]
    let table : Table := { rows := [loop] }
    let t : Template := ⟨⟨"t", "", none⟩, []⟩
    let f : Filling :=
      Filling.setList {} "people" [.object [("tags", .array [.string "x"])]]
    let g : Filling := f.setCondition "vip" true
    let texts (filling : Filling) : List (List String) :=
      (table.fill t.overrideText ⟨filling, .keep, []⟩).rows.map fun r => r.cells.map Cell.text
    loop.loop? = some "people" ∧ f.variables = g.variables ∧ f.lists = g.lists ∧
      texts f = [[""]] ∧ texts g = [["x"]] := by
  intro loop table t f g texts
  exact ⟨by decide +kernel, rfl, rfl, by decide +kernel, by decide +kernel⟩

end Letterpress
