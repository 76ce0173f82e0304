import Letterpress.Render.Table
import Letterpress.Proofs.Render.Values

/-!
# Rows of a loop

The first row with a tag that opens a loop is filled in once for each item of the list, in its place
and in the order of the items, and every other row is filled in once. In what is put into a row
nothing is put in again: it can only lose text, by the conditions in it.
-/

namespace Letterpress

open Template

variable {μ : Type}

/-- What names mean for one item of a row's loop. A field of the item comes before what the name
means around the loop, and conditions ask the item alone. -/
structure Scope.IsFor (s : Scope) (item : Json) (i n : Nat) (inner : Scope) : Prop where
  missing : inner.missing = s.missing
  this : inner.value? "this" = some item.display
  index : inner.value? "@index" = some (toString i)
  first : inner.value? "@first" = some (toString (decide (i = 0)))
  last : inner.value? "@last" = some (toString (decide (i + 1 = n)))
  value : ∀ name ∉ ["this", "@index", "@first", "@last"],
    inner.value? name = ((item.field? name).map Json.display).or (s.value? name)
  list : ∀ name,
    inner.list? name = ((item.field? name).bind Filling.list?).or (s.filling.lists.find? name)
  holdsFirst : inner.holds "@first" = decide (i = 0)
  holdsLast : inner.holds "@last" = decide (i + 1 = n)
  holds : ∀ name ∉ ["@first", "@last"],
    inner.holds name = ((item.field? name).map Json.holds).getD false

namespace Scope

theorem getElem?_over (s : Scope) (itemOnly : Bool) (items : List Json) (i : Nat) :
    (s.over itemOnly items)[i]? = items[i]?.map fun item =>
      { s with passes := ⟨item, i, items.length, itemOnly⟩ :: s.passes } := by
  rw [«over», List.getElem?_map, List.getElem?_zipIdx]
  cases items[i]? <;> simp

theorem isFor_pass (s : Scope) (item : Json) (i n : Nat) :
    s.IsFor item i n { s with passes := ⟨item, i, n, true⟩ :: s.passes } where
  missing := rfl
  this := rfl
  index := rfl
  first := rfl
  last := rfl
  value name hname := by
    simp only [List.mem_cons, List.not_mem_nil, or_false, not_or] at hname
    obtain ⟨hthis, hindex, hfirst, hlast⟩ := hname
    simp only [value?, List.findSome?_cons, Pass.value?, hthis, hindex, hfirst, hlast, if_false]
    cases (item.field? name).map Json.display <;> rfl
  list name := rfl
  holdsFirst := rfl
  holdsLast := rfl
  holds name hname := by
    simp only [List.mem_cons, List.not_mem_nil, or_false, not_or] at hname
    simp only [Scope.holds, hname.1, hname.2, if_false, Json.field?]
    cases item.fields? <;> rfl

end Scope

namespace Template.Node

mutual

theorem judge_sublist (s : Scope) : ∀ node : Node μ, (judge s node).Sublist node.source
  | text _ | placeholder _ _ | inherits _ _ | stray _ => .refl _
  | pair keyword name opening body closing => by
    simp only [judge, source]
    split
    · split
      · exact ((judgeAll_sublist s body).trans (List.sublist_append_right ..)).trans
          (List.sublist_append_left ..)
      · exact List.nil_sublist _
    · exact .refl _

/-- Deciding conditions puts nothing in. -/
theorem judgeAll_sublist (s : Scope) :
    ∀ nodes : List (Node μ), (judgeAll s nodes).Sublist (sourceAll nodes)
  | [] => .refl _
  | node :: rest => (judge_sublist s node).append (judgeAll_sublist s rest)

end

end Template.Node

theorem judged_sublist (s : Scope) (text : String) :
    (judged s text).toList.Sublist text.toList := by
  have hnodes := (Node.judgeAll_sublist s (parseText text)).map Glyph.char
  rw [parseText, sourceAll_parse] at hnodes
  have htext : (placed text).map Glyph.char = text.toList := chars_placedFrom {} text.toList
  rw [htext] at hnodes
  rw [judged, textOf, String.toList_ofList]
  exact hnodes

/-! ### Rows -/

variable (blockText : BlockText) (s : Scope)

theorem Row.unroll_eq (list : String) (r : Row) :
    r.unroll blockText s list =
      (s.over true ((s.list? list).getD [])).map ((r.withoutLoop list).fill blockText ·) := by
  rw [unroll]
  cases s.list? list <;> rfl

namespace Table

theorem fillRows_of_loop?_eq_none {rows : List Row} (h : ∀ r ∈ rows, r.loop? = none) :
    fillRows blockText s rows = rows.map (Row.fill blockText s) := by
  induction rows with
  | nil => rfl
  | cons r rest ih =>
    obtain ⟨hr, hrest⟩ := List.forall_mem_cons.mp h
    rw [fillRows, hr, List.map_cons, ← ih hrest]

theorem fillRows_of_loop?_eq_some {before behind : List Row} {r : Row} {list : String}
    (hbefore : ∀ q ∈ before, q.loop? = none) (hr : r.loop? = some list) :
    fillRows blockText s (before ++ r :: behind) =
      before.map (Row.fill blockText s) ++
        (r.unroll blockText s list ++ behind.map (Row.fill blockText s)) := by
  induction before with
  | nil => rw [List.nil_append, fillRows, hr, List.map_nil, List.nil_append]
  | cons q before ih =>
    obtain ⟨hq, hbefore⟩ := List.forall_mem_cons.mp hbefore
    rw [List.cons_append, fillRows, hq, List.map_cons, List.cons_append, ← ih hbefore]

/-- Where no row opens a loop, every row is filled in once. Else the first row that opens one is
filled in once for each item, in the scope of the item, and every other row once. Each value that is
put into a paragraph has a run of its own, and all that may happen to it there is that it loses the
text of conditions. -/
theorem fill_eq (t : Table) :
    ((∀ r ∈ t.rows, r.loop? = none) →
        t.fill blockText s = { t with rows := t.rows.map (Row.fill blockText s) }) ∧
      (∀ before r behind list, t.rows = before ++ r :: behind → (∀ q ∈ before, q.loop? = none) →
        r.loop? = some list →
          let items := (s.list? list).getD []
          let scopes := s.over true items
          scopes.length = items.length ∧
            (∀ i item inner, items[i]? = some item → scopes[i]? = some inner →
              s.IsFor item i items.length inner) ∧
            t.fill blockText s = { t with rows := before.map (Row.fill blockText s) ++
              (scopes.map ((r.withoutLoop list).fill blockText ·) ++
                behind.map (Row.fill blockText s)) }) ∧
      ∀ (p : Paragraph) (u : Scope),
        (p.fill blockText u).runs = (p.parts blockText u).flatMap (Part.runs u) ∧
          (p.parts blockText u).filterMap Part.value? = p.rows.flatMap (fun row =>
            ((filledRow blockText u row).filterMap Filled.value?).filter (· ≠ "")) ∧
          ∀ text, (judged u text).toList.Sublist text.toList ∧
            (holdsCondition text = false → judged u text = text) := by
  refine ⟨fun hnone => ?_, fun before r behind list hrows hbefore hr => ⟨?_, ?_, ?_⟩, fun p u => ?_⟩
  · rw [fill, fillRows_of_loop?_eq_none blockText s hnone]
  · simp [Scope.over]
  · intro i item inner hitem hinner
    rw [Scope.getElem?_over, hitem] at hinner
    cases hinner
    exact s.isFor_pass item i _
  · rw [fill, hrows, fillRows_of_loop?_eq_some blockText s hbefore hr, Row.unroll_eq]
  · exact ⟨p.runs_fill_eq, p.values_parts, fun text => ⟨judged_sublist u text, judged_eq_self⟩⟩

/-- A loop's row for two items before a row with a loop over an unknown list. The texts that are put
in have tags, and a condition that the filling gives does not count in the row. -/
theorem fill_eq_invoice :
    let title : Row := .ofTexts [tagText "title"]
    let loop : Row := .ofTexts [tagText "#each items" ++ tagText "@index" ++ tagText "sku",
      tagText "#if dear" ++ "!" ++ tagText "/if" ++ tagText "/each"]
    let other : Row := .ofTexts [tagText "#each u" ++ "-" ++ tagText "/each"]
    let items : List Json := [.object [("dear", .bool true), ("sku", .string (tagText "title"))],
      .object [("sku", .string "b")]]
    let s : Scope := ⟨((Filling.setVariable {} "title" (.string (tagText "sku"))).setList "items"
      items).setCondition "dear" true, .keep, []⟩
    let blockText : BlockText := fun _ _ => none
    let t : Table := { rows := [title, loop, other] }
    let plain : Table := { rows := [title] }
    (∀ r ∈ plain.rows, r.loop? = none) ∧ loop.loop? = some "items" ∧
      (t.fill blockText s).rows.map (fun r => r.cells.map Cell.text) =
        [[tagText "sku"], ["0" ++ tagText "title", "!"], ["1b", ""],
          [tagText "#each u" ++ "-" ++ tagText "/each"]] ∧
      plain.fill blockText s = { plain with rows := [title.fill blockText s] } ∧
      t.fill blockText s = { t with rows := [title.fill blockText s] ++
        ((s.over true items).map ((loop.withoutLoop "items").fill blockText ·) ++
          [other.fill blockText s]) } := by
  intro title loop other items s blockText t plain
  have hplain : ∀ r ∈ plain.rows, r.loop? = none := by decide +kernel
  have hloop : loop.loop? = some "items" := by decide +kernel
  have hitems : (s.list? "items").getD [] = items := by
    simp [s, Scope.list?, Scope.itemList?, Filling.setList, Filling.setCondition]
  obtain ⟨-, -, hfill⟩ := (fill_eq blockText s t).2.1 [title] loop [other] "items" rfl hplain hloop
  rw [hitems] at hfill
  exact ⟨hplain, hloop, by decide +kernel, (fill_eq blockText s plain).1 hplain, hfill⟩

end Table

end Letterpress
