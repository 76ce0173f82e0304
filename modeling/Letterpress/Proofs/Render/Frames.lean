import Letterpress.Render
import Letterpress.Proofs.Render.LoopTags

/-!
# What filling in leaves as it is

Filling in a template on a document changes runs of text and the number of a loop's rows. All else
stays where it is.
-/

namespace Letterpress

open Template

/-- The second paragraph differs from the first in runs of text only. -/
structure Paragraph.Framed (p q : Paragraph) : Prop where
  properties : q.properties = p.properties
  others : q.runs.filter (!·.isText) = p.runs.filter (!·.isText)

structure Cell.Framed (c d : Cell) : Prop where
  properties : d.properties = c.properties
  paragraphs : List.Forall₂ Paragraph.Framed c.paragraphs d.paragraphs

structure Row.Framed (r s : Row) : Prop where
  properties : s.properties = r.properties
  cells : List.Forall₂ Cell.Framed r.cells s.cells

/-- The first row of a loop, if there is one, gives rows that are framed by it. All other rows stay
in their order. -/
inductive Table.RowsFramed : List Row → List Row → Prop
  | single {rows filled : List Row} : (∀ r ∈ rows, r.loop? = none) →
      List.Forall₂ Row.Framed rows filled → RowsFramed rows filled
  | loop {before behind before' produced behind' : List Row} {r : Row} {list : String} :
      (∀ r ∈ before, r.loop? = none) → r.loop? = some list →
      List.Forall₂ Row.Framed before before' → (∀ s ∈ produced, r.Framed s) →
      List.Forall₂ Row.Framed behind behind' →
        RowsFramed (before ++ r :: behind) (before' ++ (produced ++ behind'))

structure Table.Framed (t u : Table) : Prop where
  properties : u.properties = t.properties
  grid : u.grid = t.grid
  rows : RowsFramed t.rows u.rows

/-- An element of the same kind in which the same things stay. -/
inductive Element.Framed : Element → Element → Prop
  | paragraph {p q : Paragraph} : p.Framed q → Framed (.paragraph p) (.paragraph q)
  | table {t u : Table} : t.Framed u → Framed (.table t) (.table u)
  | setup (s : Section) : Framed (.setup s) (.setup s)
  | control {properties : ControlProperties} {content filled : List Element} :
      List.Forall₂ Framed content filled →
        Framed (.control properties content) (.control properties filled)
  | bookmarkStart (b : Bookmark) : Framed (.bookmarkStart b) (.bookmarkStart b)
  | bookmarkEnd (id : UInt32) : Framed (.bookmarkEnd id) (.bookmarkEnd id)

structure Document.Framed (d e : Document) : Prop where
  package : e.package = d.package
  ids : e.ids = d.ids
  attributes : e.attributes = d.attributes
  styles : e.styles = d.styles
  body : List.Forall₂ Element.Framed d.body.elements e.body.elements

/-- What is changed in rows of text alone leaves the other runs where they are. -/
theorem Stretch.filter_flatMap_mapRows {f : Nat → List Run → List Run} (index : Nat)
    {stretches : List Stretch} (ht : ∀ runs, texts runs ∈ stretches → ∀ r ∈ runs, r.isText)
    (hf : ∀ i runs, (∀ r ∈ runs, r.isText) → ∀ r ∈ f i runs, r.isText) :
    ((mapRows f index stretches).flatMap Stretch.runs).filter (!·.isText) =
      (stretches.flatMap Stretch.runs).filter (!·.isText) := by
  have htexts : ∀ {runs : List Run}, (∀ r ∈ runs, r.isText) → runs.filter (!·.isText) = [] :=
    fun h => List.filter_eq_nil_iff.mpr fun r hr => by simp [h r hr]
  induction stretches generalizing index with
  | nil => rfl
  | cons a rest ih =>
    have hrest := fun index => ih index fun runs h => ht runs (List.mem_cons_of_mem _ h)
    cases a with
    | other r =>
      rw [mapRows, List.flatMap_cons, List.flatMap_cons, List.filter_append, List.filter_append,
        hrest]
    | texts runs =>
      have hruns := ht runs (List.mem_cons_self ..)
      rw [mapRows, List.flatMap_cons, List.flatMap_cons, List.filter_append, List.filter_append,
        hrest, Stretch.runs, Stretch.runs, htexts hruns, htexts (hf index runs hruns)]

theorem isText_of_mem_fillRuns {blockText : BlockText} {s : Scope} {runs : List Run}
    (h : ∀ r ∈ runs, r.isText) : ∀ r ∈ fillRuns blockText s runs, r.isText := by
  have hfragments : ∀ r ∈ (fragmentsOf blockText s runs).map Fragment.run, r.isText := by
    intro r hr
    obtain ⟨f, -, rfl⟩ := List.mem_map.mp hr
    rfl
  by_cases hnone : tokenize (rowText runs) = []
  · rwa [fillRuns_of_tokenize_eq_nil blockText s hnone]
  rw [fillRuns_eq blockText s hnone]
  split
  · exact hfragments
  · intro r hr
    obtain ⟨r', hr', rfl⟩ := List.mem_map.mp (List.mem_filter.mp hr).1
    obtain ⟨text, htext⟩ := Option.isSome_iff_exists.mp (hfragments r' hr')
    rw [judgeRun, htext]
    rfl

namespace Paragraph

theorem framed_mapRows {p : Paragraph} {f : Nat → List Run → List Run}
    (hf : ∀ i runs, (∀ r ∈ runs, r.isText) → ∀ r ∈ f i runs, r.isText) :
    p.Framed { p with runs := (Stretch.mapRows f 0 (Stretch.ofRuns p.runs)).flatMap Stretch.runs } where
  properties := rfl
  others := by
    have htexts : ∀ runs, Stretch.texts runs ∈ Stretch.ofRuns p.runs → ∀ r ∈ runs, r.isText :=
      fun _ => Stretch.isText_of_mem_ofRuns
    have hfilter := Stretch.filter_flatMap_mapRows 0 htexts hf
    rwa [Stretch.runs_ofRuns] at hfilter

theorem framed_fill (blockText : BlockText) (s : Scope) (p : Paragraph) :
    p.Framed (p.fill blockText s) := by
  have hrows : ∀ (f : List Run → List Run) (stretches : List Stretch) (index : Nat),
      stretches.map (·.mapTexts f) = Stretch.mapRows (fun _ => f) index stretches := by
    intro f stretches
    induction stretches with
    | nil => exact fun _ => rfl
    | cons a rest ih => intro index; cases a <;> simp [Stretch.mapTexts, Stretch.mapRows, ← ih]
  rw [fill, hrows _ _ 0]
  exact framed_mapRows fun _ _ => isText_of_mem_fillRuns

theorem framed_cut (p : Paragraph) (row : Nat) (span : Span) : p.Framed (p.cut row span) := by
  rw [cut_eq_erase]
  refine framed_mapRows fun i runs h => ?_
  unfold eraseRuns
  split
  · exact h
  · exact fun _ => isText_of_mem_keptRuns

theorem Framed.refl (p : Paragraph) : p.Framed p := ⟨rfl, rfl⟩

theorem Framed.trans {p q r : Paragraph} (h : p.Framed q) (h' : q.Framed r) : p.Framed r :=
  ⟨h'.properties.trans h.properties, h'.others.trans h.others⟩

end Paragraph

/-! ### Rows and documents -/

theorem forall₂_mapIdx {α β : Type} {R : α → β → Prop} {f : Nat → α → β}
    (h : ∀ i a, R a (f i a)) (l : List α) : List.Forall₂ R l (l.mapIdx f) := by
  induction l generalizing f with
  | nil => exact .nil
  | cons a rest ih =>
    rw [List.mapIdx_cons]
    exact .cons (h 0 a) (ih fun i => h (i + 1))

theorem mapIdx_const {α β : Type} (f : α → β) (l : List α) : l.mapIdx (fun _ => f) = l.map f :=
  List.ext_getElem? fun i => by simp

namespace Row

theorem framed_mapAt {f : Nat → Nat → Paragraph → Paragraph}
    (h : ∀ i k (p : Paragraph), p.Framed (f i k p)) (r : Row) : r.Framed (r.mapAt f) :=
  ⟨rfl, forall₂_mapIdx (fun i c => ⟨rfl, forall₂_mapIdx (h i) c.paragraphs⟩) r.cells⟩

theorem fill_eq_mapAt (blockText : BlockText) (s : Scope) (r : Row) :
    r.fill blockText s = r.mapAt fun _ _ => Paragraph.fill blockText s := by
  simp only [mapAt, mapIdx_const]
  rfl

/-- A row without its loop's tags is the row with paragraphs that are framed by its own. -/
theorem exists_withoutLoop_eq (list : String) (r : Row) :
    ∃ f : Nat → Nat → Paragraph → Paragraph,
      (∀ i k (p : Paragraph), p.Framed (f i k p)) ∧ r.withoutLoop list = r.mapAt f := by
  have hcut : ∀ (r : Row) (spot : Spot), ∃ f : Nat → Nat → Paragraph → Paragraph,
      (∀ i k (p : Paragraph), p.Framed (f i k p)) ∧ r.cut spot = r.mapAt f := by
    refine fun r spot => ⟨_, fun i k p => ?_, cut_eq_mapAt r spot⟩
    split
    · exact p.framed_cut spot.row spot.span
    · exact .refl p
  unfold withoutLoop
  split
  · have hid : ∀ {α : Type} (l : List α), l.mapIdx (fun _ a => a) = l := fun l =>
      (mapIdx_const id l).trans (List.map_id l)
    exact ⟨fun _ _ p => p, fun _ _ => .refl, by simp only [mapAt, hid]⟩
  · exact hcut r _
  · next first last _ =>
    obtain ⟨f, hf, hlast⟩ := hcut r last
    obtain ⟨g, hg, hfirst⟩ := hcut (r.cut last) first
    rw [hfirst, hlast, mapAt_mapAt]
    exact ⟨_, fun i k p => (hf i k p).trans (hg i k _), rfl⟩

theorem framed_fill (blockText : BlockText) (s : Scope) (r : Row) : r.Framed (r.fill blockText s) :=
  fill_eq_mapAt blockText s r ▸ framed_mapAt (fun _ _ => Paragraph.framed_fill blockText s) r

theorem framed_of_mem_unroll {blockText : BlockText} {s : Scope} {list : String} {r filled : Row}
    (h : filled ∈ r.unroll blockText s list) : r.Framed filled := by
  unfold unroll at h
  split at h
  · obtain ⟨s', -, rfl⟩ := List.mem_map.mp h
    obtain ⟨f, hf, hwithout⟩ := exists_withoutLoop_eq list r
    rw [hwithout, fill_eq_mapAt, mapAt_mapAt]
    exact framed_mapAt (fun i k p => (hf i k p).trans (Paragraph.framed_fill blockText s' _)) r
  · exact absurd h List.not_mem_nil

end Row

variable (blockText : BlockText) (s : Scope)

theorem Table.rowsFramed_fillRows (rows : List Row) :
    RowsFramed rows (fillRows blockText s rows) := by
  induction rows with
  | nil => exact .single (List.forall_mem_nil _) .nil
  | cons r rest ih =>
    unfold fillRows
    split
    · next list hloop =>
      have hrest : List.Forall₂ Row.Framed rest (rest.map (Row.fill blockText s)) :=
        List.forall₂_map_right_iff.mpr
          (List.forall₂_same.mpr fun r _ => r.framed_fill blockText s)
      exact RowsFramed.loop (List.forall_mem_nil _) hloop .nil
        (fun _ => Row.framed_of_mem_unroll) hrest
    · next hnone =>
      have hr := r.framed_fill blockText s
      generalize fillRows blockText s rest = filled at ih ⊢
      cases ih with
      | single hrest hrows =>
        exact .single (List.forall_mem_cons.mpr ⟨hnone, hrest⟩) (.cons hr hrows)
      | loop hbefore hloop hrows hproduced hbehind =>
        exact .loop (List.forall_mem_cons.mpr ⟨hnone, hbefore⟩) hloop (.cons hr hrows) hproduced
          hbehind

namespace Element

mutual

theorem framed_fill : ∀ e : Element, e.Framed (e.fill blockText s)
  | .paragraph p => .paragraph (p.framed_fill blockText s)
  | .table t => .table ⟨rfl, rfl, Table.rowsFramed_fillRows blockText s t.rows⟩
  | .control _ content => .control (framed_fillAll content)
  | .setup b => .setup b
  | .bookmarkStart b => .bookmarkStart b
  | .bookmarkEnd id => .bookmarkEnd id

theorem framed_fillAll : ∀ elements : List Element,
    List.Forall₂ Framed elements (fillAll blockText s elements)
  | [] => .nil
  | e :: rest => .cons (framed_fill e) (framed_fillAll rest)

end

end Element

/-- What a styled template becomes differs from its document in runs of text and in the number of a
loop's rows, whatever it is filled with. -/
theorem Template.framed_render {t : Template} {base : Document} (h : t.base? = some base)
    (settings : Settings) (filling : Filling) : base.Framed (t.render settings filling) := by
  rw [render, h]
  exact ⟨rfl, rfl, rfl, rfl, Element.framed_fillAll _ _ base.body.elements⟩

/-- A loop's row with a mark and a tab in it, before a row with a loop over an unknown list; the
table stands in a control. -/
theorem Template.framed_render_invoice :
    let cell (runs : List Run) : Cell := { paragraphs := [{ runs }] }
    let loop : Row := { properties := { cantSplit := true }, cells :=
      [cell [.ofText (tagText "#each items"), .ofContent (.bookmarkEnd 7), .ofText (tagText "sku")],
        cell [.ofText (tagText "n"), .ofContent .tab, .ofText ("!" ++ tagText "/each")]] }
    let other : Row := { cells := [cell [.ofText (tagText "#each u" ++ "-" ++ tagText "/each")]] }
    let table : Table :=
      { grid := [100, 200], rows := [{ cells := [cell [.ofText (tagText "title")]] }, loop, other] }
    let base : Document := { Document.new with body := ⟨[.control { unique := true } [.table table],
      .paragraph { runs := [.ofContent .tab, .ofText (tagText "title")] }, .setup .a4]⟩ }
    let item (sku : String) (n : Int) : Json := .object [("n", .integer n), ("sku", .string sku)]
    let filling : Filling :=
      (Filling.setVariable {} "title" (.string "T")).setList "items" [item "a" 1, item "b" 2]
    let t : Template := ⟨.ofDocument "t" base, []⟩
    t.base? = some base ∧ base.Framed (t.render {} filling) ∧
      (t.render {} filling).plainText =
        "T\na\n1!\nb\n2!\n" ++ tagText "#each u" ++ "-" ++ tagText "/each" ++ "\nT" := by
  intro cell loop other table base item filling t
  exact ⟨rfl, framed_render (t := t) rfl {} filling, by decide +kernel⟩

end Letterpress
