import Letterpress.Proofs.Render.Frames

/-!
# Bookmarks of a filled-in document

Filling in keeps every mark where it is, and a loop's row is filled in once for each item with the
marks in it. So the ids of bookmarks, if they differ, stay apart just if no row with the start of a
bookmark is filled in more than once.
-/

namespace Letterpress

open Template

/-- The bookmark that starts here. -/
def RunContent.start? : RunContent → Option Bookmark
  | bookmarkStart b => some b
  | _ => none

def Run.start? (r : Run) : Option Bookmark := r.content.start?

def Paragraph.starts (p : Paragraph) : List Bookmark := p.runs.filterMap Run.start?

def Cell.starts (c : Cell) : List Bookmark := c.paragraphs.flatMap Paragraph.starts

def Row.starts (r : Row) : List Bookmark := r.cells.flatMap Cell.starts

namespace Table

/-- The bookmarks that start in rows. -/
def starts (rows : List Row) : List Bookmark := rows.flatMap Row.starts

/-- The same if the first row that opens a loop is there as often as `times` says of its list. -/
def repeatedStarts (times : String → Nat) : List Row → List Bookmark
  | [] => []
  | r :: rest =>
    match r.loop? with
    | some list => (List.replicate (times list) r.starts).flatten ++ starts rest
    | none => r.starts ++ repeatedStarts times rest

/-- The first row that opens a loop, with the loop's list. -/
def loopRow? (rows : List Row) : Option (String × Row) :=
  rows.findSome? fun r => r.loop?.map fun list => (list, r)

end Table

namespace Element

mutual

/-- The bookmarks that start in an element, `ofRows` telling those in the rows of a table. -/
def starts (ofRows : List Row → List Bookmark) : Element → List Bookmark
  | paragraph p => p.starts
  | table t => ofRows t.rows
  | control _ content => startsOf ofRows content
  | setup _ => []
  | bookmarkStart b => [b]
  | bookmarkEnd _ => []

def startsOf (ofRows : List Row → List Bookmark) : List Element → List Bookmark
  | [] => []
  | e :: rest => starts ofRows e ++ startsOf ofRows rest

end

mutual

def loopRows : Element → List (String × Row)
  | table t => (Table.loopRow? t.rows).toList
  | control _ content => loopRowsOf content
  | paragraph _ => []
  | setup _ => []
  | bookmarkStart _ => []
  | bookmarkEnd _ => []

def loopRowsOf : List Element → List (String × Row)
  | [] => []
  | e :: rest => loopRows e ++ loopRowsOf rest

end

end Element

namespace Body

/-- The bookmarks that start in a body, at any depth. -/
def starts (b : Body) : List Bookmark := Element.startsOf Table.starts b.elements

def startIds (b : Body) : List UInt32 := b.starts.map (·.id)

/-- The same bookmarks, those in the first row of a table that opens a loop as often as `times` says
of its list. -/
def repeatedStarts (b : Body) (times : String → Nat) : List Bookmark :=
  Element.startsOf (Table.repeatedStarts times) b.elements

/-- The rows of a body that are filled in once for each item of a list. -/
def loopRows (b : Body) : List (String × Row) := Element.loopRowsOf b.elements

end Body

/-! ### What becomes of the starts -/

theorem forall₂_flatMap_eq {α β : Type} {R : α → α → Prop} {f : α → List β}
    (h : ∀ a b, R a b → f b = f a) {l l' : List α} (hl : List.Forall₂ R l l') :
    l'.flatMap f = l.flatMap f := by
  induction hl with
  | nil => rfl
  | cons hab _ ih => rw [List.flatMap_cons, List.flatMap_cons, h _ _ hab, ih]

/-- Runs of text start no bookmark. -/
theorem Paragraph.starts_eq (p : Paragraph) :
    p.starts = (p.runs.filter (!·.isText)).filterMap Run.start? := by
  rw [List.filterMap_filter, starts]
  refine List.filterMap_congr fun r _ => ?_
  obtain ⟨properties, content, link⟩ := r
  cases content <;> rfl

theorem Paragraph.Framed.starts_eq {p q : Paragraph} (h : p.Framed q) : q.starts = p.starts := by
  rw [p.starts_eq, q.starts_eq, h.others]

theorem Row.Framed.starts_eq {r s : Row} (h : r.Framed s) : s.starts = r.starts :=
  forall₂_flatMap_eq (fun _ _ h => forall₂_flatMap_eq (fun _ _ h => h.starts_eq) h.paragraphs)
    h.cells

/-- The number of items of the list that a name means. -/
def Scope.count (s : Scope) (list : String) : Nat := ((s.list? list).getD []).length

section

variable (blockText : BlockText) (s : Scope)

theorem Row.starts_unroll (list : String) (r : Row) :
    Table.starts (r.unroll blockText s list) =
      (List.replicate (s.count list) r.starts).flatten := by
  have hlength : (r.unroll blockText s list).length = s.count list := by
    rw [unroll, Scope.count]
    cases s.list? list <;> simp [Scope.over]
  have hsame : (r.unroll blockText s list).map Row.starts =
      List.replicate (s.count list) r.starts := by
    refine List.eq_replicate_iff.mpr ⟨by rw [List.length_map, hlength], fun ids hids => ?_⟩
    obtain ⟨filled, hfilled, rfl⟩ := List.mem_map.mp hids
    exact (framed_of_mem_unroll hfilled).starts_eq
  rw [Table.starts, List.flatMap_def, hsame]

theorem Table.starts_fillRows (rows : List Row) :
    starts (fillRows blockText s rows) = repeatedStarts s.count rows := by
  induction rows with
  | nil => rfl
  | cons r rest ih =>
    cases hloop : r.loop? with
    | some list =>
      have hrest : starts (rest.map (Row.fill blockText s)) = starts rest := by
        rw [starts, List.flatMap_map]
        exact congrArg (List.flatMap · rest) (funext fun r => (r.framed_fill blockText s).starts_eq)
      simp only [fillRows, repeatedStarts, hloop]
      rw [← Row.starts_unroll blockText s list, ← hrest]
      exact List.flatMap_append
    | none =>
      simp only [fillRows, repeatedStarts, hloop]
      rw [← ih, ← (r.framed_fill blockText s).starts_eq]
      exact List.flatMap_cons

namespace Element

mutual

theorem starts_fill : ∀ e : Element,
    (e.fill blockText s).starts Table.starts = e.starts (Table.repeatedStarts s.count)
  | .paragraph p => by rw [fill, starts, starts, (p.framed_fill blockText s).starts_eq]
  | .table t => Table.starts_fillRows blockText s t.rows
  | .control _ content => by
    rw [fill, starts, starts]
    exact startsOf_fillAll content
  | .setup _ => rfl
  | .bookmarkStart _ => rfl
  | .bookmarkEnd _ => rfl

theorem startsOf_fillAll : ∀ elements : List Element,
    startsOf Table.starts (fillAll blockText s elements) =
      startsOf (Table.repeatedStarts s.count) elements
  | [] => rfl
  | e :: rest => by rw [fillAll, startsOf, startsOf, starts_fill e, startsOf_fillAll rest]

end

end Element

end

/-! ### Ids that stay apart -/

/-- The second ids are among the first ones. If these differ, those do just on a condition. -/
structure KeepsApart (ids ids' : List UInt32) (c : Prop) : Prop where
  subset : ids' ⊆ ids
  nodup_iff : ids.Nodup → (ids'.Nodup ↔ c)

namespace KeepsApart

theorem same (ids : List UInt32) : KeepsApart ids ids True :=
  ⟨List.Subset.refl _, fun h => iff_true_intro h⟩

theorem append {a a' b b' : List UInt32} {c d : Prop} (h : KeepsApart a a' c)
    (h' : KeepsApart b b' d) : KeepsApart (a ++ b) (a' ++ b') (c ∧ d) := by
  have hsubset : a' ++ b' ⊆ a ++ b :=
    List.append_subset.mpr ⟨List.subset_append_of_subset_left b h.subset,
      List.subset_append_of_subset_right a h'.subset⟩
  refine ⟨hsubset, fun hnodup => ?_⟩
  obtain ⟨ha, hb, hdisjoint⟩ := List.nodup_append.mp hnodup
  rw [List.nodup_append, h.nodup_iff ha, h'.nodup_iff hb]
  exact ⟨fun ⟨hc, hd, _⟩ => ⟨hc, hd⟩, fun ⟨hc, hd⟩ =>
    ⟨hc, hd, fun x hx y hy => hdisjoint x (h.subset hx) y (h'.subset hy)⟩⟩

/-- Copies of the same ids stay apart only if there is at most one, or nothing to copy. -/
theorem copies (ids : List UInt32) (n : Nat) :
    KeepsApart ids (List.replicate n ids).flatten (ids = [] ∨ n ≤ 1) := by
  constructor
  · intro id hid
    obtain ⟨copy, hcopy, hid⟩ := List.mem_flatten.mp hid
    exact List.eq_of_mem_replicate hcopy ▸ hid
  · intro hnodup
    match n with
    | 0 => simp
    | 1 => simpa using hnodup
    | n + 2 =>
      cases ids with
      | nil => simp
      | cons id rest =>
        have htwice : ¬(List.replicate (n + 2) (id :: rest)).flatten.Nodup := by
          rw [List.replicate_succ, List.replicate_succ, List.flatten_cons, List.flatten_cons]
          simp
        simp [htwice]

end KeepsApart

/-- Whether no row with the start of a bookmark is there more than once. -/
def AtMostOnce (times : String → Nat) (rows : List (String × Row)) : Prop :=
  ∀ l ∈ rows, l.2.starts = [] ∨ times l.1 ≤ 1

/-- How ids of bookmarks stay apart if rows are repeated. -/
abbrev KeptApart (times : String → Nat) (before behind : List Bookmark)
    (rows : List (String × Row)) : Prop :=
  KeepsApart (before.map (·.id)) (behind.map (·.id)) (AtMostOnce times rows)

variable (times : String → Nat)

theorem keptApart_same (starts : List Bookmark) : KeptApart times starts starts [] := by
  have hnone : AtMostOnce times [] ↔ True := iff_true_intro (List.forall_mem_nil _)
  rw [KeptApart, hnone]
  exact .same _

theorem KeptApart.append {a a' b b' : List Bookmark} {rows more : List (String × Row)}
    (h : KeptApart times a a' rows) (h' : KeptApart times b b' more) :
    KeptApart times (a ++ b) (a' ++ b') (rows ++ more) := by
  have hall : AtMostOnce times (rows ++ more) ↔ AtMostOnce times rows ∧ AtMostOnce times more :=
    List.forall_mem_append
  rw [KeptApart, hall, List.map_append, List.map_append]
  exact KeepsApart.append h h'

theorem Table.keptApart_rows (rows : List Row) :
    KeptApart times (starts rows) (repeatedStarts times rows) (loopRow? rows).toList := by
  induction rows with
  | nil => exact keptApart_same times []
  | cons r rest ih =>
    rw [repeatedStarts, loopRow?, List.findSome?_cons, starts, List.flatMap_cons]
    cases r.loop? with
    | some list =>
      have hcopies : KeptApart times r.starts (List.replicate (times list) r.starts).flatten
          [(list, r)] := by
        simpa [KeptApart, AtMostOnce] using KeepsApart.copies (r.starts.map (·.id)) (times list)
      exact hcopies.append times (keptApart_same times (starts rest))
    | none => exact (keptApart_same times r.starts).append times ih

namespace Element

mutual

theorem keptApart_starts : ∀ e : Element,
    KeptApart times (e.starts Table.starts) (e.starts (Table.repeatedStarts times)) e.loopRows
  | .paragraph p => keptApart_same times p.starts
  | .table t => Table.keptApart_rows times t.rows
  | .control _ content => by
    rw [starts, starts, loopRows]
    exact keptApart_startsOf content
  | .setup _ => keptApart_same times []
  | .bookmarkStart b => keptApart_same times [b]
  | .bookmarkEnd _ => keptApart_same times []

theorem keptApart_startsOf : ∀ elements : List Element,
    KeptApart times (startsOf Table.starts elements)
      (startsOf (Table.repeatedStarts times) elements) (loopRowsOf elements)
  | [] => keptApart_same times []
  | e :: rest => by
    rw [startsOf, startsOf, loopRowsOf]
    exact (keptApart_starts e).append times (keptApart_startsOf rest)

end

end Element

/-- The bookmarks that start in what a styled template becomes are those of its document, the ones
in the row of a loop as often as its list has items. No others start. If the document's have
different ids, the ids stay apart just if every row with the start of a bookmark that is filled in
for the items of a list is filled in for at most one. -/
theorem Template.nodup_starts_render_iff {t : Template} {base : Document} (h : t.base? = some base)
    (hbase : base.body.startIds.Nodup) (settings : Settings) (filling : Filling) :
    let items (list : String) : Nat := ((filling.lists.find? list).getD []).length
    (t.render settings filling).body.starts = base.body.repeatedStarts items ∧
      (t.render settings filling).body.startIds ⊆ base.body.startIds ∧
      ((t.render settings filling).body.startIds.Nodup ↔
        ∀ l ∈ base.body.loopRows, l.2.starts = [] ∨ items l.1 ≤ 1) := by
  intro items
  have hstarts : (t.render settings filling).body.starts = base.body.repeatedStarts items := by
    rw [render, h]
    exact Element.startsOf_fillAll t.overrideText ⟨filling, settings.missing, []⟩ base.body.elements
  have hapart := Element.keptApart_startsOf items base.body.elements
  refine ⟨hstarts, ?_⟩
  rw [Body.startIds, hstarts]
  exact ⟨hapart.subset, hapart.nodup_iff hbase⟩

/-- A row with a mark for one item, and a row without marks for two. -/
theorem Template.nodup_starts_render_iff_invoice :
    let cell (runs : List Run) : Cell := { paragraphs := [{ runs }] }
    let start (id : UInt32) : Run := .ofContent (.bookmarkStart ⟨id, "m"⟩)
    let row (list : String) (runs : List Run) : Row := { cells :=
      [cell (.ofText (tagText ("#each " ++ list)) :: runs), cell [.ofText (tagText "/each")]] }
    let base : Document := { Document.new with body := ⟨[.bookmarkStart ⟨1, "a"⟩,
      .control {} [.table { rows := [row "totals" [start 3, .ofContent (.bookmarkEnd 3)]] },
        .table { rows := [row "items" [.ofText (tagText "this")]] }],
      .paragraph { runs := [start 4] }]⟩ }
    let filling : Filling := (Filling.setList {} "totals" [.integer 5]).setList "items"
      [.integer 1, .integer 2]
    let t : Template := ⟨.ofDocument "t" base, []⟩
    t.base? = some base ∧ base.body.startIds = [1, 3, 4] ∧
      base.body.loopRows.map Prod.fst = ["totals", "items"] ∧
      (t.render {} filling).body.startIds.Nodup ∧
      (t.render {} filling).plainText = "\n\n1\n\n2\n\n" := by
  intro cell start row base filling t
  have hstarts : base.body.startIds = [1, 3, 4] := by decide +kernel
  have hnodup : base.body.startIds.Nodup := hstarts ▸ by decide
  exact ⟨rfl, hstarts, by decide +kernel,
    (nodup_starts_render_iff (t := t) rfl hnodup {} filling).2.2.mpr (by decide +kernel),
    by decide +kernel⟩

/-- A row with the start of a bookmark is filled in for two items, and its id comes twice. -/
theorem Template.not_nodup_starts_render :
    let row : Row := { cells := [{ paragraphs := [{ runs := [.ofContent (.bookmarkStart ⟨5, "m"⟩),
      .ofText (tagText "#each a" ++ "x" ++ tagText "/each"), .ofContent (.bookmarkEnd 5)] }] }] }
    let base : Document := { Document.new with body := ⟨[.table { rows := [row] }]⟩ }
    let t : Template := ⟨.ofDocument "t" base, []⟩
    let filling : Filling := Filling.setList {} "a" [.integer 1, .integer 2]
    t.base? = some base ∧ base.body.startIds.Nodup ∧
      (t.render {} filling).body.startIds = [5, 5] ∧
        ¬(t.render {} filling).body.startIds.Nodup := by
  intro row base t filling
  have hstarts : (t.render {} filling).body.startIds = [5, 5] := by decide +kernel
  exact ⟨rfl, by decide +kernel, hstarts, hstarts ▸ by decide⟩

end Letterpress
