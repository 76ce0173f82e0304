import Letterpress.Proofs.Render.Erasing
import Letterpress.Proofs.Template.Spans
import Letterpress.Proofs.Template.Tokens
import Letterpress.Render.Table

/-!
# The tags of a row's loop

A row that is filled in for each item of a list loses two tags: the first one that opens a loop over
the list, and the last one of the row that closes a loop. If the loops of the row are well nested,
the two belong together just if no loop is closed behind the first one.
-/

namespace Letterpress

open Template

namespace Spot

/-- The order in which tags are met: cell by cell, paragraph by paragraph, row of text by row of
text, and in a row of text one behind the other. -/
def Before (a b : Spot) : Prop :=
  a.cell < b.cell ∨ a.cell = b.cell ∧ (a.paragraph < b.paragraph ∨ a.paragraph = b.paragraph ∧
    (a.row < b.row ∨ a.row = b.row ∧ a.span.stop ≤ b.span.start))

/-- Whether a tag of the row spans these bytes. -/
def IsIn (r : Row) (spot : Spot) : Prop :=
  ∃ c p runs t, r.cells[spot.cell]? = some c ∧ c.paragraphs[spot.paragraph]? = some p ∧
    p.rows[spot.row]? = some runs ∧ t ∈ tokenize (rowText runs) ∧ t.span = spot.span

theorem IsIn.not_before {r : Row} {spot : Spot} (h : spot.IsIn r) : ¬spot.Before spot := by
  obtain ⟨_, _, _, t, _, _, _, ht, hspan⟩ := h
  have hlt := (ordered_tokenize _).1 t ht
  rw [hspan] at hlt
  unfold Before
  omega

end Spot

namespace Row

/-- Changes every paragraph by the number of its cell and its own. -/
def mapAt (f : Nat → Nat → Paragraph → Paragraph) (r : Row) : Row :=
  { r with cells := r.cells.mapIdx fun i c => { c with paragraphs := c.paragraphs.mapIdx (f i) } }

/-- The bytes of a row of text that are in spots. -/
def spansAt (spots : List Spot) (cell paragraph row : Nat) : List Span :=
  (spots.filter fun s => cell = s.cell ∧ paragraph = s.paragraph ∧ row = s.row).map Spot.span

/-- The row without the bytes in the spots. -/
def erase (spots : List Spot) (r : Row) : Row :=
  r.mapAt fun cell paragraph => Paragraph.erase (spansAt spots cell paragraph)

theorem mapAt_mapAt (f g : Nat → Nat → Paragraph → Paragraph) (r : Row) :
    (r.mapAt g).mapAt f = r.mapAt fun i k p => f i k (g i k p) := by
  simp [mapAt, List.mapIdx_mapIdx, Function.comp_def]

theorem mapAt_congr {f g : Nat → Nat → Paragraph → Paragraph} {r : Row}
    (h : ∀ i k c p, r.cells[i]? = some c → c.paragraphs[k]? = some p → f i k p = g i k p) :
    r.mapAt f = r.mapAt g := by
  have hcells : ∀ (i : Nat) (c : Cell), r.cells[i]? = some c →
      c.paragraphs.mapIdx (f i) = c.paragraphs.mapIdx (g i) := by
    intro i c hc
    refine List.ext_getElem? fun k => ?_
    rw [List.getElem?_mapIdx, List.getElem?_mapIdx]
    cases hp : c.paragraphs[k]? with
    | none => rfl
    | some p => exact congrArg some (h i k c p hc hp)
  show { r with cells := _ } = { r with cells := _ }
  congr 1
  refine List.ext_getElem? fun i => ?_
  rw [List.getElem?_mapIdx, List.getElem?_mapIdx]
  cases hc : r.cells[i]? with
  | none => rfl
  | some c => rw [Option.map_some, Option.map_some, hcells i c hc]

theorem cut_eq_mapAt (r : Row) (spot : Spot) :
    r.cut spot = r.mapAt fun i k p =>
      if i = spot.cell ∧ k = spot.paragraph then p.cut spot.row spot.span else p := by
  have hmodify : ∀ {α : Type} (f : α → α) (index : Nat) (l : List α),
      l.modify index f = l.mapIdx fun i x => if i = index then f x else x := by
    intro α f index l
    refine List.ext_getElem? fun i => ?_
    rw [List.getElem?_modify, List.getElem?_mapIdx]
    by_cases h : index = i
    · simp [h]
    · simp [h, Ne.symm h]
  rw [cut, hmodify, mapAt]
  congr 2
  funext i c
  by_cases hi : i = spot.cell
  · simp [hi, hmodify]
  · have hsame : c.paragraphs.mapIdx (fun _ p => p) = c.paragraphs := by
      simp [List.mapIdx_eq_iff]
    simp [hi, hsame]

/-- Two tags are cut out one after the other, the one behind first. -/
theorem cut_cut {r : Row} {first last : Spot} (hin : first.IsIn r) (h : first.Before last) :
    (r.cut last).cut first = r.erase [first, last] := by
  obtain ⟨c, p, runs, t, hc, hp, hrow, ht, hspan⟩ := hin
  have hstop : 0 < first.span.stop := by
    have := (ordered_tokenize _).1 t ht
    rw [hspan] at this
    omega
  have htext : runs.flatMap Run.chars ≠ [] := by
    intro hnil
    rw [rowText, hnil] at ht
    exact absurd ht List.not_mem_nil
  rw [cut_eq_mapAt r last, cut_eq_mapAt _ first, mapAt_mapAt, erase]
  refine mapAt_congr fun i k c' p' hc' hp' => ?_
  have hspans : spansAt [first, last] i k = fun row =>
      (if i = first.cell ∧ k = first.paragraph ∧ row = first.row then [first.span] else []) ++
        if i = last.cell ∧ k = last.paragraph ∧ row = last.row then [last.span] else [] := by
    funext row
    simp only [spansAt, List.filter_cons, List.filter_nil, decide_eq_true_eq]
    split <;> split <;> rfl
  rw [hspans]
  by_cases hfirst : i = first.cell ∧ k = first.paragraph
  · by_cases hlast : i = last.cell ∧ k = last.paragraph
    · have horder : first.row < last.row ∨
          first.row = last.row ∧ first.span.stop ≤ last.span.start := by
        unfold Spot.Before at h
        omega
      have hrows : ∀ row, p'.rows[first.row]? = some row → row.flatMap Run.chars ≠ [] := by
        obtain ⟨rfl, rfl⟩ := hfirst
        obtain rfl : c = c' := Option.some.inj (hc.symm.trans hc')
        obtain rfl : p = p' := Option.some.inj (hp.symm.trans hp')
        intro row hrow'
        rwa [← Option.some.inj (hrow.symm.trans hrow')]
      rw [if_pos hlast, if_pos hfirst, Paragraph.cut_cut horder hstop hrows]
      simp only [← and_assoc, eq_true hfirst, eq_true hlast, true_and]
    · rw [if_neg hlast, if_pos hfirst, Paragraph.cut_eq_erase]
      simp only [← and_assoc, eq_true hfirst, eq_false hlast, true_and, false_and, if_false,
        List.append_nil]
  · by_cases hlast : i = last.cell ∧ k = last.paragraph
    · rw [if_neg hfirst, if_pos hlast, Paragraph.cut_eq_erase]
      simp only [← and_assoc, eq_false hfirst, eq_true hlast, true_and, false_and, if_false,
        List.nil_append]
    · rw [if_neg hfirst, if_neg hlast]
      simp only [← and_assoc, eq_false hfirst, eq_false hlast, false_and, if_false, List.append_nil]
      exact (Paragraph.erase_none p').symm

/-- The tags of a row, cell by cell and paragraph by paragraph. -/
def tags (r : Row) : List (Tag × Spot) :=
  r.cells.zipIdx.flatMap fun (c, cell) =>
    c.paragraphs.zipIdx.flatMap fun (p, paragraph) =>
      p.tags.map fun (row, t) => (t.tag, ⟨cell, paragraph, row, t.span⟩)

end Row

/-- Whether a tag opens or closes a loop. -/
def Template.Tag.isLoop : Tag → Bool
  | .opens .loop _ => true
  | .closes .loop => true
  | _ => false

namespace Row

def loopMarks (r : Row) : List (Tag × Spot) := r.tags.filter (·.1.isLoop)

theorem isIn_of_mem_tags {r : Row} {tag : Tag} {spot : Spot} (h : (tag, spot) ∈ r.tags) :
    spot.IsIn r := by
  obtain ⟨⟨c, cell⟩, hc, h⟩ := List.mem_flatMap.mp h
  obtain ⟨⟨p, paragraph⟩, hp, h⟩ := List.mem_flatMap.mp h
  obtain ⟨⟨row, t⟩, ht, h⟩ := List.mem_map.mp h
  obtain ⟨⟨runs, index⟩, hruns, ht⟩ := List.mem_flatMap.mp ht
  obtain ⟨t', ht', htag⟩ := List.mem_map.mp ht
  cases h
  cases htag
  exact ⟨c, p, runs, t, List.mem_zipIdx_iff_getElem?.mp hc, List.mem_zipIdx_iff_getElem?.mp hp,
    List.mem_zipIdx_iff_getElem?.mp hruns, ht', rfl⟩

theorem pairwise_zipIdx {α : Type} (l : List α) : l.zipIdx.Pairwise (·.2 < ·.2) := by
  rw [← List.pairwise_map (f := Prod.snd) (R := (· < ·)), List.zipIdx_map_snd]
  exact List.pairwise_lt_range'

theorem pairwise_tags (r : Row) : r.tags.Pairwise (·.2.Before ·.2) := by
  refine List.pairwise_flatMap.mpr ⟨fun ⟨c, cell⟩ _ => ?_, (pairwise_zipIdx _).imp ?_⟩
  · refine List.pairwise_flatMap.mpr ⟨fun ⟨p, paragraph⟩ _ => ?_, (pairwise_zipIdx _).imp ?_⟩
    · refine List.pairwise_map.mpr (List.pairwise_flatMap.mpr
        ⟨fun ⟨runs, row⟩ _ => ?_, (pairwise_zipIdx _).imp ?_⟩)
      · exact List.pairwise_map.mpr ((ordered_tokenize _).2.imp fun h =>
          .inr ⟨rfl, .inr ⟨rfl, .inr ⟨rfl, h⟩⟩⟩)
      · intro a b hab x hx y hy
        obtain ⟨_, -, rfl⟩ := List.mem_map.mp hx
        obtain ⟨_, -, rfl⟩ := List.mem_map.mp hy
        exact .inr ⟨rfl, .inr ⟨rfl, .inl hab⟩⟩
    · intro a b hab x hx y hy
      obtain ⟨_, -, rfl⟩ := List.mem_map.mp hx
      obtain ⟨_, -, rfl⟩ := List.mem_map.mp hy
      exact .inr ⟨rfl, .inl hab⟩
  · intro a b hab x hx y hy
    obtain ⟨_, -, hx⟩ := List.mem_flatMap.mp hx
    obtain ⟨_, -, hy⟩ := List.mem_flatMap.mp hy
    obtain ⟨_, -, rfl⟩ := List.mem_map.mp hx
    obtain ⟨_, -, rfl⟩ := List.mem_map.mp hy
    exact .inl hab

theorem isIn_of_mem_loopMarks {r : Row} {tag : Tag} {spot : Spot} (h : (tag, spot) ∈ r.loopMarks) :
    spot.IsIn r :=
  isIn_of_mem_tags (List.mem_filter.mp h).1

theorem pairwise_loopMarks (r : Row) : r.loopMarks.Pairwise (·.2.Before ·.2) :=
  r.pairwise_tags.sublist List.filter_sublist

theorem loopTags_eq (list : String) (r : Row) :
    r.loopTags list = r.loopMarks.filterMap fun m => (opensLoop? list m.1).map (·, m.2) := by
  have hloop : ∀ m : Tag × Spot, ((opensLoop? list m.1).map (·, m.2)) =
      if m.1.isLoop then (opensLoop? list m.1).map (·, m.2) else none := by
    rintro ⟨tag, spot⟩
    split
    · rfl
    · next h => cases tag with
      | opens k _ => cases k <;> simp_all [Tag.isLoop, opensLoop?]
      | closes k => cases k <;> simp_all [Tag.isLoop, opensLoop?]
      | placeholder | inherits => rfl
  rw [loopMarks, List.filterMap_filter, ← funext hloop]
  simp only [tags, List.filterMap_flatMap, List.filterMap_map]
  rfl

theorem flatMap_zipIdx {α β : Type} (l : List α) (f : α → List β) :
    l.zipIdx.flatMap (fun x => f x.1) = l.flatMap f := by
  rw [← List.flatMap_map, List.zipIdx_map_fst]

theorem loop?_eq (r : Row) : r.loop? = r.loopMarks.findSome? (·.1.loop?) := by
  have htags : (r.paragraphs.flatMap Paragraph.tags).map (·.2.tag) = r.tags.map (·.1) := by
    simp only [tags, List.map_flatMap, List.map_map, paragraphs, List.flatMap_assoc,
      Function.comp_def]
    rw [flatMap_zipIdx r.cells fun c => c.paragraphs.zipIdx.flatMap fun x =>
      x.1.tags.map fun t => t.2.tag]
    refine List.flatMap_congr fun c _ => ?_
    rw [flatMap_zipIdx c.paragraphs fun p => p.tags.map fun t => t.2.tag]
  have hloop : ∀ m : Tag × Spot, (if m.1.isLoop then m.1.loop? else none) = m.1.loop? := by
    rintro ⟨tag, spot⟩
    split
    · rfl
    · next h => cases tag with
      | opens k _ => cases k <;> simp_all [Tag.isLoop, Tag.loop?]
      | closes | placeholder | inherits => rfl
  have hall : r.loop? = (r.tags.map (·.1)).findSome? (·.loop?) := by
    rw [← htags, List.findSome?_map]
    rfl
  rw [hall, List.findSome?_map, ← List.head?_filterMap, ← List.head?_filterMap, loopMarks,
    List.filterMap_filter, funext hloop]
  rfl

end Row

/-! ### Nesting -/

/-- Whether every loop that is opened is closed, and what is opened in it before it. -/
inductive WellNested : List (Tag × Spot) → Prop
  | nil : WellNested []
  | loop {list : String} {opening closing : Spot} {inner rest : List (Tag × Spot)} :
      WellNested inner → WellNested rest →
        WellNested ((.opens .loop list, opening) :: (inner ++ (Tag.closes .loop, closing) :: rest))

namespace WellNested

variable {marks : List (Tag × Spot)}

theorem exists_opens {m : Tag × Spot} {rest : List (Tag × Spot)} (h : WellNested (m :: rest)) :
    ∃ list, m.1 = .opens .loop list := by
  cases h
  exact ⟨_, rfl⟩

/-- The last tag closes a loop. -/
theorem eq_concat (h : WellNested marks) (hne : marks ≠ []) :
    ∃ before last, marks = before ++ [(Tag.closes .loop, last)] := by
  induction h with
  | nil => exact absurd rfl hne
  | @loop list opening closing inner rest _ _ _ ih =>
    rcases List.eq_nil_or_concat rest with rfl | ⟨_, _, hrest⟩
    · exact ⟨(.opens .loop list, opening) :: inner, closing, rfl⟩
    · obtain ⟨before, last, rfl⟩ := ih (by simp [hrest])
      exact ⟨(.opens .loop list, opening) :: (inner ++ (Tag.closes .loop, closing) :: before), last,
        by simp⟩

/-- Behind a tag that opens a loop is the one that closes it. -/
theorem exists_closing (h : WellNested marks) {before tail : List (Tag × Spot)} {list : String}
    {opening : Spot} (hmarks : marks = before ++ (Tag.opens .loop list, opening) :: tail) :
    ∃ inner closing rest, tail = inner ++ (Tag.closes .loop, closing) :: rest ∧ WellNested inner ∧
      (before = [] → WellNested rest) := by
  induction h generalizing before tail with
  | nil => simp at hmarks
  | @loop name first last inner rest hinner hrest ihInner ihRest =>
    cases before with
    | nil =>
      obtain ⟨-, rfl⟩ := List.cons.inj hmarks
      exact ⟨inner, last, rest, rfl, hinner, fun _ => hrest⟩
    | cons m before =>
      obtain ⟨-, hmarks⟩ := List.cons.inj hmarks
      rcases List.append_eq_append_iff.mp hmarks with ⟨between, rfl, hback⟩ | ⟨between, rfl, hback⟩
      · cases between with
        | nil => cases hback
        | cons m between =>
          obtain ⟨-, hback⟩ := List.cons.inj hback
          obtain ⟨inner', closing, rest', htail, hnested, -⟩ := ihRest hback
          exact ⟨inner', closing, rest', htail, hnested, (nomatch ·)⟩
      · cases between with
        | nil => cases hback
        | cons m between =>
          obtain ⟨rfl, rfl⟩ := List.cons.inj hback
          obtain ⟨inner', closing, rest', rfl, hnested, -⟩ := ihInner rfl
          exact ⟨inner', closing, rest' ++ (Tag.closes .loop, last) :: rest, by simp, hnested,
            (nomatch ·)⟩

/-- How many more loops are opened than closed. -/
def depth (marks : List (Tag × Spot)) : Int :=
  marks.foldr (fun m rest => (match m.1 with
    | .opens .. => 1
    | .closes .. => -1
    | _ => 0) + rest) 0

theorem depth_append (a b : List (Tag × Spot)) : depth (a ++ b) = depth a + depth b := by
  induction a with
  | nil => exact (Int.zero_add _).symm
  | cons m a ih =>
    rw [List.cons_append, depth, List.foldr_cons, ← depth, ih, ← Int.add_assoc]
    rfl

/-- Read from the left, no more loops are closed than opened. -/
theorem depth_of_append (h : WellNested marks) :
    depth marks = 0 ∧ ∀ a b, marks = a ++ b → 0 ≤ depth a := by
  have hopens : ∀ list spot rest, depth ((.opens .loop list, spot) :: rest) = 1 + depth rest :=
    fun _ _ _ => rfl
  have hcloses : ∀ spot rest, depth ((.closes .loop, spot) :: rest) = -1 + depth rest :=
    fun _ _ => rfl
  induction h with
  | nil => exact ⟨rfl, fun a b hab => by simp [(List.nil_eq_append_iff.mp hab).1, depth]⟩
  | @loop list opening closing inner rest _ _ ihInner ihRest =>
    obtain ⟨hinner, hinnerFront⟩ := ihInner
    obtain ⟨hrest, hrestFront⟩ := ihRest
    refine ⟨by rw [hopens, depth_append, hcloses]; omega, fun a b hab => ?_⟩
    rcases List.cons_eq_append_iff.mp hab with ⟨rfl, -⟩ | ⟨a, rfl, htail⟩
    · exact Int.le_refl _
    · rw [hopens]
      rcases List.append_eq_append_iff.mp htail with ⟨a, rfl, hback⟩ | ⟨c, hfront, -⟩
      · rcases List.cons_eq_append_iff.mp hback with ⟨rfl, -⟩ | ⟨a, rfl, hback'⟩
        · rw [List.append_nil]
          omega
        · have := hrestFront a b hback'
          rw [depth_append, hcloses]
          omega
      · have := hinnerFront a c hfront
        omega

theorem not_append_closes {a b : List (Tag × Spot)} {spot : Spot} (ha : WellNested a) :
    ¬WellNested (a ++ (Tag.closes .loop, spot) :: b) := by
  intro h
  have hfront := h.depth_of_append.2 (a ++ [(Tag.closes .loop, spot)]) b (by simp)
  have hone : depth [((.closes .loop : Tag), spot)] = -1 := rfl
  rw [depth_append, ha.depth_of_append.1, hone] at hfront
  omega

/-- Without their last tag, tags that go on behind a loop that is closed are not well nested. -/
theorem between_iff {between inner behind : List (Tag × Spot)} {last closing : Spot}
    (hinner : WellNested inner)
    (h : between ++ [(Tag.closes .loop, last)] = inner ++ (Tag.closes .loop, closing) :: behind) :
    WellNested between ↔ behind = [] := by
  constructor
  · intro hbetween
    rcases List.eq_nil_or_concat behind with hnil | ⟨others, m, rfl⟩
    · exact hnil
    · rw [List.concat_eq_append, ← List.cons_append, ← List.append_assoc] at h
      obtain ⟨rfl, -⟩ := List.append_inj' h rfl
      exact absurd hbetween hinner.not_append_closes
  · rintro rfl
    obtain ⟨rfl, -⟩ := List.append_inj' h rfl
    exact hinner

end WellNested

/-! ### The two tags -/

namespace Row

variable {r : Row} {list : String}

theorem eq_opens_of_opensLoop? {tag : Tag} (h : opensLoop? list tag = some true) :
    tag = .opens .loop list := by
  unfold opensLoop? at h
  split at h
  · next name =>
    split at h
    · next hname => rw [hname]
    · cases h
  · cases h
  · cases h

/-- From the first tag that opens the loop the last one is looked for that closes one. -/
theorem loopEnds_eq {before between : List (Tag × Spot)} {first last : Spot}
    (h : r.loopMarks =
      before ++ (Tag.opens .loop list, first) :: (between ++ [(Tag.closes .loop, last)]))
    (hfirst : ∀ spot, (.opens .loop list, spot) ∉ before) :
    r.loopEnds list = some (first, some last) := by
  let ends? : Tag × Spot → Option (Bool × Spot) := fun m => (opensLoop? list m.1).map (·, m.2)
  have hbefore : ∀ x ∈ before.filterMap ends?, (!x.1) = true := by
    intro x hx
    obtain ⟨⟨tag, spot⟩, hm, hend⟩ := List.mem_filterMap.mp hx
    obtain ⟨opens, hopens, rfl⟩ := Option.map_eq_some_iff.mp hend
    cases opens with
    | false => rfl
    | true =>
      exact absurd (eq_opens_of_opensLoop? hopens ▸ hm) (hfirst spot)
  have hopens : ends? (.opens .loop list, first) = some (true, first) := by
    simp [ends?, opensLoop?]
  have hcloses : [((.closes .loop : Tag), last)].filterMap ends? = [(false, last)] := rfl
  rw [loopEnds, loopTags_eq, h, List.filterMap_append,
    List.dropWhile_append_of_pos hbefore, List.filterMap_cons_some hopens, List.filterMap_append,
    hcloses, List.dropWhile_cons_of_neg (by simp)]
  simp

theorem exists_ends (hn : WellNested r.loopMarks)
    (hl : ∃ spot, (.opens .loop list, spot) ∈ r.loopMarks) :
    ∃ before first between last,
      r.loopMarks =
          before ++ (Tag.opens .loop list, first) :: (between ++ [(Tag.closes .loop, last)]) ∧
        ∀ spot, (.opens .loop list, spot) ∉ before := by
  have hsome : (r.loopMarks.find? (·.1 = .opens .loop list)).isSome := by
    obtain ⟨spot, hspot⟩ := hl
    exact List.find?_isSome.mpr ⟨_, hspot, by simp⟩
  obtain ⟨⟨tag, first⟩, hfind⟩ := Option.isSome_iff_exists.mp hsome
  obtain ⟨htag, before, tail, hmarks, hbefore⟩ := List.find?_eq_some_iff_append.mp hfind
  obtain rfl : tag = .opens .loop list := by simpa using htag
  obtain ⟨others, last, hothers⟩ := hn.eq_concat (by simp [hmarks])
  refine ⟨before, first, tail.dropLast, last, ?_, fun spot hspot => by simpa using hbefore _ hspot⟩
  rcases List.eq_nil_or_concat tail with rfl | ⟨between, m, rfl⟩
  · -- the last tag opens no loop
    rw [hmarks] at hothers
    cases (List.append_inj' hothers rfl).2
  · rw [hmarks, List.concat_eq_append, ← List.cons_append, ← List.append_assoc] at hothers
    obtain ⟨-, hm⟩ := List.append_inj' hothers rfl
    rw [hmarks, List.concat_eq_append, List.dropLast_concat, hm]

section

variable {before between inner behind : List (Tag × Spot)} {first last closing : Spot}

theorem closing_eq_last_iff
    (hmarks : r.loopMarks =
      before ++ (Tag.opens .loop list, first) :: (between ++ [(Tag.closes .loop, last)]))
    (htail : between ++ [(Tag.closes .loop, last)] =
      inner ++ (Tag.closes .loop, closing) :: behind) :
    closing = last ↔ behind = [] := by
  constructor
  · rintro rfl
    rcases List.eq_nil_or_concat behind with hnil | ⟨others, m, rfl⟩
    · exact hnil
    · -- the tag would be behind itself
      rw [List.concat_eq_append, ← List.cons_append, ← List.append_assoc] at htail
      obtain ⟨rfl, hm⟩ := List.append_inj' htail rfl
      obtain rfl : (.closes .loop, closing) = m := List.singleton_inj.mp hm
      have horder := r.pairwise_loopMarks
      rw [hmarks] at horder
      have hbehind := (List.pairwise_append.mp horder).2.1.of_cons
      have hself := (List.pairwise_append.mp hbehind).2.2 _
        (List.mem_append_right _ (List.mem_cons_self ..)) _ (List.mem_singleton_self _)
      have hmem : (Tag.closes .loop, closing) ∈ r.loopMarks := by simp [hmarks]
      exact absurd hself (isIn_of_mem_loopMarks hmem).not_before
  · rintro rfl
    obtain ⟨-, hm⟩ := List.append_inj' htail rfl
    exact (Prod.mk.inj (List.singleton_inj.mp hm)).2.symm

/-- The loop that a row is filled in for is opened by its first tag of a loop. -/
theorem eq_nil_of_loop? (hn : WellNested r.loopMarks) (hloop : r.loop? = some list)
    (hmarks : r.loopMarks = before ++ inner) (hfirst : ∀ spot, (.opens .loop list, spot) ∉ before) :
    before = [] := by
  cases before with
  | nil => rfl
  | cons m before =>
    rw [hmarks, List.cons_append] at hn
    obtain ⟨name, hname⟩ := hn.exists_opens
    have hsome : m.1.loop? = some name := by rw [hname]; rfl
    rw [loop?_eq, hmarks, List.cons_append, List.findSome?_cons, hsome] at hloop
    obtain rfl := Option.some.inj hloop
    exact absurd (hname ▸ List.mem_cons_self ..) (hfirst m.2)

end

/-- If the loops of a row are well nested, the first tag that opens the loop over the list is
erased, and the last tag of the row, which closes a loop. It closes this loop just if no tag of a
loop is behind the one that does. If the loop is the one that the row is filled in for, then just in
this case the tags that stay are well nested. -/
theorem withoutLoop_eq_erase (hn : WellNested r.loopMarks)
    (hl : ∃ spot, (.opens .loop list, spot) ∈ r.loopMarks) :
    ∃ before first between last inner closing behind,
      r.loopMarks =
          before ++ (Tag.opens .loop list, first) :: (between ++ [(Tag.closes .loop, last)]) ∧
        (∀ spot, (.opens .loop list, spot) ∉ before) ∧
        r.withoutLoop list = r.erase [first, last] ∧
        between ++ [(Tag.closes .loop, last)] = inner ++ (Tag.closes .loop, closing) :: behind ∧
        WellNested inner ∧ (closing = last ↔ behind = []) ∧
        (r.loop? = some list →
          before = [] ∧ WellNested behind ∧ (WellNested between ↔ behind = [])) := by
  obtain ⟨before, first, between, last, hmarks, hfirst⟩ := exists_ends hn hl
  obtain ⟨inner, closing, behind, htail, hinner, hbehind⟩ := hn.exists_closing hmarks
  refine ⟨before, first, between, last, inner, closing, behind, hmarks, hfirst, ?_, htail, hinner,
    closing_eq_last_iff hmarks htail, fun hloop => ?_⟩
  · have horder := r.pairwise_loopMarks
    rw [hmarks] at horder
    have hbefore : first.Before last :=
      (List.pairwise_cons.mp (List.pairwise_append.mp horder).2.1).1 (.closes .loop, last) (by simp)
    have hmem : (Tag.opens .loop list, first) ∈ r.loopMarks := by simp [hmarks]
    rw [withoutLoop, loopEnds_eq hmarks hfirst]
    exact cut_cut (isIn_of_mem_loopMarks hmem) hbefore
  · have hnil := eq_nil_of_loop? hn hloop hmarks hfirst
    exact ⟨hnil, hbehind hnil, hinner.between_iff htail⟩

theorem withoutLoop_eq_erase_nested :
    let p : Paragraph := { runs := [.ofText (tagText "#each b" ++ "[" ++ tagText "this"),
      .ofText ("]" ++ tagText "/each" ++ "\x7b\x7b/ea"), .ofText "ch\x7d\x7d."] }
    let r : Row := { cells := [{ paragraphs := [{}, .ofText (tagText "#each a" ++ "x")] },
      { paragraphs := [p] }] }
    (∃ first last, r.withoutLoop "a" = r.erase [first, last]) ∧
      (r.withoutLoop "a").paragraphs.map (·.runs.map (·.text?.getD "")) =
        [[], ["x"], [tagText "#each b" ++ "[" ++ tagText "this", "]" ++ tagText "/each", "."]] := by
  intro p r
  have hmarks : r.loopMarks = [(.opens .loop "a", ⟨0, 1, 0, ⟨0, 11⟩⟩),
      (.opens .loop "b", ⟨1, 0, 0, ⟨0, 11⟩⟩), (.closes .loop, ⟨1, 0, 0, ⟨21, 30⟩⟩),
      (.closes .loop, ⟨1, 0, 0, ⟨30, 39⟩⟩)] := by decide +kernel
  have hn : WellNested r.loopMarks :=
    hmarks ▸ @WellNested.loop "a" _ _ [_, _] [] (@WellNested.loop "b" _ _ [] [] .nil .nil) .nil
  have hl : ∃ spot, (.opens .loop "a", spot) ∈ r.loopMarks :=
    ⟨⟨0, 1, 0, ⟨0, 11⟩⟩, hmarks ▸ List.mem_cons_self ..⟩
  obtain ⟨_, first, _, last, _, _, _, _, _, herase, _⟩ := withoutLoop_eq_erase hn hl
  exact ⟨⟨first, last, herase⟩, by decide +kernel⟩

/-- Of two loops side by side, the first one loses the tag that closes the second one. -/
theorem withoutLoop_ne_erase_closing :
    let r : Row := { cells := [{ paragraphs := [.ofText (tagText "#each a" ++ "x" ++
      tagText "/each" ++ tagText "#each b" ++ "y" ++ tagText "/each")] }] }
    let opening : Spot := ⟨0, 0, 0, ⟨0, 11⟩⟩
    let closing : Spot := ⟨0, 0, 0, ⟨12, 21⟩⟩
    (r.loopMarks = [(.opens .loop "a", opening), (.closes .loop, closing),
        (.opens .loop "b", ⟨0, 0, 0, ⟨21, 32⟩⟩), (.closes .loop, ⟨0, 0, 0, ⟨33, 42⟩⟩)] ∧
      WellNested r.loopMarks) ∧ r.loop? = some "a" ∧
      r.withoutLoop "a" ≠ r.erase [opening, closing] ∧
      (r.withoutLoop "a").paragraphs.map Paragraph.text =
        ["x" ++ tagText "/each" ++ tagText "#each b" ++ "y"] := by
  intro r opening closing
  have hmarks : r.loopMarks = [(.opens .loop "a", opening), (.closes .loop, closing),
      (.opens .loop "b", ⟨0, 0, 0, ⟨21, 32⟩⟩), (.closes .loop, ⟨0, 0, 0, ⟨33, 42⟩⟩)] := by
    decide +kernel
  have hn : WellNested r.loopMarks :=
    hmarks ▸ @WellNested.loop "a" _ _ [] [_, _] .nil (@WellNested.loop "b" _ _ [] [] .nil .nil)
  have hother : r.withoutLoop "a" ≠ r.erase [opening, closing] := by decide +kernel
  exact ⟨⟨hmarks, hn⟩, by decide +kernel, hother, by decide +kernel⟩

end Row

end Letterpress
