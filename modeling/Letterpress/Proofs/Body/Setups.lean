import Mathlib.Data.List.Induction
import Mathlib.Data.List.InsertIdx
import Letterpress.Body.Writing

/-!
# Which section setup counts

A body is changed step by step, and each element carries the number of the change that put it in.
The setup that counts is the last one in the row. It is the newest one as long as no setup is put in
before another: then the setups stand in the row in the order they came.
-/

namespace Letterpress

open Markup Markup.Piece

/-- A change of the elements of a body. -/
inductive BodyChange where
  | push (e : Element)
  | insert (index : Nat) (e : Element)
  | remove (index : Nat)
  | setSection (s : Section)

namespace Body

def change (b : Body) : BodyChange → Body
  | .push e => b.push e
  | .insert index e => b.insert index e
  | .remove index => (b.remove index).2
  | .setSection s => b.setSection s

/-- The body behind changes. -/
def after (b : Body) (changes : List BodyChange) : Body := changes.foldl change b

end Body

/-- An element of a body and the number of the change that put it in. -/
structure Dated where
  element : Element
  time : Nat

namespace Dated

def isSetup (d : Dated) : Bool := d.element.setup?.isSome

end Dated

/-- What a change makes of dated elements in a row. -/
def BodyChange.date (time : Nat) (row : List Dated) : BodyChange → List Dated
  | push e => row ++ [⟨e, time⟩]
  | insert index e => row.insertIdx (min index row.length) ⟨e, time⟩
  | remove index => row.eraseIdx index
  | setSection s => row.filter (!·.isSetup) ++ [⟨.setup s, time⟩]

/-- The row behind changes, of which the first has the number `time`. -/
def datedFrom (time : Nat) (row : List Dated) : List BodyChange → List Dated
  | [] => row
  | c :: rest => datedFrom (time + 1) (c.date time row) rest

/-- The elements behind changes of an empty body, with the changes that put them in. -/
def dated (changes : List BodyChange) : List Dated := datedFrom 0 [] changes

def elementsOf (row : List Dated) : Body := ⟨row.map Dated.element⟩

theorem elementsOf_date (time : Nat) (row : List Dated) (c : BodyChange) :
    elementsOf (c.date time row) = (elementsOf row).change c := by
  cases c with
  | push e => simp [elementsOf, BodyChange.date, Body.change, Body.push]
  | insert index e =>
    simp [elementsOf, BodyChange.date, Body.change, Body.insert, List.map_insertIdx]
  | remove index => simp [elementsOf, BodyChange.date, Body.change, Body.remove, List.eraseIdx_map]
  | setSection s =>
    have hkept : (row.filter (!·.isSetup)).map Dated.element =
        (row.map Dated.element).filter (·.setup?.isNone) := by
      rw [List.filter_map]
      exact congrArg _ (List.filter_congr fun d _ => by simp [Dated.isSetup])
    simp [elementsOf, BodyChange.date, Body.change, Body.setSection, hkept]

theorem elementsOf_datedFrom (time : Nat) (row : List Dated) (changes : List BodyChange) :
    elementsOf (datedFrom time row changes) = (elementsOf row).after changes := by
  induction changes generalizing time row with
  | nil => rfl
  | cons c rest ih =>
    exact (ih _ _).trans (congrArg (Body.after · rest) (elementsOf_date time row c))

/-- Whether a change that puts a setup in puts it behind those that are there. -/
def BodyChange.isBehind (b : Body) : BodyChange → Bool
  | insert index (.setup _) => (b.elements.drop index).all (·.setup?.isNone)
  | _ => true

/-- Whether no setup is put in before another. -/
def Body.keepsOrder (b : Body) : List BodyChange → Bool
  | [] => true
  | c :: rest => c.isBehind b && (b.change c).keepsOrder rest

/-- All elements came before `time`, and the setups stand in the order they came. -/
structure InOrder (time : Nat) (row : List Dated) : Prop where
  past : ∀ d ∈ row, d.time < time
  setups : (row.filter Dated.isSetup).Pairwise (·.time < ·.time)

theorem filter_insertIdx {α : Type} {p : α → Bool} {x : α} {l : List α} {index : Nat}
    (hindex : index ≤ l.length) (h : p x → ∀ y ∈ l.drop index, p y = false) :
    (l.insertIdx index x).filter p = l.filter p ++ [x].filter p := by
  induction l generalizing index with
  | nil =>
    obtain rfl : index = 0 := Nat.le_zero.mp hindex
    rfl
  | cons y l ih =>
    cases index with
    | zero =>
      rw [List.insertIdx_zero, List.filter_cons]
      cases hx : p x with
      | false => simp [hx]
      | true =>
        have hnone : (y :: l).filter p = [] :=
          List.filter_eq_nil_iff.mpr fun y hy => by simp [h hx y hy]
        simp [hx, hnone]
    | succ index =>
      have ih := ih (Nat.le_of_succ_le_succ hindex) h
      rw [List.insertIdx_succ_cons, List.filter_cons, List.filter_cons, ih]
      split <;> rfl

namespace InOrder

variable {time : Nat} {row : List Dated}

theorem sublist {row' : List Dated} (h : InOrder time row) (hsub : row'.Sublist row) :
    InOrder time row' :=
  ⟨fun d hd => h.past d (hsub.subset hd), h.setups.sublist (hsub.filter _)⟩

/-- A new element may stand anywhere, but a new setup behind the others. -/
theorem add {row' : List Dated} {e : Element} (h : InOrder time row)
    (hmem : ∀ d ∈ row', d = ⟨e, time⟩ ∨ d ∈ row)
    (hfilter : row'.filter Dated.isSetup =
      row.filter Dated.isSetup ++ [(⟨e, time⟩ : Dated)].filter Dated.isSetup) :
    InOrder (time + 1) row' := by
  refine ⟨fun d hd => ?_, ?_⟩
  · rcases hmem d hd with rfl | hd
    · exact Nat.lt_succ_self _
    · exact Nat.lt_succ_of_lt (h.past d hd)
  · rw [hfilter, List.pairwise_append]
    refine ⟨h.setups, (List.pairwise_singleton _ _).sublist List.filter_sublist, ?_⟩
    intro d hd d' hd'
    obtain rfl := List.mem_singleton.mp (List.mem_filter.mp hd').1
    exact h.past d (List.mem_filter.mp hd).1

theorem date {c : BodyChange} (h : InOrder time row) (hc : c.isBehind (elementsOf row)) :
    InOrder (time + 1) (c.date time row) := by
  cases c with
  | push e =>
    refine h.add (fun d hd => ?_) (List.filter_append ..)
    simpa [or_comm] using List.mem_append.mp hd
  | insert index e =>
    refine h.add (fun d hd => List.eq_or_mem_of_mem_insertIdx hd)
      (filter_insertIdx (Nat.min_le_right ..) fun he d hd => ?_)
    obtain ⟨s, hs⟩ := Option.isSome_iff_exists.mp he
    cases e with
    | setup s =>
      rcases Nat.le_total index row.length with hle | hle
      · rw [Nat.min_eq_left hle] at hd
        have hnone := List.all_eq_true.mp hc d.element
          (by simpa [elementsOf, ← List.map_drop] using ⟨d, hd, rfl⟩)
        simpa [Dated.isSetup] using hnone
      · rw [Nat.min_eq_right hle, List.drop_length] at hd
        exact absurd hd List.not_mem_nil
    | paragraph | table | control | bookmarkStart | bookmarkEnd => cases hs
  | remove index =>
    have hshorter := h.sublist (List.eraseIdx_sublist row index)
    exact ⟨fun d hd => Nat.lt_succ_of_lt (hshorter.past d hd), hshorter.setups⟩
  | setSection s =>
    refine (h.sublist List.filter_sublist).add (fun d hd => ?_) (List.filter_append ..)
    simpa [or_comm] using List.mem_append.mp hd

theorem datedFrom {changes : List BodyChange} (h : InOrder time row)
    (hc : (elementsOf row).keepsOrder changes) :
    ∃ time', InOrder time' (datedFrom time row changes) := by
  induction changes generalizing time row with
  | nil => exact ⟨time, h⟩
  | cons c rest ih =>
    obtain ⟨hbehind, hrest⟩ := Bool.and_eq_true_iff.mp hc
    exact ih (h.date hbehind) (by rwa [elementsOf_date])

end InOrder

/-! ### The setup that counts -/

/-- The setup that was put in last of those in the row. -/
def IsNewest (row : List Dated) (s : Section) : Prop :=
  ∃ d ∈ row, d.element.setup? = some s ∧ ∀ d' ∈ row, d'.isSetup → d'.time ≤ d.time

instance (row : List Dated) (s : Section) : Decidable (IsNewest row s) :=
  inferInstanceAs (Decidable (∃ d ∈ row, _))

theorem section?_elementsOf (row : List Dated) :
    (elementsOf row).section? = (row.filter Dated.isSetup).getLast?.bind (·.element.setup?) := by
  induction row using List.reverseRecOn with
  | nil => rfl
  | append_singleton row d ih =>
    rw [Body.section?, elementsOf, List.map_append, List.reverse_append] at *
    cases hd : d.element.setup? with
    | some s => simp [hd, Dated.isSetup]
    | none => simpa [hd, Dated.isSetup] using ih

theorem section?_eq_iff_isNewest {time : Nat} {row : List Dated} {s : Section}
    (h : InOrder time row) : (elementsOf row).section? = some s ↔ IsNewest row s := by
  have hpairs := h.setups
  rw [section?_elementsOf]
  rcases List.eq_nil_or_concat (row.filter Dated.isSetup) with hnone | ⟨before, last, hrow⟩
  · rw [hnone]
    refine ⟨(nomatch ·), fun ⟨d, hd, hset, _⟩ => ?_⟩
    have hmem : d ∈ row.filter Dated.isSetup :=
      List.mem_filter.mpr ⟨hd, by rw [Dated.isSetup, hset]; rfl⟩
    exact absurd (hnone ▸ hmem) List.not_mem_nil
  rw [List.concat_eq_append] at hrow
  rw [hrow] at hpairs ⊢
  rw [List.getLast?_concat, Option.bind_some]
  have holder := (List.pairwise_append.mp hpairs).2.2
  obtain ⟨hin, hsetup⟩ : last ∈ row ∧ last.isSetup := List.mem_filter.mp (by simp [hrow])
  constructor
  · refine fun hset => ⟨last, hin, hset, fun d hd hdsetup => ?_⟩
    have hmem : d ∈ before ++ [last] := hrow ▸ List.mem_filter.mpr ⟨hd, hdsetup⟩
    rcases List.mem_append.mp hmem with hbefore | hlast
    · exact Nat.le_of_lt (holder d hbefore last (List.mem_singleton_self _))
    · exact Nat.le_of_eq (congrArg Dated.time (List.mem_singleton.mp hlast))
  · -- a setup before the last one is older, so only the last one can be the newest
    rintro ⟨d, hd, hset, hnewest⟩
    have hmem : d ∈ before ++ [last] :=
      hrow ▸ List.mem_filter.mpr ⟨hd, by rw [Dated.isSetup, hset]; rfl⟩
    rcases List.mem_append.mp hmem with hbefore | hlast
    · exact absurd (hnewest last hin hsetup)
        (Nat.not_le.mpr (holder d hbefore last (List.mem_singleton_self _)))
    · rw [← List.mem_singleton.mp hlast, hset]

/-- Of the setups in the body itself only the one that counts is written, behind all else. -/
theorem pieces_of_section? {b : Body} {s : Section} (h : b.section? = some s) :
    b.pieces = (do
      let others ← Element.piecesOf (b.elements.filter (·.setup?.isNone))
      let setup ← s.pieces
      pure (Piece.element "w:body" [] (lineEnd :: others ++ (setup ++ [lineEnd])))) := by
  rw [Body.pieces, h]
  dsimp only
  cases Element.piecesOf (b.elements.filter (·.setup?.isNone)) with
  | error e => rfl
  | ok others => cases s.pieces <;> rfl

/-- As long as no setup is put in before another, the one that counts is the newest one, and of the
setups it alone is written, behind all else. -/
theorem section?_after_eq_newest {changes : List BodyChange} (h : Body.keepsOrder {} changes)
    (s : Section) :
    ((Body.after {} changes).section? = some s ↔ IsNewest (dated changes) s) ∧
      (IsNewest (dated changes) s → (Body.after {} changes).pieces = (do
        let others ← Element.piecesOf ((Body.after {} changes).elements.filter (·.setup?.isNone))
        let setup ← s.pieces
        pure (Piece.element "w:body" [] (lineEnd :: others ++ (setup ++ [lineEnd]))))) := by
  obtain ⟨time, horder⟩ := InOrder.datedFrom
    (⟨fun _ hd => absurd hd List.not_mem_nil, .nil⟩ : InOrder 0 []) h
  have hbody : elementsOf (dated changes) = Body.after {} changes :=
    elementsOf_datedFrom 0 [] changes
  have hcounts : (Body.after {} changes).section? = some s ↔ IsNewest (dated changes) s := by
    rw [← hbody]
    exact section?_eq_iff_isNewest horder
  exact ⟨hcounts, fun hs => pieces_of_section? (hcounts.mpr hs)⟩

theorem section?_after_eq_newest_removed :
    let changes : List BodyChange := [.push (.setup {}), .insert 0 (.paragraph {}),
      .insert 9 (.setup { titlePage := true }), .push (.setup {}), .insert 1 (.bookmarkEnd 7),
      .remove 4]
    Body.keepsOrder {} changes ∧ IsNewest (dated changes) { titlePage := true } ∧
      (Body.after {} changes).section? = some { titlePage := true } ∧
      (Body.after {} changes).xml = .ok ("<w:body>\n<w:p></w:p>\n<w:bookmarkEnd w:id=\"7\"/>\n" ++
        "<w:sectPr><w:titlePg/></w:sectPr>\n</w:body>") := by
  intro changes
  have horder : Body.keepsOrder {} changes := by decide
  have hnewest : IsNewest (dated changes) { titlePage := true } := by decide
  obtain ⟨hcounts, hpieces⟩ := section?_after_eq_newest horder { titlePage := true }
  exact ⟨horder, hnewest, hcounts.mpr hnewest,
    (congrArg (Except.map join) (hpieces hnewest)).trans (by decide +kernel)⟩

/-- A setup that is put in before another is the newest one, and yet the other counts. -/
theorem section?_after_ne_newest :
    let changes : List BodyChange := [.push (.setup { titlePage := true }), .insert 0 (.setup {})]
    IsNewest (dated changes) {} ∧ (Body.after {} changes).section? ≠ some {} ∧
      (Body.after {} changes).xml =
        .ok "<w:body>\n<w:sectPr><w:titlePg/></w:sectPr>\n</w:body>" := by
  decide +kernel

end Letterpress
