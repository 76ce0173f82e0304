import Letterpress.Text.Blank
import Mathlib.Data.List.DropRight
import Mathlib.Data.List.TakeWhile

/-!
# The lines of a text

A text is cut at its newlines. The carriage return right before a newline is no part of its line,
and behind the last newline there is a line only if there is a character.
-/

namespace Letterpress.Text

/-- A line as it is before its newline, without the one carriage return at its end. -/
def withoutReturn (cs : List Char) : List Char :=
  if cs.getLast? = some '\r' then cs.dropLast else cs

/-- The lines of the pieces that newlines cut a text into. -/
def linesOf (pieces : List (List Char)) : List (List Char) :=
  pieces.dropLast.map withoutReturn ++ pieces.getLast?.toList.filter (· ≠ [])

/-- The lines of a text, by its newlines. -/
def cutLines (text : String) : List String :=
  (linesOf (text.toList.splitOn '\n')).map String.ofList

theorem linesOf_cons (piece : List Char) {pieces : List (List Char)} (h : pieces ≠ []) :
    linesOf (piece :: pieces) = withoutReturn piece :: linesOf pieces := by
  obtain ⟨next, rest, rfl⟩ := List.exists_cons_of_ne_nil h
  simp [linesOf, List.dropLast_cons_of_ne_nil, List.getLast?_cons_cons]

/-- What the scanner has seen of a line belongs to the first piece of the rest. -/
theorem linesFrom_eq (seen cs : List Char) :
    linesFrom seen cs = linesOf ((cs.splitOn '\n').modifyHead (seen.reverse ++ ·)) := by
  induction cs generalizing seen with
  | nil => cases seen <;> simp [linesFrom, linesOf]
  | cons c rest ih =>
    unfold linesFrom
    rw [List.splitOn_eq_splitOnP, List.splitOnP_cons_eq_if_modifyHead, ← List.splitOn_eq_splitOnP]
    by_cases hc : c = '\n'
    · rw [if_pos hc, if_pos (by simpa using hc), List.modifyHead_cons, List.append_nil,
        linesOf_cons _ (List.splitOn_ne_nil _ _), ih []]
      congr 1
      · -- what is seen is last first, so the carriage return is the first of it
        split
        · simp [withoutReturn]
        · next hne =>
          cases seen with
          | nil => rfl
          | cons c seen =>
            have hc : c ≠ '\r' := fun h => hne seen (h ▸ rfl)
            simp [withoutReturn, hc]
      · exact congrArg linesOf (congrFun List.modifyHead_id _)
    · rw [if_neg hc, if_neg (by simpa using hc), ih, List.modifyHead_modifyHead]
      congr 2
      funext piece
      simp

theorem lines_eq_cutLines (text : String) : lines text = cutLines text := by
  rw [lines, cutLines, linesFrom_eq]
  exact congrArg (fun pieces => (linesOf pieces).map String.ofList) (congrFun List.modifyHead_id _)

/-- Whether a row of lines reaches from the first to the last line that is not blank. -/
structure IsShown (shown lines : List String) : Prop where
  split : ∃ before behind, lines = before ++ shown ++ behind ∧
    ∀ line ∈ before ++ behind, allBlank line
  first : ∀ line ∈ shown.head?, allBlank line = false
  last : ∀ line ∈ shown.getLast?, allBlank line = false

theorem isShown_trimmed (lines : List String) :
    IsShown ((lines.dropWhile allBlank).rdropWhile allBlank) lines := by
  let rest := lines.dropWhile allBlank
  refine ⟨⟨lines.takeWhile allBlank, rest.rtakeWhile allBlank, ?_, fun line hline => ?_⟩,
    fun line hline => ?_, fun line hline => ?_⟩
  · rw [List.append_assoc, List.rdropWhile_append_rtakeWhile, List.takeWhile_append_dropWhile]
  · rcases List.mem_append.mp hline with h | h
    · exact List.mem_takeWhile_imp h
    · exact List.mem_rtakeWhile_imp h
  · obtain ⟨behind, hrest⟩ := List.rdropWhile_prefix allBlank rest
    have hhead : rest.head? = some line := by rw [← hrest, List.head?_append, hline, Option.some_or]
    have hnot := List.head?_dropWhile_not allBlank lines
    rwa [hhead] at hnot
  · obtain ⟨hne, rfl⟩ := List.mem_getLast?_eq_getLast hline
    exact Bool.eq_false_iff.mpr (List.rdropWhile_last_not allBlank rest hne)

theorem IsShown.eq_nil_iff {shown lines : List String} (h : IsShown shown lines) :
    shown = [] ↔ ∀ line ∈ lines, allBlank line := by
  obtain ⟨before, behind, rfl, hblank⟩ := h.split
  constructor
  · rintro rfl
    simpa using hblank
  · intro hall
    cases shown with
    | nil => rfl
    | cons line rest =>
      have hfirst := h.first line rfl
      rw [hall line (by simp)] at hfirst
      cases hfirst

end Letterpress.Text
