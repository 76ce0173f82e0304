import Mathlib.Algebra.Ring.Nat
import Letterpress.Proofs.Template.Source

/-!
# Characters and their places

Placed, a text has the same characters, and the place of each is what the characters before it add
up to. So a stretch of a placed text spans just its bytes.
-/

namespace Letterpress.Template

theorem chars_placedFrom (p : Place) (cs : List Char) : chars (placedFrom p cs) = cs := by
  induction cs generalizing p with
  | nil => rfl
  | cons c rest ih => simpa [placedFrom, chars] using ih _

@[simp] theorem textOf_placed (text : String) : textOf (placed text) = text := by
  simp [textOf, placed, chars_placedFrom]

/-- The place behind characters. -/
def Place.behind (p : Place) (cs : List Char) : Place := cs.foldl Place.next p

theorem offset_behind (p : Place) (cs : List Char) :
    (p.behind cs).offset = p.offset + (cs.map Char.utf8Size).sum := by
  induction cs generalizing p with
  | nil => rfl
  | cons c rest ih =>
    show ((p.next c).behind rest).offset = _
    rw [ih, List.map_cons, List.sum_cons, ← Nat.add_assoc]
    rfl

theorem placedFrom_append (p : Place) (a b : List Char) :
    placedFrom p (a ++ b) = placedFrom p a ++ placedFrom (p.behind a) b := by
  induction a generalizing p with
  | nil => rfl
  | cons c rest ih => simp [placedFrom, ih, Place.behind]

theorem offset_of_mem_placedFrom {g : Glyph Place} {cs : List Char} {p : Place}
    (h : g ∈ placedFrom p cs) :
    p.offset ≤ g.mark.offset ∧ g.mark.offset < p.offset + (cs.map Char.utf8Size).sum := by
  induction cs generalizing p with
  | nil => simp [placedFrom] at h
  | cons c rest ih =>
    have hc := c.utf8Size_pos
    rw [List.map_cons, List.sum_cons]
    rcases List.mem_cons.mp h with rfl | h
    · exact ⟨Nat.le_refl _, show p.offset < _ by omega⟩
    · have := ih h
      simp only [Place.next] at this
      omega

/-- The length of what glyphs spell in bytes. -/
def byteSize {μ : Type} (glyphs : List (Glyph μ)) : Nat := (textOf glyphs).utf8ByteSize

theorem textOf_append {μ : Type} (a b : List (Glyph μ)) :
    textOf (a ++ b) = textOf a ++ textOf b := by
  simp [textOf, chars]

@[simp] theorem byteSize_append {μ : Type} (a b : List (Glyph μ)) :
    byteSize (a ++ b) = byteSize a + byteSize b := by
  simp [byteSize, textOf_append]

theorem byteSize_eq_sum {μ : Type} (glyphs : List (Glyph μ)) :
    byteSize glyphs = ((chars glyphs).map Char.utf8Size).sum := by
  unfold byteSize textOf
  induction chars glyphs with
  | nil => rfl
  | cons c rest ih => simp [ih]

theorem byteSize_pos {μ : Type} {glyphs : List (Glyph μ)} (h : glyphs ≠ []) :
    0 < byteSize glyphs := by
  obtain ⟨g, rest, rfl⟩ := List.exists_cons_of_ne_nil h
  have := g.char.utf8Size_pos
  simp [byteSize_eq_sum, chars]
  omega

theorem spanOf_placedFrom {p : Place} {cs : List Char} (h : cs ≠ []) :
    spanOf (placedFrom p cs) = ⟨p.offset, (p.behind cs).offset⟩ := by
  have hstart : ((placedFrom p cs).head?.map (·.mark.offset)).getD 0 = p.offset := by
    obtain ⟨c, rest, rfl⟩ := List.exists_cons_of_ne_nil h
    rfl
  have hstop : ((placedFrom p cs).getLast?.map fun g => (g.mark.next g.char).offset).getD 0 =
      (p.behind cs).offset := by
    obtain ⟨before, c, rfl⟩ := List.eq_nil_or_concat cs |>.resolve_left h
    simp [placedFrom_append, placedFrom, Place.behind]
  rw [spanOf, hstart, hstop]

/-- Of a placed text, both parts of a cut are placed texts. -/
theorem eq_placedFrom_of_append {p : Place} {cs : List Char} {a b : List (Glyph Place)}
    (h : placedFrom p cs = a ++ b) :
    a = placedFrom p (chars a) ∧ b = placedFrom (p.behind (chars a)) (chars b) := by
  have hcs : cs = chars a ++ chars b := by
    rw [← chars_placedFrom p cs, h, chars, List.map_append]
    rfl
  rw [hcs, placedFrom_append] at h
  have hlength : (placedFrom p (chars a)).length = a.length := by
    rw [← List.length_map (f := Glyph.char)]
    exact (congrArg List.length (chars_placedFrom p (chars a))).trans (List.length_map ..)
  obtain ⟨ha, hb⟩ := List.append_inj h hlength
  exact ⟨ha.symm, hb.symm⟩

/-- What is before a stretch of a text tells the bytes that the stretch spans. -/
theorem spanOf_stretch {s : String} {before stretch behind : List (Glyph Place)}
    (h : placed s = before ++ stretch ++ behind) (hne : stretch ≠ []) :
    spanOf stretch = ⟨byteSize before, byteSize before + byteSize stretch⟩ := by
  rw [placed, List.append_assoc] at h
  have hstretch := (eq_placedFrom_of_append (eq_placedFrom_of_append h).2.symm).1
  have hchars : chars stretch ≠ [] := by simpa [chars] using hne
  rw [hstretch, spanOf_placedFrom hchars, ← hstretch]
  simp [offset_behind, byteSize_eq_sum]

/-- The bytes that a span takes of a text. -/
def Span.bytes (span : Span) (s : String) : ByteArray := s.toUTF8.extract span.start span.stop

theorem bytes_stretch {s : String} {before stretch behind : List (Glyph Place)}
    (h : placed s = before ++ stretch ++ behind) (hne : stretch ≠ []) :
    (spanOf stretch).bytes s = (textOf stretch).toUTF8 := by
  have cut : ∀ a b c : ByteArray, (a ++ (b ++ c)).extract a.size (a.size + b.size) = b := by
    intro a b c
    rw [← Nat.add_zero a.size, Nat.add_assoc, ByteArray.extract_append_size_add,
      ByteArray.extract_append_eq_left (Nat.zero_add _)]
  have hs : s = textOf before ++ (textOf stretch ++ textOf behind) := by
    rw [← textOf_placed s, h, textOf_append, textOf_append, String.append_assoc]
  rw [spanOf_stretch h hne, Span.bytes, hs, String.toUTF8_eq_toByteArray,
    String.toByteArray_append, String.toByteArray_append]
  exact cut ..

end Letterpress.Template
