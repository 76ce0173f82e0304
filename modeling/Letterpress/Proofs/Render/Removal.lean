import Letterpress.Proofs.Render.Erasing
import Letterpress.Proofs.Template.Tokens

/-!
# Taking a stretch out of a row of text

Where a stretch of a row of text is taken out, the characters before and behind it stay in their
runs, and all other rows and runs stay as they are. What stood before the stretch is found where it
was, so that tags can be cut out from the last one to the first.
-/

namespace Letterpress

open Template

section

variable {μ : Type} {span : Span}

theorem outside_of_le_start {offset : Nat} {gs : List (Glyph μ)}
    (h : offset + byteSize gs ≤ span.start) : outside span offset gs = gs := by
  induction gs generalizing offset with
  | nil => rfl
  | cons g rest ih =>
    have hpos := g.char.utf8Size_pos
    rw [byteSize_eq_sum, chars_cons, List.map_cons, List.sum_cons, ← byteSize_eq_sum] at h
    rw [outside, if_neg (by omega), ih (by omega)]

theorem outside_of_stop_le {offset : Nat} {gs : List (Glyph μ)} (h : span.stop ≤ offset) :
    outside span offset gs = gs := by
  induction gs generalizing offset with
  | nil => rfl
  | cons g rest ih => rw [outside, if_neg (by omega), ih (by omega)]

theorem outside_of_inside {offset : Nat} {gs : List (Glyph μ)} (hstart : span.start ≤ offset)
    (hstop : offset + byteSize gs ≤ span.stop) : outside span offset gs = [] := by
  induction gs generalizing offset with
  | nil => rfl
  | cons g rest ih =>
    have hpos := g.char.utf8Size_pos
    rw [byteSize_eq_sum, chars_cons, List.map_cons, List.sum_cons, ← byteSize_eq_sum] at hstop
    rw [outside, if_pos ⟨hstart, by omega⟩]
    exact ih (by omega) (by omega)

/-- Without a stretch, what is before it and what is behind it is left. -/
theorem outside_stretch (before inside behind : List (Glyph μ)) :
    outside ⟨byteSize before, byteSize before + byteSize inside⟩ 0
      (before ++ (inside ++ behind)) = before ++ behind := by
  rw [outside_append, outside_append, ← byteSize_eq_sum, ← byteSize_eq_sum, Nat.zero_add,
    outside_of_le_start (Nat.le_of_eq (Nat.zero_add _)),
    outside_of_inside (Nat.le_refl _) (Nat.le_refl _), outside_of_stop_le (Nat.le_refl _),
    List.nil_append]

end

theorem Run.chars_setText (r : Run) (cs : List Char) :
    (r.setText (String.ofList cs)).chars = cs := by
  simp [chars, text?, setText]

/-- The characters that runs keep stay in runs of their formatting. -/
theorem labelled_keptRuns (span : Span) (offset : Nat) (runs : List Run) :
    (keptRuns [span] offset runs).flatMap Run.labelled =
      outside span offset (runs.flatMap Run.labelled) := by
  induction runs generalizing offset with
  | nil => rfl
  | cons r rest ih =>
    have hchars : chars r.labelled = r.chars := by simp [Run.labelled, chars, Function.comp_def]
    have hlabelled : outside span offset r.labelled =
        (keptChars [span] offset r.chars).map (⟨·, r.format⟩) := outside_map_mark ..
    rw [keptRuns, List.flatMap_cons, outside_append, hchars, hlabelled]
    split
    · next hnone =>
      rw [hnone]
      exact ih (offset + r.size)
    · rw [List.flatMap_cons, ih, Run.labelled, Run.chars_setText]
      rfl

theorem keptChars_sublist (spans : List Span) (offset : Nat) (cs : List Char) :
    (keptChars spans offset cs).Sublist cs := by
  induction cs generalizing offset with
  | nil => exact .slnil
  | cons c rest ih =>
    rw [keptChars]
    split
    · exact (ih _).cons_cons c
    · exact (ih _).cons c

/-- A run with only some of the characters of another one, and otherwise like it. -/
def Run.HasPart (r part : Run) : Prop :=
  part.chars.Sublist r.chars ∧ part = r.setText (String.ofList part.chars)

/-- Each run is left with some of its characters or goes, and no two become one. -/
theorem exists_parts_keptRuns (spans : List Span) (offset : Nat) (runs : List Run) :
    ∃ parts, List.Forall₂ Run.HasPart runs parts ∧
      keptRuns spans offset runs = parts.filter (·.chars ≠ []) := by
  induction runs generalizing offset with
  | nil => exact ⟨[], .nil, rfl⟩
  | cons r rest ih =>
    obtain ⟨parts, hparts, hkept⟩ := ih (offset + r.size)
    have hsublist := keptChars_sublist spans offset r.chars
    rw [keptRuns, hkept]
    generalize keptChars spans offset r.chars = cs at hsublist
    have hpart : r.HasPart (r.setText (String.ofList cs)) := by
      rw [Run.HasPart, r.chars_setText]
      exact ⟨hsublist, rfl⟩
    refine ⟨_ :: parts, .cons hpart hparts, ?_⟩
    rw [List.filter_cons, r.chars_setText]
    by_cases hnone : cs = []
    · rw [if_pos hnone, if_neg (by simp [hnone])]
    · rw [if_neg hnone, if_pos (by simp [hnone])]

theorem textOf_flatMap_labelled (runs : List Run) :
    textOf (runs.flatMap Run.labelled) = rowText runs := by
  simp [textOf, chars, rowText, List.map_flatMap, Run.labelled, Function.comp_def]

/-- A row whose text is put together is put together of labelled characters. -/
theorem exists_labelled_append {runs : List Run} {before inside behind : String}
    (h : rowText runs = before ++ inside ++ behind) :
    ∃ front stretch back, runs.flatMap Run.labelled = front ++ (stretch ++ back) ∧
      textOf front = before ∧ textOf stretch = inside ∧ textOf back = behind := by
  have hchars : (runs.flatMap Run.labelled).map Glyph.char =
      before.toList ++ (inside.toList ++ behind.toList) := by
    rw [← textOf_flatMap_labelled, textOf, String.append_assoc] at h
    rw [← String.toList_append, ← String.toList_append, ← h, String.toList_ofList, chars]
  obtain ⟨front, rest, hruns, hfront, hrest⟩ := List.map_eq_append_iff.mp hchars
  obtain ⟨stretch, back, rfl, hstretch, hback⟩ := List.map_eq_append_iff.mp hrest
  have htext : ∀ {gs : List (Glyph Format)} {s : String}, gs.map Glyph.char = s.toList →
      textOf gs = s := by
    intro gs s hgs
    rw [textOf, chars, hgs, String.ofList_toList]
  exact ⟨front, stretch, back, hruns, htext hfront, htext hstretch, htext hback⟩

/-! ### Rows in their paragraph -/

namespace Stretch

theorem rows_append (a b : List Stretch) : rows (a ++ b) = rows a ++ rows b :=
  List.filterMap_append ..

/-- A row of text stands between the stretches before and behind it. -/
theorem exists_append_of_rows {stretches : List Stretch} {k : Nat} {row : List Run}
    (h : (rows stretches)[k]? = some row) :
    ∃ front back, stretches = front ++ texts row :: back ∧ (rows front).length = k := by
  induction stretches generalizing k with
  | nil => cases h
  | cons a rest ih =>
    cases a with
    | other r =>
      obtain ⟨front, back, rfl, hlength⟩ := ih (k := k) h
      exact ⟨other r :: front, back, rfl, hlength⟩
    | texts runs =>
      cases k with
      | zero =>
        cases h
        exact ⟨[], rest, rfl, rfl⟩
      | succ k =>
        obtain ⟨front, back, rfl, hlength⟩ := ih (k := k) h
        exact ⟨texts runs :: front, back, rfl, congrArg Nat.succ hlength⟩

theorem modifyTexts_append (f : List Run → List Run) (front : List Stretch) (row : List Run)
    (back : List Stretch) : modifyTexts f (rows front).length (front ++ texts row :: back) =
      front ++ texts (f row) :: back := by
  induction front with
  | nil => rfl
  | cons a rest ih =>
    cases a with
    | other r =>
      show modifyTexts f (rows rest).length (other r :: (rest ++ texts row :: back)) = _
      cases hlength : (rows rest).length <;> rw [modifyTexts, ← hlength, ih] <;> rfl
    | texts runs => exact congrArg (texts runs :: ·) ih

theorem not_isVoid_of_mem_ofRuns {runs : List Run} {a : Stretch} (h : a ∈ ofRuns runs) :
    (!a.isVoid) = true := by
  cases a with
  | other r => rfl
  | texts row => simpa [isVoid] using ne_nil_of_mem_ofRuns h

end Stretch

namespace Paragraph

/-- The bytes that stand in a row of text from one offset to another. -/
def bytesAt (p : Paragraph) (row : Nat) (span : Span) : Option ByteArray :=
  p.rows[row]?.map fun runs => span.bytes (rowText runs)

/-- Whether a span of a row of text is met before another one, in the same row or behind it. -/
def MetBefore (row : Nat) (span : Span) (row' : Nat) (span' : Span) : Prop :=
  row < row' ∨ row = row' ∧ span.stop ≤ span'.start

variable {p : Paragraph} {k : Nat} {row : List Run}

/-- Where a row is cut, only that row changes. If nothing of it is left, it is gone. -/
theorem exists_ofRuns_cut (hrow : p.rows[k]? = some row) (span : Span) : ∃ front back,
    Stretch.ofRuns p.runs = front ++ .texts row :: back ∧ (Stretch.rows front).length = k ∧
      Stretch.ofRuns (p.cut k span).runs =
        front ++ ([Stretch.texts (keptRuns [span] 0 row)].filter (!·.isVoid) ++ back) := by
  obtain ⟨front, back, hruns, rfl⟩ :=
    Stretch.exists_append_of_rows (hrow : (Stretch.rows _)[k]? = _)
  have hapart := Stretch.apart_ofRuns p.runs
  have hfull : ∀ a ∈ Stretch.ofRuns p.runs, (!a.isVoid) = true :=
    fun a => Stretch.not_isVoid_of_mem_ofRuns
  have hkept : ∀ i runs, (∀ r ∈ runs, r.isText) →
      ∀ r ∈ (if i = 0 + (Stretch.rows front).length then cutRuns span runs else runs),
        r.isText := by
    intro i runs htext r hr
    split at hr
    · rw [cutRuns_eq] at hr
      exact isText_of_mem_keptRuns hr
    · exact htext r hr
  have hcut := hapart.mapRows hkept 0
  rw [← Stretch.modifyTexts_eq, hruns, Stretch.modifyTexts_append] at hcut
  rw [hruns] at hfull
  refine ⟨front, back, hruns, rfl, ?_⟩
  show Stretch.ofRuns ((Stretch.modifyTexts (cutRuns span) (Stretch.rows front).length
    (Stretch.ofRuns p.runs)).flatMap Stretch.runs) = _
  rw [hruns, Stretch.modifyTexts_append, Stretch.ofRuns_flatMap_runs hcut, List.filter_append,
    List.filter_eq_self.mpr fun a ha => hfull a (List.mem_append_left _ ha),
    ← List.singleton_append, List.filter_append, List.filter_eq_self.mpr fun a ha =>
      hfull a (List.mem_append_right _ (List.mem_cons_of_mem _ ha)), cutRuns_eq]
  rfl

theorem rows_cut (hrow : p.rows[k]? = some row) (span : Span) : ∃ front back,
    p.rows = front ++ row :: back ∧ front.length = k ∧
      (p.cut k span).rows = front ++ ([keptRuns [span] 0 row].filter (· ≠ []) ++ back) := by
  obtain ⟨front, back, hruns, hlength, hcut⟩ := exists_ofRuns_cut hrow span
  have hone : Stretch.rows ([Stretch.texts (keptRuns [span] 0 row)].filter (!·.isVoid)) =
      [keptRuns [span] 0 row].filter (· ≠ []) := by
    cases keptRuns [span] 0 row <;> rfl
  refine ⟨Stretch.rows front, Stretch.rows back, ?_, hlength, ?_⟩
  · show Stretch.rows (Stretch.ofRuns p.runs) = _
    rw [hruns, Stretch.rows_append]
    rfl
  · show Stretch.rows (Stretch.ofRuns (p.cut k span).runs) = _
    rw [hcut, Stretch.rows_append, Stretch.rows_append, hone]

theorem getElem?_rows_cut (hrow : p.rows[k]? = some row) (span : Span) {i : Nat} (h : i < k) :
    (p.cut k span).rows[i]? = p.rows[i]? := by
  obtain ⟨front, back, hrows, rfl, hcut⟩ := rows_cut hrow span
  rw [hrows, hcut, List.getElem?_append_left h, List.getElem?_append_left h]

/-- A row of which something is left keeps its number. -/
theorem getElem?_rows_cut_self (hrow : p.rows[k]? = some row) {span : Span}
    (hleft : keptRuns [span] 0 row ≠ []) :
    (p.cut k span).rows[k]? = some (keptRuns [span] 0 row) := by
  obtain ⟨front, back, -, rfl, hcut⟩ := rows_cut hrow span
  have hone : [keptRuns [span] 0 row].filter (· ≠ []) = [keptRuns [span] 0 row] :=
    List.filter_cons_of_pos (by simpa using hleft)
  rw [hcut, hone, List.getElem?_append_right (Nat.le_refl _), Nat.sub_self]
  rfl

/-! ### What stood before the stretch -/

theorem bytes_append_of_stop_le {span : Span} {a : String} (h : span.stop ≤ a.utf8ByteSize)
    (b : String) : span.bytes (a ++ b) = span.bytes a := by
  have hsize : a.toByteArray.size = a.utf8ByteSize := rfl
  have hempty : b.toByteArray.extract (span.start - a.utf8ByteSize) 0 = ByteArray.empty :=
    ByteArray.extract_eq_empty_iff.mpr (Nat.le_trans (Nat.min_le_left ..) (Nat.zero_le _))
  rw [Span.bytes, Span.bytes, String.toUTF8_eq_toByteArray, String.toUTF8_eq_toByteArray,
    String.toByteArray_append, ByteArray.extract_append, hsize, Nat.sub_eq_zero_of_le h, hempty,
    ByteArray.append_empty]

theorem bytesAt_tag {i : Nat} {t : Token Place} (h : (i, t) ∈ p.tags) :
    p.bytesAt i t.span = some t.text.toUTF8 ∧ t.span.start < t.span.stop := by
  obtain ⟨⟨runs, index⟩, hruns, ht⟩ := List.mem_flatMap.mp h
  obtain ⟨t', ht, heq⟩ := List.mem_map.mp ht
  cases heq
  have hrow : p.rows[i]? = some runs := List.mem_zipIdx_iff_getElem?.mp hruns
  have areTags := areTagsOf_tokenize (rowText runs)
  rw [bytesAt, hrow, Option.map_some, areTags.spanned t ht]
  exact ⟨rfl, areTags.ordered.1 t ht⟩

/-- A tag before a span can be cut out after it. -/
theorem cut_cut_tag {span : Span} {i : Nat} {t : Token Place} (ht : (i, t) ∈ p.tags)
    (h : MetBefore i t.span k span) : (p.cut k span).cut i t.span =
      p.erase fun j => (if j = i then [t.span] else []) ++ if j = k then [span] else [] := by
  obtain ⟨⟨runs, index⟩, hruns, ht⟩ := List.mem_flatMap.mp ht
  obtain ⟨t', ht, heq⟩ := List.mem_map.mp ht
  cases heq
  have hstop := (ordered_tokenize _).1 t ht
  refine cut_cut h (Nat.zero_lt_of_lt hstop) fun row hrow hnil => ?_
  obtain rfl : runs = row :=
    Option.some.inj ((List.mem_zipIdx_iff_getElem?.mp hruns).symm.trans hrow)
  rw [hnil] at ht
  exact absurd ht List.not_mem_nil

section

variable {before inside behind : String} {span : Span}

/-- What is left of a row has the text before and behind the stretch, labelled as it was. -/
theorem labelled_keptRuns_stretch (h : rowText row = before ++ inside ++ behind)
    (hspan : span = ⟨before.utf8ByteSize, (before ++ inside).utf8ByteSize⟩) :
    ∃ front stretch back, row.flatMap Run.labelled = front ++ (stretch ++ back) ∧
      textOf front = before ∧ textOf stretch = inside ∧ textOf back = behind ∧
      (keptRuns [span] 0 row).flatMap Run.labelled = front ++ back := by
  obtain ⟨front, stretch, back, hrow, rfl, rfl, rfl⟩ := exists_labelled_append h
  refine ⟨front, stretch, back, hrow, rfl, rfl, rfl, ?_⟩
  have hspan' : span = ⟨byteSize front, byteSize front + byteSize stretch⟩ := by
    rw [hspan, ← textOf_append, ← byteSize_append]
    rfl
  rw [labelled_keptRuns, hrow, hspan', outside_stretch]

theorem rowText_keptRuns_stretch (h : rowText row = before ++ inside ++ behind)
    (hspan : span = ⟨before.utf8ByteSize, (before ++ inside).utf8ByteSize⟩) :
    rowText (keptRuns [span] 0 row) = before ++ behind := by
  obtain ⟨front, stretch, back, -, rfl, -, rfl, hkept⟩ := labelled_keptRuns_stretch h hspan
  rw [← textOf_flatMap_labelled, hkept, textOf_append]

/-- What stands before the stretch is found where it was. -/
theorem bytesAt_cut (hrow : p.rows[k]? = some row)
    (htext : rowText row = before ++ inside ++ behind)
    (hspan : span = ⟨before.utf8ByteSize, (before ++ inside).utf8ByteSize⟩)
    {i : Nat} {early : Span} (hne : early.start < early.stop) (h : MetBefore i early k span) :
    (p.cut k span).bytesAt i early = p.bytesAt i early := by
  rcases h with hi | ⟨rfl, hstop⟩
  · rw [bytesAt, bytesAt, getElem?_rows_cut hrow span hi]
  · have hleft := rowText_keptRuns_stretch htext hspan
    have hstop : early.stop ≤ before.utf8ByteSize := by rwa [hspan] at hstop
    -- the row is still there, because of what is before the stretch
    have hkept : keptRuns [span] 0 row ≠ [] := by
      intro hnil
      rw [hnil] at hleft
      have hsize := congrArg String.utf8ByteSize hleft
      rw [String.utf8ByteSize_append] at hsize
      simp only [rowText, List.flatMap_nil, String.ofList_nil, String.utf8ByteSize_empty] at hsize
      omega
    rw [bytesAt, bytesAt, getElem?_rows_cut_self hrow hkept, hrow, Option.map_some, Option.map_some,
      hleft, htext, String.append_assoc, bytes_append_of_stop_le hstop,
      bytes_append_of_stop_le hstop]

end

/-- Where a stretch of a row of text is taken out, the characters before and behind it stay, each in
its run and with its formatting, and everything else in the paragraph stays as it is; a run or a row
with nothing left goes. Whatever is met before the stretch is found where it was: so is a tag, and
cutting it out then takes out just the two. -/
theorem cut_stretch {before inside behind : String} (hrow : p.rows[k]? = some row)
    (htext : rowText row = before ++ inside ++ behind) :
    let span : Span := ⟨before.utf8ByteSize, (before ++ inside).utf8ByteSize⟩
    let cut := p.cut k span
    let left := keptRuns [span] 0 row
    cut.properties = p.properties ∧
      (∃ front back, Stretch.ofRuns p.runs = front ++ .texts row :: back ∧
        (Stretch.rows front).length = k ∧
        Stretch.ofRuns cut.runs = front ++ ([Stretch.texts left].filter (!·.isVoid) ++ back)) ∧
      rowText left = before ++ behind ∧
      (∃ front stretch back, row.flatMap Run.labelled = front ++ (stretch ++ back) ∧
        textOf front = before ∧ textOf stretch = inside ∧ textOf back = behind ∧
        left.flatMap Run.labelled = front ++ back) ∧
      (∃ parts, List.Forall₂ Run.HasPart row parts ∧ left = parts.filter (·.chars ≠ [])) ∧
      (∀ i < k, cut.rows[i]? = p.rows[i]?) ∧
      (∀ i early, early.start < early.stop → MetBefore i early k span →
        cut.bytesAt i early = p.bytesAt i early) ∧
      ∀ i t, (i, t) ∈ p.tags → MetBefore i t.span k span →
        cut.bytesAt i t.span = some t.text.toUTF8 ∧ cut.cut i t.span =
          p.erase fun j => (if j = i then [t.span] else []) ++ if j = k then [span] else [] := by
  intro span cut left
  refine ⟨rfl, exists_ofRuns_cut hrow span, rowText_keptRuns_stretch htext rfl,
    labelled_keptRuns_stretch htext rfl, exists_parts_keptRuns .., fun i hi =>
      getElem?_rows_cut hrow span hi,
    fun i early hne h => bytesAt_cut hrow htext rfl hne h, fun i t ht h => ?_⟩
  obtain ⟨hbytes, hne⟩ := bytesAt_tag ht
  exact ⟨(bytesAt_cut hrow htext rfl hne h).trans hbytes, cut_cut_tag ht h⟩

/-- A row that holds nothing but a tag goes, and the tag in the row before it is found where it was,
over two runs. -/
theorem cut_stretch_whole_row :
    let bold : RunProperties := { bold := true }
    let row : List Run := [.ofText "\x7b\x7b/ea", .ofText "ch\x7d\x7d"]
    let p : Paragraph := { runs := [.ofText "(\x7b\x7b#each",
      { properties := bold, content := .text " a\x7d\x7d)" }, .ofContent .tab] ++ row }
    p.rows[1]? = some row ∧ rowText row = "" ++ tagText "/each" ++ "" ∧
      (p.cut 1 ⟨0, 9⟩).bytesAt 0 ⟨1, 12⟩ = some (tagText "#each a").toUTF8 ∧
      ((p.cut 1 ⟨0, 9⟩).cut 0 ⟨1, 12⟩).runs =
        [.ofText "(", { properties := bold, content := .text ")" }, .ofContent .tab] := by
  intro bold row p
  have hrow : p.rows[1]? = some row := by decide +kernel
  have htext : rowText row = "" ++ tagText "/each" ++ "" := by decide +kernel
  obtain ⟨-, -, -, -, -, -, hbytes, -⟩ := cut_stretch hrow htext
  have hbefore : p.bytesAt 0 ⟨1, 12⟩ = some (tagText "#each a").toUTF8 := by decide +kernel
  exact ⟨hrow, htext, (hbytes 0 ⟨1, 12⟩ (by decide) (.inl (by decide))).trans hbefore,
    by decide +kernel⟩

end Paragraph

end Letterpress
