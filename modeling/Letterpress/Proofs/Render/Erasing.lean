import Mathlib.Data.List.Chain
import Letterpress.Proofs.Render.Formatting

/-!
# Erasing bytes of a paragraph

What is erased is told by where it stands in the paragraph as it is: every run keeps the characters
that begin outside of the erased spans, and its formatting. Cutting out a span erases just that, and
so does cutting out two, if the one behind is cut first.
-/

namespace Letterpress

open Template

def isOutside (spans : List Span) (offset : Nat) : Bool :=
  spans.all fun span => !(span.start ≤ offset ∧ offset < span.stop)

theorem isOutside_singleton (span : Span) (offset : Nat) :
    isOutside [span] offset = !(span.start ≤ offset ∧ offset < span.stop) := by
  rw [isOutside, List.all_cons, List.all_nil, Bool.and_true]

theorem isOutside_pair (a b : Span) (offset : Nat) :
    isOutside [a, b] offset = (isOutside [a] offset && isOutside [b] offset) := by
  rw [isOutside_singleton, isOutside_singleton, isOutside, List.all_cons, List.all_cons,
    List.all_nil, Bool.and_true]

theorem isOutside_of_lt_start {spans : List Span} {i : Nat} (h : ∀ span ∈ spans, i < span.start) :
    isOutside spans i := by
  rw [isOutside, List.all_eq_true]
  intro span hspan
  simp [Nat.not_le.mpr (h span hspan)]

/-- The characters that begin outside of the spans. The first one is at `offset`. -/
def keptChars (spans : List Span) : Nat → List Char → List Char
  | _, [] => []
  | offset, c :: rest =>
    let behind := keptChars spans (offset + c.utf8Size) rest
    if isOutside spans offset then c :: behind else behind

section

variable {spans : List Span}

theorem keptChars_append (offset : Nat) (a b : List Char) :
    keptChars spans offset (a ++ b) =
      keptChars spans offset a ++ keptChars spans (offset + (a.map Char.utf8Size).sum) b := by
  induction a generalizing offset with
  | nil => rfl
  | cons c rest ih =>
    rw [List.cons_append, keptChars, keptChars, ih, List.map_cons, List.sum_cons, Nat.add_assoc]
    split <;> rfl

theorem keptChars_eq_self {offset : Nat} {cs : List Char}
    (h : ∀ i, offset ≤ i → i < offset + (cs.map Char.utf8Size).sum → isOutside spans i) :
    keptChars spans offset cs = cs := by
  induction cs generalizing offset with
  | nil => rfl
  | cons c rest ih =>
    have hc := c.utf8Size_pos
    rw [List.map_cons, List.sum_cons] at h
    rw [keptChars, if_pos (h offset (Nat.le_refl _) (by omega)),
      ih fun i hi hlt => h i (by omega) (by omega)]

theorem keptChars_eq_nil {offset : Nat} {cs : List Char}
    (h : ∀ i, offset ≤ i → i < offset + (cs.map Char.utf8Size).sum → isOutside spans i = false) :
    keptChars spans offset cs = [] := by
  induction cs generalizing offset with
  | nil => rfl
  | cons c rest ih =>
    have hc := c.utf8Size_pos
    rw [List.map_cons, List.sum_cons] at h
    rw [keptChars, h offset (Nat.le_refl _) (by omega)]
    exact ih fun i hi hlt => h i (by omega) (by omega)

/-- Spans that are over play no part any more. -/
theorem keptChars_cons_of_stop_le {span : Span} {offset : Nat} (h : span.stop ≤ offset)
    (cs : List Char) : keptChars (span :: spans) offset cs = keptChars spans offset cs := by
  induction cs generalizing offset with
  | nil => rfl
  | cons c rest ih =>
    have hsame : isOutside (span :: spans) offset = isOutside spans offset := by
      simp [isOutside, Nat.not_lt.mpr h]
    rw [keptChars, keptChars, hsame, ih (Nat.le_add_right_of_le h)]

end

/-- Every run with the characters it keeps; runs without any go. -/
def keptRuns (spans : List Span) : Nat → List Run → List Run
  | _, [] => []
  | offset, r :: rest =>
    let text := keptChars spans offset r.chars
    let behind := keptRuns spans (offset + r.size) rest
    if text = [] then behind else r.setText (String.ofList text) :: behind

/-- Runs of text in a row without the bytes in the spans. -/
def eraseRuns (spans : List Span) (runs : List Run) : List Run :=
  if spans = [] then runs else keptRuns spans 0 runs

theorem outside_append {μ : Type} (span : Span) (offset : Nat) (a b : List (Glyph μ)) :
    outside span offset (a ++ b) =
      outside span offset a ++ outside span (offset + ((chars a).map Char.utf8Size).sum) b := by
  induction a generalizing offset with
  | nil => rfl
  | cons g rest ih =>
    have hsum : offset + ((chars (g :: rest)).map Char.utf8Size).sum =
        offset + g.char.utf8Size + ((chars rest).map Char.utf8Size).sum := by
      simp [chars, Nat.add_assoc]
    simp only [List.cons_append, outside, ih, hsum]
    split <;> rfl

theorem outside_map_mark {μ : Type} (span : Span) (offset : Nat) (m : μ) (cs : List Char) :
    outside span offset (cs.map (⟨·, m⟩)) = (keptChars [span] offset cs).map (⟨·, m⟩) := by
  induction cs generalizing offset with
  | nil => rfl
  | cons c rest ih =>
    simp only [List.map_cons, outside, keptChars, isOutside_singleton, ih]
    by_cases h : span.start ≤ offset ∧ offset < span.stop <;> simp [h]

namespace Fragment

theorem exists_mem_of_mem_ofFilled {gs : List (Glyph Origin)} :
    ∀ f ∈ ofFilled (gs.map .kept), ∃ g ∈ gs, f.origin = g.mark := by
  induction gs with
  | nil => exact fun f hf => absurd hf List.not_mem_nil
  | cons g gs ih =>
    intro f hf
    have later : ∀ f ∈ ofFilled (gs.map .kept), ∃ g' ∈ g :: gs, f.origin = g'.mark := fun f hf =>
      (ih f hf).imp fun _ h => ⟨List.mem_cons_of_mem _ h.1, h.2⟩
    simp only [List.map_cons, ofFilled, prepend] at hf
    split at hf
    · next first rest hrest =>
      split at hf
      · rcases List.mem_cons.mp hf with rfl | hf
        · exact later first (by simp [hrest])
        · exact later f (by simp [hrest, hf])
      · rcases List.mem_cons.mp hf with rfl | hf
        · exact ⟨g, List.mem_cons_self .., rfl⟩
        · exact later f (hrest ▸ hf)
    · rw [List.mem_singleton.mp hf]
      exact ⟨g, List.mem_cons_self .., rfl⟩

/-- What is kept of one run makes one fragment. -/
theorem ofFilled_map_mark {o : Origin} {cs : List Char} {gs : List (Glyph Origin)}
    (hcs : cs ≠ []) (h : ∀ g ∈ gs, g.mark.index ≠ o.index) :
    ofFilled ((cs.map (Glyph.mk · o) ++ gs).map .kept) =
      ⟨o, cs, false⟩ :: ofFilled (gs.map .kept) := by
  induction cs with
  | nil => exact absurd rfl hcs
  | cons c rest ih =>
    by_cases hrest : rest = []
    · subst hrest
      show prepend ⟨c, o⟩ (ofFilled (gs.map .kept)) = _
      cases hgs : ofFilled (gs.map .kept) with
      | nil => rfl
      | cons f fragments =>
        obtain ⟨g, hg, horigin⟩ := exists_mem_of_mem_ofFilled f (hgs ▸ List.mem_cons_self ..)
        have hother : f.origin.index ≠ o.index := horigin ▸ h g hg
        simp [prepend, hother]
    · show prepend ⟨c, o⟩ (ofFilled ((rest.map (Glyph.mk · o) ++ gs).map .kept)) = _
      rw [ih hrest]
      simp [prepend]

end Fragment

theorem index_of_mem_glyphsFrom {g : Glyph Origin} {index : Nat} {runs : List Run}
    (h : g ∈ glyphsFrom index runs) : index ≤ g.mark.index := by
  induction runs generalizing index with
  | nil => exact absurd h List.not_mem_nil
  | cons r rest ih =>
    rcases List.mem_append.mp h with h | h
    · obtain ⟨c, -, rfl⟩ := List.mem_map.mp h
      exact Nat.le_refl _
    · exact Nat.le_of_succ_le (ih h)

theorem mem_of_mem_outside {μ : Type} {span : Span} {offset : Nat} {g : Glyph μ}
    {gs : List (Glyph μ)} (h : g ∈ outside span offset gs) : g ∈ gs := by
  induction gs generalizing offset with
  | nil => exact h
  | cons g' rest ih =>
    unfold outside at h
    split at h
    · exact List.mem_cons_of_mem _ (ih h)
    · rcases List.mem_cons.mp h with rfl | h
      · exact List.mem_cons_self ..
      · exact List.mem_cons_of_mem _ (ih h)

theorem runsOf_outside (span : Span) (index offset : Nat) (runs : List Run) :
    runsOf ((outside span offset (glyphsFrom index runs)).map .kept) =
      keptRuns [span] offset runs := by
  induction runs generalizing index offset with
  | nil => rfl
  | cons r rest ih =>
    have hchars : chars (r.chars.map fun c => (⟨c, index, r⟩ : Glyph Origin)) = r.chars := by
      simp [chars, Function.comp_def]
    rw [glyphsFrom, outside_append, hchars, outside_map_mark, keptRuns]
    split
    · next hnone =>
      rw [hnone]
      exact ih (index + 1) (offset + r.size)
    · next hsome =>
      have hlater : ∀ g ∈ outside span (offset + r.size) (glyphsFrom (index + 1) rest),
          g.mark.index ≠ index :=
        fun g hg => Nat.ne_of_gt (index_of_mem_glyphsFrom (mem_of_mem_outside hg))
      have hrest := ih (index + 1) (offset + r.size)
      rw [runsOf] at hrest
      rw [runsOf, ← Run.size, Fragment.ofFilled_map_mark hsome hlater, List.map_cons, hrest]
      rfl

theorem cutRuns_eq (span : Span) (runs : List Run) : cutRuns span runs = eraseRuns [span] runs :=
  runsOf_outside span 0 0 runs

/-! ### Two spans -/

/-- Offsets before and after something behind `stop` is erased. -/
def Shifted (stop offset now : Nat) : Prop := now = offset ∨ stop ≤ offset ∧ stop ≤ now

theorem keptChars_keptChars {early late : Span} (h : early.stop ≤ late.start) (cs : List Char)
    {offset now : Nat} (ho : Shifted early.stop offset now) :
    keptChars [early] now (keptChars [late] offset cs) = keptChars [early, late] offset cs ∧
      Shifted early.stop (offset + (cs.map Char.utf8Size).sum)
        (now + ((keptChars [late] offset cs).map Char.utf8Size).sum) := by
  induction cs generalizing offset now with
  | nil => exact ⟨rfl, ho⟩
  | cons c rest ih =>
    rw [List.map_cons, List.sum_cons, ← Nat.add_assoc]
    by_cases hlate : isOutside [late] offset
    · have hnext : Shifted early.stop (offset + c.utf8Size) (now + c.utf8Size) := by
        unfold Shifted at ho ⊢
        omega
      have hearly : isOutside [early] now = isOutside [early, late] offset := by
        rw [isOutside_pair, hlate, Bool.and_true]
        rcases ho with rfl | ⟨hoffset, hnow⟩
        · rfl
        · simp [isOutside_singleton, Nat.not_lt.mpr hoffset, Nat.not_lt.mpr hnow]
      obtain ⟨hrest, hshift⟩ := ih hnext
      refine ⟨?_, ?_⟩
      · simp only [keptChars, hlate, if_true, hearly, hrest]
      · simpa [keptChars, hlate, Nat.add_assoc] using hshift
    · have hin : late.start ≤ offset ∧ offset < late.stop := by
        simpa [isOutside_singleton] using hlate
      have hnext : Shifted early.stop (offset + c.utf8Size) now := by
        unfold Shifted at ho ⊢
        omega
      have hboth : isOutside [early, late] offset = false := by simp [isOutside_pair, hlate]
      obtain ⟨hrest, hshift⟩ := ih hnext
      refine ⟨?_, ?_⟩
      · simp only [keptChars, hlate, hboth, hrest, Bool.false_eq_true, if_false]
      · simpa [keptChars, hlate] using hshift

theorem keptRuns_keptRuns {early late : Span} (h : early.stop ≤ late.start) (runs : List Run)
    {offset now : Nat} (ho : Shifted early.stop offset now) :
    keptRuns [early] now (keptRuns [late] offset runs) = keptRuns [early, late] offset runs := by
  induction runs generalizing offset now with
  | nil => rfl
  | cons r rest ih =>
    obtain ⟨htext, hshift⟩ := keptChars_keptChars h r.chars ho
    rw [keptRuns, keptRuns, ← htext]
    split
    · next hnone =>
      rw [hnone] at hshift ⊢
      exact ih hshift
    · next hsome =>
      have hchars : ∀ cs : List Char, (r.setText (String.ofList cs)).chars = cs := fun cs => by
        simp [Run.chars, Run.setText, Run.text?]
      have hrest := ih hshift
      rw [← Run.size] at hrest
      rw [keptRuns, hchars, Run.size, hchars, hrest]
      rfl

theorem eraseRuns_eraseRuns {early late : Span} (h : early.stop ≤ late.start) (runs : List Run) :
    eraseRuns [early] (eraseRuns [late] runs) = eraseRuns [early, late] runs :=
  keptRuns_keptRuns h runs (.inl rfl)

theorem isText_of_mem_keptRuns {spans : List Span} {offset : Nat} {runs : List Run} {r : Run}
    (h : r ∈ keptRuns spans offset runs) : r.isText := by
  induction runs generalizing offset with
  | nil => exact absurd h List.not_mem_nil
  | cons r' rest ih =>
    rw [keptRuns] at h
    split at h
    · exact ih h
    · rcases List.mem_cons.mp h with rfl | h
      · rfl
      · exact ih h

/-- The characters before a span stay. -/
theorem keptRuns_ne_nil {span : Span} {offset : Nat} (h : offset < span.start) {runs : List Run}
    (hruns : runs.flatMap Run.chars ≠ []) : keptRuns [span] offset runs ≠ [] := by
  induction runs generalizing offset with
  | nil => exact absurd rfl hruns
  | cons r rest ih =>
    rw [keptRuns]
    cases hr : r.chars with
    | nil =>
      have hsize : r.size = 0 := by simp [Run.size, hr]
      rw [hsize]
      exact ih h (by simpa [hr] using hruns)
    | cons c cs =>
      have hkept : isOutside [span] offset := by simp [isOutside, h]
      simp [keptChars, hkept]

/-! ### Rows of text -/

namespace Stretch

/-- Changes every row of text by its number. The first one has the number `index`. -/
def mapRows (f : Nat → List Run → List Run) : Nat → List Stretch → List Stretch
  | _, [] => []
  | index, other r :: rest => other r :: mapRows f index rest
  | index, texts runs :: rest => texts (f index runs) :: mapRows f (index + 1) rest

def isVoid : Stretch → Bool
  | texts runs => runs.isEmpty
  | other _ => false

def rows (stretches : List Stretch) : List (List Run) := stretches.filterMap texts?

theorem modifyTexts_eq (f : List Run → List Run) (k index : Nat) (stretches : List Stretch) :
    modifyTexts f k stretches =
      mapRows (fun i runs => if i = index + k then f runs else runs) index stretches := by
  induction stretches generalizing k index with
  | nil => cases k <;> rfl
  | cons a rest ih =>
    have unchanged : ∀ rest : List Stretch, ∀ start, index + k < start →
        mapRows (fun i runs => if i = index + k then f runs else runs) start rest = rest := by
      intro rest
      induction rest with
      | nil => exact fun _ _ => rfl
      | cons a rest ih =>
        intro start hstart
        cases a with
        | other r => rw [mapRows, ih start hstart]
        | texts runs =>
          rw [mapRows, ih (start + 1) (Nat.lt_succ_of_lt hstart), if_neg (Nat.ne_of_gt hstart)]
    cases a with
    | other r => cases k <;> simp [modifyTexts, mapRows, ih _ index]
    | texts runs =>
      cases k with
      | zero =>
        rw [modifyTexts, mapRows, if_pos (Nat.add_zero _).symm,
          unchanged rest (index + 1) (Nat.lt_succ_self _)]
      | succ k =>
        have hk : index + 1 + k = index + (k + 1) := by omega
        simp [modifyTexts, mapRows, ih k (index + 1), hk]

theorem mapRows_mapRows (f g : Nat → List Run → List Run) (index : Nat)
    (stretches : List Stretch) :
    mapRows f index (mapRows g index stretches) =
      mapRows (fun i runs => f i (g i runs)) index stretches := by
  induction stretches generalizing index with
  | nil => rfl
  | cons a rest ih => cases a <;> simp [mapRows, ih]

theorem mapRows_id (index : Nat) (stretches : List Stretch) :
    mapRows (fun _ runs => runs) index stretches = stretches := by
  induction stretches generalizing index with
  | nil => rfl
  | cons a rest ih => cases a <;> simp [mapRows, ih]

theorem rows_mapRows (f : Nat → List Run → List Run) (index : Nat) (stretches : List Stretch) :
    rows (mapRows f index stretches) = (rows stretches).mapIdx fun i => f (index + i) := by
  induction stretches generalizing index with
  | nil => rfl
  | cons a rest ih =>
    cases a with
    | other r => exact ih index
    | texts runs =>
      have hrest : rows (mapRows f (index + 1) rest) =
          (rows rest).mapIdx fun i => f (index + (i + 1)) := by
        simpa [Nat.add_assoc, Nat.add_comm 1] using ih (index + 1)
      have hcons : ∀ (row : List Run) (others : List Stretch),
          rows (texts row :: others) = row :: rows others := fun _ _ => rfl
      rw [mapRows, hcons, hcons, hrest, List.mapIdx_cons]
      rfl

theorem ne_nil_of_mem_ofRuns {runs row : List Run} (h : texts row ∈ ofRuns runs) : row ≠ [] := by
  induction runs generalizing row with
  | nil => exact absurd h List.not_mem_nil
  | cons r rest ih =>
    unfold ofRuns at h
    split at h
    · split at h
      · next more stretches hrest =>
        rcases List.mem_cons.mp h with h | h
        · cases h
          exact List.cons_ne_nil _ _
        · exact ih (by simp [hrest, h])
      · rcases List.mem_cons.mp h with h | h
        · cases h
          exact List.cons_ne_nil _ _
        · exact ih h
    · rcases List.mem_cons.mp h with h | h
      · cases h
      · exact ih h

/-- Stretches that runs can be put into again: rows of text, no two of which follow each other. -/
structure Apart (stretches : List Stretch) : Prop where
  text : ∀ runs, texts runs ∈ stretches → ∀ r ∈ runs, r.isText
  other : ∀ r, other r ∈ stretches → r.isText = false
  chain : stretches.IsChain fun a b => a.texts? = none ∨ b.texts? = none

theorem apart_ofRuns (runs : List Run) : Apart (ofRuns runs) :=
  ⟨fun _ => isText_of_mem_ofRuns, fun _ => not_isText_of_mem_ofRuns, isChain_ofRuns runs⟩

theorem Apart.tail {a : Stretch} {rest : List Stretch} (h : Apart (a :: rest)) : Apart rest :=
  ⟨fun runs hruns => h.text runs (List.mem_cons_of_mem _ hruns),
    fun r hr => h.other r (List.mem_cons_of_mem _ hr), h.chain.tail⟩

theorem ofRuns_append {row runs : List Run} (ht : ∀ r ∈ row, r.isText)
    (hnext : ∀ more rest, ofRuns runs ≠ texts more :: rest) :
    ofRuns (row ++ runs) = [texts row].filter (!·.isVoid) ++ ofRuns runs := by
  induction row with
  | nil => rfl
  | cons r more ih =>
    obtain ⟨hr, hmore⟩ := List.forall_mem_cons.mp ht
    rw [List.cons_append, ofRuns, if_pos hr, ih hmore]
    cases more with
    | cons r' more => rfl
    | nil =>
      have hvoid : [texts []].filter (!·.isVoid) = [] := rfl
      rw [hvoid, List.nil_append]
      split
      · next more stretches h => exact absurd h (hnext more stretches)
      · rfl

/-- Put into stretches again, runs lose the rows of text that have become empty. -/
theorem ofRuns_flatMap_runs {stretches : List Stretch} (h : Apart stretches) :
    ofRuns (stretches.flatMap Stretch.runs) = stretches.filter (!·.isVoid) := by
  induction stretches with
  | nil => rfl
  | cons a rest ih =>
    have hrest := ih h.tail
    rw [List.flatMap_cons]
    cases a with
    | other r =>
      have hr := h.other r (List.mem_cons_self ..)
      simp [Stretch.runs, ofRuns, hr, hrest, isVoid]
    | texts runs =>
      have htext := h.text runs (List.mem_cons_self ..)
      -- behind a row of text there is no other, not even an empty one
      have hnext : ∀ more others, ofRuns (rest.flatMap Stretch.runs) ≠ texts more :: others := by
        intro more others
        rw [hrest]
        cases rest with
        | nil => exact (List.cons_ne_nil _ _).symm
        | cons b rest =>
          cases b with
          | other r => simp [isVoid]
          | texts _ => simpa [texts?] using (List.isChain_cons_cons.mp h.chain).1
      show ofRuns (runs ++ rest.flatMap Stretch.runs) = _
      rw [ofRuns_append htext hnext, hrest, ← List.filter_append]
      rfl

theorem flatMap_runs_filter (stretches : List Stretch) :
    (stretches.filter (!·.isVoid)).flatMap Stretch.runs = stretches.flatMap Stretch.runs := by
  induction stretches with
  | nil => rfl
  | cons a rest ih =>
    rw [List.filter_cons]
    split
    · rw [List.flatMap_cons, List.flatMap_cons, ih]
    · next hvoid =>
      have hnil : a.runs = [] := by
        cases a with
        | other r => simp [isVoid] at hvoid
        | texts runs => simpa [isVoid, Stretch.runs] using hvoid
      rw [List.flatMap_cons, hnil, ih, List.nil_append]

/-- Rows of text are counted the same without the empty ones behind. -/
theorem modifyTexts_filter {f : List Run → List Run} {k : Nat} {stretches : List Stretch}
    (h : ∀ i ≤ k, (rows stretches)[i]? ≠ some []) :
    (modifyTexts f k (stretches.filter (!·.isVoid))).flatMap Stretch.runs =
      (modifyTexts f k stretches).flatMap Stretch.runs := by
  induction stretches generalizing k with
  | nil => rfl
  | cons a rest ih =>
    cases a with
    | other r =>
      have hrest := ih (k := k) h
      show (modifyTexts f k (other r :: rest.filter (!·.isVoid))).flatMap Stretch.runs = _
      cases k <;> simp only [modifyTexts, List.flatMap_cons, hrest]
    | texts runs =>
      have hruns : runs ≠ [] := by simpa [rows, texts?] using h 0 (Nat.zero_le _)
      have hkeep : (texts runs :: rest).filter (!·.isVoid) =
          texts runs :: rest.filter (!·.isVoid) :=
        List.filter_cons_of_pos (by simp [isVoid, hruns])
      rw [hkeep]
      cases k with
      | zero => simp only [modifyTexts, List.flatMap_cons, flatMap_runs_filter]
      | succ k =>
        have hrest := ih (k := k) fun i hi => h (i + 1) (Nat.succ_le_succ hi)
        simp only [modifyTexts, List.flatMap_cons, hrest]

theorem exists_of_mem_mapRows {f : Nat → List Run → List Run} {index : Nat}
    {stretches : List Stretch} {a : Stretch} (h : a ∈ mapRows f index stretches) :
    (∃ r, a = other r ∧ other r ∈ stretches) ∨
      ∃ i row, a = texts (f i row) ∧ texts row ∈ stretches := by
  induction stretches generalizing index with
  | nil => exact absurd h List.not_mem_nil
  | cons b rest ih =>
    have later : ∀ {index}, a ∈ mapRows f index rest →
        (∃ r, a = other r ∧ other r ∈ b :: rest) ∨
          ∃ i row, a = texts (f i row) ∧ texts row ∈ b :: rest := fun ha =>
      (ih ha).imp (fun ⟨r, ha, hr⟩ => ⟨r, ha, List.mem_cons_of_mem _ hr⟩)
        fun ⟨i, row, ha, hrow⟩ => ⟨i, row, ha, List.mem_cons_of_mem _ hrow⟩
    cases b with
    | other r =>
      rcases List.mem_cons.mp h with rfl | h
      · exact .inl ⟨r, rfl, List.mem_cons_self ..⟩
      · exact later h
    | texts row =>
      rcases List.mem_cons.mp h with rfl | h
      · exact .inr ⟨index, row, rfl, List.mem_cons_self ..⟩
      · exact later h

theorem map_isNone_mapRows (f : Nat → List Run → List Run) (index : Nat)
    (stretches : List Stretch) :
    (mapRows f index stretches).map (·.texts?.isNone) = stretches.map (·.texts?.isNone) := by
  induction stretches generalizing index with
  | nil => rfl
  | cons a rest ih => cases a <;> exact congrArg (_ :: ·) (ih _)

theorem Apart.mapRows {f : Nat → List Run → List Run} {stretches : List Stretch}
    (h : Apart stretches) (hf : ∀ i runs, (∀ r ∈ runs, r.isText) → ∀ r ∈ f i runs, r.isText)
    (index : Nat) : Apart (mapRows f index stretches) := by
  refine ⟨fun runs hruns => ?_, fun r hr => ?_, ?_⟩
  · obtain ⟨_, heq, _⟩ | ⟨i, row, heq, hrow⟩ := exists_of_mem_mapRows hruns
    · cases heq
    · cases heq
      exact hf i row (h.text row hrow)
  · obtain ⟨_, heq, hr⟩ | ⟨_, _, heq, _⟩ := exists_of_mem_mapRows hr
    · cases heq
      exact h.other r hr
    · cases heq
  · have hchain : (stretches.map (·.texts?.isNone)).IsChain fun a b => a = true ∨ b = true :=
      (List.isChain_map _).mpr (h.chain.imp fun a b hab => by simpa using hab)
    rw [← map_isNone_mapRows f index] at hchain
    exact ((List.isChain_map _).mp hchain).imp fun a b hab => by simpa using hab

end Stretch

namespace Paragraph

/-- The paragraph without the bytes in the spans, which are given for each of its rows of text. -/
def erase (spans : Nat → List Span) (p : Paragraph) : Paragraph :=
  { p with runs := (Stretch.mapRows (fun k => eraseRuns (spans k)) 0
      (Stretch.ofRuns p.runs)).flatMap Stretch.runs }

theorem erase_none (p : Paragraph) : p.erase (fun _ => []) = p := by
  show { p with runs := _ } = p
  rw [show (fun _ => eraseRuns []) = fun (_ : Nat) (runs : List Run) => runs from rfl,
    Stretch.mapRows_id, Stretch.runs_ofRuns]

theorem cut_eq_erase (p : Paragraph) (k : Nat) (span : Span) :
    p.cut k span = p.erase fun i => if i = k then [span] else [] := by
  have hrows : (fun i runs => if i = 0 + k then cutRuns span runs else runs) =
      fun i => eraseRuns (if i = k then [span] else []) := by
    funext i runs
    rw [Nat.zero_add, cutRuns_eq]
    split <;> rfl
  rw [cut, Stretch.modifyTexts_eq _ k 0, hrows]
  rfl

theorem ne_nil_of_mem_rows {p : Paragraph} {row : List Run} (h : row ∈ p.rows) : row ≠ [] :=
  Stretch.ne_nil_of_mem_ofRuns (mem_rows.mp h)

/-- Two spans are cut out one after the other, the one behind first. -/
theorem cut_cut {p : Paragraph} {i j : Nat} {early late : Span}
    (h : i < j ∨ i = j ∧ early.stop ≤ late.start) (hearly : 0 < early.stop)
    (htext : ∀ row, p.rows[i]? = some row → row.flatMap Run.chars ≠ []) :
    (p.cut j late).cut i early =
      p.erase fun k => (if k = i then [early] else []) ++ if k = j then [late] else [] := by
  let spans : Nat → List Span := fun k => if k = j then [late] else []
  have hapart : Stretch.Apart
      (Stretch.mapRows (fun k => eraseRuns (spans k)) 0 (Stretch.ofRuns p.runs)) := by
    refine (Stretch.apart_ofRuns p.runs).mapRows (fun k runs hruns => ?_) 0
    unfold eraseRuns
    split
    · exact hruns
    · exact fun r hr => isText_of_mem_keptRuns hr
  have hrows : ∀ k ≤ i, (Stretch.rows (Stretch.mapRows (fun k => eraseRuns (spans k)) 0
      (Stretch.ofRuns p.runs)))[k]? ≠ some [] := by
    intro k hk hvoid
    rw [Stretch.rows_mapRows, List.getElem?_mapIdx, Option.map_eq_some_iff] at hvoid
    obtain ⟨row, hrow, hnil⟩ := hvoid
    rw [Nat.zero_add] at hnil
    by_cases hkj : k = j
    · obtain ⟨rfl, hspans⟩ : i = j ∧ early.stop ≤ late.start := by omega
      subst hkj
      rw [show spans k = [late] from if_pos rfl] at hnil
      exact keptRuns_ne_nil (Nat.lt_of_lt_of_le hearly hspans) (htext row hrow) hnil
    · rw [show spans k = [] from if_neg hkj] at hnil
      exact ne_nil_of_mem_rows (List.mem_of_getElem? hrow) hnil
  rw [cut_eq_erase p j late]
  show { p with runs := _ } = { p with runs := _ }
  congr 1
  show (Stretch.modifyTexts (cutRuns early) i (Stretch.ofRuns ((Stretch.mapRows
    (fun k => eraseRuns (spans k)) 0 (Stretch.ofRuns p.runs)).flatMap Stretch.runs))).flatMap
      Stretch.runs = _
  rw [Stretch.ofRuns_flatMap_runs hapart, Stretch.modifyTexts_filter hrows,
    Stretch.modifyTexts_eq _ i 0, Stretch.mapRows_mapRows]
  congr 2
  funext k runs
  rw [Nat.zero_add, cutRuns_eq]
  by_cases hi : k = i
  · by_cases hj : k = j
    · have hspans : early.stop ≤ late.start := by omega
      simp only [spans, hi, if_true, ← hi ▸ hj]
      exact eraseRuns_eraseRuns hspans runs
    · simp [spans, hi, hi ▸ hj, eraseRuns]
  · simp [spans, hi]

end Paragraph

end Letterpress
