import Mathlib.Algebra.Ring.Nat
import Mathlib.Data.List.Forall2
import Letterpress.Proofs.Render.Fill

/-!
# Where formatting comes from

Filled in, a paragraph keeps its other runs where they are, and every row of text runs becomes runs
that are `Laid` out from what the row's plain text is filled in to: a character that is kept stands
in a run formatted like the one that holds its byte, a value in a run of its own formatted like the
one that holds the first byte of its tag. Deciding the conditions in values afterwards changes the
texts of these runs and nothing else.
-/

namespace Letterpress

open Template

variable {μ : Type}

/-- The length of a run's text in bytes. -/
def Run.size (r : Run) : Nat := (r.chars.map Char.utf8Size).sum

/-- The rows of text in a paragraph. -/
def Paragraph.rows (p : Paragraph) : List (List Run) :=
  (Stretch.ofRuns p.runs).filterMap Stretch.texts?

theorem Paragraph.mem_rows {p : Paragraph} {row : List Run} :
    row ∈ p.rows ↔ .texts row ∈ Stretch.ofRuns p.runs := by
  constructor
  · intro h
    obtain ⟨stretch, hmem, hrow⟩ := List.mem_filterMap.mp h
    cases stretch with
    | texts runs => exact Option.some.inj hrow ▸ hmem
    | other r => cases hrow
  · exact fun h => List.mem_filterMap.mpr ⟨_, h, rfl⟩

/-- The text of runs of text in a row. -/
def rowText (runs : List Run) : String := String.ofList (runs.flatMap Run.chars)

/-- The run that holds a byte of a row's text; `index` runs are before the row. -/
def originAt? (index : Nat) : List Run → Nat → Option Origin
  | [], _ => none
  | r :: rest, offset =>
    if offset < r.size then some ⟨index, r⟩ else originAt? (index + 1) rest (offset - r.size)

theorem originAt?_unique {runs : List Run} {a b : Nat} {o o' : Origin} : ∀ {index : Nat},
    originAt? index runs a = some o → originAt? index runs b = some o' → o.index = o'.index →
      o = o' := by
  have index_le : ∀ {runs : List Run} {index a : Nat} {o : Origin},
      originAt? index runs a = some o → index ≤ o.index := by
    intro runs
    induction runs with
    | nil => intro index a o h; simp [originAt?] at h
    | cons r rest ih =>
      intro index a o h
      unfold originAt? at h
      split at h
      · cases h; exact Nat.le_refl _
      · exact Nat.le_of_succ_le (ih h)
  induction runs generalizing a b with
  | nil => intro index h; simp [originAt?] at h
  | cons r rest ih =>
    intro index ha hb he
    unfold originAt? at ha hb
    split at ha <;> split at hb
    · cases ha; cases hb; rfl
    · cases ha; exact absurd (index_le hb) (by simp [← he])
    · cases hb; exact absurd (index_le ha) (by simp [he])
    · exact ih ha hb he

theorem map_placedFrom_const {f : Place → μ} {m : μ} (cs : List Char) (p : Place)
    (h : ∀ g ∈ placedFrom p cs, f g.mark = m) :
    (placedFrom p cs).map (Glyph.map f) = cs.map (⟨·, m⟩) := by
  induction cs generalizing p with
  | nil => rfl
  | cons c rest ih =>
    have hc : f p = m := h ⟨c, p⟩ (List.mem_cons_self ..)
    simp only [placedFrom, List.map_cons, ih (p.next c) fun g hg => h g (List.mem_cons_of_mem _ hg)]
    rw [Glyph.map, hc]

/-- The glyphs of runs are those of their text, marked with the runs that hold their bytes. -/
theorem glyphsFrom_eq (runs : List Run) (index : Nat) (p : Place) :
    (glyphsFrom index runs).map (Glyph.map some) =
      (placedFrom p (runs.flatMap Run.chars)).map
        (Glyph.map fun q => originAt? index runs (q.offset - p.offset)) := by
  induction runs generalizing index p with
  | nil => rfl
  | cons r rest ih =>
    have hsize := offset_behind p r.chars
    rw [glyphsFrom, List.flatMap_cons, placedFrom_append, List.map_append, List.map_append,
      ih (index + 1) (p.behind r.chars)]
    congr 1
    · have here : ∀ g ∈ placedFrom p r.chars,
          originAt? index (r :: rest) (g.mark.offset - p.offset) = some ⟨index, r⟩ := by
        intro g hg
        have := offset_of_mem_placedFrom hg
        rw [originAt?, if_pos (by unfold Run.size; omega)]
      rw [map_placedFrom_const r.chars p here, List.map_map]
      rfl
    · refine List.map_congr_left fun g hg => ?_
      have := offset_of_mem_placedFrom hg
      rw [Glyph.map, Glyph.map, originAt?, if_neg (by unfold Run.size; omega)]
      congr 2
      unfold Run.size
      omega

theorem glyphsOf_eq (runs : List Run) :
    (glyphsOf runs).map (Glyph.map some) =
      (placed (rowText runs)).map (Glyph.map fun q => originAt? 0 runs q.offset) := by
  simpa [glyphsOf, placed, rowText] using glyphsFrom_eq runs 0 {}

def Filled.isVoid (x : Filled μ) : Bool := x.chars = []

/-- Fragments made of what a row is filled in to. `origin?` tells the run that a mark lies in. Glyphs
in a row that are kept of one run share a fragment; a value has one of its own. -/
inductive Laid (origin? : μ → Option Origin) : List (Filled μ) → List Fragment → Prop
  | nil : Laid origin? [] []
  | kept {o : Origin} {glyphs : List (Glyph μ)} {rest : List (Filled μ)}
    {fragments : List Fragment} :
      glyphs ≠ [] → (∀ g ∈ glyphs, origin? g.mark = some o) → Laid origin? rest fragments →
        Laid origin? (glyphs.map .kept ++ rest) (⟨o, chars glyphs, false⟩ :: fragments)
  | value {o : Origin} {text : String} {g : Glyph μ} {tag : List (Glyph μ)} {rest : List (Filled μ)}
      {fragments : List Fragment} :
      text ≠ "" → origin? g.mark = some o → Laid origin? rest fragments →
        Laid origin? (.value text (g :: tag) :: rest) (⟨o, text.toList, true⟩ :: fragments)

namespace Laid

variable {origin? : μ → Option Origin}

theorem prepend (hu : ∀ m m' o o', origin? m = some o → origin? m' = some o' → o.index = o'.index →
    o = o')
    {g : Glyph μ} {o : Origin} (hg : origin? g.mark = some o) {rest : List (Filled μ)}
    {fragments : List Fragment} (h : Laid origin? rest fragments) :
    Laid origin? (.kept g :: rest) (Fragment.prepend ⟨g.char, o⟩ fragments) := by
  have alone : Laid origin? (.kept g :: rest) (⟨o, [g.char], false⟩ :: fragments) :=
    kept (List.cons_ne_nil g []) (by simpa using hg) h
  cases h with
  | nil => exact alone
  | value hne ho h => simpa [Fragment.prepend] using alone
  | @kept o' glyphs rest fragments hne ho h =>
    by_cases hi : o'.index = o.index
    · obtain ⟨g', hg'⟩ := List.exists_mem_of_ne_nil glyphs hne
      obtain rfl := hu _ _ _ _ (ho g' hg') hg hi
      rw [Fragment.prepend, if_pos ⟨by simp, hi⟩]
      exact kept (List.cons_ne_nil g glyphs) (by simpa using ⟨hg, ho⟩) h
    · simpa [Fragment.prepend, hi] using alone

/-- Fragments are laid out from what they are made of, whatever it is marked with. -/
theorem ofFilled (hu : ∀ m m' o o', origin? m = some o → origin? m' = some o' → o.index = o'.index →
    o = o')
    {filled : List (Filled μ)} {origins : List (Filled Origin)}
    (h : origins.map (Filled.map some) = filled.map (Filled.map origin?))
    (ht : ∀ text tag, .value text tag ∈ filled → tag ≠ []) :
    Laid origin? (filled.filter (!·.isVoid)) (Fragment.ofFilled origins) := by
  induction filled generalizing origins with
  | nil =>
    obtain rfl : origins = [] := by simpa using h
    exact nil
  | cons x filled ih =>
    obtain ⟨y, origins, rfl⟩ :=
      List.exists_cons_of_ne_nil (show origins ≠ [] by rintro rfl; simp at h)
    rw [List.map_cons, List.map_cons, List.cons.injEq] at h
    obtain ⟨hx, h⟩ := h
    have rest := ih h fun text tag hm => ht text tag (List.mem_cons_of_mem _ hm)
    cases x with
    | kept g =>
      cases y with
      | value text tag => simp [Filled.map] at hx
      | kept g' =>
        simp only [Filled.map, Glyph.map, Filled.kept.injEq, Glyph.mk.injEq] at hx
        have first := prepend hu hx.2.symm rest
        rw [← hx.1] at first
        simpa [Filled.isVoid, Filled.chars, Fragment.ofFilled] using first
    | value text tag =>
      cases y with
      | kept g' => simp [Filled.map] at hx
      | value text' tag' =>
        simp only [Filled.map, Filled.value.injEq] at hx
        obtain ⟨rfl, htag⟩ := hx
        obtain ⟨g, tag, rfl⟩ := List.exists_cons_of_ne_nil (ht _ _ (List.mem_cons_self ..))
        cases tag' with
        | nil => simp at htag
        | cons g' tag' =>
          simp only [List.map_cons, List.cons.injEq, Glyph.map, Glyph.mk.injEq] at htag
          by_cases hne : text' = ""
          · simpa [Filled.isVoid, Filled.chars, Fragment.ofFilled, hne] using rest
          · have first : Laid origin? (.value text' (g :: tag) :: filled.filter (!·.isVoid)) _ :=
              value hne htag.1.2.symm rest
            simpa [Filled.isVoid, Filled.chars, Fragment.ofFilled, hne] using first

end Laid

/-! ### Labelled text -/

theorem Template.Glyph.map_injective {ν : Type} {f : μ → ν} (hf : Function.Injective f) :
    Function.Injective (Glyph.map f) := by
  rintro ⟨c, m⟩ ⟨c', m'⟩ h
  simp only [Glyph.map, Glyph.mk.injEq] at h
  rw [h.1, hf h.2]

/-- What makes a run look as it does. -/
abbrev Format := RunProperties × Option Hyperlink

namespace Run

def format (r : Run) : Format := (r.properties, r.link)

/-- A run's characters, each labelled with the run's formatting. -/
def labelled (r : Run) : List (Glyph Format) := r.chars.map (⟨·, r.format⟩)

end Run

/-- Characters that are kept keep their labels; those of a value take the label its tag begins
with. -/
def Filled.labelled : Filled μ → List (Glyph μ)
  | kept g => [g]
  | value text (g :: _) => text.toList.map (⟨·, g.mark⟩)
  | value _ [] => []

theorem Filled.labelled_map {ν : Type} (f : μ → ν) (x : Filled μ) :
    (x.map f).labelled = x.labelled.map (Glyph.map f) := by
  match x with
  | kept g => rfl
  | value text (g :: tag) => simp [map, labelled, Glyph.map]
  | value text [] => rfl

theorem Filled.map_map {ν κ : Type} (f : μ → ν) (g : ν → κ) (filled : List (Filled μ)) :
    (filled.map (map f)).map (map g) = filled.map (map fun m => g (f m)) := by
  rw [List.map_map]
  refine List.map_congr_left fun x _ => ?_
  cases x <;> simp [map, Glyph.map]

theorem Filled.flatMap_labelled_map {ν : Type} (f : μ → ν) (filled : List (Filled μ)) :
    (filled.map (Filled.map f)).flatMap labelled = (filled.flatMap labelled).map (Glyph.map f) := by
  simp [List.flatMap_map, List.map_flatMap, labelled_map]

theorem Filled.labelled_of_isVoid {x : Filled μ} (h : x.isVoid = true) : x.labelled = [] := by
  match x with
  | kept g => simp [isVoid, chars] at h
  | value text (g :: tag) => simpa [isVoid, chars, labelled] using h
  | value text [] => rfl

theorem Filled.flatMap_labelled_filter (filled : List (Filled μ)) :
    (filled.filter (!·.isVoid)).flatMap labelled = filled.flatMap labelled := by
  induction filled with
  | nil => rfl
  | cons x rest ih =>
    cases h : x.isVoid with
    | true => simp [h, ih, labelled_of_isVoid h]
    | false => simp [h, ih]

@[simp] theorem Fragment.chars_run (f : Fragment) : f.run.chars = f.text := by
  simp [Fragment.run, Run.chars, Run.setText, Run.text?]

theorem Laid.labelled {origin? : μ → Option Origin} {filled : List (Filled μ)}
    {fragments : List Fragment}
    (h : Laid origin? filled fragments) :
    ((fragments.map Fragment.run).flatMap Run.labelled).map (Glyph.map some) =
      (filled.flatMap Filled.labelled).map (Glyph.map fun m => (origin? m).map (·.run.format)) := by
  have format_run : ∀ f : Fragment, f.run.format = f.origin.run.format := fun _ => rfl
  induction h with
  | nil => rfl
  | @kept o glyphs rest fragments hne ho h ih =>
    have hgs : ∀ gs : List (Glyph μ), (∀ g ∈ gs, origin? g.mark = some o) →
        gs.map (Glyph.map fun m => (origin? m).map (·.run.format)) =
          (chars gs).map (⟨·, some o.run.format⟩) := by
      intro gs hgs
      rw [chars, List.map_map]
      exact List.map_congr_left fun g hg => by simp [Glyph.map, hgs g hg]
    simp only [List.map_cons, List.flatMap_cons, List.map_append, List.flatMap_append, ih]
    congr 1
    rw [List.flatMap_map, show glyphs.flatMap (fun g => (Filled.kept g).labelled) = glyphs from
      List.flatMap_singleton' glyphs, hgs glyphs ho]
    simp [Run.labelled, format_run, Glyph.map]
  | @value o text g tag rest fragments hne ho h ih =>
    simp only [List.map_cons, List.flatMap_cons, List.map_append, ih]
    congr 1
    simp [Run.labelled, Filled.labelled, format_run, Glyph.map, ho]

/-! ### Rows of text -/

namespace Stretch

theorem map_mapTexts_congr {f g : List Run → List Run} {stretches : List Stretch}
    (h : ∀ row ∈ stretches.filterMap texts?, f row = g row) :
    stretches.map (·.mapTexts f) = stretches.map (·.mapTexts g) := by
  refine List.map_congr_left fun stretch hmem => ?_
  cases stretch with
  | texts row => exact congrArg texts (h row (List.mem_filterMap.mpr ⟨_, hmem, rfl⟩))
  | other r => rfl

theorem isText_of_mem_ofRuns {runs row : List Run} (h : texts row ∈ ofRuns runs) :
    ∀ r ∈ row, r.isText := by
  induction runs generalizing row with
  | nil => simp [ofRuns] at h
  | cons r rest ih =>
    unfold ofRuns at h
    split at h
    · next hr =>
      split at h
      · next more stretches hrest =>
        rcases List.mem_cons.mp h with h | h
        · cases h
          have := @ih more (by simp [hrest])
          simpa [hr] using this
        · exact ih (by simp [hrest, h])
      · rcases List.mem_cons.mp h with h | h
        · cases h; simpa using hr
        · exact ih h
    · rcases List.mem_cons.mp h with h | h
      · cases h
      · exact ih h

theorem not_isText_of_mem_ofRuns {runs : List Run} {r : Run} (h : other r ∈ ofRuns runs) :
    r.isText = false := by
  induction runs with
  | nil => simp [ofRuns] at h
  | cons r' rest ih =>
    unfold ofRuns at h
    split at h
    · split at h
      · next more stretches hrest => exact ih (by simpa [hrest] using h)
      · exact ih (by simpa using h)
    · next hr =>
      rcases List.mem_cons.mp h with h | h
      · cases h; simpa using hr
      · exact ih h

/-- No two rows of text follow each other. -/
theorem isChain_ofRuns (runs : List Run) :
    (ofRuns runs).IsChain fun a b => a.texts? = none ∨ b.texts? = none := by
  induction runs with
  | nil => exact .nil
  | cons r rest ih =>
    unfold ofRuns
    split
    · split
      · next more stretches hrest =>
        rw [hrest] at ih
        cases stretches with
        | nil => exact .singleton _
        | cons a stretches =>
          rw [List.isChain_cons_cons] at ih ⊢
          exact ⟨.inr (by simpa [texts?] using ih.1), ih.2⟩
      · next hrest =>
        cases h : ofRuns rest with
        | nil => exact .singleton _
        | cons a stretches =>
          cases a with
          | texts more => exact absurd h (hrest more stretches)
          | other r' => exact List.isChain_cons_cons.mpr ⟨.inr rfl, h ▸ ih⟩
    · cases h : ofRuns rest with
      | nil => exact .singleton _
      | cons a stretches => exact List.isChain_cons_cons.mpr ⟨.inl rfl, h ▸ ih⟩

end Stretch

/-- The runs of text whose texts are replaced by `f` of them; those that become empty go. -/
inductive Retexted (f : String → String) : List Run → List Run → Prop
  | nil : Retexted f [] []
  | keep {r : Run} {text : String} {rest out : List Run} :
      r.text? = some text → f text ≠ "" → Retexted f rest out →
        Retexted f (r :: rest) (r.setText (f text) :: out)
  | drop {r : Run} {text : String} {rest out : List Run} :
      r.text? = some text → f text = "" → Retexted f rest out → Retexted f (r :: rest) out

theorem retexted_judgeRuns {s : Scope} {runs : List Run} (h : ∀ r ∈ runs, r.isText) :
    Retexted (judged s) runs (judgeRuns s runs) := by
  induction runs with
  | nil => exact .nil
  | cons r rest ih =>
    have ih := ih fun r hr => h r (List.mem_cons_of_mem _ hr)
    obtain ⟨text, htext⟩ := Option.isSome_iff_exists.mp (h r (List.mem_cons_self ..))
    have hr : judgeRun s r = r.setText (judged s text) := by simp [judgeRun, htext]
    by_cases he : judged s text = ""
    · have : judgeRuns s (r :: rest) = judgeRuns s rest := by
        simp [judgeRuns, hr, he, Run.setText, Run.text?]
      exact this ▸ .drop htext he ih
    · have : judgeRuns s (r :: rest) = r.setText (judged s text) :: judgeRuns s rest := by
        simp [judgeRuns, hr, he, Run.setText, Run.text?]
      exact this ▸ .keep htext he ih

variable (blockText : BlockText) (s : Scope)

/-- What a row of text is filled in to, each kept character and each tag marked with its bytes. -/
def filledRow (runs : List Run) : List (Filled Place) :=
  Node.fillAll blockText s (parseText (rowText runs))

/-- How a stretch of a paragraph may change: another run stays as it is, and so does a row of text
without a tag. Any other row is laid out anew, labels included; and unless its tags are all of
conditions, the conditions in the fragments are decided then. -/
inductive Formatted : Stretch → Stretch → Prop
  | other {r : Run} : r.isText = false → Formatted (.other r) (.other r)
  | plain {runs : List Run} : (∀ r ∈ runs, r.isText) → tokenize (rowText runs) = [] →
      Formatted (.texts runs) (.texts runs)
  | filled {runs out : List Run} {fragments : List Fragment} : (∀ r ∈ runs, r.isText) →
      tokenize (rowText runs) ≠ [] →
      Laid (fun p => originAt? 0 runs p.offset) ((filledRow blockText s runs).filter (!·.isVoid))
        fragments →
      (fragments.map Fragment.run).flatMap Run.labelled =
        (Node.fillAll blockText s (parse (runs.flatMap Run.labelled))).flatMap Filled.labelled →
      (if (tokenize (rowText runs)).all (Tag.isCondition ·.tag)
        then out = fragments.map Fragment.run
        else Retexted (judged s) (fragments.map Fragment.run) out) →
      Formatted (.texts runs) (.texts out)

theorem map_tag_tokensOf_lex_map {ν : Type} (f : μ → ν) (gs : List (Glyph μ)) :
    (tokensOf (lex (gs.map (Glyph.map f)))).map Token.tag = (tokensOf (lex gs)).map Token.tag := by
  rw [lex_map, tokensOf_map, List.map_map]
  rfl

theorem map_tag_tokensOf_glyphsOf (runs : List Run) :
    (tokensOf (lex (glyphsOf runs))).map Token.tag = (tokenize (rowText runs)).map Token.tag := by
  rw [← map_tag_tokensOf_lex_map some, glyphsOf_eq, map_tag_tokensOf_lex_map, tokenize]

theorem labelled_eq_map_glyphsOf (runs : List Run) :
    runs.flatMap Run.labelled = (glyphsOf runs).map (Glyph.map (·.run.format)) := by
  have glyphs : ∀ (runs : List Run) (index : Nat),
      (glyphsFrom index runs).map (Glyph.map (·.run.format)) = runs.flatMap Run.labelled := by
    intro runs
    induction runs with
    | nil => intro index; rfl
    | cons r rest ih =>
      intro index
      rw [glyphsFrom, List.map_append, ih, List.flatMap_cons, List.map_map]
      rfl
  exact (glyphs runs 0).symm

theorem map_some_fillAll_glyphsOf (runs : List Run) :
    (Node.fillAll blockText s (parse (glyphsOf runs))).map (Filled.map some) =
      (filledRow blockText s runs).map (Filled.map fun p => originAt? 0 runs p.offset) := by
  rw [filledRow, parseText, ← Node.fillAll_map, ← Node.fillAll_map, ← parse_map, ← parse_map,
    glyphsOf_eq]

/-- The texts to be put into runs of their own, before the conditions in them are decided. -/
def fragmentsOf (runs : List Run) : List Fragment :=
  Fragment.ofFilled (Node.fillAll blockText s (parse (glyphsOf runs)))

theorem laid_fragmentsOf (runs : List Run) :
    Laid (fun p => originAt? 0 runs p.offset) ((filledRow blockText s runs).filter (!·.isVoid))
      (fragmentsOf blockText s runs) :=
  Laid.ofFilled (fun _ _ _ _ => originAt?_unique) (map_some_fillAll_glyphsOf blockText s runs)
    fun _ _ => Node.tag_ne_nil_of_mem_fillAll blockText s _ Node.isTagged_of_mem_parse

/-- What fills a row of text with a tag: the fragments, with the conditions in them decided unless
all tags are of conditions. -/
theorem fillRuns_eq {runs : List Run} (h : tokenize (rowText runs) ≠ []) :
    fillRuns blockText s runs =
      if (tokenize (rowText runs)).all (Tag.isCondition ·.tag) then
        (fragmentsOf blockText s runs).map Fragment.run
      else judgeRuns s ((fragmentsOf blockText s runs).map Fragment.run) := by
  have htags := map_tag_tokensOf_glyphsOf runs
  have hall : (tokensOf (lex (glyphsOf runs))).all (Tag.isCondition ·.tag) =
      (tokenize (rowText runs)).all (Tag.isCondition ·.tag) := by
    have := congrArg (fun tags : List Tag => tags.all Tag.isCondition) htags
    rwa [List.all_map, List.all_map] at this
  have hsome : (tokensOf (lex (glyphsOf runs))).isEmpty = false := by
    rw [List.isEmpty_eq_false_iff]
    intro hnil
    exact h (by simpa [hnil] using htags.symm)
  rw [← hall]
  simp only [fillRuns, hsome, Bool.false_eq_true, if_false]
  rfl

theorem fillRuns_of_tokenize_eq_nil {runs : List Run} (h : tokenize (rowText runs) = []) :
    fillRuns blockText s runs = runs := by
  have : tokensOf (lex (glyphsOf runs)) = [] := by simpa [h] using map_tag_tokensOf_glyphsOf runs
  simp [fillRuns, this]

theorem formatted_texts {runs : List Run} (ht : ∀ r ∈ runs, r.isText) :
    Formatted blockText s (.texts runs) (.texts (fillRuns blockText s runs)) := by
  by_cases hnone : tokenize (rowText runs) = []
  · rw [fillRuns_of_tokenize_eq_nil blockText s hnone]
    exact .plain ht hnone
  have laid := laid_fragmentsOf blockText s runs
  refine .filled ht hnone laid ?_ ?_
  · have hlabels := laid.labelled
    rw [Filled.flatMap_labelled_filter, ← Filled.flatMap_labelled_map] at hlabels
    rw [labelled_eq_map_glyphsOf runs, parse_map, Node.fillAll_map, Filled.flatMap_labelled_map]
    have hsplit : (filledRow blockText s runs).map
        (Filled.map fun p => (originAt? 0 runs p.offset).map (·.run.format)) =
        (Node.fillAll blockText s (parse (glyphsOf runs))).map
          (Filled.map fun o => some o.run.format) := by
      have := congrArg (List.map (Filled.map (Option.map (·.run.format))))
        (map_some_fillAll_glyphsOf blockText s runs)
      rw [Filled.map_map, Filled.map_map] at this
      exact this.symm
    rw [hsplit, Filled.flatMap_labelled_map] at hlabels
    refine List.map_injective_iff.mpr (Glyph.map_injective fun _ _ => Option.some.inj) ?_
    rw [hlabels, List.map_map]
    rfl
  · have htext : ∀ r ∈ (fragmentsOf blockText s runs).map Fragment.run, r.isText := by
      intro r hr
      obtain ⟨f, -, rfl⟩ := List.mem_map.mp hr
      rfl
    rw [fillRuns_eq blockText s hnone]
    split
    · rfl
    · exact retexted_judgeRuns htext

/-- Filling in a paragraph keeps its formatting. -/
theorem fill_formatted (p : Paragraph) :
    (p.fill blockText s).properties = p.properties ∧
      (Stretch.ofRuns p.runs).flatMap Stretch.runs = p.runs ∧
      (Stretch.ofRuns p.runs).IsChain (fun a b => a.texts? = none ∨ b.texts? = none) ∧
      ∃ filled : List Stretch, (p.fill blockText s).runs = filled.flatMap Stretch.runs ∧
        List.Forall₂ (Formatted blockText s) (Stretch.ofRuns p.runs) filled := by
  refine ⟨rfl, Stretch.runs_ofRuns p.runs, Stretch.isChain_ofRuns p.runs, _, rfl, ?_⟩
  rw [List.forall₂_map_right_iff, List.forall₂_same]
  intro stretch h
  cases stretch with
  | texts runs => exact formatted_texts blockText s (Stretch.isText_of_mem_ofRuns h)
  | other r => exact .other (Stretch.not_isText_of_mem_ofRuns h)

end Letterpress
