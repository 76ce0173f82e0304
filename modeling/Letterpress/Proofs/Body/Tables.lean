import Letterpress.Proofs.Body.Runs

/-!
# Tables are read back

Properties that are kept as their markup are read back as that markup. The rest is taken tag by tag,
cell by cell and row by row.
-/

namespace Letterpress

open Markup Markup.Content Number

variable {σ : Type}

section Kept

variable {apply : σ → Tag → σ} {keep? : Tag → Option (String → σ → σ)}

theorem applyOrKeep_empty {s s' : σ} {tag : Tag} (hkeep : keep? tag = none) (h : apply s tag = s')
    (c : Content) :
    foldChildren (applyOrKeep apply keep?) s (.empty tag c) =
      foldChildren (applyOrKeep apply keep?) s' c := by
  rw [← h, foldChildren, applyOrKeep, hkeep]
  rfl

/-- Markup of one element with a label is taken as it is written. -/
theorem Takes.kept {label : String} {markup : Option String} (keep : String → σ → σ)
    (t : Option String → σ)
    (hk : keepsNamed label markup) (hkeep : ∀ tag, tag.label = label → keep? tag = some keep)
    (ht : ∀ v, keep v (t none) = t (some v)) :
    Takes (foldChildren (applyOrKeep apply keep?)) (kept markup) (t none) (t markup) := by
  refine .ifGiven t fun v hv => ?_
  subst hv
  rw [← ht]
  rw [keepsNamed, Option.all_some, Bool.or_eq_true] at hk
  rcases hk with hk | hk
  · obtain ⟨tag, inner, hkind, -, htext, reads⟩ := reads_of_isElement hk
    refine ⟨_, reads, fun c => ?_⟩
    rw [foldChildren, applyOrKeep, hkeep tag (of_decide_eq_true hkind), htext]
    rfl
  · obtain ⟨tag, hkind, htext, reads⟩ := reads_of_isEmptyTag hk
    refine ⟨_, reads, fun c => ?_⟩
    rw [foldChildren, applyOrKeep, hkeep tag (of_decide_eq_true hkind), htext]
    rfl

end Kept

theorem WidthUnit.ofWord_word (u : WidthUnit) : ofWord u.word = u := by
  cases u <;> decide

theorem Width.ofTag_eq {tag : Tag} {label : String} {w : Width}
    (h : tag.Carries label ["w", "type"] [some (showUInt32 w.value), some w.unit.word]) :
      ofTag tag = w := by
  simp [ofTag, Tag.uint32?, h.value, List.lookup_cons, WidthUnit.ofWord_word]

theorem TableProperties.fills {p : TableProperties} (hk : p.keeps) :
    ∃ inner, p.pieces = Piece.element "w:tblPr" [] inner ∧ Fills TableProperties.read inner p := by
  have style : ∀ s, Takes (foldChildren (applyOrKeep apply keep?))
      (ifGiven p.style (valued "w:tblStyle")) s
      { s with style := p.style.or s.style } := fun s =>
    .ifGiven (fun o => { s with style := o.or s.style }) fun v _ =>
      .valued "tblStyle" (by decide) fun tag h =>
        applyOrKeep_empty (by simp [keep?, h.label]) (by simp [apply, h.label, h.value])
  have width : ∀ s, Takes (foldChildren (applyOrKeep apply keep?))
      (ifGiven p.width (Width.pieces "w:tblW")) s
      { s with width := p.width.or s.width } := fun s =>
    .ifGiven (fun o => { s with width := o.or s.width }) fun v _ =>
      .tag ["w:w", "w:type"] "tblW" ["w", "type"] [some (showUInt32 v.value), some v.unit.word]
        (by decide) rfl
        fun tag h => applyOrKeep_empty (by simp [keep?, h.label])
          (by simp [apply, h.label, Width.ofTag_eq h])
  have alignment : ∀ s, Takes (foldChildren (applyOrKeep apply keep?))
      (ifGiven p.alignment fun a => valued "w:jc" a.word) s
        { s with alignment := p.alignment.or s.alignment } :=
    fun s => .ifGiven (fun o => { s with alignment := o.or s.alignment }) fun v _ =>
      .valued "jc" (by decide) fun tag h => applyOrKeep_empty (by simp [keep?, h.label])
        (by simp [apply, h.label, h.value, Alignment.ofWord?_word])
  have fixed : ∀ s, Takes (foldChildren (applyOrKeep apply keep?))
      (ifOn p.fixed [.empty "w:tblLayout" [("w:type", "fixed")]]) s
        { s with fixed := p.fixed || s.fixed } :=
    fun s => .ifOn (fun on => { s with fixed := on || s.fixed }) <|
      .tag ["w:type"] "tblLayout" ["type"] [some "fixed"] (by decide) rfl fun tag h =>
        applyOrKeep_empty (by simp [keep?, h.label]) (by simp [apply, h.label, h.value])
  simp only [keeps, Bool.and_eq_true] at hk
  obtain ⟨⟨hborders, hmargins⟩, hlook⟩ := hk
  have borders : ∀ s, Takes (foldChildren (applyOrKeep apply keep?)) (kept p.borders) s
      { s with borders := p.borders.or s.borders } := fun s =>
    .kept (fun v s => { s with borders := some v }) (fun o => { s with borders := o.or s.borders })
      hborders
      (fun tag h => by simp only [keep?, h]) fun v => rfl
  have margins : ∀ s, Takes (foldChildren (applyOrKeep apply keep?)) (kept p.margins) s
      { s with margins := p.margins.or s.margins } := fun s =>
    .kept (fun v s => { s with margins := some v }) (fun o => { s with margins := o.or s.margins })
      hmargins
      (fun tag h => by simp only [keep?, h]) fun v => rfl
  have look : ∀ s, Takes (foldChildren (applyOrKeep apply keep?)) (kept p.look) s
      { s with look := p.look.or s.look } := fun s =>
    .kept (fun v s => { s with look := some v }) (fun o => { s with look := o.or s.look }) hlook
      (fun tag h => by simp only [keep?, h]) fun v => rfl
  have all := ((((((style {}).append (width _)).append (alignment _)).append (borders _)).append
    (fixed _)).append (margins _)).append (look _)
  refine ⟨_, rfl, all.fills (congrArg Except.ok (by simp))⟩

theorem CellProperties.takes {p : CellProperties} {pieces : List Piece} (hk : p.keeps)
    (h : p.pieces = .ok pieces) :
      Takes (foldChildren Cell.child) pieces {} { properties := p } := by
  have width : ∀ s, Takes (foldChildren (applyOrKeep apply keep?))
      (ifGiven p.width (Width.pieces "w:tcW")) s
      { s with width := p.width.or s.width } := fun s =>
    .ifGiven (fun o => { s with width := o.or s.width }) fun v _ =>
      .tag ["w:w", "w:type"] "tcW" ["w", "type"] [some (showUInt32 v.value), some v.unit.word]
        (by decide) rfl
        fun tag h => applyOrKeep_empty (by simp [keep?, h.label])
          (by simp [apply, h.label, Width.ofTag_eq h])
  have span : ∀ s, Takes (foldChildren (applyOrKeep apply keep?))
      (ifGiven (p.span.map showUInt32) (valued "w:gridSpan")) s
        { s with span := p.span.or s.span } :=
    fun s => .ifGiven_map (fun o => { s with span := o.or s.span }) fun v _ =>
      .valued "gridSpan" (by decide) fun tag h => applyOrKeep_empty (by simp [keep?, h.label])
        (by simp [apply, h.label, Tag.uint32?, h.value])
  have merge : ∀ s, Takes (foldChildren (applyOrKeep apply keep?))
      (ifGiven p.merge VerticalMerge.pieces) s
      { s with merge := p.merge.or s.merge } := fun s => by
    refine .ifGiven (fun o => { s with merge := o.or s.merge }) fun v _ => ?_
    cases v with
    | restart =>
      exact .valued "vMerge" (by decide) fun tag h => applyOrKeep_empty (by simp [keep?, h.label])
        (by simp [apply, h.label, h.value])
    | «continue» =>
      exact .tag [] "vMerge" [] [] (by decide) rfl fun tag h =>
        applyOrKeep_empty (by simp [keep?, h.label])
        (by simp [apply, h.label, h.value])
  have alignment : ∀ s,
      Takes (foldChildren (applyOrKeep apply keep?)) (ifGiven p.alignment (valued "w:vAlign")) s
      { s with alignment := p.alignment.or s.alignment } := fun s =>
    .ifGiven (fun o => { s with alignment := o.or s.alignment }) fun v _ =>
      .valued "vAlign" (by decide) fun tag h => applyOrKeep_empty (by simp [keep?, h.label])
        (by simp [apply, h.label, h.value])
  rw [keeps, Bool.and_eq_true] at hk
  obtain ⟨hborders, hshading⟩ := hk
  have borders : ∀ s, Takes (foldChildren (applyOrKeep apply keep?)) (kept p.borders) s
      { s with borders := p.borders.or s.borders } := fun s =>
    .kept (fun v s => { s with borders := some v }) (fun o => { s with borders := o.or s.borders })
      hborders
      (fun tag h => by simp only [keep?, h]) fun v => rfl
  have shading : ∀ s, Takes (foldChildren (applyOrKeep apply keep?)) (kept p.shading) s
      { s with shading := p.shading.or s.shading } := fun s =>
    .kept (fun v s => { s with shading := some v }) (fun o => { s with shading := o.or s.shading })
      hshading
      (fun tag h => by simp only [keep?, h]) fun v => rfl
  unfold CellProperties.pieces at h
  split at h
  · next hempty =>
    cases h
    subst hempty
    exact .nil
  · split at h
    · simp at h
    · cases h
      have all := (((((width {}).append (span _)).append (merge _)).append (borders _)).append
        (shading _)).append (alignment _)
      have normal : Fills CellProperties.read _ p := all.fills (congrArg Except.ok (by simp))
      refine .element [] "tcPr" [] [] (by decide) rfl normal fun tag inner ht hr c => ?_
      simp [foldChildren, Cell.child, ht.label, hr]

theorem RowProperties.takes (p : RowProperties) :
    Takes (foldChildren Row.child) p.pieces {} { properties := p } := by
  have cantSplit : ∀ s, Takes (foldTags apply) (ifOn p.cantSplit [.empty "w:cantSplit" []]) s
      { s with cantSplit := p.cantSplit || s.cantSplit } := fun s =>
    .ifOn (fun on => { s with cantSplit := on || s.cantSplit }) <|
      .tag [] "cantSplit" [] [] (by decide) rfl fun tag h =>
        foldTags_empty (by simp [apply, h.label, h.isOn])
  have height : ∀ s, Takes (foldTags apply)
      (ifGiven (p.height.map showUInt32) (valued "w:trHeight")) s
      { s with height := p.height.or s.height } := fun s =>
    .ifGiven_map (fun o => { s with height := o.or s.height }) fun v _ =>
      .valued "trHeight" (by decide) fun tag h => foldTags_empty
        (by simp [apply, h.label, Tag.uint32?, h.value])
  have header : ∀ s, Takes (foldTags apply) (ifOn p.header [.empty "w:tblHeader" []]) s
      { s with header := p.header || s.header } := fun s =>
    .ifOn (fun on => { s with header := on || s.header }) <|
      .tag [] "tblHeader" [] [] (by decide) rfl fun tag h =>
        foldTags_empty (by simp [apply, h.label, h.isOn])
  unfold RowProperties.pieces
  split
  · next hempty =>
    subst hempty
    exact .nil
  · have normal : Fills RowProperties.read _ p :=
      (((cantSplit {}).append (height _)).append (header _)).fills (congrArg Except.ok (by simp))
    refine .element [] "trPr" [] [] (by decide) rfl normal fun tag inner ht hr c => ?_
    simp [foldChildren, Row.child, ht.label, hr]

/-! ### Cells, rows and tables -/

theorem Cell.takes_paragraphs {ps : List Paragraph} {pieces : List Piece}
    (hk : ps.all Paragraph.keeps)
    (h : paragraphsPieces ps = .ok pieces) (properties : CellProperties) :
    Takes (foldChildren Cell.child) pieces { properties }
      { properties, paragraphs := ps.map Paragraph.normalize } := by
  refine .each (fun _ => paragraphsPieces) (fun _ => Paragraph.pieces) (Cell.mk properties)
    (fun _ => rfl) (fun _ _ _ => rfl) ?_ hk (i := 0) h
  intro _ p here before hk h
  obtain ⟨inner, rfl, fills⟩ := Paragraph.fills hk h
  exact .element [] "p" [] [] (by decide) rfl fills fun tag inner ht hr c => by
    simp [foldChildren, Cell.child, ht.label, hr]

theorem Cell.fills {c : Cell} {pieces : List Piece} (hk : c.keeps) (h : c.pieces = .ok pieces) :
    ∃ inner, pieces = Piece.element "w:tc" [] inner ∧ Fills Cell.read inner c.normalize := by
  rw [keeps, Bool.and_eq_true] at hk
  obtain ⟨properties, hproperties, h⟩ := bind_eq_ok.mp h
  obtain ⟨paragraphs, hparagraphs, h⟩ := bind_eq_ok.mp h
  cases h
  refine ⟨_, rfl, ?_⟩
  have taken := CellProperties.takes hk.1 hproperties
  cases hempty : c.paragraphs.isEmpty with
  | true =>
    rw [List.isEmpty_iff.mp hempty] at hparagraphs
    cases hparagraphs
    have placeholder : Takes (foldChildren Cell.child) [.empty "w:p" []]
        { properties := c.properties }
        c.normalize :=
      .tag [] "p" [] [] (by decide) rfl fun tag h c' => by
        simp [foldChildren, Cell.child, h.label, normalize, hempty]
    rw [if_pos rfl, List.append_nil]
    exact (taken.append placeholder).fills rfl
  | false =>
    have filled := takes_paragraphs hk.2 hparagraphs c.properties
    rw [if_neg Bool.false_ne_true, List.append_nil]
    exact (taken.append filled).fills (by simp [foldChildren, normalize, hempty])

theorem Row.takes_cells {cs : List Cell} {pieces : List Piece} (hk : cs.all Cell.keeps)
    (h : cellsPieces cs = .ok pieces) (properties : RowProperties) :
    Takes (foldChildren Row.child) pieces { properties }
      { properties, cells := cs.map Cell.normalize } := by
  refine .each (fun _ => cellsPieces) (fun _ => Cell.pieces) (Row.mk properties)
    (fun _ => rfl) (fun _ _ _ => rfl) ?_ hk (i := 0) h
  intro _ c here before hk h
  obtain ⟨inner, rfl, fills⟩ := Cell.fills hk h
  exact .element [] "tc" [] [] (by decide) rfl fills fun tag inner ht hr c => by
    simp [foldChildren, Row.child, ht.label, hr]

theorem Row.fills {r : Row} {index : Nat} {pieces : List Piece} (hk : r.cells.all Cell.keeps)
    (h : r.pieces index = .ok pieces) :
    ∃ inner, pieces = Piece.element "w:tr" [] inner ∧ Fills Row.read inner r.normalize := by
  unfold Row.pieces at h
  split at h
  · cases h
  · obtain ⟨cells, hcells, h⟩ := bind_eq_ok.mp h
    cases h
    exact ⟨_, rfl, ((RowProperties.takes r.properties).append (takes_cells hk hcells _)).fills rfl⟩

theorem Table.takes_rows {rs : List Row} {pieces : List Piece}
    (hk : rs.all (·.cells.all Cell.keeps))
    (h : rowsPieces 0 rs = .ok pieces) (properties : TableProperties) (grid : List UInt32) :
    Takes (foldChildren Table.child) pieces { properties, grid }
      { properties, grid, rows := rs.map Row.normalize } := by
  refine .each rowsPieces (fun i r => r.pieces i) (Table.mk properties grid)
    (fun _ => rfl) (fun _ _ _ => rfl) ?_ hk h
  intro i r here before hk h
  obtain ⟨inner, rfl, fills⟩ := Row.fills hk h
  exact .element [] "tr" [] [] (by decide) rfl fills fun tag inner ht hr c => by
    simp [foldChildren, Table.child, ht.label, hr]

theorem Table.takes_grid (grid : List UInt32) (t : Table) :
    Takes (foldChildren Table.child) (gridPieces grid) t { t with grid } := by
  have columns : Fills readGrid (grid.map fun n => Piece.empty "w:gridCol" [("w:w", showUInt32 n)])
      grid := by
    refine (Takes.map id fun before n => ?_).fills rfl
    exact .tag ["w:w"] "gridCol" ["w"] [some (showUInt32 n)] (by decide) rfl fun tag h =>
      foldTags_empty (by simp [h.label, Tag.uint32?, h.value])
  exact .element [] "tblGrid" [] [] (by decide) rfl columns fun tag inner ht hr c => by
    simp [foldChildren, Table.child, ht.label, hr]

/-- A table is read back from its element. -/
theorem Table.fills {t : Table} {pieces : List Piece} (hk : t.keeps) (h : t.pieces = .ok pieces) :
    ∃ inner, pieces = Piece.element "w:tbl" [] inner ∧ Fills Table.read inner t.normalize := by
  rw [keeps, Bool.and_eq_true] at hk
  obtain ⟨rows, hrows, h⟩ := bind_eq_ok.mp h
  cases h
  obtain ⟨inner, hinner, fills⟩ := TableProperties.fills hk.1
  have properties : Takes (foldChildren Table.child) t.properties.pieces {}
      { properties := t.properties } := by
    rw [hinner]
    exact .element [] "tblPr" [] [] (by decide) rfl fills fun tag inner ht hr c => by
      simp [foldChildren, Table.child, ht.label, hr]
  exact ⟨_, rfl, ((properties.append (takes_grid t.grid _)).append
    (takes_rows hk.2 hrows _ _)).fills rfl⟩

end Letterpress
