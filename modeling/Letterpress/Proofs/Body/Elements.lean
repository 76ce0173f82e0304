import Letterpress.Proofs.Body.Tables

/-!
# Elements are read back

An element is read back whatever follows it, and a body line by line.
-/

namespace Letterpress

open Markup Markup.Content Markup.Piece Number Text

theorem ControlProperties.read_empty {p p' : ControlProperties} {tag : Tag} (h : p.apply tag = p')
    (c : Content) :
    read p (.empty tag c) = read p' c := by
  rw [← h]
  rfl

theorem ControlProperties.fills (p : ControlProperties) :
    ∃ inner, p.pieces = Piece.element "w:sdtPr" [] inner ∧
      Fills (ControlProperties.read {}) inner p := by
  have aliased : ∀ s, Takes read (ifGiven p.alias (valued "w:alias")) s
      { s with «alias» := p.alias.or s.alias } :=
    fun s => .ifGiven (fun o => { s with «alias» := o.or s.alias }) fun v _ =>
      .valued "alias" (by decide) fun tag h => read_empty (by simp [apply, h.label, h.value])
  have tag : ∀ s, Takes read (ifGiven p.tag (valued "w:tag")) s { s with tag := p.tag.or s.tag } :=
    fun s => .ifGiven (fun o => { s with tag := o.or s.tag }) fun v _ =>
      .valued "tag" (by decide) fun tag h => read_empty (by simp [apply, h.label, h.value])
  have id : ∀ s, Takes read (ifGiven (p.id.map showInt64) (valued "w:id")) s
      { s with id := p.id.or s.id } :=
    fun s => .ifGiven_map (fun o => { s with id := o.or s.id }) fun v _ =>
      .valued "id" (by decide) fun tag h =>
        read_empty (by simp [apply, h.label, Tag.int64?, h.value])
  have gallery : ∀ s, Takes read (ifGiven p.gallery (valued "w:docPartGallery")) s
      { s with gallery := p.gallery.or s.gallery } := fun s =>
    .ifGiven (fun o => { s with gallery := o.or s.gallery }) fun v _ =>
      .valued "docPartGallery" (by decide) fun tag h =>
        read_empty (by simp [apply, h.label, h.value])
  have unique : ∀ s, Takes read (ifOn p.unique [.empty "w:docPartUnique" []]) s
      { s with unique := p.unique || s.unique } := fun s =>
    .ifOn (fun on => { s with unique := on || s.unique }) <|
      .tag [] "docPartUnique" [] [] (by decide) rfl fun tag h =>
        read_empty (by simp [apply, h.label, h.isOn])
  have buildingBlock : ∀ s, Takes read
      (ifOn (p.gallery.isSome || p.unique) (Piece.element "w:docPartObj" []
        (ifGiven p.gallery (valued "w:docPartGallery") ++
          ifOn p.unique [.empty "w:docPartUnique" []]))) s
      { s with gallery := p.gallery.or s.gallery, unique := p.unique || s.unique } := by
    intro s
    cases hon : p.gallery.isSome || p.unique with
    | false =>
      rw [Bool.or_eq_false_iff, Option.isSome_eq_false_iff, Option.isNone_iff_eq_none] at hon
      rw [hon.1, hon.2]
      exact .nil
    | true =>
      refine .element [] "docPartObj" [] [] (by decide) rfl
        (((gallery s).append (unique _)).fills rfl) ?_
      intro tag inner ht hr c
      simp [read, ht.label, hr]
  exact ⟨_, rfl, ((((aliased {}).append (tag _)).append (id _)).append (buildingBlock _)).fills
    (congrArg Except.ok (by simp))⟩

/-! ### Elements and bodies -/

namespace Element

/-- What is written for an element begins with a tag and is read as that element. -/
def IsTaken (e : Element) (pieces : List Piece) : Prop :=
  (symbols pieces).head? = some (.char '<') ∧
    ∃ k, Reads pieces k ∧ ∀ c, readAll (k c) = (readAll c).map (e.normalize :: ·)

/-- Lines are read as elements. -/
def AreTaken (es : List Element) (pieces : List Piece) : Prop :=
  ∃ k, Lines pieces k ∧ ∀ c, readAll (k c) = (readAll c).map (normalizeAll es ++ ·)

theorem normalizeAll_append (a b : List Element) :
    normalizeAll (a ++ b) = normalizeAll a ++ normalizeAll b := by
  induction a with
  | nil => rfl
  | cons e rest ih => exact congrArg (e.normalize :: ·) ih

namespace IsTaken

variable {e : Element} {name : String} {inner : List Piece}

theorem element {τ : Type} {G : Content → Except PartFault τ} {r : τ} (label : String)
    (hw : isWritable name [] label []) (hG : Fills G inner r)
    (h : ∀ tag content, tag.label = label → G content = .ok r →
      ∀ c, readAll (.element tag content c) = (readAll c).map (e.normalize :: ·)) :
    IsTaken e (Piece.element name [] inner) := by
  obtain ⟨k, hk, hG⟩ := hG
  exact ⟨head?_symbols_element, _, .element hk (isWritten_givens hw []),
    h _ _ (carries_givens hw []).label hG⟩

theorem tag {attributes : List (String × String)} (names : List String) (label : String)
    (locals : List String)
    (values : List (Option String)) (hw : isWritable name names label locals)
    (ha : attributes = givens names values)
    (h : ∀ tag : Tag, tag.Carries label locals values → ofEmpty? tag = some e.normalize) :
    IsTaken e [.empty name attributes] := by
  subst ha
  refine ⟨head?_symbols_empty, _, .empty (isWritten_givens hw values), fun c => ?_⟩
  rw [readAll, h _ (carries_givens hw values)]
  cases readAll c <;> rfl

end IsTaken

namespace AreTaken

variable {e : Element} {es es' rest : List Element} {a b here behind pieces : List Piece}

theorem nil : AreTaken [] [] := ⟨id, Reads.nil.lines, fun c => (congrFun readOn_nil c).symm⟩

theorem cons (h : IsTaken e here) (hrest : AreTaken rest behind) :
    AreTaken (e :: rest) (here ++ lineEnd :: behind) := by
  obtain ⟨starts, k, reads, h⟩ := h
  obtain ⟨k', lines, hrest⟩ := hrest
  have line : Lines (here ++ [lineEnd]) _ := reads.line starts (by decide)
  rw [List.append_cons]
  refine ⟨_, line.append lines, fun c => ?_⟩
  rw [Function.comp, Function.comp, h, readAll, hrest]
  cases readAll c <;> rfl

theorem append (ha : AreTaken es a) (hb : AreTaken es' b) : AreTaken (es ++ es') (a ++ b) := by
  obtain ⟨k, lines, ha⟩ := ha
  obtain ⟨k', lines', hb⟩ := hb
  refine ⟨_, lines.append lines', fun c => ?_⟩
  rw [Function.comp, ha, hb, normalizeAll_append]
  cases readAll c with
  | error fault => rfl
  | ok more => exact congrArg Except.ok (List.append_assoc ..).symm

theorem fills (h : AreTaken es pieces) : Fills readAll pieces (normalizeAll es) := by
  obtain ⟨k, lines, h⟩ := h
  exact ⟨k, lines.within, (h done).trans (congrArg Except.ok (List.append_nil _))⟩

end AreTaken

/-- The properties and the content of a control are read back. -/
theorem fills_control (p : ControlProperties) {content : List Element} {pieces : List Piece}
    (h : AreTaken content pieces) :
    Fills (readControl {} []) (p.pieces ++ Piece.element "w:sdtContent" [] pieces)
      (p, normalizeAll content) := by
  obtain ⟨inner, hinner, fills⟩ := ControlProperties.fills p
  have properties : Takes (fun s : ControlProperties × List Element => readControl s.1 s.2) p.pieces
      ({}, []) (p, []) := by
    rw [hinner]
    exact .element [] "sdtPr" [] [] (by decide) rfl fills fun tag inner ht hr c => by
      simp [readControl, ht.label, hr]
  have elements : Takes (fun s : ControlProperties × List Element => readControl s.1 s.2)
      (Piece.element "w:sdtContent" [] pieces) (p, []) (p, normalizeAll content) :=
    .element [] "sdtContent" [] [] (by decide) rfl h.fills fun tag inner ht hr c => by
      simp [readControl, ht.label, hr]
  exact (properties.append elements).fills rfl

mutual

theorem isTaken_pieces : ∀ (e : Element) {pieces : List Piece}, e.keeps → e.pieces = .ok pieces →
    IsTaken e pieces
  | paragraph p, _, hk, h => by
    obtain ⟨inner, rfl, fills⟩ := Paragraph.fills hk h
    refine .element "p" (by decide) fills fun tag content ht hr c => ?_
    simp only [readAll, ht, if_pos, hr]
    cases readAll c <;> rfl
  | table t, _, hk, h => by
    obtain ⟨inner, rfl, fills⟩ := Table.fills hk h
    refine .element "tbl" (by decide) fills fun tag content ht hr c => ?_
    rw [readAll, ht, if_neg (by decide), if_pos rfl, hr]
    cases readAll c <;> rfl
  | setup s, _, _, h => by
    obtain ⟨inner, rfl, fills⟩ := Section.takes h
    refine .element "sectPr" (by decide) fills fun tag content ht hr c => ?_
    rw [readAll, ht, if_neg (by decide), if_neg (by decide), if_pos rfl, hr]
    cases readAll c <;> rfl
  | control p content, _, hk, h => by
    obtain ⟨pieces, hpieces, h⟩ := bind_eq_ok.mp h
    cases h
    refine .element "sdt" (by decide) (fills_control p (areTaken_piecesOf content hk hpieces)) ?_
    intro tag content ht hr c
    rw [readAll, ht, if_neg (by decide), if_neg (by decide), if_neg (by decide), if_pos rfl, hr]
    cases readAll c <;> rfl
  | bookmarkStart b, _, _, h => by
    cases h
    exact .tag ["w:id", "w:name"] "bookmarkStart" ["id", "name"]
      [some (showUInt32 b.id), some b.name]
      (by decide) rfl fun tag h => by
        simp [ofEmpty?, ofMark?, h.label, Bookmark.ofTag?, Tag.uint32?, h.value, List.lookup_cons,
          normalize]
  | bookmarkEnd id, _, _, h => by
    cases h
    exact .tag ["w:id"] "bookmarkEnd" ["id"] [some (showUInt32 id)] (by decide) rfl fun tag h => by
      simp [ofEmpty?, ofMark?, h.label, Tag.uint32?, h.value, normalize]

theorem areTaken_piecesOf : ∀ (es : List Element) {pieces : List Piece}, keepsAll es →
    piecesOf es = .ok pieces → AreTaken es pieces
  | [], _, _, h => by
    cases h
    exact .nil
  | e :: rest, _, hk, h => by
    rw [keepsAll, Bool.and_eq_true] at hk
    obtain ⟨here, hhere, h⟩ := bind_eq_ok.mp h
    obtain ⟨behind, hbehind, h⟩ := bind_eq_ok.mp h
    cases h
    exact .cons (isTaken_pieces e hk.1 hhere) (areTaken_piecesOf rest hk.2 hbehind)

end

theorem keepsAll_filter {es : List Element} (h : keepsAll es) (p : Element → Bool) :
    keepsAll (es.filter p) := by
  induction es with
  | nil => rfl
  | cons e rest ih =>
    rw [keepsAll, Bool.and_eq_true] at h
    rw [List.filter_cons]
    split
    · rw [keepsAll, h.1, ih h.2]
      rfl
    · exact ih h.2

end Element

/-- A body is read back from its element. -/
theorem Body.fills {b : Body} {pieces : List Piece} (hk : b.keeps) (h : b.pieces = .ok pieces) :
    ∃ inner, pieces = Piece.element "w:body" [] inner ∧
      Fills Element.readAll inner b.normalize.elements := by
  obtain ⟨elements, helements, h⟩ := bind_eq_ok.mp h
  have taken := Element.areTaken_piecesOf _ (Element.keepsAll_filter hk _) helements
  have first : ∀ {es : List Element} {pieces : List Piece}, Element.AreTaken es pieces →
      Fills Element.readAll (lineEnd :: pieces) (Element.normalizeAll es) := by
    rintro es pieces ⟨k, lines, htaken⟩
    have within : Within ([Piece.text "\n"] ++ pieces) _ := (Within.text (by decide)).append lines
    exact ⟨_, within, (htaken done).trans (congrArg Except.ok (List.append_nil _))⟩
  cases hsection : b.section? with
  | none =>
    rw [hsection] at h
    cases h
    refine ⟨_, rfl, ?_⟩
    rw [List.append_nil, normalize, hsection, Option.map_none, Option.toList_none, List.append_nil]
    exact first taken
  | some s =>
    rw [hsection] at h
    obtain ⟨setup, hsetup, h⟩ := bind_eq_ok.mp h
    obtain ⟨pieces, hpieces, rfl⟩ := map_eq_ok.mp hsetup
    cases h
    refine ⟨_, rfl, ?_⟩
    have last := Element.AreTaken.cons (Element.isTaken_pieces (.setup s) rfl hpieces) .nil
    have all := first (taken.append last)
    rw [Element.normalizeAll_append] at all
    rw [normalize, hsection]
    exact all

end Letterpress
