import Letterpress.Body.Writing
import Letterpress.Proofs.Results

/-!
# What can be written

Each part of a body is written if what is in it has a written form, and nothing else can fail. Of
the section setups in the body itself only the one that counts is written.
-/

namespace Letterpress

/-- There is at least one column. -/
def Section.hasForm (s : Section) : Bool := s.columns.all (·.count ≠ 0)

/-- A size is not zero. -/
def RunProperties.hasForm (p : RunProperties) : Bool := p.size ≠ some 0

/-- A mark is written without its formatting. -/
def Run.hasForm (r : Run) : Bool := r.isMark || r.properties.hasForm

/-- A heading has a level from 1 to 9. -/
def ParagraphProperties.hasForm (p : ParagraphProperties) : Bool :=
  (p.style.all fun style => (headingLevel? style).all fun level => 1 ≤ level ∧ level ≤ 9) &&
    p.sectionEnd.all Section.hasForm

def Paragraph.hasForm (p : Paragraph) : Bool := p.properties.hasForm && p.runs.all Run.hasForm

/-- A cell takes up at least one column. -/
def CellProperties.hasForm (p : CellProperties) : Bool := p.span ≠ some 0

def Cell.hasForm (c : Cell) : Bool := c.properties.hasForm && c.paragraphs.all Paragraph.hasForm

/-- A row has cells. -/
def Row.hasForm (r : Row) : Bool := !r.cells.isEmpty && r.cells.all Cell.hasForm

def Table.hasForm (t : Table) : Bool := t.rows.all Row.hasForm

namespace Element

mutual

def hasForm : Element → Bool
  | paragraph p => p.hasForm
  | table t => t.hasForm
  | setup s => s.hasForm
  | control _ content => haveForms content
  | bookmarkStart _ => true
  | bookmarkEnd _ => true

def haveForms : List Element → Bool
  | [] => true
  | e :: rest => hasForm e && haveForms rest

end

theorem haveForms_eq_all (elements : List Element) : haveForms elements = elements.all hasForm := by
  induction elements with
  | nil => rfl
  | cons e rest ih => rw [haveForms, List.all_cons, ih]

end Element

/-- Of the setups in the body itself only the one that counts matters. -/
def Body.hasForm (b : Body) : Bool :=
  (b.elements.filter (·.setup?.isNone)).all Element.hasForm && b.section?.all Section.hasForm

/-! ### Writing succeeds -/

theorem Columns.isOk_pieces (c : Columns) : c.pieces.isOk = decide (c.count ≠ 0) := by
  unfold Columns.pieces
  split
  · next h => simp [h, Except.isOk, Except.toBool]
  · next h => simp [h, Except.isOk, Except.toBool]

theorem Section.isOk_pieces (s : Section) : s.pieces.isOk = s.hasForm := by
  unfold Section.pieces hasForm
  dsimp only
  split
  · next c h => rw [isOk_bind (b := true) fun _ => rfl, c.isOk_pieces, h, Bool.and_true]; rfl
  · next h => rw [h]; rfl

theorem RunProperties.isOk_pieces (p : RunProperties) : p.pieces.isOk = p.hasForm := by
  unfold RunProperties.pieces hasForm
  split
  · next h =>
    obtain rfl : p = {} := by simpa [isEmpty] using h
    rfl
  · split
    · next h => simp [h, Except.isOk, Except.toBool]
    · next h => simp [h, Except.isOk, Except.toBool]

theorem Run.isOk_pieces (r : Run) : r.pieces.isOk = r.hasForm := by
  unfold Run.pieces hasForm
  split
  · next h => rw [h]; rfl
  · next h =>
    rw [isOk_bind (b := true) fun _ => rfl, r.properties.isOk_pieces, Bool.and_true,
      Bool.eq_false_iff.mpr h, Bool.false_or]

theorem isOk_runsPieces (link : Option Hyperlink) (runs : List Run) :
    (runsPieces link runs).isOk = runs.all Run.hasForm := by
  induction runs generalizing link with
  | nil => rfl
  | cons r rest ih =>
    rw [runsPieces, isOk_bind fun _ => isOk_bind (b := true) fun _ => rfl, ih, Bool.and_true,
      r.isOk_pieces, List.all_cons]

theorem isOk_checkStyle (style : String) : (checkStyle style).isOk =
    (headingLevel? style).all fun level => 1 ≤ level ∧ level ≤ 9 := by
  unfold checkStyle
  cases headingLevel? style with
  | none => rfl
  | some level =>
    rw [Option.all_some]
    dsimp only
    split
    · next h => simp [h, Except.isOk, Except.toBool]
    · next h => simp [h, Except.isOk, Except.toBool]

theorem isOk_sectionEnd (s? : Option Section) (f : List Markup.Piece → List Markup.Piece) :
    (match s? with
      | some s => s.pieces >>= fun pieces => pure (f pieces)
      | none => (pure [] : Writing) >>= fun pieces => pure (f pieces)).isOk =
      s?.all Section.hasForm := by
  cases s? with
  | none => rfl
  | some s => exact (isOk_bind (b := true) fun _ => rfl).trans (by simp [s.isOk_pieces])

theorem ParagraphProperties.isOk_pieces (p : ParagraphProperties) :
    p.pieces.isOk = p.hasForm := by
  unfold ParagraphProperties.pieces hasForm
  dsimp only
  split
  · next h =>
    obtain rfl : p = {} := by simpa [isEmpty] using h
    rfl
  · split
    · next style hstyle =>
      rw [isOk_bind (b := p.sectionEnd.all Section.hasForm), isOk_checkStyle, hstyle,
        Option.all_some]
      exact fun _ => isOk_sectionEnd ..
    · next hstyle => exact (isOk_sectionEnd ..).trans (by rw [hstyle]; rfl)

theorem Paragraph.isOk_pieces (p : Paragraph) : p.pieces.isOk = p.hasForm := by
  rw [Paragraph.pieces, isOk_bind fun _ => isOk_bind (b := true) fun _ => rfl, isOk_runsPieces,
    p.properties.isOk_pieces, hasForm, Bool.and_true]

theorem isOk_paragraphsPieces (paragraphs : List Paragraph) :
    (paragraphsPieces paragraphs).isOk = paragraphs.all Paragraph.hasForm := by
  induction paragraphs with
  | nil => rfl
  | cons p rest ih =>
    rw [paragraphsPieces, isOk_bind fun _ => isOk_bind (b := true) fun _ => rfl, ih, Bool.and_true,
      p.isOk_pieces, List.all_cons]

theorem CellProperties.isOk_pieces (p : CellProperties) : p.pieces.isOk = p.hasForm := by
  unfold CellProperties.pieces hasForm
  split
  · next h => rw [h]; rfl
  · split
    · next h => simp [h, Except.isOk, Except.toBool]
    · next h => simp [h, Except.isOk, Except.toBool]

theorem Cell.isOk_pieces (c : Cell) : c.pieces.isOk = c.hasForm := by
  rw [Cell.pieces, isOk_bind fun _ => isOk_bind (b := true) fun _ => rfl, isOk_paragraphsPieces,
    c.properties.isOk_pieces, hasForm, Bool.and_true]

theorem isOk_cellsPieces (cells : List Cell) :
    (cellsPieces cells).isOk = cells.all Cell.hasForm := by
  induction cells with
  | nil => rfl
  | cons c rest ih =>
    rw [cellsPieces, isOk_bind fun _ => isOk_bind (b := true) fun _ => rfl, ih, Bool.and_true,
      c.isOk_pieces, List.all_cons]

theorem Row.isOk_pieces (r : Row) (index : Nat) : (r.pieces index).isOk = r.hasForm := by
  unfold Row.pieces hasForm
  split
  · next h => rw [h]; rfl
  · next h =>
    rw [isOk_bind (b := true) fun _ => rfl, isOk_cellsPieces, Bool.eq_false_iff.mpr h,
      Bool.and_true, Bool.not_false, Bool.true_and]

theorem isOk_rowsPieces (index : Nat) (rows : List Row) :
    (rowsPieces index rows).isOk = rows.all Row.hasForm := by
  induction rows generalizing index with
  | nil => rfl
  | cons r rest ih =>
    rw [rowsPieces, isOk_bind fun _ => isOk_bind (b := true) fun _ => rfl, ih, Bool.and_true,
      r.isOk_pieces, List.all_cons]

theorem Table.isOk_pieces (t : Table) : t.pieces.isOk = t.hasForm := by
  rw [Table.pieces, isOk_bind (b := true) fun _ => rfl, isOk_rowsPieces, hasForm, Bool.and_true]

namespace Element

mutual

theorem isOk_pieces : ∀ e : Element, e.pieces.isOk = e.hasForm
  | paragraph p => by rw [pieces, hasForm, p.isOk_pieces]
  | table t => by rw [pieces, hasForm, t.isOk_pieces]
  | setup s => by rw [pieces, hasForm, s.isOk_pieces]
  | control _ content => by
    rw [pieces, hasForm, isOk_bind (b := true) fun _ => rfl, isOk_piecesOf content, Bool.and_true]
  | bookmarkStart _ => by rw [pieces, hasForm]; rfl
  | bookmarkEnd _ => by rw [pieces, hasForm]; rfl

theorem isOk_piecesOf : ∀ elements : List Element, (piecesOf elements).isOk = haveForms elements
  | [] => by rw [piecesOf, haveForms]; rfl
  | e :: rest => by
    rw [piecesOf, haveForms, isOk_bind fun _ => isOk_bind (b := true) fun _ => rfl,
      isOk_piecesOf rest, Bool.and_true, isOk_pieces e]

end

end Element

/-- A body can be written just if what is written of it has a form. -/
theorem Body.isOk_pieces (b : Body) : b.pieces.isOk = b.hasForm := by
  rw [Body.pieces, isOk_bind (b := b.section?.all Section.hasForm), Element.isOk_piecesOf,
    Element.haveForms_eq_all, hasForm]
  intro _
  dsimp only
  split
  · next s h =>
    rw [isOk_bind (b := true) fun _ => rfl, h, Option.all_some, ← s.isOk_pieces, Bool.and_true]
    cases s.pieces <;> rfl
  · next h => rw [h]; rfl

theorem isOk_mainPartXml (b : Body) (attributes : List (String × String)) :
    (mainPartXml b attributes).isOk = b.hasForm := by
  rw [mainPartXml, isOk_bind (b := true) fun _ => rfl, b.isOk_pieces, Bool.and_true]

end Letterpress
