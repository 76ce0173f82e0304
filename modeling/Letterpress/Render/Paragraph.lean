import Letterpress.Body.Paragraph
import Letterpress.Render.Fill

/-!
# Filling in a paragraph

The runs of text in a row are read as one text, so that a tag may stretch over several. Each glyph
is marked with its run. What is kept stays in its run, a value takes the formatting of the run that
its tag begins in.
-/

namespace Letterpress

open Template

def Run.chars (r : Run) : List Char := (r.text?.getD "").toList

/-- Runs of text in a row, or one other run. -/
inductive Stretch where
  | texts (runs : List Run)
  | other (r : Run)

namespace Stretch

def runs : Stretch → List Run
  | texts runs => runs
  | other r => [r]

def texts? : Stretch → Option (List Run)
  | texts runs => some runs
  | other _ => none

def ofRuns : List Run → List Stretch
  | [] => []
  | r :: rest =>
    if r.isText then
      match ofRuns rest with
      | texts more :: stretches => texts (r :: more) :: stretches
      | stretches => texts [r] :: stretches
    else other r :: ofRuns rest

def mapTexts (f : List Run → List Run) : Stretch → Stretch
  | texts runs => texts (f runs)
  | other r => other r

/-- Changes the runs of text that have `index` others before them. -/
def modifyTexts (f : List Run → List Run) : Nat → List Stretch → List Stretch
  | _, [] => []
  | index, other r :: rest => other r :: modifyTexts f index rest
  | 0, texts runs :: rest => texts (f runs) :: rest
  | index + 1, texts runs :: rest => texts runs :: modifyTexts f index rest

theorem runs_ofRuns (runs : List Run) : (ofRuns runs).flatMap Stretch.runs = runs := by
  induction runs with
  | nil => rfl
  | cons r rest ih =>
    unfold ofRuns
    split
    · split
      · next h => simpa [h, Stretch.runs] using ih
      · simp [Stretch.runs, ih]
    · simp [Stretch.runs, ih]

end Stretch

/-- The run a glyph stands in, and how many runs of text are before it in its row. -/
structure Origin where
  index : Nat
  run : Run
  deriving DecidableEq

def glyphsFrom (index : Nat) : List Run → List (Glyph Origin)
  | [] => []
  | r :: rest => r.chars.map (fun c => ⟨c, index, r⟩) ++ glyphsFrom (index + 1) rest

def glyphsOf (runs : List Run) : List (Glyph Origin) := glyphsFrom 0 runs

/-- A text to be put into a run of its own. -/
structure Fragment where
  origin : Origin
  text : List Char
  isValue : Bool

namespace Fragment

/-- Puts a glyph before fragments, into the first one if that is kept of the same run. -/
def prepend (g : Glyph Origin) (fragments : List Fragment) : List Fragment :=
  match fragments with
  | f :: rest =>
    if !f.isValue ∧ f.origin.index = g.mark.index then { f with text := g.char :: f.text } :: rest
    else ⟨g.mark, [g.char], false⟩ :: f :: rest
  | [] => [⟨g.mark, [g.char], false⟩]

/-- No fragment is empty. -/
def ofFilled : List (Filled Origin) → List Fragment
  | [] => []
  | .kept g :: rest => prepend g (ofFilled rest)
  | .value text tag :: rest =>
    match tag with
    | g :: _ => if text = "" then ofFilled rest else ⟨g.mark, text.toList, true⟩ :: ofFilled rest
    | [] => ofFilled rest

def run (f : Fragment) : Run := f.origin.run.setText (String.ofList f.text)

end Fragment

/-- The runs that what is filled in makes. -/
def runsOf (filled : List (Filled Origin)) : List Run :=
  (Fragment.ofFilled filled).map Fragment.run

/-- A text with the conditions in it decided. -/
def judged (s : Scope) (text : String) : String :=
  textOf (Node.judgeAll s (parseText text))

def judgeRun (s : Scope) (r : Run) : Run :=
  match r.text? with
  | some text => r.setText (judged s text)
  | none => r

/-- Decides the conditions that values bring in, and drops the runs that become empty. -/
def judgeRuns (s : Scope) (runs : List Run) : List Run :=
  (runs.map (judgeRun s)).filter (·.text? ≠ some "")

def Tag.isCondition : Tag → Bool
  | .opens .condition _ => true
  | .closes .condition => true
  | _ => false

/-- Fills in runs of text in a row. Without a tag they stay as they are. -/
def fillRuns (blockText : BlockText) (s : Scope) (runs : List Run) : List Run :=
  let lexemes := lex (glyphsOf runs)
  let tokens := tokensOf lexemes
  if tokens.isEmpty then runs
  else
    let filled := runsOf (Node.fillAll blockText s (parseLexemes lexemes))
    if tokens.all (Tag.isCondition ·.tag) then filled else judgeRuns s filled

namespace Paragraph

def fill (blockText : BlockText) (s : Scope) (p : Paragraph) : Paragraph :=
  let stretches := (Stretch.ofRuns p.runs).map (·.mapTexts (fillRuns blockText s))
  { p with runs := stretches.flatMap Stretch.runs }

/-- The tags in a paragraph, each with the number of rows of text before its own. -/
def tags (p : Paragraph) : List (Nat × Token Place) :=
  ((Stretch.ofRuns p.runs).filterMap Stretch.texts?).zipIdx.flatMap fun (runs, index) =>
    (tokenize (String.ofList (runs.flatMap Run.chars))).map fun t => (index, t)

end Paragraph

/-- The glyphs of a text that are not in the span. The first one is at `offset`. -/
def outside {μ : Type} (span : Span) (offset : Nat) : List (Glyph μ) → List (Glyph μ)
  | [] => []
  | g :: rest =>
    let behind := outside span (offset + g.char.utf8Size) rest
    if span.start ≤ offset ∧ offset < span.stop then behind else g :: behind

/-- Takes bytes out of runs of text; runs that become empty go. -/
def cutRuns (span : Span) (runs : List Run) : List Run :=
  runsOf ((outside span 0 (glyphsOf runs)).map .kept)

/-- Takes bytes out of one of the rows of text. -/
def Paragraph.cut (p : Paragraph) (row : Nat) (span : Span) : Paragraph :=
  let stretches := Stretch.modifyTexts (cutRuns span) row (Stretch.ofRuns p.runs)
  { p with runs := stretches.flatMap Stretch.runs }

end Letterpress
