import Letterpress.Body.Reading
import Letterpress.Proofs.Markup.Pairs

/-!
# Sites in a main part

What a content is read as is decided by the elements around it, and what an element in it counts
for, by the elements before it, too. At most sites an empty tag counts for what an empty element
does.
-/

namespace Letterpress

open Markup Markup.Content

/-- What a content is read as. -/
inductive Zone where
  /-- Around the root and in it. -/
  | root
  | elements
  | control
  | controlProperties
  | paragraph
  | paragraphProperties
  | runs
  | run
  | text
  | table
  | tableProperties
  | row
  | cell
  | cellProperties
  /-- Only the tags of the children count. -/
  | tags
  | skipped
  | kept
  deriving DecidableEq

namespace Zone

def insideRuns (label : String) : Zone :=
  if label = "r" then run
  else if label = "hyperlink" then runs
  else if isRunGroup label then runs
  else skipped

/-- The zone in an element with this label. -/
@[simp] def inside (label : String) : Zone → Zone
  | root => if label = "document" then root else if label = "body" then elements else skipped
  | elements =>
    if label = "p" then paragraph
    else if label = "tbl" then table
    else if label = "sectPr" then tags
    else if label = "sdt" then control
    else skipped
  | control =>
    if label = "sdtPr" then controlProperties
    else if label = "sdtContent" then elements
    else skipped
  | controlProperties => if label = "docPartObj" then controlProperties else skipped
  | paragraph => if label = "pPr" then paragraphProperties else insideRuns label
  | paragraphProperties =>
    if label = "numPr" then paragraphProperties else if label = "sectPr" then tags else skipped
  | runs => insideRuns label
  | run =>
    if label = "rPr" then tags
    else if label = "t" then text
    else if label = "instrText" then text
    else if isGraphic label then kept
    else skipped
  | text => skipped
  | table =>
    if label = "tblPr" then tableProperties
    else if label = "tblGrid" then tags
    else if label = "tr" then row
    else skipped
  | tableProperties =>
    if label = "tblBorders" || label = "tblCellMar" || label = "tblLook" then kept else skipped
  | row => if label = "trPr" then tags else if label = "tc" then cell else skipped
  | cell => if label = "tcPr" then cellProperties else if label = "p" then paragraph else skipped
  | cellProperties => if label = "tcBorders" || label = "shd" then kept else skipped
  | tags => skipped
  | skipped => skipped
  | kept => kept

/-- Whether an empty tag belongs to markup that is kept as it is written. -/
@[simp] def keeps (label : String) : Zone → Bool
  | tableProperties => label = "tblBorders" || label = "tblCellMar" || label = "tblLook"
  | cellProperties => label = "tcBorders" || label = "shd"
  | kept => true
  | _ => false

/-- Whether an empty tag counts for nothing, although an empty element counts. -/
@[simp] def ignores (label : String) : Zone → Bool
  | elements => label = "tbl" || label = "sdt"
  | paragraphProperties => label = "sectPr"
  | run => isGraphic label
  | table => label = "tr"
  | row => label = "tc"
  | _ => false

/-- Whether an element overrides what the last one with its label was read as. -/
@[simp] def overrides (label : String) : Zone → Bool
  | control => label = "sdtPr" || label = "sdtContent"
  | paragraph => label = "pPr"
  | run => label = "rPr"
  | table => label = "tblPr" || label = "tblGrid"
  | row => label = "trPr"
  | cell => label = "tcPr"
  | _ => false

end Zone

/-- A zone, and the labels of the elements before in the same content. -/
structure Site where
  zone : Zone := .root
  before : List String := []

namespace Site

def inside (s : Site) (tag : Tag) : Site := ⟨s.zone.inside tag.label, []⟩

def behind (s : Site) (tag : Tag) : Site := ⟨s.zone, tag.label :: s.before⟩

/-- Whether an empty tag counts here for what an empty element does. -/
structure Alike (s : Site) (tag : Tag) : Prop where
  outside : s.zone.keeps tag.label = false
  counts : s.zone.ignores tag.label = false
  first : s.zone.overrides tag.label → tag.label ∉ s.before

end Site

/-- A site, and the sites behind the elements around it, innermost first. -/
structure Position where
  here : Site := {}
  around : List Site := []

namespace Position

def enter (p : Position) : Event → Position
  | .opening tag => ⟨p.here.inside tag, p.here.behind tag :: p.around⟩
  | .closing _ =>
    match p.around with
    | [] => p
    | site :: around => ⟨site, around⟩
  | _ => p

/-- The position that events lead to. -/
def after (events : List Event) : Position := events.foldl enter {}

end Position

/-- A relation between contents at a site that what stands before them and around them keeps. -/
structure IsCongruence (R : Site → Content → Content → Prop) : Prop where
  refl : ∀ c s, R s c c
  element : ∀ {s tag inner inner' rest rest'}, R (s.inside tag) inner inner' →
    R (s.behind tag) rest rest' → R s (element tag inner rest) (element tag inner' rest')
  front : ∀ {event f s c c'}, front? event = some f → R s c c' → R s (f c) (f c')

section Agree

variable {R : Site → Content → Content → Prop}

/-- The contents behind the elements that are open at a position. What stands behind all of them is
not looked at. -/
inductive Around (R : Site → Content → Content → Prop) :
    List Site → List Content → List Content → Prop
  | outside {cs cs' : List Content} : Around R [] cs cs'
  | same {sites : List Site} {cs : List Content} : Around R sites cs cs
  | cons {s : Site} {sites : List Site} {c c' : Content} {cs cs' : List Content} :
      R s c c' → Around R sites cs cs' → Around R (s :: sites) (c :: cs) (c' :: cs')

structure Agree (R : Site → Content → Content → Prop) (p : Position) (n n' : Nested) : Prop where
  here : R p.here n.here n'.here
  around : Around R p.around n.around n'.around

/-- What stands behind an event is read on from the position that the event leads to. -/
theorem Agree.before (hR : IsCongruence R) {p : Position} {n n' : Nested} (fault : Option Fault)
    (event : Event) (h : Agree R (p.enter event) n n') :
    Agree R p (put fault event n) (put fault event n') := by
  obtain ⟨here, around⟩ := h
  cases event with
  | opening tag =>
    obtain ⟨rest, drop⟩ : R (p.here.behind tag) (n.around.headD (cut fault))
        (n'.around.headD (cut fault)) ∧ Around R p.around (n.around.drop 1) (n'.around.drop 1) := by
      generalize n.around = cs, n'.around = cs' at around
      cases around with
      | same => exact ⟨hR.refl _ _, .same⟩
      | cons rest more => exact ⟨rest, more⟩
    exact ⟨hR.element here rest, drop⟩
  | closing name =>
    refine ⟨hR.refl _ _, ?_⟩
    obtain ⟨site, _ | ⟨next, more⟩⟩ := p
    · exact .outside
    · exact .cons here around
  | empty tag => exact ⟨hR.front (rfl : front? (.empty tag) = _) here, around⟩
  | text content => exact ⟨hR.front (rfl : front? (.text content) = _) here, around⟩
  | cdata content => exact ⟨hR.front (rfl : front? (.cdata content) = _) here, around⟩
  | aside source => exact ⟨hR.front (rfl : front? (.aside source) = _) here, around⟩

theorem Agree.foldr_put (hR : IsCongruence R) {front : List Event} {p : Position}
    {fault : Option Fault} {n n' : Nested} (h : Agree R (front.foldl Position.enter p) n n') :
    Agree R p (front.foldr (put fault) n) (front.foldr (put fault) n') := by
  induction front generalizing p with
  | nil => exact h
  | cons event front ih => exact (ih h).before hR fault event

end Agree

/-! ### Pairs for empty tags -/

/-- Contents that differ in empty tags for which there are pairs where both count for the same. -/
inductive Paired : Site → Content → Content → Prop
  | done {s : Site} : Paired s done done
  | cut {s : Site} {fault : Option Fault} : Paired s (cut fault) (cut fault)
  | element {s : Site} {tag : Tag} {inner inner' rest rest' : Content} :
      Paired (s.inside tag) inner inner' → Paired (s.behind tag) rest rest' →
        Paired s (element tag inner rest) (element tag inner' rest')
  | empty {s : Site} {tag : Tag} {rest rest' : Content} :
      Paired s rest rest' → Paired s (empty tag rest) (empty tag rest')
  | text {s : Site} {content : List Text.Symbol} {rest rest' : Content} :
      Paired s rest rest' → Paired s (text content rest) (text content rest')
  | cdata {s : Site} {content : List Text.Symbol} {rest rest' : Content} :
      Paired s rest rest' → Paired s (cdata content rest) (cdata content rest')
  | aside {s : Site} {source : List Text.Symbol} {rest rest' : Content} :
      Paired s rest rest' → Paired s (aside source rest) (aside source rest')
  | pair {s : Site} {tag : Tag} {rest rest' : Content} :
      s.Alike tag → Paired s rest rest' → Paired s (empty tag rest) (element tag done rest')

namespace Paired

theorem refl (c : Content) (s : Site) : Paired s c c := by
  induction c generalizing s with
  | done => exact .done
  | cut fault => exact .cut
  | element tag inner rest ihInner ihRest => exact .element (ihInner _) (ihRest _)
  | empty tag rest ih => exact .empty (ih _)
  | text content rest ih => exact .text (ih _)
  | cdata content rest ih => exact .cdata (ih _)
  | aside source rest ih => exact .aside (ih _)

theorem isCongruence : IsCongruence Paired where
  refl := refl
  element := .element
  front hf h := by
    rename_i event f s c c'
    cases event with
    | opening tag | closing name => cases hf
    | empty tag => cases hf; exact .empty h
    | text content => cases hf; exact .text h
    | cdata content => cases hf; exact .cdata h
    | aside source => cases hf; exact .aside h

/-- A pair in the place of an empty tag. -/
theorem ofEvents {front behind : List Event} {tag : Tag} {fault : Option Fault}
    (h : (Position.after front).here.Alike tag) : Paired {}
      (Content.ofEvents ⟨front ++ .empty tag :: behind, fault⟩)
      (Content.ofEvents ⟨front ++ .opening tag :: .closing tag.name :: behind, fault⟩) := by
  have behindTag : Agree Paired (Position.after front)
      ((Event.empty tag :: behind).foldr (Content.put fault) ⟨.cut fault, []⟩)
      ((Event.opening tag :: .closing tag.name :: behind).foldr (Content.put fault)
        ⟨.cut fault, []⟩) :=
    ⟨.pair h (refl _ _), .same⟩
  rw [Content.ofEvents, Content.ofEvents, List.foldr_append, List.foldr_append]
  exact (behindTag.foldr_put isCongruence).here

end Paired

end Letterpress
