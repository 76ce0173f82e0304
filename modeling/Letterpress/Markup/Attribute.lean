import Letterpress.Markup.Event
import Letterpress.Markup.Reference

/-!
# Attributes

A tag's attributes are the sound ones among what stands behind its name: a name, `=` and a quoted
value. What is unsound is passed over. The first attribute with a local name decides.
-/

namespace Letterpress.Markup

open Text

structure Attribute where
  name : List Symbol
  value : List Symbol
  deriving DecidableEq, Repr

/-- The value as a text, if it is one and its references are sound. -/
def Attribute.value? (a : Attribute) : Option String :=
  (text? a.value).bind fun s => (resolve s).toOption

namespace Attribute

/-- What is found where an attribute may stand: a sound one, a name that counts although it has no
quoted value, or nothing that counts. -/
inductive Found where
  | sound (a : Attribute)
  | name (name : List Symbol)
  | nothing
  deriving DecidableEq, Repr

def isNameEnd (s : Symbol) : Bool := s == .char '=' || s.isBlank

/-- Reads where an attribute may stand; `taken` are the names before it. Reading goes on at the text
behind a name without `=`, at the blank behind a value without quotes, and at the closing quote of a
repeated attribute. -/
def find? (taken : List (List Symbol)) (input : List Symbol) : Option (Found × List Symbol) :=
  match input with
  | [] => none
  | first :: rest =>
    let name := first :: rest.takeWhile (!isNameEnd ·)
    match (rest.dropWhile (!isNameEnd ·)).dropWhile Symbol.isBlank with
    | [] => none
    | sign :: behind =>
      if sign ≠ .char '=' then some (.nothing, sign :: behind)
      else
        match behind.dropWhile Symbol.isBlank with
        | [] => none
        | quote :: behind =>
          if quote = .char '"' ∨ quote = .char '\'' then
            match behind.dropWhile (· != quote) with
            | [] => none
            | closing :: after =>
              if taken.contains name then some (.nothing, closing :: after)
              else some (.sound ⟨name, behind.takeWhile (· != quote)⟩, after)
          else
            some (if taken.contains name then .nothing else .name name,
              behind.dropWhile (!·.isBlank))

theorem length_of_dropWhile {α : Type} {p : α → Bool} {l : List α} {a : α} {rest : List α}
    (h : l.dropWhile p = a :: rest) : rest.length < l.length := by
  have := (List.dropWhile_suffix (l := l) p).length_le
  simp [h] at this; omega

theorem find?_length {taken input found rest} (h : find? taken input = some (found, rest)) :
    rest.length < input.length := by
  unfold find? at h
  split at h
  · simp at h
  · next first tail =>
    have hname := (List.dropWhile_suffix (l := tail) (!isNameEnd ·)).length_le
    dsimp only at h
    split at h
    · simp at h
    · next sign behind hs =>
      have hs := length_of_dropWhile hs
      split at h
      · cases h; simp; omega
      · split at h
        · simp at h
        · next quote value hq =>
          have hq := length_of_dropWhile hq
          split at h
          · split at h
            · simp at h
            · next closing after hc =>
              have hc := length_of_dropWhile hc
              split at h <;> (cases h; simp; omega)
          · cases h
            have := (List.dropWhile_suffix (l := value) (!·.isBlank)).length_le
            simp; omega

/-- The sound attributes of a text; `taken` are the names before it. -/
def readFrom (taken : List (List Symbol)) (input : List Symbol) : List Attribute :=
  match _h : find? taken (input.dropWhile Symbol.isBlank) with
  | none => []
  | some (found, rest) =>
    match found with
    | .sound a => a :: readFrom (a.name :: taken) rest
    | .name name => readFrom (name :: taken) rest
    | .nothing => readFrom taken rest
termination_by input.length
decreasing_by
  all_goals
    have h := find?_length _h
    have := (List.dropWhile_suffix (l := input) Symbol.isBlank).length_le
    omega

end Attribute

namespace Tag

def attributes (t : Tag) : List Attribute :=
  Attribute.readFrom [] (t.content.dropWhile (!·.isBlank))

/-- The value of the first attribute with this local name. -/
def value? (t : Tag) (name : String) : Option String :=
  (t.attributes.find? fun a => localPart a.name = Symbol.ofString name).bind Attribute.value?

/-- The attributes whose names and values are texts. -/
def texts (t : Tag) : List (String × String) :=
  t.attributes.filterMap fun a => do pure (← text? a.name, ← a.value?)

def uint32? (t : Tag) (name : String) : Option UInt32 := (t.value? name).bind Number.uint32?

def int32? (t : Tag) (name : String) : Option Int32 := (t.value? name).bind Number.int32?

def int64? (t : Tag) (name : String) : Option Int64 := (t.value? name).bind Number.int64?

/-- A switch is on unless its value says otherwise. -/
def isOn (t : Tag) : Bool :=
  match t.value? "val" with
  | some v => v != "0" && v != "false" && v != "off"
  | none => true

end Tag

end Letterpress.Markup
