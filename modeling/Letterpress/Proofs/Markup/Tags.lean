import Letterpress.Markup.Content

/-!
# The tags of a content

Each tag of a text is in the content that is read from it or in what follows around it. So a walk
over a content meets no tag that a walk over the events passes by.
-/

namespace Letterpress.Markup

/-- The tag an event begins an element with. -/
def Event.tag? : Event → Option Tag
  | .opening tag => some tag
  | .empty tag => some tag
  | _ => none

def Events.tags (events : Events) : List Tag := events.list.filterMap Event.tag?

namespace Content

/-- The tags in a content, at any depth. -/
def tags : Content → List Tag
  | done => []
  | cut _ => []
  | element tag inner rest => tag :: (tags inner ++ tags rest)
  | empty tag rest => tag :: tags rest
  | text _ rest => tags rest
  | cdata _ rest => tags rest
  | aside _ rest => tags rest

def Nested.tags (n : Nested) : List Tag := n.here.tags ++ n.around.flatMap Content.tags

theorem tags_put (fault : Option Fault) (event : Event) (n : Nested) :
    (put fault event n).tags = event.tag?.toList ++ n.tags := by
  cases event with
  | closing name => rfl
  | opening tag =>
    obtain ⟨here, around⟩ := n
    cases around with
    | nil => simp [put, Nested.tags, tags, Event.tag?]
    | cons next more => simp [put, Nested.tags, tags, Event.tag?]
  | empty tag => rfl
  | text content => rfl
  | cdata content => rfl
  | aside source => rfl

theorem tags_foldr_put (fault : Option Fault) (list : List Event) :
    (list.foldr (put fault) ⟨cut fault, []⟩).tags = list.filterMap Event.tag? := by
  induction list with
  | nil => rfl
  | cons event rest ih =>
    rw [List.foldr_cons, tags_put, ih, List.filterMap_cons]
    cases event.tag? <;> rfl

/-- A tag of the content is a tag of the text. -/
theorem tags_read_subset (input : List Text.Symbol) : (read input).tags ⊆ (scan input).tags := by
  intro tag h
  rw [Events.tags, ← tags_foldr_put]
  exact List.mem_append_left _ h

end Content

end Letterpress.Markup
