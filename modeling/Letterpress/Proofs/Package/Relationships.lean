import Letterpress.Proofs.Package.Ids
import Letterpress.Proofs.Package.Lists

/-!
# Relationships by their ids

However relationships are read, put in and taken out, no two of them have one id. So an id names one
of them: what is put in takes its place, or else comes last, and nothing else moves. The list is
read back from what is written for it, and an id above all of its numbers is new.
-/

namespace Letterpress

open Text

/-- What is done to relationships. -/
inductive RelationshipCall where
  /-- Reads others in their place. -/
  | read (source : List Symbol)
  | insert (id type target : String)
  | put (r : Relationship)
  | erase (id : String)

namespace RelationshipCall

/-- The entry that is put in. -/
def added? : RelationshipCall → Option Relationship
  | read _ => none
  | insert id type target =>
    some ⟨id, type, target, type = RelationshipType.hyperlink && Relationships.isWebAddress target⟩
  | put r => some r
  | erase _ => none

end RelationshipCall

namespace Relationships

/-- The relationships behind a call. What cannot be read changes nothing. -/
def call (rs : Relationships) : RelationshipCall → Relationships
  | .read source =>
    match read source with
    | .ok rs => rs
    | .error _ => rs
  | .insert id type target => rs.insert id type target
  | .put r => rs.put r
  | .erase id => rs.erase id

/-- The relationships behind calls in a row. -/
def after (rs : Relationships) (calls : List RelationshipCall) : Relationships :=
  calls.foldl call rs

/-- What holds of relationships whose ids differ. -/
structure Lawful (rs : Relationships) : Prop where
  distinct : (rs.entries.map (·.id)).Nodup
  /-- What is put in takes the place of the entry with its id, -/
  replaced : ∀ c r before old behind, c.added? = some r → rs.entries = before ++ old :: behind →
    old.id = r.id → (rs.call c).entries = before ++ r :: behind
  /-- and comes last if there is none. -/
  added : ∀ c r, c.added? = some r → r.id ∉ rs.entries.map (·.id) →
    (rs.call c).entries = rs.entries ++ [r]
  /-- An entry is found by its id, and it alone is taken out by it. -/
  erased : ∀ before old behind, rs.entries = before ++ old :: behind →
    rs.find? old.id = some old ∧ (rs.erase old.id).entries = before ++ behind
  absent : ∀ id, id ∉ rs.entries.map (·.id) → rs.find? id = none ∧ rs.erase id = rs
  reread : read (Symbol.read rs.xml.toUTF8) = .ok rs
  /-- As long as the greatest number is free, there is an id above all numbers. -/
  fresh : (∀ r ∈ rs.entries, relationshipNumber? r.id ≠ some 4294967295) →
    ∀ p : Package, p.relationships = rs → p.freshRelationshipId ∉ rs.entries.map (·.id)

variable {rs : Relationships} {r old : Relationship} {before behind : List Relationship}

theorem call_of_added? {c : RelationshipCall} (h : c.added? = some r) : rs.call c = rs.put r := by
  cases c with
  | read source => cases h
  | insert id type target =>
    cases h
    rfl
  | put r' =>
    cases h
    rfl
  | erase id => cases h

/-- In distinct entries, the id of one is not among those before it. -/
theorem Sound.ne_of_mem (h : rs.Sound) (hentries : rs.entries = before ++ old :: behind)
    {s : Relationship} (hs : s ∈ before) : s.id ≠ old.id := by
  rw [Sound, hentries, List.map_append, List.nodup_append] at h
  exact h.2.2 _ (List.mem_map_of_mem hs) _ (List.mem_map_of_mem (List.mem_cons_self ..))

theorem replaceOrAdd_append_cons (h : ∀ s ∈ before, s.id ≠ r.id) (hold : old.id = r.id) :
    replaceOrAdd r (before ++ old :: behind) = before ++ r :: behind := by
  induction before with
  | nil => rw [List.nil_append, replaceOrAdd, if_pos hold, List.nil_append]
  | cons s rest ih =>
    obtain ⟨hs, hrest⟩ := List.forall_mem_cons.mp h
    rw [List.cons_append, replaceOrAdd, if_neg hs, ih hrest, List.cons_append]

theorem Sound.put_entries (h : rs.Sound) (hentries : rs.entries = before ++ old :: behind)
    (hold : old.id = r.id) : (rs.put r).entries = before ++ r :: behind := by
  rw [Relationships.put, hentries]
  exact replaceOrAdd_append_cons (fun s hs => hold ▸ h.ne_of_mem hentries hs) hold

theorem Sound.find?_entries (h : rs.Sound) (hentries : rs.entries = before ++ old :: behind) :
    rs.find? old.id = some old := by
  have hbefore : before.find? (·.id = old.id) = none :=
    List.find?_eq_none.mpr fun s hs => by simpa using h.ne_of_mem hentries hs
  rw [find?, hentries, List.find?_append, hbefore, Option.none_or,
    List.find?_cons_of_pos (by simp)]

theorem Sound.erase_entries (h : rs.Sound) (hentries : rs.entries = before ++ old :: behind) :
    (rs.erase old.id).entries = before ++ behind := by
  have hbefore : ∀ s ∈ before, ¬decide (s.id = old.id) = true :=
    fun s hs => by simpa using h.ne_of_mem hentries hs
  rw [Relationships.erase, hentries, List.eraseP_append_right _ hbefore, List.eraseP_cons_of_pos (by simp)]

theorem find?_of_not_mem {id : String} (h : id ∉ rs.entries.map (·.id)) :
    rs.find? id = none ∧ rs.erase id = rs := by
  have hnone : ∀ s ∈ rs.entries, ¬decide (s.id = id) = true := by
    intro s hs hid
    exact h (of_decide_eq_true hid ▸ List.mem_map_of_mem hs)
  refine ⟨List.find?_eq_none.mpr hnone, ?_⟩
  rw [erase, List.eraseP_of_forall_not hnone]

instance : Std.LawfulOrderMax UInt32 where
  max_eq_or a b := by
    show (if a ≤ b then b else a) = a ∨ (if a ≤ b then b else a) = b
    split
    · exact .inr rfl
    · exact .inl rfl
  max_le_iff a b c := by
    show (if a ≤ b then b else a) ≤ c ↔ a ≤ c ∧ b ≤ c
    split
    · next h => exact ⟨fun hb => ⟨UInt32.le_trans h hb, hb⟩, And.right⟩
    · next h =>
      have hba := UInt32.le_of_lt (UInt32.not_le.mp h)
      exact ⟨fun ha => ⟨ha, UInt32.le_trans hba ha⟩, And.left⟩

theorem greatestNumber?_ne (h : ∀ r ∈ rs.entries, relationshipNumber? r.id ≠ some 4294967295) :
    rs.greatestNumber?.getD 0 ≠ 4294967295 := by
  cases hgreatest : rs.greatestNumber? with
  | none => decide
  | some m =>
    rintro rfl
    obtain ⟨hm, -⟩ := List.max?_eq_some_iff.mp hgreatest
    obtain ⟨r, hr, hn⟩ := List.mem_filterMap.mp hm
    exact h r hr hn

/-- The next number is above those in use. -/
theorem lt_of_mem_entries (h : rs.greatestNumber?.getD 0 ≠ 4294967295) (hr : r ∈ rs.entries)
    {n : UInt32} (hn : relationshipNumber? r.id = some n) : n < rs.greatestNumber?.getD 0 + 1 := by
  have hmem : n ∈ rs.entries.filterMap fun r => relationshipNumber? r.id :=
    List.mem_filterMap.mpr ⟨r, hr, hn⟩
  cases hgreatest : rs.greatestNumber? with
  | none =>
    rw [List.max?_eq_none_iff.mp hgreatest] at hmem
    exact absurd hmem List.not_mem_nil
  | some m =>
    rw [hgreatest] at h
    obtain ⟨-, hle⟩ := List.max?_eq_some_iff.mp hgreatest
    exact UInt32.lt_of_le_of_lt (hle n hmem) (UInt32.lt_add_one h)

theorem freshRelationshipId_not_mem {p : Package}
    (h : ∀ r ∈ p.relationships.entries, relationshipNumber? r.id ≠ some 4294967295) :
    p.freshRelationshipId ∉ p.relationships.entries.map (·.id) := by
  have hgreatest := greatestNumber?_ne h
  rw [Package.freshRelationshipId]
  intro hmem
  obtain ⟨r, hr, hid⟩ := List.mem_map.mp hmem
  have hn := relationshipNumber?_relationshipId (p.relationships.greatestNumber?.getD 0 + 1)
  exact UInt32.lt_irrefl _ (lt_of_mem_entries hgreatest hr (hid ▸ hn))

/-! ### Calls -/

theorem Sound.call (h : rs.Sound) (c : RelationshipCall) : (rs.call c).Sound := by
  cases c with
  | read source =>
    rw [Relationships.call]
    split
    · next hread => exact sound_read hread
    · exact h
  | insert id type target => exact h.put _
  | put r => exact h.put r
  | erase id => exact h.erase id

theorem Sound.after (h : rs.Sound) (calls : List RelationshipCall) : (rs.after calls).Sound := by
  induction calls generalizing rs with
  | nil => exact h
  | cons c rest ih => exact ih (h.call c)

theorem Sound.lawful (h : rs.Sound) : rs.Lawful where
  distinct := h
  replaced := by
    intro c r before old behind hc hentries hold
    rw [call_of_added? hc]
    exact h.put_entries hentries hold
  added := by
    intro c r hc hr
    rw [call_of_added? hc]
    exact congrArg entries (put_of_not_mem hr)
  erased := fun _ _ _ hentries => ⟨h.find?_entries hentries, h.erase_entries hentries⟩
  absent := fun _ => find?_of_not_mem
  reread := read_xml h
  fresh := by
    rintro hmax p rfl
    exact freshRelationshipId_not_mem hmax

/-- Behind any calls in a row, no two relationships have one id. -/
theorem lawful_after (calls : List RelationshipCall) : (after {} calls).Lawful := by
  have empty : Sound {} := List.nodup_nil
  exact (empty.after calls).lawful

end Relationships

end Letterpress
