import Mathlib.Data.List.Perm.Basic
import Letterpress.KeyMap

/-!
# The entries of a map

What a map holds decides what it is. So a map is told by what is in it after every change.
-/

namespace Letterpress

variable {α : Type}

namespace Keyed

theorem Sorted.nodup {entries : List (String × α)} (h : Sorted entries) : entries.Nodup := by
  refine List.Pairwise.imp ?_ h
  rintro a _ hlt rfl
  exact String.lt_irrefl _ hlt

/-- In a map no key is twice. -/
theorem Sorted.eq_of_mem {entries : List (String × α)} (h : Sorted entries) {k : String} {v w : α}
    (hv : (k, v) ∈ entries) (hw : (k, w) ∈ entries) : v = w := by
  induction h with
  | nil => cases hv
  | cons hfirst _ ih =>
    rcases List.mem_cons.mp hv with rfl | hrest
    · rcases List.mem_cons.mp hw with hw | hrest
      · cases hw
        rfl
      · exact (String.lt_irrefl k (hfirst (k, w) hrest)).elim
    · rcases List.mem_cons.mp hw with rfl | hrest'
      · exact (String.lt_irrefl k (hfirst (k, v) hrest)).elim
      · exact ih hrest hrest'

theorem mem_of_find? {k : String} {v : α} {entries : List (String × α)}
    (h : find? k entries = some v) : (k, v) ∈ entries := by
  induction entries with
  | nil => cases h
  | cons e rest ih =>
    unfold find? at h
    split at h
    · next hk =>
      cases h
      exact hk ▸ List.mem_cons_self ..
    · exact List.mem_cons_of_mem _ (ih h)

theorem exists_find?_of_mem {k : String} {v : α} {entries : List (String × α)}
    (h : (k, v) ∈ entries) : ∃ w, find? k entries = some w := by
  induction entries with
  | nil => cases h
  | cons e rest ih =>
    unfold find?
    split
    · exact ⟨_, rfl⟩
    · next hk =>
      rcases List.mem_cons.mp h with rfl | h
      · exact absurd rfl hk
      · exact ih h

theorem mem_insert_of_mem {key : String} {value : α} {e : String × α} {entries : List (String × α)}
    (h : e ∈ entries) (hne : e.1 ≠ key) : e ∈ insert key value entries := by
  induction entries with
  | nil => cases h
  | cons first rest ih =>
    unfold insert
    split
    · exact List.mem_cons_of_mem _ h
    split
    · next hkey =>
      rcases List.mem_cons.mp h with rfl | h
      · exact absurd hkey.symm hne
      · exact List.mem_cons_of_mem _ h
    · rcases List.mem_cons.mp h with rfl | h
      · exact List.mem_cons_self ..
      · exact List.mem_cons_of_mem _ (ih h)

end Keyed

namespace KeyMap

theorem find?_eq_some_iff {m : KeyMap α} {k : String} {v : α} :
    m.find? k = some v ↔ (k, v) ∈ m.entries := by
  refine ⟨Keyed.mem_of_find?, fun h => ?_⟩
  obtain ⟨w, hw⟩ := Keyed.exists_find?_of_mem h
  rw [find?, hw, m.sorted.eq_of_mem (Keyed.mem_of_find? hw) h]

/-- Maps with the same entries are the same. -/
theorem ext_entries {m m' : KeyMap α} (h : ∀ e, e ∈ m.entries ↔ e ∈ m'.entries) : m = m' := by
  have hperm : m.entries.Perm m'.entries :=
    (List.perm_ext_iff_of_nodup m.sorted.nodup m'.sorted.nodup).mpr h
  have hentries : m.entries = m'.entries :=
    hperm.eq_of_pairwise (fun _ _ _ _ hab hba => absurd (String.lt_trans hab hba)
      (String.lt_irrefl _)) m.sorted m'.sorted
  cases m
  cases m'
  cases hentries
  rfl

theorem mem_insert {m : KeyMap α} {k : String} {v : α} {e : String × α} :
    e ∈ (m.insert k v).entries ↔ e = (k, v) ∨ e ∈ m.entries ∧ e.1 ≠ k := by
  have hself : (k, v) ∈ (m.insert k v).entries :=
    find?_eq_some_iff.mp (find?_insert_self m k v)
  refine ⟨fun h => ?_, ?_⟩
  · rcases Keyed.mem_insert h with he | he
    · exact .inl he
    · by_cases hk : e.1 = k
      · obtain ⟨key, value⟩ := e
        cases hk
        exact .inl (by rw [(m.insert _ v).sorted.eq_of_mem h hself])
      · exact .inr ⟨he, hk⟩
  · rintro (rfl | ⟨h, hne⟩)
    · exact hself
    · exact Keyed.mem_insert_of_mem h hne

theorem mem_erase {m : KeyMap α} {k : String} {e : String × α} :
    e ∈ (m.erase k).entries ↔ e ∈ m.entries ∧ e.1 ≠ k := by
  show e ∈ m.entries.filter _ ↔ _
  rw [List.mem_filter, bne_iff_ne]

/-- Entries with different keys are put over those of a map. -/
theorem mem_insertAll {entries : List (String × α)} (hnodup : (entries.map Prod.fst).Nodup)
    {m : KeyMap α} {e : String × α} :
    e ∈ (m.insertAll entries).entries ↔
      e ∈ entries ∨ e ∈ m.entries ∧ e.1 ∉ entries.map Prod.fst := by
  induction entries generalizing m with
  | nil => simp [insertAll]
  | cons first rest ih =>
    rw [List.map_cons, List.nodup_cons] at hnodup
    have hstep : m.insertAll (first :: rest) = (m.insert first.1 first.2).insertAll rest := rfl
    rw [hstep, ih hnodup.2, mem_insert]
    have hfirst : e = first → e.1 ∉ rest.map Prod.fst := fun he => he ▸ hnodup.1
    rw [List.mem_cons, List.map_cons, List.mem_cons]
    tauto

theorem mem_ofList {entries : List (String × α)} (hnodup : (entries.map Prod.fst).Nodup)
    {e : String × α} : e ∈ (ofList entries).entries ↔ e ∈ entries := by
  rw [ofList, mem_insertAll hnodup]
  simp [empty]

theorem nodup_keys (m : KeyMap α) : m.keys.Nodup := by
  refine List.Pairwise.imp ?_ m.keys_sorted
  rintro a _ hlt rfl
  exact String.lt_irrefl _ hlt

theorem mem_merge {m other : KeyMap α} {e : String × α} :
    e ∈ (m.merge other).entries ↔ e ∈ other.entries ∨ e ∈ m.entries ∧ e.1 ∉ other.keys :=
  mem_insertAll other.nodup_keys

theorem mem_keys_insert {m : KeyMap α} {k name : String} {v : α} :
    name ∈ (m.insert k v).keys ↔ name = k ∨ name ∈ m.keys := by
  simp only [keys, List.mem_map, mem_insert]
  constructor
  · rintro ⟨e, rfl | ⟨he, -⟩, rfl⟩
    · exact .inl rfl
    · exact .inr ⟨e, he, rfl⟩
  · intro h
    by_cases hk : name = k
    · exact ⟨(k, v), .inl rfl, hk.symm⟩
    · obtain ⟨e, he, rfl⟩ := h.resolve_left hk
      exact ⟨e, .inr ⟨he, hk⟩, rfl⟩

theorem mem_keys_insertAll {entries : List (String × α)} {m : KeyMap α} {name : String} :
    name ∈ (m.insertAll entries).keys ↔ name ∈ m.keys ∨ name ∈ entries.map (·.1) := by
  induction entries generalizing m with
  | nil => simp [insertAll]
  | cons e rest ih =>
    have hstep : m.insertAll (e :: rest) = (m.insert e.1 e.2).insertAll rest := rfl
    rw [hstep, ih, mem_keys_insert, List.map_cons, List.mem_cons]
    tauto

theorem find?_erase_of_ne {m : KeyMap α} {k other : String} (h : other ≠ k) :
    (m.erase k).find? other = m.find? other := by
  refine Option.ext fun v => ?_
  rw [find?_eq_some_iff, find?_eq_some_iff, mem_erase, and_iff_left h]

/-- Of entries that are put in, the last one is found. -/
theorem find?_insertAll {entries : List (String × α)} {m : KeyMap α} {k : String} :
    (m.insertAll entries).find? k = (entries.reverse.lookup k).or (m.find? k) := by
  induction entries generalizing m with
  | nil => rfl
  | cons e rest ih =>
    have hstep : m.insertAll (e :: rest) = (m.insert e.1 e.2).insertAll rest := rfl
    rw [hstep, ih, List.reverse_cons, List.lookup_append, Option.or_assoc, List.lookup_cons]
    by_cases hk : k = e.1
    · rw [hk, find?_insert_self, beq_self_eq_true, Option.some_or]
    · rw [find?_insert_of_ne m e.2 hk, beq_eq_false_iff_ne.mpr hk, List.lookup_nil, Option.none_or]

theorem find?_ofList {entries : List (String × α)} {k : String} :
    (ofList entries).find? k = entries.reverse.lookup k := by
  have hempty : (empty : KeyMap α).find? k = none := rfl
  rw [ofList, find?_insertAll, hempty, Option.or_none]

theorem ofList_entries (m : KeyMap α) : ofList m.entries = m :=
  ext_entries fun _ => mem_ofList m.nodup_keys

theorem find?_merge {m other : KeyMap α} {k : String} :
    (m.merge other).find? k = (other.find? k).or (m.find? k) := by
  rw [merge, find?_insertAll, ← find?_ofList, ofList_entries]

/-- Of a map that only some keys are kept of, these are found as before. -/
theorem find?_ofList_filter {m : KeyMap α} (keep : String → Bool) {k : String} (h : keep k) :
    (ofList (m.entries.filter fun e => keep e.1)).find? k = m.find? k := by
  have hnodup : ((m.entries.filter fun e => keep e.1).map Prod.fst).Nodup :=
    m.nodup_keys.sublist (List.filter_sublist.map _)
  refine Option.ext fun v => ?_
  rw [find?_eq_some_iff, find?_eq_some_iff, mem_ofList hnodup, List.mem_filter, and_iff_left h]

end KeyMap

end Letterpress
