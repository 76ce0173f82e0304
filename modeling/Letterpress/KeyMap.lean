/-!
# Maps with sorted keys

A map is its entries in the order of their keys, so equal maps have equal entries. Keys are ordered
by code point, which is the order of their bytes.
-/

namespace Letterpress

namespace Keyed

variable {α : Type}

/-- The keys strictly increase. -/
def Sorted (entries : List (String × α)) : Prop := entries.Pairwise fun a b => a.1 < b.1

def find? (key : String) : List (String × α) → Option α
  | [] => none
  | (k, v) :: rest => if k = key then some v else find? key rest

def insert (key : String) (value : α) : List (String × α) → List (String × α)
  | [] => [(key, value)]
  | (k, v) :: rest =>
    if key < k then (key, value) :: (k, v) :: rest
    else if key = k then (key, value) :: rest
    else (k, v) :: insert key value rest

def erase (key : String) (entries : List (String × α)) : List (String × α) :=
  entries.filter (·.1 != key)

/-- Later entries win. -/
def ofList (entries : List (String × α)) : List (String × α) :=
  entries.foldl (fun m e => insert e.1 e.2 m) []

theorem mem_insert {key : String} {value : α} {e : String × α} :
    ∀ {entries : List (String × α)}, e ∈ insert key value entries →
      e = (key, value) ∨ e ∈ entries
  | [], h => by simpa [insert] using h
  | (k, v) :: rest, h => by
    unfold insert at h
    split at h
    · simpa using h
    · split at h
      · rcases List.mem_cons.mp h with h | h
        · exact Or.inl h
        · exact Or.inr (List.mem_cons_of_mem _ h)
      · rcases List.mem_cons.mp h with h | h
        · exact Or.inr (by simp [h])
        · exact (mem_insert h).imp_right (List.mem_cons_of_mem _)

theorem lt_of_not_lt {a b : String} (h : ¬ a < b) (hne : a ≠ b) : b < a :=
  Std.lt_of_le_of_ne (String.not_lt.mp h) (Ne.symm hne)

theorem Sorted.insert {key : String} {value : α} :
    ∀ {entries : List (String × α)}, Sorted entries → Sorted (insert key value entries)
  | [], _ => by simp [Keyed.insert, Sorted]
  | (k, v) :: rest, h => by
    have ⟨hk, hrest⟩ := List.pairwise_cons.mp h
    unfold Keyed.insert
    split
    · next hlt =>
      refine List.pairwise_cons.mpr ⟨fun e he => ?_, h⟩
      rcases List.mem_cons.mp he with rfl | he
      · exact hlt
      · exact Std.lt_trans hlt (hk e he)
    · next hlt =>
      split
      · next heq => subst heq; exact List.pairwise_cons.mpr ⟨hk, hrest⟩
      · next hne =>
        refine List.pairwise_cons.mpr ⟨fun e he => ?_, Sorted.insert hrest⟩
        rcases mem_insert he with rfl | he
        · exact lt_of_not_lt hlt hne
        · exact hk e he

theorem Sorted.erase {key : String} {entries : List (String × α)} (h : Sorted entries) :
    Sorted (erase key entries) :=
  List.Pairwise.filter _ h

theorem find?_insert_self {key : String} {value : α} :
    ∀ entries : List (String × α), find? key (insert key value entries) = some value
  | [] => by simp [insert, find?]
  | (k, v) :: rest => by
    unfold insert
    split
    · simp [find?]
    · split
      · simp [find?]
      · next hne => simp [find?, Ne.symm hne, find?_insert_self rest]

theorem find?_insert_of_ne {key other : String} {value : α} (h : other ≠ key) :
    ∀ entries : List (String × α), find? other (insert key value entries) = find? other entries
  | [] => by simp [insert, find?, Ne.symm h]
  | (k, v) :: rest => by
    unfold insert
    split
    · simp [find?, Ne.symm h]
    · split
      · next heq => subst heq; simp [find?, Ne.symm h]
      · simp only [find?]; split
        · rfl
        · exact find?_insert_of_ne h rest

end Keyed

/-- A map from texts. -/
structure KeyMap (α : Type) where
  entries : List (String × α)
  sorted : Keyed.Sorted entries

namespace KeyMap

variable {α : Type}

def empty : KeyMap α := ⟨[], List.Pairwise.nil⟩

instance : Inhabited (KeyMap α) := ⟨empty⟩

def find? (m : KeyMap α) (key : String) : Option α := Keyed.find? key m.entries

def contains (m : KeyMap α) (key : String) : Bool := (m.find? key).isSome

def insert (m : KeyMap α) (key : String) (value : α) : KeyMap α :=
  ⟨Keyed.insert key value m.entries, m.sorted.insert⟩

def erase (m : KeyMap α) (key : String) : KeyMap α := ⟨Keyed.erase key m.entries, m.sorted.erase⟩

/-- Adds the entries in order, so later ones win. -/
def insertAll (m : KeyMap α) (entries : List (String × α)) : KeyMap α :=
  entries.foldl (fun m e => m.insert e.1 e.2) m

def ofList (entries : List (String × α)) : KeyMap α := empty.insertAll entries

/-- The entries of both; those of `other` win. -/
def merge (m other : KeyMap α) : KeyMap α := m.insertAll other.entries

def keys (m : KeyMap α) : List String := m.entries.map (·.1)

def size (m : KeyMap α) : Nat := m.entries.length

def isEmpty (m : KeyMap α) : Bool := m.entries.isEmpty

@[simp] theorem find?_insert_self (m : KeyMap α) (key : String) (value : α) :
    (m.insert key value).find? key = some value :=
  Keyed.find?_insert_self _

theorem find?_insert_of_ne (m : KeyMap α) {key other : String} (value : α) (h : other ≠ key) :
    (m.insert key value).find? other = m.find? other :=
  Keyed.find?_insert_of_ne h _

theorem keys_sorted (m : KeyMap α) : m.keys.Pairwise (· < ·) :=
  List.pairwise_map.mpr m.sorted

end KeyMap

end Letterpress
