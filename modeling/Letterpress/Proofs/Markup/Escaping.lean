import Letterpress.Proofs.Markup.Attributes

/-!
# Escaping

`Escapes`: to write characters as references one after the other is to write all of them at once,
what is written holds nothing that means markup but the ampersands of its references, and it is read
back. So no two texts are written alike, not even a text that holds references itself.
-/

namespace Letterpress.Markup

open Text

section Replacing

open String.Slice.Pattern String.Slice.Pattern.Model

theorem replaceEach_append (c : Char) (reference : String) (cs ds : List Char) :
    replaceEach c reference (cs ++ ds) =
      replaceEach c reference cs ++ replaceEach c reference ds :=
  List.flatMap_append

theorem replaceEach_eq_self {c : Char} {cs : List Char} (h : c ∉ cs) (reference : String) :
    replaceEach c reference cs = cs := by
  have hkept : cs.flatMap (substitute [(c, reference)]) = cs :=
    flatMap_substitute_eq_self (by simpa using h)
  exact hkept

/-- A stretch in which a character is found nowhere does not hold it. -/
theorem not_mem_slice {s : String.Slice} {c : Char} {start stop : s.Pos} (h : start ≤ stop)
    (hfree : ∀ p, start ≤ p → p < stop → ¬ MatchesAt c p) :
    c ∉ (s.slice start stop h).copy.toList := by
  intro hc
  obtain ⟨p, hp, hget⟩ := String.Slice.mem_toList_copy_iff_exists_get.mp hc
  refine hfree (.ofSlice p) String.Slice.Pos.le_ofSlice ?_ (Char.matchesAt_iff.mpr ⟨?_, ?_⟩)
  · simp [String.Slice.Pos.ofSlice_lt_iff, h, hp]
  · exact String.Slice.Pos.ofSlice_ne_endPos hp
  · rw [← hget, String.Slice.Pos.get_eq_get_ofSlice]

/-- A walk over what a search finds that writes the reference for each match and keeps what is
between the matches. -/
theorem toList_foldl_found {c : Char} (reference : String) {s : String.Slice}
    {f : String → SearchStep s → String}
    (hmatched : ∀ sofar p q, f sofar (.matched p q) = sofar ++ reference)
    (hrejected : ∀ sofar p q, f sofar (.rejected p q) = sofar ++ (s.slice! p q).copy)
    {start : s.Pos} {found : List (SearchStep s)} (h : IsValidSearchFrom c start found)
    {before after : String} (hstart : start.Splits before after) (sofar : String) :
    (found.foldl f sofar).toList = sofar.toList ++ replaceEach c reference after.toList := by
  induction h generalizing before after sofar with
  | endPos => simp [(String.Slice.splits_endPos_iff.mp hstart).2, replaceEach]
  | matched hmatch _ ih =>
    obtain ⟨hne, rfl, hget⟩ := Char.isLongestMatchAt_iff.mp hmatch
    obtain ⟨rest, rfl⟩ := hstart.exists_eq_singleton_append hne
    rw [List.foldl_cons, hmatched, ih hstart.next]
    simp [hget, replaceEach]
  | @mismatched _ start stop hlt hfree _ ih =>
    have hle := Std.le_of_lt hlt
    obtain ⟨_, rest, hfrom, hto⟩ := String.Slice.copy_slice_eq_iff_splits.mp ⟨hle, rfl⟩
    rw [List.foldl_cons, hrejected, ih hto, hstart.eq_right hfrom, ← String.Slice.slice_eq_slice!,
      String.toList_append, String.toList_append, replaceEach_append,
      replaceEach_eq_self (not_mem_slice hle hfree), List.append_assoc]

theorem toList_replace (c : Char) (reference s : String) :
    (s.replace c reference).toList = replaceEach c reference s.toList := by
  have hfound : IsValidSearchFrom c s.toSlice.startPos
      (ToForwardSearcher.toSearcher c s.toSlice).toList :=
    LawfulToForwardSearcherModel.isValidSearchFrom_toList s.toSlice
  rw [String.replace, String.Slice.replace, ← Std.Iter.foldl_toList,
    toList_foldl_found reference ?_ ?_ hfound s.toSlice.splits_startPos]
  · simp
  · intro sofar p q
    simp [String.ToSlice.toSlice]
  · intro sofar p q
    simp

end Replacing

variable {references : List (Char × String)}

theorem escape_eq_foldl_replace (references : List (Char × String)) (s : String) :
    escape references s = references.foldl (fun s entry => s.replace entry.1 entry.2) s := by
  induction references generalizing s with
  | nil => exact String.ofList_toList
  | cons entry references ih =>
    rw [List.foldl_cons, ← ih, escape, escape, toList_replace]
    rfl

namespace Legible

theorem ampersand_not_mem_tail (h : Legible references) {entry : Char × String}
    (hentry : entry ∈ references) {d : Char} {rest : List Char} (hd : entry.2.toList = d :: rest) :
    '&' ∉ rest := by
  obtain ⟨name, hname, -, hlower⟩ := h.entity entry hentry
  rw [hname] at hd
  rw [← (List.cons.inj hd).2, List.mem_append, List.mem_singleton]
  rintro (hmem | hend)
  · exact absurd (List.all_eq_true.mp hlower _ hmem) (by decide)
  · exact absurd hend (by decide)

/-- An ampersand that comes in for a character comes first. -/
theorem exists_entry_eq (h : Legible references) {c : Char} {before rest : List Char}
    (hc : substitute references c = before ++ '&' :: rest) :
    ∃ entry ∈ references, entry.2.toList = '&' :: rest := by
  by_cases hmem : c ∈ references.map Prod.fst
  · obtain ⟨reference, hentry, heq⟩ := exists_substitute_eq hmem
    rw [heq] at hc
    cases before with
    | nil => exact ⟨_, hentry, hc⟩
    | cons d before => exact absurd (by simp) (h.ampersand_not_mem_tail hentry hc)
  · rw [substitute_of_not_mem hmem, List.singleton_eq_append_iff] at hc
    obtain ⟨-, hamp⟩ | ⟨-, hnone⟩ := hc
    · exact absurd ((List.cons.inj hamp).1 ▸ h.ampersand) hmem
    · cases hnone

theorem exists_reference (h : Legible references) {cs before after : List Char}
    (hcs : cs.flatMap (substitute references) = before ++ '&' :: after) :
    ∃ entry ∈ references, entry.2.toList <+: '&' :: after := by
  induction cs generalizing before with
  | nil => exact absurd hcs.symm (by simp)
  | cons c cs ih =>
    rw [List.flatMap_cons] at hcs
    -- The ampersand is behind what the first character becomes, or in it.
    obtain ⟨rest, -, hrest⟩ | ⟨rest, hc, hafter⟩ := List.append_eq_append_iff.mp hcs
    · exact ih hrest
    · cases rest with
      | nil =>
        have hrest : cs.flatMap (substitute references) = [] ++ '&' :: after := hafter.symm
        exact ih hrest
      | cons d rest =>
        obtain ⟨rfl, rfl⟩ := List.cons.inj hafter
        obtain ⟨entry, hentry, heq⟩ := h.exists_entry_eq hc
        exact ⟨entry, hentry, heq ▸ List.prefix_append ('&' :: rest) _⟩

theorem escape_injective (h : Legible references) : Function.Injective (escape references) := by
  intro s t hst
  have hresolve := congrArg resolve hst
  rw [h.resolve_escape, h.resolve_escape] at hresolve
  exact Except.ok.inj hresolve

end Legible

/-- What writing characters as references promises. -/
structure Escapes (references : List (Char × String)) (write : String → String) : Prop where
  /-- The characters are replaced one after the other. -/
  inTurn : ∀ s, write s = references.foldl (fun s entry => s.replace entry.1 entry.2) s
  /-- It is as if all were replaced at once. -/
  atOnce : ∀ s, (write s).toList = s.toList.flatMap (substitute references)
  clean : ∀ c ∈ references.map Prod.fst, c ≠ '&' → ∀ s, c ∉ (write s).toList
  /-- Each ampersand begins a reference. -/
  begins : ∀ s before after, (write s).toList = before ++ '&' :: after →
    ∃ entry ∈ references, entry.2.toList <+: '&' :: after
  resolves : ∀ s, resolve (write s) = .ok s
  injective : Function.Injective write

theorem Legible.escapes (h : Legible references) : Escapes references (escape references) where
  inTurn := escape_eq_foldl_replace references
  atOnce := h.toList_escape
  clean := fun _ hc hne => h.not_mem_escape hc hne
  begins := fun s _ _ hs => h.exists_reference ((h.toList_escape s).symm.trans hs)
  resolves := h.resolve_escape
  injective := h.escape_injective

/-- Texts and the values of attributes are escaped, and read back where they stand. -/
theorem escapes_text_value :
    Escapes textReferences escapeText ∧ Escapes valueReferences escapeValue ∧
      (∀ s, readText (Symbol.ofString (escapeText s)) = .ok s) ∧
      ∀ name s, (Attribute.ofTexts (name, s)).value? = some s := by
  refine ⟨legible_textReferences.escapes, legible_valueReferences.escapes, readText_escapeText, ?_⟩
  intro name s
  exact Attribute.value?_ofTexts (name, s)

end Letterpress.Markup
