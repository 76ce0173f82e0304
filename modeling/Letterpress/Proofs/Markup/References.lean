import Letterpress.Markup.Escape
import Letterpress.Markup.Reference

/-!
# Escaped text is read back

To replace one character after the other is to replace all of them at once, as long as no reference
brings in a character that is replaced after it. What is escaped holds none of the characters that
mean markup but the ampersands of its references, and resolving these gives the text again.
-/

namespace Letterpress.Markup

open Text

variable {references : List (Char × String)}

/-- What a character becomes where all are replaced at once. -/
def substitute : List (Char × String) → Char → List Char
  | [], c => [c]
  | (d, reference) :: references, c =>
    if c = d then reference.toList else substitute references c

theorem substitute_of_not_mem {c : Char} (h : c ∉ references.map Prod.fst) :
    substitute references c = [c] := by
  induction references with
  | nil => rfl
  | cons entry references ih =>
    rw [List.map_cons, List.mem_cons, not_or] at h
    rw [substitute, if_neg h.1, ih h.2]

theorem exists_substitute_eq {c : Char} (h : c ∈ references.map Prod.fst) :
    ∃ reference, (c, reference) ∈ references ∧ substitute references c = reference.toList := by
  induction references with
  | nil => cases h
  | cons entry references ih =>
    obtain ⟨d, reference⟩ := entry
    rw [substitute]
    split
    · next hc => exact ⟨reference, by simp [hc], rfl⟩
    · next hc =>
      obtain ⟨reference', hmem, heq⟩ := ih ((List.mem_cons.mp h).resolve_left hc)
      exact ⟨reference', List.mem_cons_of_mem _ hmem, heq⟩

theorem flatMap_substitute_eq_self {cs : List Char} (h : ∀ entry ∈ references, entry.1 ∉ cs) :
    cs.flatMap (substitute references) = cs := by
  induction cs with
  | nil => rfl
  | cons c cs ih =>
    have hc : c ∉ references.map Prod.fst := by
      intro hmem
      obtain ⟨entry, hentry, rfl⟩ := List.mem_map.mp hmem
      exact h entry hentry (List.mem_cons_self ..)
    rw [List.flatMap_cons, substitute_of_not_mem hc,
      ih fun entry hentry hmem => h entry hentry (List.mem_cons_of_mem _ hmem)]
    rfl

theorem replaceInTurn_eq_flatMap
    (h : references.Pairwise fun earlier later => later.1 ∉ earlier.2.toList) (cs : List Char) :
    replaceInTurn references cs = cs.flatMap (substitute references) := by
  induction references generalizing cs with
  | nil => exact (List.flatMap_singleton' cs).symm
  | cons entry references ih =>
    obtain ⟨hentry, horder⟩ := List.pairwise_cons.mp h
    calc replaceInTurn (entry :: references) cs
        = (replaceEach entry.1 entry.2 cs).flatMap (substitute references) := ih horder _
      _ = cs.flatMap fun c =>
            (if c = entry.1 then entry.2.toList else [c]).flatMap (substitute references) :=
          List.flatMap_assoc
      _ = cs.flatMap (substitute (entry :: references)) := by
          congr 1
          funext c
          rw [substitute]
          split
          · exact flatMap_substitute_eq_self hentry
          · exact List.flatMap_singleton ..

/-- Replaced last, the ampersand of a reference is escaped again. -/
example : replaceInTurn [('<', "&lt;"), ('&', "&amp;")] ['<'] = "&amp;lt;".toList := by decide

/-! ### References -/

/-- The ways to write a character: as it is, or as a reference. -/
inductive Spells : List Char → Char → Prop
  | plain {c : Char} : c ≠ '&' → Spells [c] c
  | reference (name : List Char) {c : Char} : entity? name = some c → name.all Char.isLower →
      Spells ('&' :: (name ++ [';'])) c

/-- References from which the text can be read again. -/
structure Legible (references : List (Char × String)) : Prop where
  /-- No reference brings in a character that is replaced after it. -/
  inOrder : references.Pairwise fun earlier later => later.1 ∉ earlier.2.toList
  ampersand : '&' ∈ references.map Prod.fst
  /-- Nothing that a name or its end consists of is replaced. -/
  marks : ∀ entry ∈ references, entry.1 ≠ ';' ∧ entry.1.isLower = false
  entity : ∀ entry ∈ references, ∃ name : List Char, entry.2.toList = '&' :: (name ++ [';']) ∧
    entity? name = some entry.1 ∧ name.all Char.isLower

theorem legible_valueReferences : Legible valueReferences where
  inOrder := by decide
  ampersand := by decide
  marks := by decide
  entity := by
    simp only [valueReferences, textReferences, List.cons_append, List.nil_append,
      List.forall_mem_cons]
    exact ⟨⟨['a', 'm', 'p'], by decide⟩, ⟨['l', 't'], by decide⟩, ⟨['g', 't'], by decide⟩,
      ⟨['q', 'u', 'o', 't'], by decide⟩, ⟨['a', 'p', 'o', 's'], by decide⟩, nofun⟩

theorem legible_textReferences : Legible textReferences where
  inOrder := by decide
  ampersand := by decide
  marks := by decide
  entity := fun entry h => legible_valueReferences.entity entry (List.mem_append_left _ h)

namespace Legible

theorem not_mem_reference (h : Legible references) {c : Char} (hc : c ∈ references.map Prod.fst)
    (hne : c ≠ '&') {entry : Char × String} (hentry : entry ∈ references) :
    c ∉ entry.2.toList := by
  obtain ⟨mark, hmark, rfl⟩ := List.mem_map.mp hc
  obtain ⟨hend, hletter⟩ := h.marks mark hmark
  obtain ⟨name, hname, -, hlower⟩ := h.entity entry hentry
  rw [hname, List.mem_cons, List.mem_append, List.mem_singleton]
  rintro (hamp | hmem | hsemicolon)
  · exact hne hamp
  · exact absurd (List.all_eq_true.mp hlower _ hmem) (by simp [hletter])
  · exact hend hsemicolon

theorem toList_escape (h : Legible references) (s : String) :
    (escape references s).toList = s.toList.flatMap (substitute references) := by
  rw [escape, String.toList_ofList, replaceInTurn_eq_flatMap h.inOrder]

theorem not_mem_escape (h : Legible references) {c : Char} (hc : c ∈ references.map Prod.fst)
    (hne : c ≠ '&') (s : String) : c ∉ (escape references s).toList := by
  rw [h.toList_escape, List.mem_flatMap]
  rintro ⟨d, -, hmem⟩
  by_cases hd : d ∈ references.map Prod.fst
  · obtain ⟨reference, hentry, heq⟩ := exists_substitute_eq hd
    rw [heq] at hmem
    exact h.not_mem_reference hc hne hentry hmem
  · rw [substitute_of_not_mem hd, List.mem_singleton] at hmem
    exact hd (hmem ▸ hc)

theorem spells_substitute (h : Legible references) (c : Char) :
    Spells (substitute references c) c := by
  by_cases hc : c ∈ references.map Prod.fst
  · obtain ⟨reference, hentry, heq⟩ := exists_substitute_eq hc
    obtain ⟨name, hname, hentity, hlower⟩ := h.entity _ hentry
    rw [heq, hname]
    exact .reference name hentity hlower
  · rw [substitute_of_not_mem hc]
    exact .plain fun hamp => hc (hamp ▸ h.ampersand)

end Legible

theorem not_mem_escapeText {c : Char} (hc : c ∈ ['<', '>']) (s : String) :
    c ∉ (escapeText s).toList := by
  refine legible_textReferences.not_mem_escape (List.mem_cons_of_mem _ hc) ?_ s
  rintro rfl
  exact absurd hc (by decide)

theorem not_mem_escapeValue {c : Char} (hc : c ∈ ['<', '>', '"', '\'']) (s : String) :
    c ∉ (escapeValue s).toList := by
  refine legible_valueReferences.not_mem_escape (List.mem_cons_of_mem _ hc) ?_ s
  rintro rfl
  exact absurd hc (by decide)

theorem resolveFrom_name {name : List Char} (h : ∀ d ∈ name, d.isLower) (start : Nat)
    (rest : List Char) :
    ∀ (offset : Nat) (seen : List Char), ∃ behind,
      resolveFrom offset (some (start, seen)) (name ++ rest) =
        resolveFrom behind (some (start, name.reverse ++ seen)) rest := by
  induction name with
  | nil => exact fun offset seen => ⟨offset, rfl⟩
  | cons c name ih =>
    intro offset seen
    have hc := h c (List.mem_cons_self ..)
    have hamp : c ≠ '&' := by rintro rfl; exact absurd hc (by decide)
    have hend : c ≠ ';' := by rintro rfl; exact absurd hc (by decide)
    obtain ⟨behind, hrest⟩ :=
      ih (fun d hd => h d (List.mem_cons_of_mem _ hd)) (offset + c.utf8Size) (c :: seen)
    refine ⟨behind, ?_⟩
    rw [List.cons_append, resolveFrom, List.reverse_cons, List.append_assoc]
    simpa [hamp, hend] using hrest

theorem Spells.resolveFrom {cs : List Char} {c : Char} (h : Spells cs c) (offset : Nat)
    (rest : List Char) :
    ∃ behind, resolveFrom offset none (cs ++ rest) =
      (resolveFrom behind none rest).map (c :: ·) := by
  cases h with
  | plain hc =>
    refine ⟨offset + c.utf8Size, ?_⟩
    rw [List.singleton_append, Markup.resolveFrom]
    simp only [hc, if_false]
  | reference name hname hlower =>
    rw [List.all_eq_true] at hlower
    obtain ⟨behind, hread⟩ := resolveFrom_name hlower offset (';' :: rest) (offset + 1) []
    have hreference : Markup.reference offset name = .ok c := by
      unfold Markup.reference
      split
      · exact absurd (hlower '#' (List.mem_cons_self ..)) (by decide)
      · rw [hname]
    refine ⟨behind + 1, ?_⟩
    rw [List.cons_append, Markup.resolveFrom, List.append_assoc]
    simp only [if_true, List.singleton_append]
    rw [hread, Markup.resolveFrom]
    simp [hreference]

theorem resolveFrom_spelled {f : Char → List Char} (h : ∀ c, Spells (f c) c) (cs : List Char) :
    ∀ offset, resolveFrom offset none (cs.flatMap f) = .ok cs := by
  induction cs with
  | nil => intro offset; rfl
  | cons c cs ih =>
    intro offset
    obtain ⟨behind, hrest⟩ := (h c).resolveFrom offset (cs.flatMap f)
    rw [List.flatMap_cons, hrest, ih]
    rfl

theorem Legible.resolve_escape (h : Legible references) (s : String) :
    resolve (escape references s) = .ok s := by
  rw [resolve, h.toList_escape, resolveFrom_spelled h.spells_substitute]
  exact congrArg Except.ok String.ofList_toList

theorem resolve_escapeText (s : String) : resolve (escapeText s) = .ok s :=
  legible_textReferences.resolve_escape s

theorem readText_escapeText (s : String) : readText (Symbol.ofString (escapeText s)) = .ok s := by
  rw [readText, text?_ofString]
  exact resolve_escapeText s

theorem resolve_escapeValue (s : String) : resolve (escapeValue s) = .ok s :=
  legible_valueReferences.resolve_escape s

end Letterpress.Markup
