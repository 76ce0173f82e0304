import Letterpress.Markup.Reference
import Letterpress.Proofs.Results
import Letterpress.Proofs.Text.Utf8

/-!
# Texts cut in two

A text is read as its parts are, one behind the other, if no reference is cut in two.
-/

namespace Letterpress.Markup

open Text

/-- Whether a reference is still open at the end of a text. -/
def leavesReference (content : List Symbol) : Bool :=
  content.foldl (fun opened s =>
    if s = .char '&' then true else if s = .char ';' then false else opened) false

theorem reference_ok {start : Nat} {name : List Char} {c : Char} (h : reference start name = .ok c)
    (start' : Nat) : reference start' name = .ok c := by
  unfold reference at h ⊢
  split at h
  · exact h
  · cases hentity : entity? name with
    | none =>
      rw [hentity] at h
      cases h
    | some d =>
      rw [hentity] at h
      exact h

/-- What a text stands for where no reference is open, or where `name` is read of an open one, its
last character first. -/
inductive Denotes : Option (List Char) → List Char → List Char → Prop
  | done : Denotes none [] []
  | opening {cs ds : List Char} : Denotes (some []) cs ds → Denotes none ('&' :: cs) ds
  | plain {c : Char} {cs ds : List Char} : c ≠ '&' → Denotes none cs ds →
      Denotes none (c :: cs) (c :: ds)
  | closing {name : List Char} {d : Char} {cs ds : List Char} :
      (∀ start, reference start name.reverse = .ok d) → Denotes none cs ds →
        Denotes (some name) (';' :: cs) (d :: ds)
  | inside {name : List Char} {c : Char} {cs ds : List Char} : c ≠ '&' → c ≠ ';' →
      Denotes (some (c :: name)) cs ds → Denotes (some name) (c :: cs) ds

/-- Where a text begins does not matter to what its references stand for. -/
theorem resolveFrom_eq_ok {offset : Nat} {pending : Option (Nat × List Char)} {cs ds : List Char} :
    resolveFrom offset pending cs = .ok ds ↔ Denotes (pending.map Prod.snd) cs ds := by
  constructor
  · intro h
    induction cs generalizing offset pending ds with
    | nil =>
      cases pending with
      | none =>
        cases h
        exact .done
      | some p => cases h
    | cons c cs ih =>
      cases pending with
      | none =>
        rw [resolveFrom] at h
        split at h
        · next hc =>
          rw [hc]
          exact .opening (ih h)
        · next hc =>
          obtain ⟨more, hmore, rfl⟩ := map_eq_ok.mp h
          exact .plain hc (ih hmore)
      | some p =>
        rw [resolveFrom] at h
        split at h
        · cases h
        next hamp =>
        split at h
        · next hend =>
          rw [hend]
          split at h
          · cases h
          · next d hd =>
            obtain ⟨more, hmore, rfl⟩ := map_eq_ok.mp h
            exact .closing (reference_ok hd) (ih hmore)
        · next hend => exact .inside hamp hend (ih h)
  · intro h
    generalize hname : pending.map Prod.snd = name at h
    induction h generalizing offset pending with
    | done =>
      rw [Option.map_eq_none_iff.mp hname]
      rfl
    | opening _ ih =>
      rw [Option.map_eq_none_iff.mp hname, resolveFrom, if_pos rfl]
      exact ih rfl
    | plain hc _ ih =>
      rw [Option.map_eq_none_iff.mp hname, resolveFrom, if_neg hc, ih rfl]
      rfl
    | closing hd _ ih =>
      obtain ⟨⟨start, name⟩, rfl, rfl⟩ := Option.map_eq_some_iff.mp hname
      rw [resolveFrom, if_neg (by decide), if_pos rfl, hd start, ih rfl]
      rfl
    | inside hamp hend _ ih =>
      obtain ⟨⟨start, name⟩, rfl, rfl⟩ := Option.map_eq_some_iff.mp hname
      rw [resolveFrom, if_neg hamp, if_neg hend]
      exact ih rfl

/-- Two texts behind each other stand for what they do one by one, if no reference is open between
them. -/
theorem Denotes.append {cs more ds : List Char} {name : Option (List Char)}
    (h : Denotes name (cs ++ more) ds)
    (hopen : cs.foldl (fun opened c => if c = '&' then true else if c = ';' then false else opened)
      name.isSome = false) :
    ∃ first rest, Denotes name cs first ∧ Denotes none more rest ∧ ds = first ++ rest := by
  induction cs generalizing name ds with
  | nil =>
    rw [List.foldl_nil, Option.isSome_eq_false_iff, Option.isNone_iff_eq_none] at hopen
    subst hopen
    exact ⟨[], ds, .done, h, rfl⟩
  | cons c cs ih =>
    rw [List.foldl_cons] at hopen
    cases h with
    | opening h =>
      obtain ⟨first, rest, hfirst, hrest, rfl⟩ := ih h hopen
      exact ⟨first, rest, .opening hfirst, hrest, rfl⟩
    | plain hc h =>
      obtain ⟨first, rest, hfirst, hrest, rfl⟩ := ih h (by simpa [hc] using hopen)
      exact ⟨c :: first, rest, .plain hc hfirst, hrest, rfl⟩
    | @closing name d _ _ hd h =>
      obtain ⟨first, rest, hfirst, hrest, rfl⟩ := ih h hopen
      exact ⟨d :: first, rest, .closing hd hfirst, hrest, rfl⟩
    | inside hamp hend h =>
      obtain ⟨first, rest, hfirst, hrest, rfl⟩ := ih h (by simpa [hamp, hend] using hopen)
      exact ⟨first, rest, .inside hamp hend hfirst, hrest, rfl⟩

theorem readText_append {a b : List Symbol} {s : String} (h : readText (a ++ b) = .ok s)
    (ha : leavesReference a = false) :
    ∃ first rest, readText a = .ok first ∧ readText b = .ok rest ∧ s = first ++ rest := by
  unfold readText at h
  split at h
  · cases h
  next written htext =>
  obtain ⟨cs, more, hwritten, rfl, rfl⟩ :=
    List.map_eq_append_iff.mp (Symbol.ofString_of_text? htext)
  obtain ⟨ds, hds, rfl⟩ := map_eq_ok.mp h
  rw [hwritten] at hds
  have hopen : cs.foldl (fun opened c =>
      if c = '&' then true else if c = ';' then false else opened) false = false := by
    rw [leavesReference, List.foldl_map] at ha
    simpa using ha
  obtain ⟨first, rest, hfirst, hrest, rfl⟩ := (resolveFrom_eq_ok.mp hds).append hopen
  have hread : ∀ {cs ds : List Char}, Denotes none cs ds →
      readText (cs.map .char) = .ok (String.ofList ds) := by
    intro cs ds h
    have hresolve : resolveFrom 0 none cs = .ok ds := resolveFrom_eq_ok.mpr h
    rw [← Symbol.ofString_ofList, readText, text?_ofString]
    dsimp only
    rw [resolve, String.toList_ofList, hresolve]
    rfl
  exact ⟨_, _, hread hfirst, hread hrest, String.ofList_append⟩

end Letterpress.Markup
