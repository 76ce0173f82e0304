import Letterpress.Proofs.Body.Padded
import Letterpress.Proofs.Markup.Insertions

/-!
# Elements that are not known

An element that is not known where it stands counts for nothing, whatever is in it. So it can be put
into a main part at any place, in the middle of a text, too, as long as it cuts no reference in two.
-/

namespace Letterpress

open Markup Markup.Content Text

namespace Padded

variable {tag : Tag} {k : Content → Content}

theorem one {zone : Zone} {c c' : Content} (hk : One tag k) (passes : zone.Passes tag.label)
    (h : Padded zone c c') : Padded zone c (k c') := by
  cases hk with
  | element hcut => exact .unknown passes hcut h
  | empty => exact .unknownEmpty passes h

/-- An element before a text that would go on with the text before it. -/
theorem joins {front joined : List Event} {content : List Symbol} (h : Joins front content joined)
    (hk : One tag k) {p : Position} (passes : (front.foldl .enter p).here.zone.Passes tag.label)
    (hreference : (front.foldl .enter p).here.zone = .text →
      ∀ first, front.getLast? = some (.text first) → leavesReference first = false)
    (fault : Option Fault) (n : Nested) :
    Agree (fun s => Padded s.zone) p (joined.foldr (put fault) n)
      (front.foldr (put fault) (n.mapHere (k ∘ Content.text content))) := by
  induction h generalizing p with
  | new => exact ⟨one hk passes (.text (refl _ _)), .same⟩
  | onto =>
    exact ⟨.split (fun hzone => hreference hzone _ rfl) (.text (one hk passes (.text (refl _ _)))),
      .same⟩
  | cons _ ih =>
    refine (ih passes fun hzone first hfirst => hreference hzone first ?_).before isCongruence _ _
    rw [List.getLast?_cons, hfirst]
    rfl

variable {before inserted : List Symbol} {front : List Event}

theorem nested_inserted (hbefore : scanFrom [] before = ⟨front, none⟩)
    (hinserted : IsOne inserted tag)
    (passes : (Position.after front).here.zone.Passes tag.label)
    (hreference : (Position.after front).here.zone = .text →
      ∀ first, front.getLast? = some (.text first) → leavesReference first = false)
    (after : List Symbol) :
    Padded .root (nested [] (before ++ after)).here
      (nested [] (before ++ (inserted ++ after))).here := by
  obtain ⟨inside, stops⟩ := exists_stops hbefore
  obtain ⟨k, hk, hhead, hone⟩ := hinserted.reads
  have hbegins : (inserted ++ after).head? = some (.char '<') := by
    rw [List.head?_append, hhead]
    rfl
  have hnew : nested [] (before ++ (inserted ++ after)) =
      front.foldr (put (scanFrom inside after).fault) ((nested inside after).mapHere k) := by
    rw [nested_of_scanFrom (stops.markup _ (.inr hbegins)), (hone inside after).1,
      (hone inside after).2]
  rw [hnew]
  obtain ⟨content, more, rfl, hmem, hmore⟩ := exists_upToMarkup after
  by_cases hcontent : content = []
  · subst hcontent
    rw [List.nil_append, nested_of_scanFrom (stops.markup _ hmore)]
    have agree : Agree (fun s => Padded s.zone) (Position.after front) (nested inside more)
        ((nested inside more).mapHere k) := ⟨one hk passes (refl _ _), .same⟩
    exact (agree.foldr_put isCongruence).here
  · obtain ⟨joined, joins, hjoined⟩ := stops.text content more hcontent hmem hmore
    have hfault : (scanFrom inside (content ++ more)).fault = (scanFrom inside more).fault := by
      rw [scanFrom_text hcontent hmem hmore]
      rfl
    rw [nested_of_scanFrom hjoined, nested_text hcontent hmem hmore, hfault]
    exact (Padded.joins joins hk passes hreference _ _).here

theorem of_insertion (hne : before ≠ []) (hbefore : scan before = ⟨front, none⟩)
    (hinserted : IsOne inserted tag)
    (passes : (Position.after front).here.zone.Passes tag.label)
    (hreference : (Position.after front).here.zone = .text →
      ∀ first, front.getLast? = some (.text first) → leavesReference first = false)
    (after : List Symbol) :
    Padded .root (Content.read (before ++ after))
      (Content.read (before ++ (inserted ++ after))) := by
  obtain ⟨s, rest, rfl⟩ := List.exists_cons_of_ne_nil hne
  by_cases hmark : s = .char '\uFEFF'
  · subst hmark
    have hrest : scanFrom [] rest = ⟨front, none⟩ := hbefore
    exact nested_inserted hrest hinserted passes hreference after
  · have hscan : ∀ more, scan (s :: rest ++ more) = scanFrom [] (s :: rest ++ more) := fun more =>
      scan_of_head? fun h => hmark (Option.some.inj h)
    have hstart := hscan []
    rw [List.append_nil, hbefore] at hstart
    rw [Content.read, Content.read, hscan, hscan]
    exact nested_inserted hstart.symm hinserted passes hreference after

end Padded

namespace MainPart

/-- An element that is not known where it is put changes nothing in what is read. -/
theorem read_inserted {before after inserted : List Symbol} {front : List Event} {tag : Tag}
    {m : MainPart} (h : read (before ++ after) = .ok m) (hne : before ≠ [])
    (hbefore : scan before = ⟨front, none⟩) (hinserted : IsOne inserted tag)
    (passes : (Position.after front).here.zone.Passes tag.label)
    (hreference : (Position.after front).here.zone = .text →
      ∀ first, front.getLast? = some (.text first) → leavesReference first = false) :
    read (before ++ (inserted ++ after)) = .ok m := by
  have padded := Padded.of_insertion hne hbefore hinserted passes hreference after
  exact ((Partial.descends.stays padded {}).bind fun _ => .refl _) m h

/-- An element that holds one of its own name and a paragraph, in the middle of a text. -/
theorem read_inserted_note : ∃ m,
    read (Symbol.ofString "<w:document><w:body><w:p><w:r><w:t>Tea &amp; mi" ++
      Symbol.ofString "lk</w:t></w:r></w:p></w:body></w:document>") = .ok m ∧
    read (Symbol.ofString "<w:document><w:body><w:p><w:r><w:t>Tea &amp; mi" ++
      (Symbol.ofString "<x:note><w:p/><x:note>a</x:note></x:note>" ++
        Symbol.ofString "lk</w:t></w:r></w:p></w:body></w:document>")) = .ok m := by
  obtain ⟨m, hm⟩ : ∃ m, read (Symbol.ofString "<w:document><w:body><w:p><w:r><w:t>Tea &amp; mi" ++
      Symbol.ofString "lk</w:t></w:r></w:p></w:body></w:document>") = .ok m := by
    refine exists_of_isOk ?_
    rw [Symbol.ofString_ofList, Symbol.ofString_ofList]
    decide +kernel
  have hbefore : scan (Symbol.ofString "<w:document><w:body><w:p><w:r><w:t>Tea &amp; mi") =
      ⟨["w:document", "w:body", "w:p", "w:r", "w:t"].map (fun name =>
        .opening ⟨Symbol.ofString name⟩) ++ [.text (Symbol.ofString "Tea &amp; mi")], none⟩ := by
    rw [Symbol.ofString_ofList]
    decide +kernel
  have hinserted : IsOne (Symbol.ofString "<x:note><w:p/><x:note>a</x:note></x:note>")
      ⟨Symbol.ofString "x:note"⟩ := by
    refine .inl ⟨.empty ⟨Symbol.ofString "w:p"⟩ (.element ⟨Symbol.ofString "x:note"⟩
      (.text (Symbol.ofString "a") .done) .done), rfl, ?_⟩
    rw [Symbol.ofString_ofList]
    decide +kernel
  refine ⟨m, hm, read_inserted hm (by decide +kernel) hbefore hinserted
    ⟨by decide +kernel, by decide +kernel⟩ fun _ first hfirst => ?_⟩
  cases hfirst
  decide +kernel

end MainPart

end Letterpress
