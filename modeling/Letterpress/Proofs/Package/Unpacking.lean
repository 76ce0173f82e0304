import Letterpress.Proofs.Package.Archives

/-!
# What is unpacked from an archive

A package is written with contents that take the place of stored parts, and its lists take the place
of both. When the archive is unpacked, the lists are read back and every other path is found as it
was written. The main part is the one that the relationships of the package state, which need not be
the one it was written for.
-/

namespace Letterpress

open Text

namespace ContentTypes

theorem lookup_replaceOrAdd (key type : String) (entries : List (String × String)) :
    (replaceOrAdd key type entries).lookup key = some type := by
  induction entries with
  | nil => simp [replaceOrAdd]
  | cons e rest ih =>
    rw [replaceOrAdd]
    split
    · simp
    · next hne => rw [List.lookup_cons, beq_eq_false_iff_ne.mpr (Ne.symm hne), ih]

theorem type?_addOverride (c : ContentTypes) (path type : String) :
    (c.addOverride path type).type? path = some type :=
  congrArg (Option.or · _) (lookup_replaceOrAdd (partName path) type c.overrides)

end ContentTypes

namespace Relationships

theorem find?_replaceOrAdd (r : Relationship) (entries : List Relationship) :
    (replaceOrAdd r entries).find? (·.id = r.id) = some r := by
  induction entries with
  | nil => simp [replaceOrAdd]
  | cons s rest ih =>
    rw [replaceOrAdd]
    split
    · simp
    · next hne => rw [List.find?_cons_of_neg (by simpa using hne), ih]

theorem find?_put (rs : Relationships) (r : Relationship) : (rs.put r).find? r.id = some r :=
  find?_replaceOrAdd r rs.entries

end Relationships

namespace Package

/-- The entries of the archive of the parts and of `contents`, without folders. -/
def unpacked (p : Package) (contents : List (String × ByteArray)) : KeyMap ByteArray :=
  KeyMap.ofList ((p.archive contents).entries.filter fun e => e.1.toList.getLast? ≠ some '/')

variable {p : Package} {contents : List (String × ByteArray)} {path : String}

/-- Lists are found before other contents, and these before parts. -/
theorem find?_unpacked (h : path.toList.getLast? ≠ some '/') :
    (p.unpacked contents).find? path =
      ((p.lists.reverse.lookup path).or (contents.reverse.lookup path)).or (p.get? path) := by
  -- Later entries win, so both are looked through from the back, and the lists first.
  have hgenerated : (p.generated contents).find? path =
      (p.lists.reverse.lookup path).or (contents.reverse.lookup path) := by
    rw [generated, ← lists, KeyMap.find?_ofList, List.reverse_append, List.lookup_append]
  have hkeep : decide (path.toList.getLast? ≠ some '/') = true := decide_eq_true h
  rw [unpacked, archive,
    KeyMap.find?_ofList_filter (fun path => path.toList.getLast? ≠ some '/') hkeep,
    KeyMap.find?_merge, hgenerated]
  rfl

theorem lookup_lists : p.lists.reverse.lookup path =
    if path = p.mainRelationshipsPath then some p.mainRelationships.xml.toUTF8
    else if path = relationshipsPath then some p.relationships.xml.toUTF8
    else if path = typesPath then some p.types.xml.toUTF8
    else none := by
  have hcons : ∀ (e : String × ByteArray) (rest : List (String × ByteArray)),
      (e :: rest).lookup path = if path = e.1 then some e.2 else rest.lookup path := by
    intro e rest
    rw [List.lookup_cons]
    by_cases he : path = e.1
    · rw [beq_iff_eq.mpr he, if_pos he]
    · rw [beq_eq_false_iff_ne.mpr he, if_neg he]
  simp only [lists, List.reverse_cons, List.reverse_nil, List.nil_append, List.cons_append, hcons,
    List.lookup_nil]

/-- The paths of the lists differ. -/
theorem lists_distinct (hmain : p.mainPart ≠ "") : typesPath ≠ relationshipsPath ∧
    typesPath ≠ p.mainRelationshipsPath ∧ relationshipsPath ≠ p.mainRelationshipsPath :=
  ⟨by decide, (relationshipsPathOf_ne_typesPath _).symm, (relationshipsPathOf_ne hmain).symm⟩

theorem readList_of_find? {α : Type} {parts : KeyMap ByteArray} {path xml : String} {list : α}
    {read : List Symbol → Except PartFault α} (absent : Except Failure α)
    (h : parts.find? path = some xml.toUTF8) (hread : read (Symbol.read xml.toUTF8) = .ok list) :
    readList parts path absent read = .ok list :=
  readList_of_mem absent (KeyMap.find?_eq_some_iff.mp h) hread

/-- The parts without those that hold the types and the relationships of the package. -/
def unpackedParts (p : Package) (contents : List (String × ByteArray)) : KeyMap ByteArray :=
  ((p.unpacked contents).erase typesPath).erase relationshipsPath

theorem find?_unpackedParts_main (hmain : p.mainPart ≠ "") :
    (p.unpackedParts contents).find? p.mainRelationshipsPath =
      some p.mainRelationships.xml.toUTF8 := by
  obtain ⟨-, htypesMain, hrelationshipsMain⟩ := lists_distinct hmain
  have hslash : p.mainRelationshipsPath.toList.getLast? ≠ some '/' := by
    rw [mainRelationshipsPath, getLast?_relationshipsPathOf]
    decide
  rw [unpackedParts, KeyMap.find?_erase_of_ne hrelationshipsMain.symm,
    KeyMap.find?_erase_of_ne htypesMain.symm, find?_unpacked hslash, lookup_lists, if_pos rfl]
  rfl

theorem find?_unpackedParts (hlists : path ∉ p.lists.map Prod.fst)
    (h : path.toList.getLast? ≠ some '/') : (p.unpackedParts contents).find? path =
      (contents.reverse.lookup path).or (p.get? path) := by
  have hpaths : p.lists.map Prod.fst = [typesPath, relationshipsPath, p.mainRelationshipsPath] :=
    rfl
  simp only [hpaths, List.mem_cons, List.not_mem_nil, or_false, not_or] at hlists
  obtain ⟨htypes, hrelationships, hmain⟩ := hlists
  rw [unpackedParts, KeyMap.find?_erase_of_ne hrelationships, KeyMap.find?_erase_of_ne htypes,
    find?_unpacked h, lookup_lists, if_neg hmain, if_neg hrelationships, if_neg htypes]
  rfl

/-- A part that is not written anew is as before. -/
theorem find?_unpackedParts_of_not_mem (hlists : path ∉ p.lists.map Prod.fst)
    (hcontents : path ∉ contents.map Prod.fst) (h : path.toList.getLast? ≠ some '/') :
    (p.unpackedParts contents).find? path = p.get? path := by
  have hlookup : contents.reverse.lookup path = none := by
    refine List.lookup_eq_none_iff.mpr fun e he => bne_iff_ne.mpr ?_
    rintro rfl
    exact hcontents (List.mem_map_of_mem (List.mem_reverse.mp he))
  rw [find?_unpackedParts hlists h, hlookup, Option.none_or]

/-- What is unpacked, by the relationships that are read for the main part. -/
def reopened (p : Package) (contents : List (String × ByteArray))
    (mainRelationships : Relationships) : Package :=
  { p with
    parts := (p.unpackedParts contents).erase (relationshipsPathOf p.statedMainPart)
    mainRelationships
    mainPart := p.statedMainPart }

theorem get?_reopened {mainRelationships : Relationships}
    (h : path ≠ relationshipsPathOf p.statedMainPart) :
    (p.reopened contents mainRelationships).get? path = (p.unpackedParts contents).find? path :=
  KeyMap.find?_erase_of_ne h

/-- The lists of the package are read back, whatever else is written; then the relationships of the
main part are looked for. -/
theorem Sound.ofArchive_eq (sound : p.Sound) (hmain : p.mainPart ≠ "")
    (contents : List (String × ByteArray)) : Package.ofArchive (p.archive contents) =
      (readList (p.unpackedParts contents) (relationshipsPathOf p.statedMainPart) (.ok {})
        Relationships.read).map (p.reopened contents) := by
  obtain ⟨hdistinct, htypesMain, hrelationshipsMain⟩ := lists_distinct hmain
  have htypes : readList (p.unpacked contents) typesPath (.error (.missingPart typesPath))
      ContentTypes.read = .ok p.types := by
    refine readList_of_find? _ ?_ (ContentTypes.read_xml sound.types)
    rw [find?_unpacked (by decide), lookup_lists, if_neg htypesMain, if_neg hdistinct, if_pos rfl]
    rfl
  have hrelationships : readList ((p.unpacked contents).erase typesPath) relationshipsPath (.ok {})
      Relationships.read = .ok p.relationships := by
    refine readList_of_find? _ ?_ (Relationships.read_xml sound.relationships)
    rw [KeyMap.find?_erase_of_ne hdistinct.symm, find?_unpacked (by decide), lookup_lists,
      if_neg hrelationshipsMain, if_pos rfl]
    rfl
  unfold Package.ofArchive
  dsimp only
  rw [← unpacked, htypes, ok_bind, hrelationships, ok_bind, ← statedMainPart, ← unpackedParts]
  cases readList (p.unpackedParts contents) _ (.ok {}) Relationships.read <;> rfl

/-- If the package states its main part, the relationships of the main part are read back too. -/
theorem Sound.ofArchive_of_findsMainPart (sound : p.Sound) (hmain : p.mainPart ≠ "")
    (hfinds : p.FindsMainPart) (contents : List (String × ByteArray)) :
    Package.ofArchive (p.archive contents) = .ok (p.reopened contents p.mainRelationships) := by
  have hlist : readList (p.unpackedParts contents) p.mainRelationshipsPath (.ok {})
      Relationships.read = .ok p.mainRelationships :=
    readList_of_find? _ (find?_unpackedParts_main hmain)
      (Relationships.read_xml sound.mainRelationships)
  rw [sound.ofArchive_eq hmain, findsMainPart_iff.mp hfinds, ← mainRelationshipsPath, hlist]
  rfl

end Package

end Letterpress
