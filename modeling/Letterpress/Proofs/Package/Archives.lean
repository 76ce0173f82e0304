import Letterpress.Proofs.KeyMap
import Letterpress.Proofs.Package.Lists

/-!
# A written package is read back

The archive of a package holds its parts and its three lists. It is unpacked into the package it was
written from, whatever was done to the package before.
-/

namespace Letterpress

open Markup Text

theorem toList_relationshipsPathOf (part : String) : ∃ before name,
    (relationshipsPathOf part).toList = before ++ "_rels/".toList ++ name ++ ".rels".toList ∧
      (before = [] → name = part.toList) := by
  unfold relationshipsPathOf
  split
  · next folder file _ =>
    refine ⟨folder.toList ++ ['/'], file.toList, ?_, fun h => by simp at h⟩
    simp [String.toList_append]
  · refine ⟨[], part.toList, ?_, fun _ => rfl⟩
    simp [String.toList_append]

theorem relationshipsPathOf_ne {part : String} (h : part ≠ "") :
    relationshipsPathOf part ≠ Package.relationshipsPath := by
  intro heq
  obtain ⟨before, name, hpath, hname⟩ := toList_relationshipsPathOf part
  have hlength := congrArg List.length (hpath.symm.trans (congrArg String.toList heq))
  have hrels : Package.relationshipsPath.toList.length = 11 := by decide
  simp only [List.length_append, hrels] at hlength
  have hsize : "_rels/".toList.length = 6 ∧ ".rels".toList.length = 5 := by decide
  have hbefore : before = [] := List.length_eq_zero_iff.mp (by omega)
  have hempty : name = [] := List.length_eq_zero_iff.mp (by omega)
  exact h (String.toList_inj.mp ((hname hbefore).symm.trans hempty))

theorem getLast?_relationshipsPathOf (part : String) :
    (relationshipsPathOf part).toList.getLast? = some 's' := by
  obtain ⟨before, name, hpath, -⟩ := toList_relationshipsPathOf part
  rw [hpath, List.getLast?_append]
  rfl

theorem relationshipsPathOf_ne_typesPath (part : String) :
    relationshipsPathOf part ≠ Package.typesPath := by
  intro heq
  have := getLast?_relationshipsPathOf part
  rw [heq] at this
  exact absurd this (by decide)

namespace Package

/-- A package that is made, or unpacked, and then changed step by step. -/
inductive Built : Package → Prop
  | ofMainPart (path : String) : Built (ofMainPart path)
  | ofArchive {a : Archive} {p : Package} : ofArchive a = .ok p → Built p
  | put {p : Package} (path : String) (contents : ByteArray) : Built p → Built (p.put path contents)
  | remove {p : Package} (path : String) : Built p → Built (p.remove path).2
  | dropContents {p : Package} (path : String) : Built p → Built (p.dropContents path)
  | setType {p : Package} (path type : String) : Built p → Built (p.setType path type)
  | setDefaultType {p : Package} (extension type : String) : Built p →
      Built (p.setDefaultType extension type)
  | addRelationship {p : Package} (id type target : String) : Built p →
      Built (p.addRelationship id type target)
  | addMainRelationship {p : Package} (id type target : String) : Built p →
      Built (p.addMainRelationship id type target)
  | eraseMainRelationship {p : Package} (id : String) : Built p →
      Built (p.eraseMainRelationship id)

/-- In each list of the package, no two entries have one key. -/
structure Sound (p : Package) : Prop where
  types : p.types.Sound
  relationships : p.relationships.Sound
  mainRelationships : p.mainRelationships.Sound

theorem of_readList {α : Type} {parts : KeyMap ByteArray} {path : String}
    {absent : Except Failure α} {read : List Symbol → Except PartFault α} {list : α}
    {P : α → Prop} (habsent : ∀ list, absent = .ok list → P list)
    (hread : ∀ source list, read source = .ok list → P list)
    (h : readList parts path absent read = .ok list) : P list := by
  unfold readList at h
  split at h
  · exact habsent list h
  · exact hread _ _ (mapError_eq_ok.mp h)

theorem sound_ofMainPart (path : String) : (Package.ofMainPart path).Sound := by
  have empty : ({} : Relationships).Sound := List.nodup_nil
  exact ⟨((ContentTypes.Sound.empty.addDefault _ _).addDefault _ _).addOverride _ _, empty.put _,
    empty⟩

theorem sound_ofArchive {a : Archive} {p : Package} (h : Package.ofArchive a = .ok p) :
    p.Sound := by
  have none_read : ∀ list, Except.ok (ε := Failure) ({} : Relationships) = .ok list →
      list.Sound := by
    rintro list ⟨⟩
    exact List.nodup_nil
  obtain ⟨types, htypes, h⟩ := bind_eq_ok.mp h
  obtain ⟨relationships, hrelationships, h⟩ := bind_eq_ok.mp h
  obtain ⟨mainRelationships, hmain, h⟩ := bind_eq_ok.mp h
  cases h
  exact ⟨of_readList (fun _ h => by cases h) (fun _ _ => ContentTypes.sound_read) htypes,
    of_readList none_read (fun _ _ => Relationships.sound_read) hrelationships,
    of_readList none_read (fun _ _ => Relationships.sound_read) hmain⟩

theorem Sound.remove {p : Package} (h : p.Sound) (path : String) : (p.remove path).2.Sound := by
  unfold Package.remove
  split
  · exact h
  · exact ⟨h.types.eraseOverride _, h.relationships, h.mainRelationships⟩

/-- Nothing that can be done to a package gives one key to two entries. -/
theorem Built.sound {p : Package} (h : p.Built) : p.Sound := by
  induction h with
  | ofMainPart path => exact sound_ofMainPart path
  | ofArchive h => exact sound_ofArchive h
  | put path contents _ ih => exact ⟨ih.types, ih.relationships, ih.mainRelationships⟩
  | remove path _ ih => exact ih.remove path
  | dropContents path _ ih => exact ⟨ih.types, ih.relationships, ih.mainRelationships⟩
  | setType path type _ ih =>
    exact ⟨ih.types.addOverride _ _, ih.relationships, ih.mainRelationships⟩
  | setDefaultType extension type _ ih =>
    exact ⟨ih.types.addDefault _ _, ih.relationships, ih.mainRelationships⟩
  | addRelationship id type target _ ih =>
    exact ⟨ih.types, ih.relationships.put _, ih.mainRelationships⟩
  | addMainRelationship id type target _ ih =>
    exact ⟨ih.types, ih.relationships, ih.mainRelationships.put _⟩
  | eraseMainRelationship id _ ih =>
    exact ⟨ih.types, ih.relationships, ih.mainRelationships.erase _⟩

variable {p : Package}

/-- The lists of a package as they are written. -/
def lists (p : Package) : List (String × ByteArray) :=
  [(typesPath, p.types.xml.toUTF8), (relationshipsPath, p.relationships.xml.toUTF8),
    (p.mainRelationshipsPath, p.mainRelationships.xml.toUTF8)]

/-- The paths of the lists differ from each other and from those of the parts. -/
structure Apart (p : Package) : Prop where
  mainPart : p.mainPart ≠ ""
  free : ∀ path ∈ p.paths, path ≠ typesPath ∧ path ≠ relationshipsPath ∧
    path ≠ p.mainRelationshipsPath

namespace Apart

theorem nodup_lists (h : p.Apart) : (p.lists.map Prod.fst).Nodup := by
  have hpaths : p.lists.map Prod.fst = [typesPath, relationshipsPath, p.mainRelationshipsPath] :=
    rfl
  have htypes : typesPath ≠ relationshipsPath := by decide
  have hmain : p.mainRelationshipsPath ≠ relationshipsPath := relationshipsPathOf_ne h.mainPart
  have hother : p.mainRelationshipsPath ≠ typesPath := relationshipsPathOf_ne_typesPath p.mainPart
  rw [hpaths]
  simp [htypes, hmain.symm, hother.symm]

theorem not_mem_lists (h : p.Apart) {e : String × ByteArray} (he : e ∈ p.parts.entries) :
    e.1 ∉ p.lists.map Prod.fst := by
  obtain ⟨htypes, hrelationships, hmain⟩ := h.free e.1 (List.mem_map_of_mem he)
  simp [lists, htypes, hrelationships, hmain]

/-- The archive holds the parts and the lists, and nothing else. -/
theorem mem_archive (h : p.Apart) {e : String × ByteArray} :
    e ∈ (p.archive []).entries ↔ e ∈ p.parts.entries ∨ e ∈ p.lists := by
  have hgenerated : ∀ {e}, e ∈ (p.generated []).entries ↔ e ∈ p.lists :=
    KeyMap.mem_ofList h.nodup_lists
  have hkeys : ∀ path, path ∈ (p.generated []).keys ↔ path ∈ p.lists.map Prod.fst := by
    intro path
    simp only [KeyMap.keys, List.mem_map, hgenerated]
  rw [archive, KeyMap.mem_merge, hgenerated, hkeys, or_comm, and_iff_left_of_imp h.not_mem_lists]

/-- Without the lists, the parts are left. -/
theorem erase_lists (h : p.Apart) {all : KeyMap ByteArray}
    (hall : ∀ e, e ∈ all.entries ↔ e ∈ p.parts.entries ∨ e ∈ p.lists) :
    ((all.erase typesPath).erase relationshipsPath).erase p.mainRelationshipsPath = p.parts := by
  refine KeyMap.ext_entries fun e => ?_
  rw [KeyMap.mem_erase, KeyMap.mem_erase, KeyMap.mem_erase, hall]
  constructor
  · rintro ⟨⟨⟨he | he, htypes⟩, hrelationships⟩, hmain⟩
    · exact he
    · simp only [lists, List.mem_cons, List.not_mem_nil, or_false] at he
      rcases he with rfl | rfl | rfl
      · exact absurd rfl htypes
      · exact absurd rfl hrelationships
      · exact absurd rfl hmain
  · intro he
    obtain ⟨htypes, hrelationships, hmain⟩ := h.free e.1 (List.mem_map_of_mem he)
    exact ⟨⟨⟨.inl he, htypes⟩, hrelationships⟩, hmain⟩

end Apart

theorem sorted_archive (p : Package) : ((p.archive []).entries.map Prod.fst).Pairwise (· < ·) :=
  KeyMap.keys_sorted _

/-! ### Unpacking -/

/-- The main part is where the relationships of the package, or else the custom, say that it is. -/
def FindsMainPart (p : Package) : Prop :=
  match p.relationships.firstOfType? RelationshipType.officeDocument with
  | some r => withoutSlash r.target = p.mainPart
  | none => p.mainPart = defaultMainPart

/-- The main part that the relationships of the package, or else the custom, state. -/
def statedMainPart (p : Package) : String :=
  ((p.relationships.firstOfType? RelationshipType.officeDocument).map fun r =>
    withoutSlash r.target).getD defaultMainPart

theorem findsMainPart_iff {p : Package} : p.FindsMainPart ↔ p.statedMainPart = p.mainPart := by
  unfold FindsMainPart statedMainPart
  cases p.relationships.firstOfType? RelationshipType.officeDocument with
  | some r => exact Iff.rfl
  | none => exact eq_comm

/-- No part is named like a folder. -/
def WithoutFolders (p : Package) : Prop :=
  ∀ path ∈ p.paths, path.toList.getLast? ≠ some '/'

theorem readList_of_mem {α : Type} {parts : KeyMap ByteArray} {path xml : String} {list : α}
    {read : List Symbol → Except PartFault α} (absent : Except Failure α)
    (h : (path, xml.toUTF8) ∈ parts.entries) (hread : read (Symbol.read xml.toUTF8) = .ok list) :
    readList parts path absent read = .ok list := by
  rw [readList, KeyMap.find?_eq_some_iff.mpr h]
  simp only [hread]
  rfl

/-- What is unpacked is what was packed, folders left out. -/
theorem filter_archive (h : p.Apart) (hfolders : p.WithoutFolders) :
    (p.archive []).entries.filter (fun e => e.1.toList.getLast? ≠ some '/') =
      (p.archive []).entries := by
  refine List.filter_eq_self.mpr fun e he => decide_eq_true ?_
  rcases h.mem_archive.mp he with he | he
  · exact hfolders e.1 (List.mem_map_of_mem he)
  · simp only [lists, List.mem_cons, List.not_mem_nil, or_false] at he
    have hpath : e.1 = typesPath ∨ e.1 = relationshipsPath ∨ e.1 = p.mainRelationshipsPath :=
      he.imp (congrArg Prod.fst) (.imp (congrArg Prod.fst) (congrArg Prod.fst))
    rcases hpath with hpath | hpath | hpath <;> rw [hpath]
    · decide
    · decide
    · intro hslash
      exact absurd ((getLast?_relationshipsPathOf p.mainPart).symm.trans hslash) (by decide)

theorem Sound.ofArchive_archive (sound : p.Sound) (h : p.Apart) (hmain : p.FindsMainPart)
    (hfolders : p.WithoutFolders) : Package.ofArchive (p.archive []) = .ok p := by
  let all := KeyMap.ofList (p.archive []).entries
  have hall : ∀ e, e ∈ all.entries ↔ e ∈ p.parts.entries ∨ e ∈ p.lists := by
    intro e
    rw [← h.mem_archive]
    exact KeyMap.mem_ofList (KeyMap.nodup_keys _)
  obtain ⟨hdistinct, hmainTypes, hmainRelationships⟩ :
      typesPath ≠ relationshipsPath ∧ p.mainRelationshipsPath ≠ typesPath ∧
        p.mainRelationshipsPath ≠ relationshipsPath :=
    ⟨by decide, relationshipsPathOf_ne_typesPath _, relationshipsPathOf_ne h.mainPart⟩
  have htypes : readList all typesPath (.error (.missingPart typesPath)) ContentTypes.read =
      .ok p.types :=
    readList_of_mem _ ((hall _).mpr (.inr (by simp [lists]))) (ContentTypes.read_xml sound.types)
  have hrelationships : readList (all.erase typesPath) relationshipsPath (.ok {})
      Relationships.read = .ok p.relationships := by
    refine readList_of_mem _ (KeyMap.mem_erase.mpr ⟨(hall _).mpr (.inr ?_), hdistinct.symm⟩)
      (Relationships.read_xml sound.relationships)
    simp [lists]
  have hmainList : readList ((all.erase typesPath).erase relationshipsPath)
      p.mainRelationshipsPath (.ok {}) Relationships.read = .ok p.mainRelationships := by
    refine readList_of_mem _ (KeyMap.mem_erase.mpr ⟨KeyMap.mem_erase.mpr ⟨(hall _).mpr (.inr ?_),
      hmainTypes⟩, hmainRelationships⟩) (Relationships.read_xml sound.mainRelationships)
    simp [lists]
  unfold Package.ofArchive
  rw [filter_archive h hfolders]
  refine bind_eq_ok.mpr ⟨_, htypes, bind_eq_ok.mpr ⟨_, hrelationships, ?_⟩⟩
  rw [← statedMainPart, findsMainPart_iff.mp hmain]
  refine bind_eq_ok.mpr ⟨_, hmainList, ?_⟩
  rw [← mainRelationshipsPath, h.erase_lists hall]
  rfl

/-- Writing a package and reading the archive gives the package back. The entries are in the order
of their paths, each path once, and are the parts and the lists. -/
theorem Built.read_archive {p : Package} (built : p.Built) (h : p.Apart) (hmain : p.FindsMainPart)
    (hfolders : p.WithoutFolders) :
    Package.ofArchive (p.archive []) = .ok p ∧
      ((p.archive []).entries.map Prod.fst).Pairwise (· < ·) ∧
        ∀ e, e ∈ (p.archive []).entries ↔ e ∈ p.parts.entries ∨ e ∈ p.lists :=
  ⟨built.sound.ofArchive_archive h hmain hfolders, sorted_archive p, fun _ => h.mem_archive⟩

/-- A package with a picture and a link, from which a part was taken again. -/
def illustrated : Package :=
  let p := (Package.ofMainPart "/word/document.xml").putText "word/document.xml" "<w:document/>"
  let p := (p.put "word/media/image1.png" ⟨#[137, 80, 78, 71]⟩).setDefaultType ".PNG" "image/png"
  let p := p.addMainRelationship "rId1" RelationshipType.image "media/image1.png"
  let p := p.addMainRelationship "rId2" RelationshipType.hyperlink "https://localhost/?a=\"1\"&b=<2>"
  let p := (p.putText "word/styles.xml" "<w:styles/>").setType "word/styles.xml" ContentType.styles
  (p.remove "word/styles.xml").2

theorem Built.read_archive_illustrated :
    (illustrated.Built ∧ illustrated.Apart ∧ illustrated.FindsMainPart ∧
      illustrated.WithoutFolders) ∧
    Package.ofArchive (illustrated.archive []) = .ok illustrated ∧
      ((illustrated.archive []).entries.map Prod.fst).Pairwise (· < ·) ∧
        ∀ e, e ∈ (illustrated.archive []).entries ↔
          e ∈ illustrated.parts.entries ∨ e ∈ illustrated.lists := by
  have built : illustrated.Built :=
    .remove _ (.setType _ _ (.put _ _ (.addMainRelationship _ _ _ (.addMainRelationship _ _ _
      (.setDefaultType _ _ (.put _ _ (.put _ _ (.ofMainPart _))))))))
  have hpaths : illustrated.paths = ["word/document.xml", "word/media/image1.png"] := by
    decide +kernel
  have apart : illustrated.Apart := by
    refine ⟨by decide +kernel, ?_⟩
    rw [hpaths]
    decide +kernel
  have folders : illustrated.WithoutFolders := by
    unfold WithoutFolders
    rw [hpaths]
    decide +kernel
  have finds : illustrated.FindsMainPart := by
    have hfirst : illustrated.relationships.firstOfType? RelationshipType.officeDocument =
        some ⟨"rId1", RelationshipType.officeDocument, "word/document.xml", false⟩ := by
      decide +kernel
    unfold FindsMainPart
    rw [hfirst]
    decide +kernel
  exact ⟨⟨built, apart, finds, folders⟩, built.read_archive apart finds folders⟩

end Package

end Letterpress
