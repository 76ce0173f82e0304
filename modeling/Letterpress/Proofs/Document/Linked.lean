import Letterpress.Proofs.Body.Forms
import Letterpress.Proofs.Body.RoundTrip
import Letterpress.Proofs.Document.FreshIds
import Letterpress.Proofs.Document.Targets
import Letterpress.Proofs.Package.Unpacking

/-!
# Parts that are linked, and reopened

Where a part is added with a relationship, the relationship leads to it, and the part has its
contents and its type. So it does after the document has been written and opened again, unless the
part is one of those that are written anew, or the package states another main part.
-/

namespace Letterpress

open Markup Text

namespace Document

/-- A relationship leads to a part with these contents and this type. -/
structure Leads (d : Document) (id path : String) (contents : ByteArray) (type : String) : Prop where
  target : ∃ r, d.package.mainRelationships.find? id = some r ∧
    resolveTarget d.mainFolder r.target = path
  contents : d.package.get? path = some contents
  type : d.package.types.type? path = some type

/-- The parts that are written anew. -/
def generatedPaths (d : Document) : List String :=
  d.package.lists.map Prod.fst ++ d.package.mainPart :: d.catalogStyles.map Prod.fst

variable {d d' e : Document} {a : Archive} {id path type relationship : String}
  {contents : ByteArray}

/-- The part is stored, and then the main part leads to it by the next id. -/
theorem addPart_eq_ok (hpath : IsPath path)
    (h : d.addPart path contents type (some relationship) = (.ok (some id), d')) :
    ∃ ids, d' = { d with
      ids
      package := ((d.package.put path contents).setType path type).addMainRelationship id relationship
        (relativeTarget d.mainFolder path) } := by
  simp only [addPart, hpath.withoutSlash_eq, addRelationship] at h
  cases hid : (d.putPart path contents type).ids.issueRelationship? with
  | none => rw [hid] at h; cases h
  | some issued =>
    rw [hid] at h
    cases h
    exact ⟨_, rfl⟩

theorem leads_of_addPart_eq_ok (hpath : IsPath path)
    (h : d.addPart path contents type (some relationship) = (.ok (some id), d')) :
    d'.Leads id path contents type := by
  obtain ⟨ids, rfl⟩ := addPart_eq_ok hpath h
  refine ⟨⟨_, Relationships.find?_put _ _, resolveTarget_relativeTarget _ hpath⟩, ?_, ContentTypes.type?_addOverride _ _ _⟩
  exact KeyMap.find?_insert_self _ _ _

/-- A part that is not written anew is unpacked as it was. -/
theorem find?_unpackedParts_of_not_mem {main : String} (hfree : path ∉ d.generatedPaths)
    (h : path.toList.getLast? ≠ some '/') :
    (d.package.unpackedParts ((d.package.mainPart, main.toUTF8) :: d.catalogStyles)).find? path =
      d.package.get? path := by
  rw [generatedPaths, List.mem_append, not_or] at hfree
  exact Package.find?_unpackedParts_of_not_mem hfree.1 hfree.2 h

/-- So it is found again. -/
theorem Leads.reopened (h : d.Leads id path contents type) (sound : d.package.Sound)
    (hmain : d.package.mainPart ≠ "") (hfinds : d.package.FindsMainPart) (hpath : IsPath path)
    (hfree : path ∉ d.generatedPaths) (ha : d.archive = .ok a) (he : ofArchive a = .ok e) :
    e.Leads id path contents type := by
  have hstated := Package.findsMainPart_iff.mp hfinds
  obtain ⟨main, -, ha⟩ := bind_eq_ok.mp ha
  cases ha
  rw [ofArchive, sound.ofArchive_of_findsMainPart hmain hfinds, ok_bind] at he
  obtain ⟨_, _, -, -, -, rfl⟩ := ofPackage_eq_ok.mp he
  -- Opening drops the main part and the list of its relationships; the part is neither.
  have hmain : path ≠ d.package.statedMainPart := by
    rintro rfl
    exact hfree (by simp [generatedPaths, hstated])
  have hlist : path ≠ relationshipsPathOf d.package.statedMainPart := by
    rintro rfl
    exact hfree (by simp [generatedPaths, Package.lists, Package.mainRelationshipsPath, hstated])
  refine ⟨?_, ?_, h.type⟩
  · have htarget := h.target
    rwa [mainFolder, ← hstated] at htarget
  · refine (KeyMap.find?_erase_of_ne hmain).trans ((Package.get?_reopened hlist).trans ?_)
    exact (find?_unpackedParts_of_not_mem hfree hpath.getLast?_ne).trans h.contents

theorem fault_join {root : List Piece} {tags : List Tag} (h : Adds (Piece.symbols root) tags) :
    (scan (Symbol.read (Piece.join (.verbatim declaration :: root)).toUTF8)).fault = none := by
  have hsource : Symbol.ofString (Piece.join (.verbatim declaration :: root)) =
      Symbol.ofString declaration ++ Piece.symbols root :=
    Piece.symbols_cons _ _
  have hxml := Adds.declaration.append h
  rw [← hsource] at hxml
  exact (hxml.scan_eq (by rw [hsource]; rfl)).2

theorem fault_of_mainPartXml {attributes : List (String × String)} {xml : String}
    (hquotes : ClosesQuotes (Piece.attributesSource (rootAttributes attributes)))
    (h : mainPartXml {} attributes = .ok xml) : (scan (Symbol.read xml.toUTF8)).fault = none := by
  cases h
  have hend : Adds (Piece.symbols [lineEnd]) [] := Adds.text (by decide)
  have hbody : Adds (Piece.symbols (Piece.element "w:body" [] [lineEnd])) [.written "w:body" []] :=
    hend.element ⟨by decide, by decide⟩
  have hlines := (hend.append hbody).append hend
  rw [← Piece.symbols_append, ← Piece.symbols_append] at hlines
  have hroot : Adds (Piece.symbols (Piece.element "w:document" (rootAttributes attributes) _)) _ :=
    hlines.element ⟨by decide, hquotes⟩
  exact fault_join hroot

theorem exists_archive (hform : d.body.hasForm) : ∃ xml, mainPartXml d.body d.attributes = .ok xml ∧
    d.archive = .ok (d.package.archive ((d.package.mainPart, xml.toUTF8) :: d.catalogStyles)) := by
  obtain ⟨xml, hxml⟩ := exists_of_isOk ((isOk_mainPartXml d.body d.attributes).trans hform)
  exact ⟨xml, hxml, by rw [archive, Document.xml, hxml]; rfl⟩

/-- An empty document is opened again. -/
theorem exists_ofArchive (sound : d.package.Sound) (hmain : IsPath d.package.mainPart)
    (hfinds : d.package.FindsMainPart) (hlists : d.package.mainPart ∉ d.package.lists.map Prod.fst)
    (hbody : d.body = {}) (hattributes : d.attributes = []) (hstyles : d.styles = none) :
    ∃ a e, d.archive = .ok a ∧ ofArchive a = .ok e := by
  obtain ⟨xml, hxml, ha⟩ := exists_archive (d := d) (by rw [hbody]; rfl)
  rw [hbody, hattributes] at hxml
  have hquotes : ClosesQuotes (Piece.attributesSource (rootAttributes [])) :=
    closesQuotes_rootAttributes fun _ h => absurd h List.not_mem_nil
  have hattributes : Attribute.Sound (rootAttributes []) :=
    sound_rootAttributes ⟨fun _ h => absurd h List.not_mem_nil, List.nodup_nil⟩
  have hread := read_written hattributes hquotes (by decide) hxml
  have hstated := Package.findsMainPart_iff.mp hfinds
  have hcatalog : d.catalogStyles = [] := by rw [catalogStyles, hstyles]
  have hlist : d.package.mainPart ≠ relationshipsPathOf d.package.statedMainPart := by
    intro heq
    rw [hstated] at heq
    exact hlists (heq ▸ by simp [Package.lists, Package.mainRelationshipsPath])
  have hget : (d.package.reopened ((d.package.mainPart, xml.toUTF8) :: d.catalogStyles)
      d.package.mainRelationships).get? d.package.statedMainPart = some xml.toUTF8 := by
    rw [hstated, Package.get?_reopened hlist, Package.find?_unpackedParts hlists hmain.getLast?_ne,
      hcatalog]
    simp
  have he := ofPackage_eq_ok.mpr ⟨_, _, hget, hread, fault_of_mainPartXml hquotes hxml, rfl⟩
  have hunpacked := sound.ofArchive_of_findsMainPart hmain.ne_empty hfinds
    ((d.package.mainPart, xml.toUTF8) :: d.catalogStyles)
  exact ⟨_, _, ha, bind_eq_ok.mpr ⟨_, hunpacked, he⟩⟩

/-- If the package states another main part, this one is opened, with its own relationships. -/
theorem exists_ofArchive_stated (sound : d.package.Sound) (hmain : d.package.mainPart ≠ "")
    (hform : d.body.hasForm) (hfree : d.package.statedMainPart ∉ d.generatedPaths)
    (hslash : d.package.statedMainPart.toList.getLast? ≠ some '/')
    (hlist : relationshipsPathOf d.package.statedMainPart ∉ d.generatedPaths)
    (habsent : d.package.get? (relationshipsPathOf d.package.statedMainPart) = none)
    {source : ByteArray} (hget : d.package.get? d.package.statedMainPart = some source)
    {main : MainPart} (hread : MainPart.read (Symbol.read source) = .ok main)
    (hfault : (scan (Symbol.read source)).fault = none) :
    ∃ a e, d.archive = .ok a ∧ ofArchive a = .ok e ∧ e.package.mainRelationships = {} := by
  obtain ⟨xml, -, ha⟩ := exists_archive hform
  have hread? : Package.readList
      (d.package.unpackedParts ((d.package.mainPart, xml.toUTF8) :: d.catalogStyles))
      (relationshipsPathOf d.package.statedMainPart) (.ok {}) Relationships.read = .ok {} := by
    have hlast := getLast?_relationshipsPathOf d.package.statedMainPart
    rw [Package.readList, find?_unpackedParts_of_not_mem hlist (by rw [hlast]; decide), habsent]
  have hne : d.package.statedMainPart ≠ relationshipsPathOf d.package.statedMainPart := by
    intro heq
    rw [← heq, hget] at habsent
    cases habsent
  have hsource : (d.package.reopened ((d.package.mainPart, xml.toUTF8) :: d.catalogStyles) {}).get?
      d.package.statedMainPart = some source :=
    (Package.get?_reopened hne).trans ((find?_unpackedParts_of_not_mem hfree hslash).trans hget)
  have hunpacked := sound.ofArchive_eq hmain
    ((d.package.mainPart, xml.toUTF8) :: d.catalogStyles)
  rw [hread?] at hunpacked
  have he := ofPackage_eq_ok.mpr ⟨_, _, hsource, hread, hfault, rfl⟩
  exact ⟨_, _, ha, bind_eq_ok.mpr ⟨_, hunpacked, he⟩, rfl⟩

/-! ### Linked parts -/

/-- The target of a path leads to it. So the relationship of a part that is added leads to the
part, which has the contents and the type given for it, also after the document has been written and
opened again: unless the part is one of those that are written anew, or the package states another
main part. -/
theorem leads_of_addPart (built : d.package.Built) (hmain : IsPath d.package.mainPart)
    (hpath : IsPath path) : resolveTarget d.mainFolder (relativeTarget d.mainFolder path) = path ∧
      ∀ contents type relationship id d',
        d.addPart path contents type (some relationship) = (.ok (some id), d') →
          d'.Leads id path contents type ∧
            (d'.package.FindsMainPart → path ∉ d'.generatedPaths → ∀ a e, d'.archive = .ok a →
              ofArchive a = .ok e → e.Leads id path contents type) := by
  refine ⟨resolveTarget_relativeTarget _ hpath, fun contents type relationship id d' h => ?_⟩
  have hleads := leads_of_addPart_eq_ok hpath h
  refine ⟨hleads, fun hfinds hfree a e ha he => ?_⟩
  obtain ⟨ids, rfl⟩ := addPart_eq_ok hpath h
  have built' := ((built.put path contents).setType path type).addMainRelationship id relationship
    (relativeTarget d.mainFolder path)
  exact hleads.reopened built'.sound hmain.ne_empty hfinds hpath hfree ha he

/-- A picture is found again. -/
theorem leads_of_addPart_picture :
    let d : Document := { package := .ofMainPart "word/document.xml" }
    let path := "word/media/a.png"
    let picture : ByteArray := ⟨#[137, 80, 78, 71]⟩
    (d.package.Built ∧ IsPath d.package.mainPart ∧ IsPath path) ∧ ∃ d' a e,
      d.addPart path picture "image/png" (some RelationshipType.image) =
        (.ok (some "rId1"), d') ∧
      d'.Leads "rId1" path picture "image/png" ∧
      (d'.package.FindsMainPart ∧ path ∉ d'.generatedPaths ∧ d'.archive = .ok a ∧
        ofArchive a = .ok e) ∧
      e.Leads "rId1" path picture "image/png" := by
  intro d path picture
  have built : d.package.Built := .ofMainPart _
  have hmain : IsPath d.package.mainPart := by decide +kernel
  have hpath : IsPath path := by decide +kernel
  let d' := (d.addPart path picture "image/png" (some RelationshipType.image)).2
  have hadd : d.addPart path picture "image/png" (some RelationshipType.image) =
      (.ok (some "rId1"), d') := by
    refine Prod.ext ?_ rfl
    decide +kernel
  have built' : d'.package.Built := .addMainRelationship _ _ _ (.setType _ _ (.put _ _ built))
  have hfinds : d'.package.FindsMainPart :=
    Package.findsMainPart_iff.mpr (by decide +kernel)
  have hfree : path ∉ d'.generatedPaths := by decide +kernel
  obtain ⟨a, e, ha, he⟩ := exists_ofArchive (d := d') built'.sound hmain hfinds (by decide +kernel)
    rfl rfl rfl
  obtain ⟨-, hleads⟩ := leads_of_addPart built hmain hpath
  obtain ⟨hbefore, hafter⟩ := hleads picture "image/png" RelationshipType.image "rId1" d' hadd
  exact ⟨⟨built, hmain, hpath⟩, d', a, e, hadd, hbefore, ⟨hfinds, hfree, ha, he⟩,
    hafter hfinds hfree a e ha he⟩

/-- A styles part is not found again if the package states another main part. -/
theorem not_leads_of_addPart :
    let main := "<document><body></body></document>"
    let p := ((Package.ofMainPart "word/document.xml").putText "other.xml" main).addRelationship
      "rId1" RelationshipType.officeDocument "other.xml"
    let d : Document := { package := p }
    let path := "word/s.xml"
    (d.package.Built ∧ IsPath d.package.mainPart ∧ IsPath path) ∧ ∃ d' a e,
      d.addPart path .empty ContentType.styles (some RelationshipType.styles) =
        (.ok (some "rId1"), d') ∧
      path ∉ d'.generatedPaths ∧ d'.archive = .ok a ∧ ofArchive a = .ok e ∧
        ¬e.Leads "rId1" path .empty ContentType.styles := by
  intro main p d path
  let d' := (d.addPart path .empty ContentType.styles (some RelationshipType.styles)).2
  have hadd : d.addPart path .empty ContentType.styles (some RelationshipType.styles) =
      (.ok (some "rId1"), d') := by
    refine Prod.ext ?_ rfl
    decide +kernel
  have built : d.package.Built := .addRelationship _ _ _ (.put _ _ (.ofMainPart _))
  have built' : d'.package.Built := .addMainRelationship _ _ _ (.setType _ _ (.put _ _ built))
  have hread : (MainPart.read (Symbol.read main.toUTF8)).isOk := by decide +kernel
  obtain ⟨m, hread⟩ := exists_of_isOk hread
  have hother : d'.package.statedMainPart = "other.xml" := by decide +kernel
  have hget : d'.package.get? d'.package.statedMainPart = some main.toUTF8 := by
    rw [hother]
    decide +kernel
  obtain ⟨a, e, ha, he, hnone⟩ := exists_ofArchive_stated (d := d') built'.sound (by decide +kernel)
    rfl (by decide +kernel) (by decide +kernel) (by decide +kernel) (by decide +kernel) hget hread
    (by decide +kernel)
  refine ⟨⟨built, by decide +kernel, by decide +kernel⟩, d', a, e, hadd, by decide +kernel, ha, he, ?_⟩
  rintro ⟨⟨r, hr, -⟩, -, -⟩
  rw [hnone] at hr
  cases hr

end Document

end Letterpress
