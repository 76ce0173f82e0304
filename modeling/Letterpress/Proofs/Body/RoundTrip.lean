import Letterpress.Proofs.Body.Elements
import Letterpress.Proofs.Body.Steps

/-!
# A main part is read back

The body of a written main part is read back in its normal form, and the attributes of its root are
read back with the namespaces they lacked.
-/

namespace Letterpress

open Markup Markup.Content Markup.Piece Text

namespace MainPart

/-- The attributes of a root that is read can be written. -/
theorem Partial.sound_read {m m' : Partial} (c : Content) (h : m.read c = .ok m')
    (hm : Attribute.Sound m.attributes) : Attribute.Sound m'.attributes := by
  induction c generalizing m m' with
  | done => cases h; exact hm
  | cut fault =>
    cases fault with
    | none => cases h; exact hm
    | some fault => cases h
  | element tag inner rest ihInner ihRest =>
    obtain ⟨next, hstep, hrest⟩ := exists_step h
    refine ihRest hrest ?_
    cases hstep with
    | document _ hinner => exact ihInner hinner tag.sound_texts
    | body | passed => exact hm
  | empty tag rest ih =>
    refine ih h ?_
    split
    · exact hm
    · exact hm
  | text content rest ih => exact ih h hm
  | cdata content rest ih => exact ih h hm
  | aside source rest ih => exact ih h hm

theorem sound_attributes {source : List Symbol} {attributes : List (String × String)}
    (h : (read source).map (·.attributes) = .ok attributes) : Attribute.Sound attributes := by
  obtain ⟨m, hm, rfl⟩ := map_eq_ok.mp h
  exact Partial.sound_read _ (read_eq_ok.mp hm)
    ⟨fun _ h => absurd h List.not_mem_nil, List.nodup_nil⟩

end MainPart

theorem isPlain_of_mem_defaultNamespaces : ∀ n ∈ defaultNamespaces, isPlain n.1 := by decide

theorem mem_rootAttributes {attributes : List (String × String)} {a : String × String}
    (h : a ∈ rootAttributes attributes) : a ∈ attributes ∨ a ∈ defaultNamespaces := by
  rw [rootAttributes, List.mem_append] at h
  exact h.imp_right List.mem_of_mem_filter

theorem sound_rootAttributes {attributes : List (String × String)}
    (h : Attribute.Sound attributes) :
    Attribute.Sound (rootAttributes attributes) := by
  refine ⟨fun a ha => ?_, ?_⟩
  · rcases mem_rootAttributes ha with ha | ha
    · exact h.names a ha
    · exact soundName_of_isPlain (isPlain_of_mem_defaultNamespaces a ha)
  · rw [rootAttributes, List.map_append, List.nodup_append]
    have hdefault : (defaultNamespaces.map Prod.fst).Nodup := by decide
    refine ⟨h.nodup, hdefault.sublist (List.filter_sublist.map _), ?_⟩
    intro name hname other hother heq
    subst heq
    obtain ⟨a, ha, rfl⟩ := List.mem_map.mp hname
    obtain ⟨n, hn, hsame⟩ := List.mem_map.mp hother
    have habsent := (List.mem_filter.mp hn).2
    simp only [Bool.not_eq_true', List.any_eq_false, decide_eq_true_eq] at habsent
    exact habsent a ha hsame.symm

/-- The tag of the root ends where it should if this holds of the attributes that it is given. -/
theorem closesQuotes_rootAttributes {attributes : List (String × String)}
    (h : ∀ a ∈ attributes, ClosesQuotes a.1) :
    ClosesQuotes (attributesSource (rootAttributes attributes)) := by
  refine closesQuotes_attributesSource fun a ha => ?_
  rcases mem_rootAttributes ha with ha | ha
  · exact h a ha
  · exact closesQuotes_of_isPlain (isPlain_of_mem_defaultNamespaces a ha)

/-! ### The whole text -/

/-- The declaration before the root, and the line end behind it, are passed over. -/
theorem read_declaration {rest : List Symbol} (h : rest.head? = some (.char '<')) : ∃ instruction,
    Content.read (Symbol.ofString declaration ++ rest) =
      aside instruction (text [.char '\n'] (nested [] rest).here) := by
  obtain ⟨instruction, hscan, hdeclaration⟩ : ∃ w : String,
      scanMarkup (Symbol.ofString w) = .ok (.aside (.char '<' :: Symbol.ofString w), []) ∧
        Symbol.ofString declaration = .char '<' :: (Symbol.ofString w ++ [Symbol.char '\n']) :=
    ⟨"?xml version=\"1.0\" encoding=\"UTF-8\" standalone=\"yes\"?>", by decide +kernel,
      by decide +kernel⟩
  obtain ⟨used, hused, hscan⟩ := settles_scanMarkup _ hscan
  rw [hused, List.append_nil] at hdeclaration
  rw [hdeclaration, List.cons_append, read_markup, List.append_assoc, nested_markup (hscan _) rfl,
    nested_text (List.cons_ne_nil _ _) (by decide) (.inr h)]
  exact ⟨_, rfl⟩

/-- A text is read as the root around its pieces. -/
theorem read_root {name : String} {attributes : List (String × String)} {pieces : List Piece}
    {k : Content → Content} (h : Within pieces k) (hw : Tag.IsWritten name attributes) :
    ∃ instruction,
      Content.read (Symbol.read
        (join (.verbatim declaration :: Piece.element name attributes pieces)).toUTF8) =
      aside instruction (text [.char '\n']
        (element (.written name attributes) (k done) (cut none))) := by
  have hsource : Symbol.ofString
      (join (.verbatim declaration :: Piece.element name attributes pieces)) =
      Symbol.ofString declaration ++ symbols (Piece.element name attributes pieces) :=
        symbols_cons _ _
  have hroot := h.nested_element hw [] []
  rw [List.append_nil, nested_nil] at hroot
  have hstart : (symbols (Piece.element name attributes pieces)).head? = some (.char '<') :=
    head?_symbols_element
  obtain ⟨instruction, hread⟩ := read_declaration hstart
  exact ⟨instruction, by rw [Symbol.read_toUTF8, hsource, hread, hroot]; rfl⟩

/-- A written main part is read back, if the tag of its root ends where it should. -/
theorem read_written {b : Body} {attributes : List (String × String)} {xml : String}
    (sound : Attribute.Sound (rootAttributes attributes))
    (hquotes : ClosesQuotes (attributesSource (rootAttributes attributes)))
    (hk : b.keeps) (h : mainPartXml b attributes = .ok xml) :
    MainPart.read (Symbol.read xml.toUTF8) = .ok ⟨rootAttributes attributes, b.normalize⟩ := by
  obtain ⟨body, hbody, h⟩ := bind_eq_ok.mp h
  cases h
  obtain ⟨inner, rfl, k, within, hread⟩ := Body.fills hk hbody
  have line : Lines (Piece.element "w:body" [] inner ++ [Piece.text "\n"]) _ :=
    (Reads.element within ⟨by decide, by decide⟩).line head?_symbols_element (by decide)
  have lines : Within
      ([Piece.text "\n"] ++ (Piece.element "w:body" [] inner ++ [Piece.text "\n"])) _ :=
    (Within.text (by decide)).append line
  have root : Within (lineEnd :: Piece.element "w:body" [] inner ++ [lineEnd]) _ := lines
  have written : Tag.IsWritten "w:document" (rootAttributes attributes) := ⟨by decide, hquotes⟩
  obtain ⟨instruction, hroot⟩ := read_root root written
  have hdocument : (Tag.written "w:document" (rootAttributes attributes)).label = "document" :=
    (Tag.label_written (by decide)).trans (by decide)
  have htexts : (Tag.written "w:document" (rootAttributes attributes)).texts =
      rootAttributes attributes :=
    Tag.texts_written (by decide) sound
  have hlabel : (Tag.written "w:body" []).label = "body" :=
    (Tag.label_written (by decide)).trans (by decide)
  rw [MainPart.read, hroot]
  simp [MainPart.Partial.read, hdocument, hlabel, htexts, hread]
  rfl

/-- Attributes that are read may be written, unless the tag they are written in does not end where it
should. -/
theorem read_mainPartXml {b : Body} {attributes : List (String × String)} {xml : String}
    (hattributes : attributes = [] ∨
      (∃ source, (MainPart.read source).map (·.attributes) = .ok attributes) ∧
        ClosesQuotes (attributesSource (rootAttributes attributes)))
    (hk : b.keeps) (h : mainPartXml b attributes = .ok xml) :
    MainPart.read (Symbol.read xml.toUTF8) = .ok ⟨rootAttributes attributes, b.normalize⟩ := by
  obtain ⟨sound, hquotes⟩ : Attribute.Sound (rootAttributes attributes) ∧
      ClosesQuotes (attributesSource (rootAttributes attributes)) := by
    rcases hattributes with rfl | ⟨⟨source, hsource⟩, hquotes⟩
    · exact ⟨sound_rootAttributes ⟨fun _ h => absurd h List.not_mem_nil, List.nodup_nil⟩,
        closesQuotes_rootAttributes fun _ h => absurd h List.not_mem_nil⟩
    · exact ⟨sound_rootAttributes (MainPart.sound_attributes hsource), hquotes⟩
  exact read_written sound hquotes hk h

theorem read_mainPartXml_graphic : ∃ xml,
    mainPartXml
      ⟨[.setup {},
        .paragraph { runs := [{ properties := { bold := true, underline := some "none" }
                                content := .text " a < b", link := some { anchor := some "top" } },
                              { content := .drawing "<w:pict><v:shape id=\"1\"/></w:pict>" },
                              { properties := { bold := true }, content := .bookmarkStart ⟨1, "x"⟩ }] },
        .control { id := some 7 }
          [.table { rows := [{ cells := [{ properties := { shading := some "<w:shd/>" } }] }] }]]⟩
      [("a", "b")] = .ok xml ∧
    MainPart.read (Symbol.read xml.toUTF8) = .ok
      ⟨rootAttributes [("a", "b")],
        ⟨[.paragraph { runs := [{ properties := { bold := true }
                                  content := .text " a < b", link := some { anchor := some "top" } },
                                { content := .drawing "<w:pict><v:shape id=\"1\"/></w:pict>" },
                                { content := .bookmarkStart ⟨1, "x"⟩ }] },
          .control { id := some 7 }
            [.table { rows := [{ cells := [{ properties := { shading := some "<w:shd/>" }, paragraphs := [{}] }] }] }],
          .setup {}]⟩⟩ := by
  have hsource : (MainPart.read (Symbol.ofString "<w:document a=\"b\"><w:body/></w:document>")).map
      (·.attributes) = .ok [("a", "b")] := by decide +kernel
  refine Exists.imp (fun xml hxml => ⟨hxml, ?_⟩) (exists_of_isOk ?_)
  · exact read_mainPartXml (.inr ⟨⟨_, hsource⟩, closesQuotes_rootAttributes (by decide)⟩)
      (by decide +kernel) hxml
  · decide +kernel

/-- Attributes of which one has a quote in its name. -/
def quotedAttributes : List (String × String) :=
  (defaultNamespaces.map fun n => (n.1, "")) ++ [("a\"b", "x")]

theorem read_quotedAttributes :
    MainPart.read (Symbol.ofString
      ("<w:document xmlns:w=\"\" xmlns:r=\"\" xmlns:wp=\"\" xmlns:a=\"\" " ++
      "xmlns:pic=\"\" xmlns:mc=\"\" xmlns:v=\"\" xmlns:o=\"\" a\"b=\"x\" \"><w:body/></w:document>")) =
        .ok ⟨quotedAttributes, {}⟩ := by
  obtain ⟨⟨attributes, ⟨elements⟩⟩, hread, hm⟩ := map_eq_ok.mp (show (MainPart.read (Symbol.ofString
      ("<w:document xmlns:w=\"\" xmlns:r=\"\" xmlns:wp=\"\" xmlns:a=\"\" " ++
      "xmlns:pic=\"\" xmlns:mc=\"\" xmlns:v=\"\" xmlns:o=\"\" a\"b=\"x\" \"><w:body/></w:document>"))).map
        (fun m => (m.attributes, m.body.elements.isEmpty)) = .ok (quotedAttributes, true) by
    rw [Symbol.ofString_append, Symbol.ofString_ofList, Symbol.ofString_ofList]
    decide +kernel)
  rw [Prod.mk.injEq, List.isEmpty_iff] at hm
  obtain ⟨rfl, helements⟩ := hm
  cases (helements : elements = [])
  exact hread

/-- The quote is open where the written tag should end. -/
theorem not_read_quotedAttributes {xml : String} (h : mainPartXml {} quotedAttributes = .ok xml)
    (m : MainPart) : MainPart.read (Symbol.read xml.toUTF8) ≠ .ok m := by
  let root := Piece.element "w:document" (rootAttributes quotedAttributes)
    (lineEnd :: Piece.element "w:body" [] [lineEnd] ++ [lineEnd])
  have hattributes : attributesSource (rootAttributes quotedAttributes) =
      " xmlns:w=\"\" xmlns:r=\"\" xmlns:wp=\"\" xmlns:a=\"\" " ++
      "xmlns:pic=\"\" xmlns:mc=\"\" xmlns:v=\"\" xmlns:o=\"\" a\"b=\"x\"" := by
    decide +kernel
  have hfails : (MainPart.read (symbols (.verbatim declaration :: root))).isOk = false := by
    simp only [root, Piece.element, List.cons_append, symbols_cons, ofString_opening,
      Tag.content_written, hattributes, Symbol.ofString_append]
    decide +kernel
  intro hread
  obtain ⟨body, hbody, h⟩ := bind_eq_ok.mp h
  cases hbody
  cases h
  rw [Symbol.read_toUTF8] at hread
  exact Bool.false_ne_true (hfails.symm.trans (congrArg Except.isOk hread))

/-- A quote in a name may be closed in the tag that is read and be open where the written tag ends. -/
theorem read_mainPartXml_ne : ∃ attributes xml,
    (MainPart.read (Symbol.ofString
      ("<w:document xmlns:w=\"\" xmlns:r=\"\" xmlns:wp=\"\" xmlns:a=\"\" " ++
      "xmlns:pic=\"\" xmlns:mc=\"\" xmlns:v=\"\" xmlns:o=\"\" a\"b=\"x\" \"><w:body/></w:document>"))).map
        (·.attributes) = .ok attributes ∧
      Body.keeps {} ∧ mainPartXml {} attributes = .ok xml ∧
        MainPart.read (Symbol.read xml.toUTF8) ≠ .ok
          ⟨rootAttributes attributes, Body.normalize {}⟩ := by
  refine ⟨quotedAttributes, _, ?_, rfl, rfl, not_read_quotedAttributes rfl _⟩
  rw [read_quotedAttributes]
  rfl

end Letterpress
