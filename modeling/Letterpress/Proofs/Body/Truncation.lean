import Letterpress.Proofs.Body.Steps
import Letterpress.Proofs.Body.Taking
import Letterpress.Proofs.Markup.Truncated

/-!
# A main part that is cut off

Every reader of a content that is cut off fails. So a main part that is cut off before the end of
its body is no main part.
-/

namespace Letterpress

open Markup Markup.Content Text

namespace Markup.Content

variable {σ : Type} {c : Content}

theorem cut?_of_skip {u : Unit} (h : c.skip = .ok u) : c.cut? = none := by
  unfold skip at h
  split at h
  · cases h
  · assumption

theorem cut?_of_elementText {tag : Tag} {s : String} (h : elementText tag c = .ok s) :
    c.cut? = none := by
  obtain ⟨u, hskip, -⟩ := bind_eq_ok.mp h
  exact cut?_of_skip hskip

/-- A step that reads what is in an element to the end. -/
def Finishes (f : σ → Child → Except PartFault σ) : Prop :=
  ∀ {s tag inner s'}, f s (.element tag inner) = .ok s' → inner.cut? = none

theorem Finishes.foldChildren {f : σ → Child → Except PartFault σ} (hf : Finishes f) {s s' : σ}
    (h : foldChildren f s c = .ok s') : c.cut? = none := by
  induction c generalizing s with
  | done => rfl
  | cut fault => cases h
  | element tag inner rest _ ih =>
    obtain ⟨next, hinner, hrest⟩ := bind_eq_ok.mp h
    exact cut?_element.mpr ⟨hf hinner, ih hrest⟩
  | empty tag rest ih | text content rest ih | cdata content rest ih =>
    obtain ⟨next, -, hrest⟩ := bind_eq_ok.mp h
    exact ih hrest
  | aside source rest ih => exact ih h

theorem cut?_of_foldTags {f : σ → Tag → σ} {s s' : σ} (h : foldTags f s c = .ok s') :
    c.cut? = none := by
  refine Finishes.foldChildren (fun h => ?_) h
  obtain ⟨u, hskip, -⟩ := bind_eq_ok.mp h
  exact cut?_of_skip hskip

end Markup.Content

theorem cut?_of_readText {c : Content} {s : String} (h : readText c = .ok s) : c.cut? = none := by
  refine Finishes.foldChildren (fun h => ?_) h
  obtain ⟨u, hskip, -⟩ := bind_eq_ok.mp h
  exact cut?_of_skip hskip

theorem RunParts.finishes_child : Finishes child := by
  intro p tag inner p' h
  cases step_of_child h with
  | properties _ hread => exact cut?_of_foldTags hread
  | words _ hread | code _ hread => exact cut?_of_readText hread
  | drawing _ hread => exact cut?_of_elementText hread
  | mark _ _ _ _ hskip => exact cut?_of_skip hskip

theorem cut?_of_readRuns {c : Content} : ∀ {link : Option Hyperlink} {runs : List Run},
    readRuns link c = .ok runs → c.cut? = none := by
  induction c with
  | done => exact fun _ => rfl
  | cut fault => exact fun h => by cases h
  | element tag inner rest ihInner ihRest =>
    intro link runs h
    obtain ⟨here, more, hhere, hmore, -⟩ := exists_runsOf h
    refine cut?_element.mpr ⟨?_, ihRest hmore⟩
    cases hhere with
    | run _ hparts => exact RunParts.finishes_child.foldChildren hparts
    | hyperlink _ hruns | group _ hruns => exact ihInner hruns
    | mark _ _ _ hskip => exact cut?_of_skip hskip
  | empty tag rest ih =>
    intro link runs h
    obtain ⟨more, hmore, -⟩ := exists_readRuns_of_empty h
    exact ih hmore
  | text content rest ih | cdata content rest ih | aside source rest ih => exact ih

theorem ParagraphParts.cut?_of_read {c : Content} : ∀ {p p' : ParagraphParts},
    p.read c = .ok p' → c.cut? = none := by
  induction c with
  | done => exact fun _ => rfl
  | cut fault => exact fun h => by cases h
  | element tag inner rest ihInner ihRest =>
    intro p p' h
    rw [read] at h
    rw [cut?_element]
    split at h
    · obtain ⟨next, hinner, hrest⟩ := bind_eq_ok.mp h
      exact ⟨ihInner hinner, ihRest hrest⟩
    split at h
    · obtain ⟨s, hinner, hrest⟩ := bind_eq_ok.mp h
      exact ⟨cut?_of_foldTags hinner, ihRest hrest⟩
    · obtain ⟨u, hskip, hrest⟩ := bind_eq_ok.mp h
      exact ⟨cut?_of_skip hskip, ihRest hrest⟩
  | empty tag rest ih => exact ih
  | text content rest ih | cdata content rest ih | aside source rest ih => exact ih

theorem Paragraph.finishes_child : Finishes child := by
  intro p tag inner p' h
  cases step_of_child h with
  | properties _ hread =>
    obtain ⟨parts, hparts, -⟩ := map_eq_ok.mp hread
    exact ParagraphParts.cut?_of_read hparts
  | runs _ hruns => exact (cut?_element.mp (cut?_of_readRuns hruns)).1

theorem finishes_applyOrKeep {σ : Type} (apply : σ → Tag → σ)
    (keep? : Tag → Option (String → σ → σ)) : Finishes (applyOrKeep apply keep?) := by
  intro s tag inner s' h
  rw [applyOrKeep] at h
  split at h
  · obtain ⟨text, htext, -⟩ := bind_eq_ok.mp h
    exact cut?_of_elementText htext
  · obtain ⟨u, hskip, -⟩ := bind_eq_ok.mp h
    exact cut?_of_skip hskip

theorem Cell.finishes_child : Finishes child := by
  intro c tag inner c' h
  cases step_of_child h with
  | properties _ hread => exact Finishes.foldChildren (finishes_applyOrKeep _ _) hread
  | paragraph _ hread => exact Paragraph.finishes_child.foldChildren hread
  | passed _ _ hskip => exact cut?_of_skip hskip

theorem Row.finishes_child : Finishes child := by
  intro r tag inner r' h
  cases step_of_child h with
  | properties _ hread => exact cut?_of_foldTags hread
  | cell _ hread => exact Cell.finishes_child.foldChildren hread
  | passed _ _ hskip => exact cut?_of_skip hskip

theorem Table.finishes_child : Finishes child := by
  intro t tag inner t' h
  cases step_of_child h with
  | properties _ hread => exact Finishes.foldChildren (finishes_applyOrKeep _ _) hread
  | grid _ hread => exact cut?_of_foldTags hread
  | row _ hread => exact Row.finishes_child.foldChildren hread
  | passed _ _ _ hskip => exact cut?_of_skip hskip

theorem ControlProperties.cut?_of_read {c : Content} : ∀ {p p' : ControlProperties},
    p.read c = .ok p' → c.cut? = none := by
  induction c with
  | done => exact fun _ => rfl
  | cut fault => exact fun h => by cases h
  | element tag inner rest ihInner ihRest =>
    intro p p' h
    rw [read] at h
    rw [cut?_element]
    split at h
    · obtain ⟨next, hinner, hrest⟩ := bind_eq_ok.mp h
      exact ⟨ihInner hinner, ihRest hrest⟩
    · obtain ⟨u, hskip, hrest⟩ := bind_eq_ok.mp h
      exact ⟨cut?_of_skip hskip, ihRest hrest⟩
  | empty tag rest ih => exact ih
  | text content rest ih | cdata content rest ih | aside source rest ih => exact ih

namespace Element

theorem cut?_of_read {c : Content} :
    (∀ {elements}, readAll c = .ok elements → c.cut? = none) ∧
      ∀ {p content result}, readControl p content c = .ok result → c.cut? = none := by
  induction c with
  | done => exact ⟨fun _ => rfl, fun _ => rfl⟩
  | cut fault =>
    refine ⟨fun h => ?_, fun h => ?_⟩
    · rw [readAll] at h
      cases h
    · rw [readControl] at h
      cases h
  | element tag inner rest ihInner ihRest =>
    refine ⟨fun h => ?_, fun h => ?_⟩
    · obtain ⟨here, more, hhere, hmore, -⟩ := exists_elementsOf h
      refine cut?_element.mpr ⟨?_, ihRest.1 hmore⟩
      cases hhere with
      | paragraph _ hread => exact Paragraph.finishes_child.foldChildren hread
      | table _ hread => exact Table.finishes_child.foldChildren hread
      | setup _ hread => exact cut?_of_foldTags hread
      | control _ hread => exact ihInner.2 hread
      | mark _ _ _ _ hskip => exact cut?_of_skip hskip
    · obtain ⟨p', content', hstep, hrest⟩ := exists_controlStep h
      refine cut?_element.mpr ⟨?_, ihRest.2 hrest⟩
      cases hstep with
      | properties _ hread => exact ControlProperties.cut?_of_read hread
      | content _ hread => exact ihInner.1 hread
      | passed _ _ hskip => exact cut?_of_skip hskip
  | empty tag rest ih =>
    refine ⟨fun h => ?_, fun h => ?_⟩
    · obtain ⟨more, hmore, -⟩ := exists_readAll_of_empty h
      exact ih.1 hmore
    · rw [readControl] at h
      exact ih.2 h
  | text content rest ih | cdata content rest ih | aside source rest ih =>
    exact ⟨fun h => ih.1 (by rwa [readAll] at h), fun h => ih.2 (by rwa [readControl] at h)⟩

end Element

/-! ### Bodies -/

namespace MainPart

/-- How many bodies are closed in a content of the root or around it. -/
def bodies : Content → Nat
  | .done => 0
  | .cut _ => 0
  | .element tag inner rest =>
    (if tag.label = "document" then bodies inner
      else if tag.label = "body" ∧ inner.cut? = none then 1
      else 0) + bodies rest
  | .empty tag rest => (if tag.label = "body" then 1 else 0) + bodies rest
  | .text _ rest => bodies rest
  | .cdata _ rest => bodies rest
  | .aside _ rest => bodies rest

/-- A body that is read is closed. -/
theorem Partial.body_of_read {c : Content} (hc : bodies c = 0) {m m' : Partial}
    (h : m.read c = .ok m') : m'.body = m.body := by
  induction c generalizing m m' with
  | done => cases h; rfl
  | cut fault =>
    cases fault with
    | none => cases h; rfl
    | some fault => cases h
  | element tag inner rest ihInner ihRest =>
    obtain ⟨next, hstep, hrest⟩ := exists_step h
    rw [bodies, Nat.add_eq_zero_iff] at hc
    refine (ihRest hc.2 hrest).trans ?_
    cases hstep with
    | document hdocument hinner =>
      rw [if_pos hdocument] at hc
      exact (ihInner hc.1 hinner :)
    | body hbody helements =>
      have hdocument : tag.label ≠ "document" := by rw [hbody]; decide
      rw [if_neg hdocument, if_pos ⟨hbody, Element.cut?_of_read.1 helements⟩] at hc
      exact absurd hc.1 (by decide)
    | passed => rfl
  | empty tag rest ih =>
    rw [bodies, Nat.add_eq_zero_iff] at hc
    rw [read] at h
    split at h
    · next hbody => exact absurd hc.1 (by rw [if_pos hbody]; decide)
    · exact ih hc.2 h
  | text content rest ih | cdata content rest ih | aside source rest ih => exact ih hc h

theorem not_read_of_bodies {source : List Symbol} (h : bodies (Content.read source) = 0) :
    ∃ fault, read source = .error fault := by
  cases hread : read source with
  | error fault => exact ⟨fault, rfl⟩
  | ok m =>
    have hnone : some m.body = none := Partial.body_of_read h (read_eq_ok.mp hread)
    cases hnone

/-- A content with at most the bodies of another one, which is cut off where the other one is. -/
structure Fewer (c c' : Content) : Prop where
  bodies : bodies c ≤ bodies c'
  closed : c.cut? = none → c'.cut? = none

namespace Fewer

variable {c c' inner inner' rest rest' : Content}

theorem refl (c : Content) : Fewer c c := ⟨Nat.le_refl _, id⟩

theorem cut (fault : Option Fault) (c : Content) : Fewer (.cut fault) c :=
  ⟨Nat.zero_le _, fun h => by cases h⟩

theorem text_cut (content : List Symbol) (fault : Option Fault) (c : Content) :
    Fewer (.text content (.cut fault)) c :=
  ⟨Nat.zero_le _, fun h => by cases h⟩

theorem element (tag : Tag) (hinner : Fewer inner inner') (hrest : Fewer rest rest') :
    Fewer (.element tag inner rest) (.element tag inner' rest') := by
  refine ⟨?_, fun h => ?_⟩
  · rw [MainPart.bodies, MainPart.bodies]
    have := hinner.bodies
    have := hrest.bodies
    split
    · omega
    · split
      · next hbody => rw [if_pos ⟨hbody.1, hinner.closed hbody.2⟩]; omega
      · omega
  · rw [cut?_element] at h ⊢
    exact ⟨hinner.closed h.1, hrest.closed h.2⟩

end Fewer

/-- The same for contents in a row, of which some may be missing. -/
inductive AllFewer : List Content → List Content → Prop
  | nil {cs : List Content} : AllFewer [] cs
  | cons {c c' : Content} {cs cs' : List Content} :
      Fewer c c' → AllFewer cs cs' → AllFewer (c :: cs) (c' :: cs')

theorem Fewer.put {n n' : Nested} (fault fault' : Option Fault) (event : Event)
    (here : Fewer n.here n'.here) (around : AllFewer n.around n'.around) :
    Fewer (put fault event n).here (put fault' event n').here ∧
      AllFewer (put fault event n).around (put fault' event n').around := by
  cases event with
  | opening tag =>
    obtain ⟨c, cs⟩ := n
    obtain ⟨c', cs'⟩ := n'
    cases around with
    | nil => exact ⟨.element tag here (.cut _ _), .nil⟩
    | cons rest more => exact ⟨.element tag here rest, more⟩
  | closing name => exact ⟨.refl _, .cons here around⟩
  | empty tag => exact ⟨⟨Nat.add_le_add_left here.bodies _, here.closed⟩, around⟩
  | text content => exact ⟨⟨here.bodies, here.closed⟩, around⟩
  | cdata content => exact ⟨⟨here.bodies, here.closed⟩, around⟩
  | aside source => exact ⟨⟨here.bodies, here.closed⟩, around⟩

/-- Events that follow close no fewer bodies than what is left of them. -/
theorem bodies_le (front more : List Event) {left : List Event} (hleft : IsRemnant left)
    (fault fault' : Option Fault) :
    bodies (ofEvents ⟨front ++ left, fault⟩) ≤ bodies (ofEvents ⟨front ++ more, fault'⟩) := by
  have hfront : ∀ {n n' : Nested}, Fewer n.here n'.here → AllFewer n.around n'.around →
      Fewer (front.foldr (put fault) n).here (front.foldr (put fault') n').here ∧
        AllFewer (front.foldr (put fault) n).around (front.foldr (put fault') n').around := by
    intro n n' here around
    induction front with
    | nil => exact ⟨here, around⟩
    | cons event front ih => exact ih.1.put _ _ event ih.2
  rw [ofEvents, ofEvents, List.foldr_append, List.foldr_append]
  rcases hleft with rfl | ⟨content, rfl⟩
  · exact (hfront (.cut fault _) .nil).1.bodies
  · exact (hfront (.text_cut content fault _) .nil).1.bodies

/-! ### The end of a body -/

/-- The text ends with the end of a body. -/
def EndsBody (source : List Symbol) : Prop :=
  ∃ front last, scan source = ⟨front ++ [last], none⟩ ∧
    bodies (ofEvents ⟨front, none⟩) < bodies (ofEvents ⟨front ++ [last], none⟩)

theorem bodies_ofEvents (events : List Event) (fault fault' : Option Fault) :
    bodies (ofEvents ⟨events, fault⟩) = bodies (ofEvents ⟨events, fault'⟩) := by
  have hle : ∀ fault fault',
      bodies (ofEvents ⟨events, fault⟩) ≤ bodies (ofEvents ⟨events, fault'⟩) := by
    intro fault fault'
    simpa using bodies_le events [] (.inl rfl) fault fault'
  exact Nat.le_antisymm (hle _ _) (hle _ _)

/-- Among events with a body there is one that closes it. -/
theorem exists_closesBody {events : List Event} (h : bodies (ofEvents ⟨events, none⟩) ≠ 0) :
    ∃ front last more, events = (front ++ [last]) ++ more ∧
      bodies (ofEvents ⟨front, none⟩) < bodies (ofEvents ⟨front ++ [last], none⟩) := by
  induction events using List.reverseRecOn with
  | nil => exact absurd rfl h
  | append_singleton events last ih =>
    by_cases hzero : bodies (ofEvents ⟨events, none⟩) = 0
    · exact ⟨events, last, [], by simp, by omega⟩
    · obtain ⟨front, other, more, rfl, hless⟩ := ih hzero
      exact ⟨front, other, more ++ [last], by simp, hless⟩

/-- A text with a body has the end of one in it. -/
theorem exists_endsBody {source : List Symbol} (h : bodies (Content.read source) ≠ 0) :
    ∃ upto after, source = upto ++ after ∧ EndsBody upto := by
  rw [Content.read] at h
  generalize hscan : scan source = scanned at h
  obtain ⟨list, fault⟩ := scanned
  rw [bodies_ofEvents _ _ none] at h
  obtain ⟨front, last, more, rfl, hless⟩ := exists_closesBody h
  obtain ⟨upto, after, rfl, hupto⟩ := exists_scan_prefix hscan
  exact ⟨upto, after, rfl, front, last, hupto, hless⟩

/-- A text that is cut off has no more bodies than the whole text. -/
theorem bodies_cut {strays : List Symbol} (hstrays : Symbol.AreStray strays)
    (before behind : List Symbol) :
    bodies (Content.read (before ++ strays)) ≤ bodies (Content.read (before ++ behind)) := by
  obtain ⟨front, lost, left, ⟨hwhole, hcut, hleft⟩, -⟩ := scan_cut hstrays behind before
  have hle := bodies_le front lost hleft (scan (before ++ strays)).fault
    (scan (before ++ behind)).fault
  rwa [← hwhole, ← hcut] at hle

/-- A text that is cut off before the end of its only body has no body. -/
theorem EndsBody.bodies_cut {before behind strays : List Symbol} (h : EndsBody (before ++ behind))
    (hone : bodies (Content.read (before ++ behind)) ≤ 1) (hbehind : behind ≠ [])
    (hstrays : Symbol.AreStray strays) : bodies (Content.read (before ++ strays)) = 0 := by
  obtain ⟨events, last, hscan, hlast⟩ := h
  obtain ⟨front, lost, left, ⟨hwhole, hcut, hleft⟩, hlost⟩ := scan_cut hstrays behind before
  rw [hscan] at hwhole hlost
  have hsome := hlost hbehind rfl (by simp)
  -- The last event is lost.
  obtain ⟨more, other, rfl⟩ := (List.eq_nil_or_concat' lost).resolve_left hsome
  rw [← List.append_assoc] at hwhole
  obtain ⟨rfl, -⟩ := List.append_inj' hwhole rfl
  have hle := bodies_le front more hleft (scan (before ++ strays)).fault none
  rw [← hcut] at hle
  rw [Content.read, hscan] at hone
  have hread : bodies (Content.read (before ++ strays)) ≤ bodies (ofEvents ⟨front ++ more, none⟩) :=
    hle
  omega

/-- A main part with one body has an end of it. If some bytes are missing at the end of the main
part, so that the end of the body is not there as a whole, what is left is not read. -/
theorem not_read_extract {bytes : ByteArray}
    (hone : bodies (Content.read (Symbol.read bytes)) = 1) :
    (∃ upto after, Symbol.read bytes = upto ++ after ∧ EndsBody upto) ∧
      ∀ upto after, Symbol.read bytes = upto ++ after → EndsBody upto → ∀ n < width upto,
        ∃ fault, read (Symbol.read (bytes.extract 0 n)) = .error fault := by
  refine ⟨exists_endsBody (by omega), fun upto after hsource hend n hn => ?_⟩
  obtain ⟨k, strays, hread, hstrays, hk⟩ := Symbol.read_extract bytes n
  rw [hsource] at hread hk hone
  -- The cut falls into the text up to the end of the body.
  have hshort : k < upto.length := by
    by_contra hlong
    rw [List.take_append, List.take_of_length_le (by omega), width_append] at hk
    omega
  rw [List.take_append_of_le_length (by omega)] at hread
  have hupto : upto = upto.take k ++ upto.drop k := (List.take_append_drop k upto).symm
  have hbehind : upto.drop k ≠ [] := by simp; omega
  have hbodies : bodies (Content.read upto) ≤ 1 := by
    have hle := bodies_cut (List.forall_mem_nil _) upto after
    rw [List.append_nil] at hle
    omega
  rw [hupto] at hend hbodies
  rw [hread]
  exact not_read_of_bodies (hend.bodies_cut hbodies hbehind hstrays)

/-- The cut falls into the letter in the text. -/
theorem not_read_extract_text : ∃ fault, read (Symbol.read
    (("<w:document><w:body><w:p><w:r><w:t>é</w:t></w:r></w:p></w:body>" ++
      "</w:document>").toUTF8.extract 0 36)) = .error fault := by
  have hsource := Symbol.read_toUTF8
    ("<w:document><w:body><w:p><w:r><w:t>é</w:t></w:r></w:p></w:body>" ++ "</w:document>")
  rw [Symbol.ofString_append] at hsource
  refine (not_read_extract ?_).2 _ _ hsource ?_ 36 ?_
  · rw [hsource, Symbol.ofString_ofList, Symbol.ofString_ofList]
    decide +kernel
  · let opened (names : List String) : List Event :=
      names.map fun name => .opening ⟨Symbol.ofString name⟩
    let closed (names : List String) : List Event :=
      names.map fun name => .closing (Symbol.ofString name)
    refine ⟨opened ["w:document", "w:body", "w:p", "w:r", "w:t"] ++
      .text (Symbol.ofString "é") :: closed ["w:t", "w:r", "w:p"],
        .closing (Symbol.ofString "w:body"), ?_, ?_⟩
    · rw [Symbol.ofString_ofList]
      decide +kernel
    · decide +kernel
  · rw [Symbol.ofString_ofList]
    decide +kernel

end MainPart

end Letterpress
