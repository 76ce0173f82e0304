import Mathlib
import Letterpress.Package
import Letterpress.Proofs.Body.Taking
import Letterpress.Proofs.Markup.Tags
import Letterpress.Proofs.Markup.Pairs

/-!
# Written lists are read back

The lists of a package are read tag by tag, and the texts between tags count for nothing. So a list
is read back from the tags that are written for its entries, if no two entries have one key.
-/

namespace Letterpress

open Markup Text

namespace Markup

/-- Whatever is open and whatever follows, the symbols are read as these tags. -/
def Adds (input : List Symbol) (tags : List Tag) : Prop :=
  ∀ opened rest, (scanFrom opened (input ++ rest)).tags = tags ++ (scanFrom opened rest).tags ∧
    (scanFrom opened (input ++ rest)).fault = (scanFrom opened rest).fault

theorem Events.tags_cons (event : Event) (events : Events) :
    (events.cons event).tags = event.tag?.toList ++ events.tags := by
  show List.filterMap _ (event :: events.list) = _
  rw [List.filterMap_cons]
  cases event.tag? <;> rfl

/-- Reading up to the next tag gives no tag. -/
theorem tags_scanFrom_dropWhile (opened : List (List Symbol)) (input : List Symbol) :
    (scanFrom opened (input.dropWhile (· != .char '<'))).tags = (scanFrom opened input).tags ∧
      (scanFrom opened (input.dropWhile (· != .char '<'))).fault =
        (scanFrom opened input).fault := by
  cases input with
  | nil => exact ⟨rfl, rfl⟩
  | cons s rest =>
    by_cases hs : s = .char '<'
    · rw [List.dropWhile_cons_of_neg (by simp [hs])]
      exact ⟨rfl, rfl⟩
    · rw [List.dropWhile_cons_of_pos (by simpa using hs)]
      conv => enter [1, 2]; rw [scanFrom, if_neg hs]
      conv => enter [2, 2]; rw [scanFrom, if_neg hs]
      exact ⟨by rw [Events.tags_cons]; rfl, rfl⟩

namespace Adds

variable {a b : List Symbol} {s t : List Tag}

theorem nil : Adds [] [] := fun _ _ => ⟨rfl, rfl⟩

theorem append (ha : Adds a s) (hb : Adds b t) : Adds (a ++ b) (s ++ t) := by
  intro opened rest
  rw [List.append_assoc, (ha opened _).1, (ha opened _).2, (hb opened rest).1, (hb opened rest).2,
    List.append_assoc]
  exact ⟨rfl, rfl⟩

theorem markup (event : Event) {used : List Symbol} (hscan : Scans used event)
    (henter : ∀ opened, enter opened event = .ok opened) :
    Adds (.char '<' :: used) event.tag?.toList := by
  intro opened rest
  rw [List.cons_append, scanFrom_markup (hscan rest) (henter opened), Events.tags_cons]
  exact ⟨rfl, rfl⟩

theorem text (h : .char '<' ∉ a) : Adds a [] := by
  cases a with
  | nil => exact nil
  | cons first more =>
    rw [List.mem_cons, not_or] at h
    have hmore : ∀ symbol ∈ more, (symbol != Symbol.char '<') = true := by
      intro symbol hmem
      rw [bne_iff_ne]
      rintro rfl
      exact h.2 hmem
    intro opened rest
    rw [List.cons_append, scanFrom, if_neg (Ne.symm h.1), List.dropWhile_append_of_pos hmore,
      Events.tags_cons]
    exact tags_scanFrom_dropWhile opened rest

theorem flatMap {α : Type} {l : List α} {f : α → List Symbol} {g : α → List Tag}
    (h : ∀ x, Adds (f x) (g x)) : Adds (l.flatMap f) (l.flatMap g) := by
  induction l with
  | nil => exact nil
  | cons x l ih => exact (h x).append ih

variable {name : String} {attributes : List (String × String)}

theorem empty (h : Tag.IsWritten name attributes) :
    Adds (Piece.symbols [.empty name attributes]) [.written name attributes] := by
  rw [Piece.symbols_cons, Piece.symbols_nil, List.append_nil, Piece.ofString_empty]
  refine markup (.empty (.written name attributes)) (fun rest => ?_) fun _ => rfl
  rw [List.append_assoc]
  exact Tag.scanMarkup_written_empty h rest

theorem map {α : Type} {l : List α} {f : α → Piece} {g : α → Tag}
    (h : ∀ x, Adds (Piece.symbols [f x]) [g x]) : Adds (Piece.symbols (l.map f)) (l.map g) := by
  induction l with
  | nil => exact nil
  | cons x l ih =>
    rw [List.map_cons, ← List.singleton_append, Piece.symbols_append]
    exact (h x).append ih

theorem element {pieces : List Piece} {tags : List Tag} (h : Adds (Piece.symbols pieces) tags)
    (hw : Tag.IsWritten name attributes) :
    Adds (Piece.symbols (Piece.element name attributes pieces))
      (.written name attributes :: tags) := by
  intro opened rest
  have hopening : enter opened (.opening (.written name attributes)) =
      .ok (Symbol.ofString name :: opened) := by
    rw [enter, Tag.name_written hw.name]
  have hclosing : enter (Symbol.ofString name :: opened) (.closing (Symbol.ofString name)) =
      .ok opened := by
    rw [enter, if_pos rfl]
  have hinput : Piece.symbols (Piece.element name attributes pieces) ++ rest =
      .char '<' :: ((Tag.written name attributes).content ++ .char '>' :: (Piece.symbols pieces ++
        .char '<' :: .char '/' :: (Symbol.ofString name ++ .char '>' :: rest))) := by
    rw [Piece.element, List.cons_append, Piece.symbols_cons, Piece.symbols_append,
      Piece.symbols_cons, Piece.symbols_nil, Piece.ofString_opening, Piece.ofString_closing]
    simp
  rw [hinput, scanFrom_markup (Tag.scanMarkup_written hw _) hopening, Events.tags_cons, Events.cons]
  have hbehind := scanFrom_markup (Tag.scanMarkup_closing hw.name rest) hclosing
  rw [(h _ _).1, (h _ _).2, hbehind, Events.tags_cons]
  exact ⟨rfl, rfl⟩

/-- The declaration before the root, with the line end behind it, gives no tag. -/
theorem declaration : Adds (Symbol.ofString Letterpress.declaration) [] := by
  obtain ⟨instruction, hscan, hdeclaration⟩ : ∃ w : String,
      scanMarkup (Symbol.ofString w) = .ok (.aside (.char '<' :: Symbol.ofString w), []) ∧
        Symbol.ofString Letterpress.declaration =
          .char '<' :: Symbol.ofString w ++ [Symbol.char '\n'] :=
    ⟨"?xml version=\"1.0\" encoding=\"UTF-8\" standalone=\"yes\"?>", by decide +kernel,
      by decide +kernel⟩
  obtain ⟨used, hused, hscan⟩ := settles_scanMarkup _ hscan
  rw [hdeclaration, hused, List.append_nil]
  exact (markup _ hscan fun _ => rfl).append (text (by decide))

/-- The tags of a whole text. -/
theorem scan_eq {xml : String} {tags : List Tag} (h : Adds (Symbol.ofString xml) tags)
    (hstart : (Symbol.ofString xml).head? = some (.char '<')) :
    (scan (Symbol.read xml.toUTF8)).tags = tags ∧ (scan (Symbol.read xml.toUTF8)).fault = none := by
  have hscan : scan (Symbol.ofString xml) = scanFrom [] (Symbol.ofString xml) := by
    refine scan_of_head? ?_
    rw [hstart]
    decide
  have hnil : scanFrom [] [] = ⟨[], none⟩ := by rw [scanFrom]
  have := h [] []
  rw [List.append_nil, hnil] at this
  rw [Symbol.read_toUTF8, hscan, this.1, this.2]
  exact ⟨List.append_nil _, rfl⟩

end Adds

end Markup

/-! ### Relationships -/

namespace Relationship

def values (r : Relationship) : List (Option String) :=
  [some r.id, some r.type, some r.target, if r.external then some "External" else none]

/-- The tag that is written for an entry. -/
def tag (r : Relationship) : Tag :=
  .written "Relationship" (givens ["Id", "Type", "Target", "TargetMode"] r.values)

theorem isWritable_tag : isWritable "Relationship" ["Id", "Type", "Target", "TargetMode"]
    "Relationship" ["Id", "Type", "Target", "TargetMode"] := by decide

theorem label_tag (r : Relationship) : r.tag.label = "Relationship" :=
  (carries_givens isWritable_tag r.values).label

/-- An entry is read back from its tag. -/
theorem ofTag?_tag (r : Relationship) : ofTag? r.tag = some r := by
  have hvalue : ∀ l, r.tag.value? l = _ := (carries_givens isWritable_tag r.values).value
  simp only [ofTag?, hvalue, values]
  obtain ⟨id, type, target, external⟩ := r
  cases external <;> rfl

theorem attributes_eq (r : Relationship) :
    [("Id", r.id), ("Type", r.type), ("Target", r.target)] ++
        (if r.external then [("TargetMode", "External")] else []) =
      givens ["Id", "Type", "Target", "TargetMode"] r.values := by
  obtain ⟨id, type, target, external⟩ := r
  cases external <;> rfl

theorem adds_pieces (r : Relationship) : Adds (Piece.symbols r.pieces) [r.tag] := by
  have hempty := Adds.empty (isWritten_givens isWritable_tag r.values)
  have hpieces : Piece.symbols r.pieces = Symbol.ofString (escapeText "  ") ++
      (Piece.symbols [.empty "Relationship" (givens ["Id", "Type", "Target", "TargetMode"] r.values)] ++
        Symbol.ofString (escapeText "\n")) := by
    rw [pieces, attributes_eq]
    simp [Piece.symbols_cons, Piece.source]
  rw [hpieces]
  exact (Adds.text (by decide)).append (hempty.append (Adds.text (by decide)))

end Relationship

namespace Relationships

/-- No two entries have one id. -/
def Sound (rs : Relationships) : Prop := (rs.entries.map (·.id)).Nodup

theorem ids_replaceOrAdd (r : Relationship) (entries : List Relationship) :
    (replaceOrAdd r entries).map (·.id) =
      if r.id ∈ entries.map (·.id) then entries.map (·.id) else entries.map (·.id) ++ [r.id] := by
  induction entries with
  | nil => rfl
  | cons s rest ih =>
    rw [replaceOrAdd]
    by_cases hs : s.id = r.id
    · simp [hs]
    · rw [if_neg hs, List.map_cons, ih, List.map_cons]
      by_cases hr : r.id ∈ rest.map (·.id) <;> simp [hr, Ne.symm hs]

theorem Sound.put {rs : Relationships} (h : rs.Sound) (r : Relationship) : (rs.put r).Sound := by
  rw [Sound, Relationships.put, ids_replaceOrAdd]
  split
  · exact h
  · next hr => exact List.concat_eq_append ▸ List.Nodup.concat hr h

theorem Sound.erase {rs : Relationships} (h : rs.Sound) (id : String) : (rs.erase id).Sound :=
  List.Nodup.sublist ((List.eraseP_sublist).map _) h

/-- An entry with a new id comes last. -/
theorem put_of_not_mem {entries : List Relationship} {r : Relationship}
    (h : r.id ∉ entries.map (·.id)) : put ⟨entries⟩ r = ⟨entries ++ [r]⟩ := by
  rw [put, mk.injEq]
  induction entries with
  | nil => rfl
  | cons s rest ih =>
    rw [List.map_cons, List.mem_cons, not_or] at h
    rw [replaceOrAdd, if_neg (Ne.symm h.1), ih h.2, List.cons_append]

theorem foldl_put {entries : List Relationship} : ∀ {before : List Relationship},
    ((before ++ entries).map (·.id)).Nodup →
      entries.foldl put ⟨before⟩ = ⟨before ++ entries⟩ := by
  induction entries with
  | nil => intro before _; rw [List.append_nil]; rfl
  | cons r rest ih =>
    intro before h
    have hr : r.id ∉ before.map (·.id) := by
      rw [List.map_append, List.nodup_append] at h
      exact fun hmem => h.2.2 _ hmem _ (List.mem_cons_self ..) rfl
    have happend : before ++ r :: rest = (before ++ [r]) ++ rest := by simp
    rw [happend] at h ⊢
    rw [List.foldl_cons, put_of_not_mem hr, ih h]

/-- A list that is read keeps its ids apart. -/
theorem Sound.readEvents {fault : Option Markup.Fault} {events : List Event} :
    ∀ {rs rs' : Relationships}, rs.Sound → rs.readEvents fault events = .ok rs' → rs'.Sound := by
  induction events with
  | nil =>
    intro rs rs' hrs h
    cases fault with
    | none => cases h; exact hrs
    | some fault => cases h
  | cons event rest ih =>
    intro rs rs' hrs h
    unfold Relationships.readEvents at h
    split at h
    · exact ih hrs h
    · split at h
      · exact ih (hrs.put _) h
      · cases h

theorem sound_read {source : List Symbol} {rs : Relationships} (h : read source = .ok rs) :
    rs.Sound := by
  have sound : Sound {} := List.nodup_nil
  exact sound.readEvents h

theorem readEvents_cons (rs : Relationships) (fault : Option Markup.Fault) (event : Event)
    (events : List Event) : rs.readEvents fault (event :: events) =
      match event.tag?.filter (·.label = "Relationship") with
      | none => readEvents rs fault events
      | some tag =>
        match Relationship.ofTag? tag with
        | some r => readEvents (rs.put r) fault events
        | none => .error .incompleteRelationship := by
  cases event <;> rfl

/-- What is read depends on the tags alone. -/
theorem readEvents_eq {events : List Event} {entries : List Relationship} :
    ∀ {rs : Relationships}, ((events.filterMap Event.tag?).filter (·.label = "Relationship")).map
        Relationship.ofTag? = entries.map some →
      rs.readEvents none events = .ok (entries.foldl put rs) := by
  induction events generalizing entries with
  | nil =>
    intro rs h
    cases entries with
    | nil => rfl
    | cons r rest => cases h
  | cons event events ih =>
    intro rs h
    rw [List.filterMap_cons] at h
    rw [readEvents_cons]
    cases htag : event.tag? with
    | none =>
      rw [htag] at h
      exact ih h
    | some tag =>
      rw [htag] at h
      by_cases hlabel : tag.label = "Relationship"
      · rw [Option.filter_some, if_pos (by simpa using hlabel)]
        rw [List.filter_cons_of_pos (by simpa using hlabel)] at h
        cases entries with
        | nil => cases h
        | cons r rest =>
          rw [List.map_cons, List.map_cons, List.cons.injEq] at h
          simp only [h.1]
          exact ih h.2
      · rw [Option.filter_some, if_neg (by simpa using hlabel)]
        rw [List.filter_cons_of_neg (by simpa using hlabel)] at h
        exact ih h

/-- The tag around the list. -/
def root : Tag := .written "Relationships" [("xmlns", relationshipsNamespace)]

theorem adds_xml (rs : Relationships) :
    Adds (Symbol.ofString rs.xml) (root :: rs.entries.map Relationship.tag) := by
  have hentries : Adds (Piece.symbols (.text "\n" :: rs.entries.flatMap Relationship.pieces))
      (rs.entries.map Relationship.tag) := by
    have hflat : Piece.symbols (rs.entries.flatMap Relationship.pieces) =
        rs.entries.flatMap fun r => Piece.symbols r.pieces := by
      induction rs.entries with
      | nil => rfl
      | cons r rest ih => rw [List.flatMap_cons, Piece.symbols_append, ih, List.flatMap_cons]
    have htags : rs.entries.map Relationship.tag = rs.entries.flatMap fun r => [r.tag] := by
      rw [List.map_eq_flatMap]
    rw [Piece.symbols_cons, hflat, htags]
    exact (Adds.text (by decide)).append (.flatMap Relationship.adds_pieces)
  have hxml : Symbol.ofString rs.xml = Symbol.ofString Letterpress.declaration ++
      Piece.symbols (Piece.element "Relationships" [("xmlns", relationshipsNamespace)]
        (.text "\n" :: rs.entries.flatMap Relationship.pieces)) :=
    Piece.symbols_cons _ _
  rw [hxml]
  exact Adds.declaration.append (hentries.element ⟨by decide, by decide +kernel⟩)

/-- A written list is read back. -/
theorem read_xml {rs : Relationships} (h : rs.Sound) :
    read (Symbol.read rs.xml.toUTF8) = .ok rs := by
  obtain ⟨htags, hfault⟩ := rs.adds_xml.scan_eq (by
    rw [xml, Piece.join, List.map_cons, String.join_cons, Symbol.ofString_append]
    rfl)
  have hroot : root.label ≠ "Relationship" := by
    rw [root, Tag.label_written (by decide)]
    decide
  have hentries : ((scan (Symbol.read rs.xml.toUTF8)).tags.filter
      (·.label = "Relationship")).map Relationship.ofTag? = rs.entries.map some := by
    rw [htags, List.filter_cons_of_neg (by simpa using hroot), List.filter_map, List.map_map,
      List.filter_eq_self.mpr fun r _ => by simp [Relationship.label_tag]]
    exact List.map_congr_left fun r _ => Relationship.ofTag?_tag r
  rw [read, hfault]
  exact (readEvents_eq hentries).trans (congrArg Except.ok (foldl_put h))

end Relationships

/-! ### Content types -/

namespace ContentTypes

theorem keys_replaceOrAdd (key type : String) (entries : List (String × String)) :
    (replaceOrAdd key type entries).map Prod.fst =
      if key ∈ entries.map Prod.fst then entries.map Prod.fst
      else entries.map Prod.fst ++ [key] := by
  induction entries with
  | nil => rfl
  | cons e rest ih =>
    rw [replaceOrAdd]
    by_cases he : e.1 = key
    · simp [he]
    · rw [if_neg he, List.map_cons, ih, List.map_cons]
      by_cases hkey : key ∈ rest.map Prod.fst <;> simp [hkey, Ne.symm he]

/-- Keys that differ and are in the form in which they are stored. -/
structure Keyed (form : String → String) (entries : List (String × String)) : Prop where
  nodup : (entries.map Prod.fst).Nodup
  fixed : ∀ e ∈ entries, form e.1 = e.1

namespace Keyed

variable {form : String → String} {entries : List (String × String)}

theorem nil : Keyed form [] := ⟨List.nodup_nil, fun _ h => absurd h List.not_mem_nil⟩

theorem replaceOrAdd (h : Keyed form entries) {key : String} (hkey : form key = key)
    (type : String) : Keyed form (replaceOrAdd key type entries) := by
  have hkeys := keys_replaceOrAdd key type entries
  refine ⟨?_, fun e he => ?_⟩
  · rw [hkeys]
    split
    · exact h.nodup
    · next hnew => exact List.concat_eq_append ▸ List.Nodup.concat hnew h.nodup
  · have hmem : e.1 ∈ entries.map Prod.fst ∨ e.1 = key := by
      have := List.mem_map_of_mem (f := Prod.fst) he
      rw [hkeys] at this
      split at this
      · exact .inl this
      · simpa using this
    rcases hmem with hmem | rfl
    · obtain ⟨e', he', hsame⟩ := List.mem_map.mp hmem
      rw [← hsame]
      exact h.fixed e' he'
    · exact hkey

theorem sublist (h : Keyed form entries) {fewer : List (String × String)}
    (hsub : fewer.Sublist entries) : Keyed form fewer :=
  ⟨h.nodup.sublist (hsub.map _), fun e he => h.fixed e (hsub.subset he)⟩

end Keyed

/-- An entry with a new key comes last. -/
theorem replaceOrAdd_of_not_mem {key : String} (type : String) {entries : List (String × String)}
    (h : key ∉ entries.map Prod.fst) :
    replaceOrAdd key type entries = entries ++ [(key, type)] := by
  induction entries with
  | nil => rfl
  | cons e rest ih =>
    rw [List.map_cons, List.mem_cons, not_or] at h
    rw [replaceOrAdd, if_neg (Ne.symm h.1), ih h.2, List.cons_append]

theorem eq_dot_of_toLower {c : Char} (h : c.toLower = '.') : c = '.' := by
  unfold Char.toLower at h
  split at h
  · have hval := congrArg Char.val h
    grind [UInt32.toNat_add, UInt32.le_iff_toNat_le]
  · exact h

theorem extensionName_extensionName (extension : String) :
    extensionName (extensionName extension) = extensionName extension := by
  have hfixed : ∀ cs : List Char, cs.head? ≠ some '.' →
      ((cs.map Char.toLower).dropWhile (· = '.')).map Char.toLower = cs.map Char.toLower := by
    intro cs hcs
    cases cs with
    | nil => rfl
    | cons c rest =>
      have hc : c.toLower ≠ '.' := fun h => hcs (congrArg some (eq_dot_of_toLower h))
      rw [List.map_cons, List.dropWhile_cons_of_neg (by simpa using hc)]
      simp
  rw [extensionName, extensionName, String.toList_ofList, hfixed]
  intro h
  have := List.head?_dropWhile_not (· = '.') extension.toList
  rw [h] at this
  exact absurd this (by decide)

theorem partName_partName (path : String) : partName (partName path) = partName path := by
  by_cases h : path.toList.head? = some '/'
  · simp only [partName, if_pos h]
  · have hslash : ("/" ++ path).toList.head? = some '/' := by simp
    have hname : partName path = "/" ++ path := if_neg h
    rw [hname]
    exact if_pos hslash

/-- Entries that are added one after the other stay as they are and in order. -/
theorem Keyed.foldl_replaceOrAdd {form : String → String} {entries : List (String × String)} :
    ∀ before : List (String × String), Keyed form (before ++ entries) →
      entries.foldl (fun l e => ContentTypes.replaceOrAdd (form e.1) e.2 l) before =
        before ++ entries := by
  induction entries with
  | nil => intro before _; exact (List.append_nil _).symm
  | cons e rest ih =>
    intro before h
    have hnew : e.1 ∉ before.map Prod.fst := by
      have := h.nodup
      rw [List.map_append, List.nodup_append] at this
      exact fun hmem => this.2.2 _ hmem _ (List.mem_cons_self ..) rfl
    have hform : form e.1 = e.1 := h.fixed e (by simp)
    have happend : before ++ e :: rest = (before ++ [e]) ++ rest := by simp
    rw [happend] at h ⊢
    rw [List.foldl_cons, hform, replaceOrAdd_of_not_mem _ hnew, ih _ h]

/-- What a list of types is as long as it is only added to and taken from. -/
structure Sound (c : ContentTypes) : Prop where
  defaults : Keyed extensionName c.defaults
  overrides : Keyed partName c.overrides

namespace Sound

variable {c c' : ContentTypes}

theorem empty : Sound {} := ⟨.nil, .nil⟩

theorem addDefault (h : c.Sound) (extension type : String) : (c.addDefault extension type).Sound :=
  ⟨h.defaults.replaceOrAdd (extensionName_extensionName extension) type, h.overrides⟩

theorem addOverride (h : c.Sound) (path type : String) : (c.addOverride path type).Sound :=
  ⟨h.defaults, h.overrides.replaceOrAdd (partName_partName path) type⟩

theorem eraseOverride (h : c.Sound) (path : String) : (c.eraseOverride path).Sound :=
  ⟨h.defaults, h.overrides.sublist List.eraseP_sublist⟩

theorem apply (h : c.Sound) {tag : Tag} (hc : c.apply tag = .ok c') : c'.Sound := by
  unfold ContentTypes.apply at hc
  split at hc
  · split at hc
    · cases hc; exact h.addDefault _ _
    · cases hc
  split at hc
  · split at hc
    · cases hc; exact h.addOverride _ _
    · cases hc
  · cases hc; exact h

end Sound

/-- What is read depends on the tags alone. -/
theorem readEvents_eq (c : ContentTypes) (events : List Event) :
    c.readEvents none events = (events.filterMap Event.tag?).foldlM apply c := by
  induction events generalizing c with
  | nil => rfl
  | cons event rest ih =>
    cases event with
    | opening tag | empty tag =>
      show c.apply tag >>= (readEvents · none rest) = c.apply tag >>= _
      simp only [ih]
    | closing name | text content | cdata content | aside source => exact ih c

theorem Sound.readEvents {fault : Option Markup.Fault} {events : List Event} :
    ∀ {c c' : ContentTypes}, c.Sound → c.readEvents fault events = .ok c' → c'.Sound := by
  induction events with
  | nil =>
    intro c c' hc h
    cases fault with
    | none => cases h; exact hc
    | some fault => cases h
  | cons event rest ih =>
    intro c c' hc h
    cases event with
    | opening tag | empty tag =>
      obtain ⟨next, hnext, h⟩ := bind_eq_ok.mp h
      exact ih (hc.apply hnext) h
    | closing name | text content | cdata content | aside source => exact ih hc h

theorem sound_read {source : List Symbol} {c : ContentTypes} (h : read source = .ok c) : c.Sound :=
  Sound.empty.readEvents h

/-- The tags that are written for the entries. -/
def defaultTag (e : String × String) : Tag :=
  .written "Default" (givens ["Extension", "ContentType"] [some e.1, some e.2])

def overrideTag (e : String × String) : Tag :=
  .written "Override" (givens ["PartName", "ContentType"] [some e.1, some e.2])

theorem isWritable_defaultTag : isWritable "Default" ["Extension", "ContentType"] "Default"
    ["Extension", "ContentType"] := by decide

theorem isWritable_overrideTag : isWritable "Override" ["PartName", "ContentType"] "Override"
    ["PartName", "ContentType"] := by decide

theorem apply_defaultTag (c : ContentTypes) (e : String × String) :
    c.apply (defaultTag e) = .ok (c.addDefault e.1 e.2) := by
  have carries := carries_givens isWritable_defaultTag [some e.1, some e.2]
  rw [apply, defaultTag, if_pos carries.label, carries.value, carries.value]
  rfl

theorem apply_overrideTag (c : ContentTypes) (e : String × String) :
    c.apply (overrideTag e) = .ok (c.addOverride e.1 e.2) := by
  have carries := carries_givens isWritable_overrideTag [some e.1, some e.2]
  rw [apply, overrideTag, carries.label, if_neg (by decide), if_pos rfl, carries.value,
    carries.value]
  rfl

theorem foldlM_defaultTag (entries : List (String × String)) : ∀ c : ContentTypes,
    (entries.map defaultTag).foldlM apply c = .ok { c with
      defaults := entries.foldl (fun l e => replaceOrAdd (extensionName e.1) e.2 l) c.defaults } := by
  induction entries with
  | nil => intro c; rfl
  | cons e rest ih =>
    intro c
    rw [List.map_cons, List.foldlM_cons, apply_defaultTag, ok_bind, ih]
    rfl

theorem foldlM_overrideTag (entries : List (String × String)) : ∀ c : ContentTypes,
    (entries.map overrideTag).foldlM apply c = .ok { c with
      overrides := entries.foldl (fun l e => replaceOrAdd (partName e.1) e.2 l) c.overrides } := by
  induction entries with
  | nil => intro c; rfl
  | cons e rest ih =>
    intro c
    rw [List.map_cons, List.foldlM_cons, apply_overrideTag, ok_bind, ih]
    rfl

/-- The tag around the list. -/
def root : Tag := .written "Types" [("xmlns", typesNamespace)]

theorem adds_xml (c : ContentTypes) : Adds (Symbol.ofString c.xml)
    (root :: (c.defaults.map defaultTag ++ c.overrides.map overrideTag)) := by
  have hdefaults := Adds.map (l := c.defaults)
    (f := fun e => .empty "Default" [("Extension", e.1), ("ContentType", e.2)]) (g := defaultTag)
    fun e => .empty (isWritten_givens isWritable_defaultTag [some e.1, some e.2])
  have hoverrides := Adds.map (l := c.overrides)
    (f := fun e => .empty "Override" [("PartName", e.1), ("ContentType", e.2)]) (g := overrideTag)
    fun e => .empty (isWritten_givens isWritable_overrideTag [some e.1, some e.2])
  have hentries := hdefaults.append hoverrides
  rw [← Piece.symbols_append] at hentries
  have hxml : Symbol.ofString c.xml = Symbol.ofString Letterpress.declaration ++ _ :=
    Piece.symbols_cons _ _
  rw [hxml]
  exact Adds.declaration.append (hentries.element ⟨by decide, by decide +kernel⟩)

/-- Written types are read back. -/
theorem read_xml {c : ContentTypes} (h : c.Sound) :
    read (Symbol.read c.xml.toUTF8) = .ok c := by
  obtain ⟨htags, hfault⟩ := c.adds_xml.scan_eq (by
    rw [xml, Piece.join, List.map_cons, String.join_cons, Symbol.ofString_append]
    rfl)
  have hroot : ∀ c : ContentTypes, c.apply root = .ok c := by
    intro c
    have hlabel : root.label = "Types" := (Tag.label_written (by decide)).trans (by decide)
    rw [apply, hlabel, if_neg (by decide), if_neg (by decide)]
  have hdefaults := Keyed.foldl_replaceOrAdd [] h.defaults
  have hoverrides := Keyed.foldl_replaceOrAdd [] h.overrides
  have hevents : ∀ events : List Event, events.filterMap Event.tag? =
      root :: (c.defaults.map defaultTag ++ c.overrides.map overrideTag) →
        readEvents {} none events = .ok c := by
    intro events hevents
    rw [readEvents_eq, hevents, List.foldlM_cons, hroot, ok_bind, List.foldlM_append,
      foldlM_defaultTag, ok_bind, foldlM_overrideTag, hdefaults, hoverrides]
    rfl
  rw [read, hfault]
  exact hevents _ htags

end ContentTypes

end Letterpress
