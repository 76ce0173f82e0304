import Letterpress.Proofs.Package.Unpacking

/-!
# Types by parts and extensions

However types are given, read and taken away, no two entries have one key, and the keys are in the
form in which they are looked up. So a part has the type that was last given to it, or else the one
that was last given to its extension.
-/

namespace Letterpress

open Markup Text

/-- What is done to the types of a package. -/
inductive TypeCall where
  /-- Takes those of a new document in their place. -/
  | forDocument (mainPart : String)
  /-- Reads others in their place. -/
  | read (source : List Symbol)
  | addDefault (extension type : String)
  | addOverride (path type : String)
  | eraseOverride (path : String)

/-- What a call or a tag says about types. -/
inductive TypeRule where
  | extension (extension type : String)
  | part (path type : String)
  | untyped (path : String)

/-- Paths of one part differ by a slash at the start, if at all. -/
def samePart (a b : String) : Bool :=
  a = b || (a.toList.head? ≠ some '/' && "/" ++ a = b) ||
    (b.toList.head? ≠ some '/' && a = "/" ++ b)

namespace TypeRule

def type? : TypeRule → Option String
  | extension _ type => some type
  | part _ type => some type
  | untyped _ => none

def isForPart (path : String) : TypeRule → Bool
  | extension _ _ => false
  | part p _ => samePart p path
  | untyped p => samePart p path

/-- Neither dots at the start nor the case of letters tell extensions apart. -/
def isForExtension (x : List Char) : TypeRule → Bool
  | extension e _ => (e.toList.dropWhile (· = '.')).map Char.toLower = x.map Char.toLower
  | part _ _ => false
  | untyped _ => false

/-- What a tag in a list of types says. -/
def ofTag? (tag : Tag) : Option TypeRule :=
  if tag.label = "Default" then do
    pure (extension (← tag.value? "Extension") (← tag.value? "ContentType"))
  else if tag.label = "Override" then do
    pure (part (← tag.value? "PartName") (← tag.value? "ContentType"))
  else none

end TypeRule

/-- The type that was last given to a part, unless it was taken from it since. -/
def partType? (rules : List TypeRule) (path : String) : Option String :=
  (rules.reverse.find? (·.isForPart path)).bind TypeRule.type?

/-- The type that was last given to an extension. -/
def extensionType? (rules : List TypeRule) (x : List Char) : Option String :=
  (rules.reverse.find? (·.isForExtension x)).bind TypeRule.type?

namespace ContentTypes

/-- The types behind a call. What cannot be read changes nothing. -/
def call (c : ContentTypes) : TypeCall → ContentTypes
  | .forDocument mainPart => forDocument mainPart
  | .read source =>
    match read source with
    | .ok c => c
    | .error _ => c
  | .addDefault extension type => c.addDefault extension type
  | .addOverride path type => c.addOverride path type
  | .eraseOverride path => c.eraseOverride path

/-- The types behind calls in a row. -/
def after (c : ContentTypes) (calls : List TypeCall) : ContentTypes := calls.foldl call c

/-- The rules that hold behind a call. Types that are read, or taken for a new document, replace the
rules before them. -/
def rulesBehind (rules : List TypeRule) : TypeCall → List TypeRule
  | .forDocument mainPart =>
    [.extension "rels" ContentType.relationships, .extension "xml" ContentType.xml,
      .part mainPart ContentType.document]
  | .read source =>
    if (read source).isOk then (scan source).tags.filterMap TypeRule.ofTag? else rules
  | .addDefault extension type => rules ++ [.extension extension type]
  | .addOverride path type => rules ++ [.part path type]
  | .eraseOverride path => rules ++ [.untyped path]

/-- What calls in a row have said about types. -/
def history (calls : List TypeCall) : List TypeRule := calls.foldl rulesBehind []

/-- What holds of types that were given by these rules. -/
structure Lawful (c : ContentTypes) (rules : List TypeRule) : Prop where
  extensions : (c.defaults.map Prod.fst).Nodup
  lowercase : ∀ e ∈ c.defaults, ∀ a ∈ e.1.toList, a.isUpper = false
  dotless : ∀ e ∈ c.defaults, e.1.toList.head? ≠ some '.'
  names : (c.overrides.map Prod.fst).Nodup
  slashed : ∀ e ∈ c.overrides, e.1.toList.head? = some '/'
  reread : read (Symbol.read c.xml.toUTF8) = .ok c
  /-- A part has the type that was last given to it, -/
  part : ∀ path type, partType? rules path = some type → c.type? path = some type
  /-- or else the one of what stands behind the last dot of its path, -/
  extension : ∀ path before x, partType? rules path = none → path.toList = before ++ '.' :: x →
    '.' ∉ x → c.type? path = extensionType? rules x
  /-- and none if there is no dot. -/
  untyped : ∀ path, partType? rules path = none → '.' ∉ path.toList → c.type? path = none

theorem samePart_iff {a b : String} : samePart a b ↔ partName a = partName b := by
  have hslash : ∀ s : String, ("/" ++ s).toList.head? = some '/' := fun s => by simp
  have hcancel : ∀ s t : String, "/" ++ s = "/" ++ t ↔ s = t := fun s t => by
    simp [String.ext_iff]
  by_cases ha : a.toList.head? = some '/' <;> by_cases hb : b.toList.head? = some '/'
  · simp [samePart, partName, ha, hb]
  · have hne : a ≠ b := fun h => hb (h ▸ ha)
    simp [samePart, partName, ha, hb, hne]
  · have hne : a ≠ b := fun h => ha (h ▸ hb)
    simp [samePart, partName, ha, hb, hne]
  · have hne : "/" ++ a ≠ b := fun h => hb (h ▸ hslash a)
    have hne' : a ≠ "/" ++ b := fun h => ha (h ▸ hslash b)
    simp [samePart, partName, ha, hb, hne, hne', hcancel]

theorem isUpper_toLower (a : Char) : a.toLower.isUpper = false := by
  unfold Char.toLower Char.isUpper
  split <;> grind [UInt32.toNat_add, UInt32.le_iff_toNat_le]

/-- A stored extension is in lower case and has no dot before it. -/
theorem of_extensionName_eq_self {e : String} (h : extensionName e = e) :
    (∀ a ∈ e.toList, a.isUpper = false) ∧ e.toList.head? ≠ some '.' := by
  rw [← h, extensionName, String.toList_ofList]
  refine ⟨fun a ha => ?_, fun hdot => ?_⟩
  · obtain ⟨b, -, rfl⟩ := List.mem_map.mp ha
    exact isUpper_toLower b
  · rw [List.head?_map, Option.map_eq_some_iff] at hdot
    obtain ⟨b, hb, hlower⟩ := hdot
    have hnot := List.head?_dropWhile_not (· = '.') e.toList
    rw [hb, eq_dot_of_toLower hlower] at hnot
    exact absurd hnot (by decide)

theorem head?_of_partName_eq_self {p : String} (h : partName p = p) :
    p.toList.head? = some '/' := by
  rw [← h, partName]
  split
  · assumption
  · simp

/-- The extension of a path is what stands behind its last dot. -/
theorem extension?_eq_some {path : String} {before x : List Char}
    (hpath : path.toList = before ++ '.' :: x) (hx : '.' ∉ x) :
    extension? path = some (String.ofList (x.map Char.toLower)) := by
  have hall : ∀ a ∈ x.reverse, decide (a ≠ '.') = true := by
    intro a ha
    rw [decide_eq_true_eq]
    rintro rfl
    exact hx (List.mem_reverse.mp ha)
  have htake : (x.reverse ++ '.' :: before.reverse).takeWhile (· ≠ '.') = x.reverse := by
    rw [List.takeWhile_append_of_pos hall, List.takeWhile_cons_of_neg (by simp), List.append_nil]
  have hreverse : path.toList.reverse = x.reverse ++ '.' :: before.reverse := by simp [hpath]
  simp only [extension?, hreverse]
  rw [if_pos (by simp), htake, List.reverse_reverse]

theorem extension?_eq_none {path : String} (h : '.' ∉ path.toList) : extension? path = none := by
  simp [extension?, h]

theorem toList_partName (path : String) :
    (partName path).toList = path.toList ∨ (partName path).toList = '/' :: path.toList := by
  unfold partName
  split
  · exact .inl rfl
  · exact .inr (by simp)

section

variable {key k : String} (type : String) {entries : List (String × String)}

theorem lookup_replaceOrAdd_of_ne (h : k ≠ key) :
    (replaceOrAdd key type entries).lookup k = entries.lookup k := by
  induction entries with
  | nil => simp [replaceOrAdd, h]
  | cons e rest ih =>
    rw [replaceOrAdd]
    split
    · next he =>
      rw [List.lookup_cons, List.lookup_cons, beq_eq_false_iff_ne.mpr h,
        beq_eq_false_iff_ne.mpr (he ▸ h)]
    · rw [List.lookup_cons, List.lookup_cons, ih]

theorem lookup_replaceOrAdd_eq : (replaceOrAdd key type entries).lookup k =
    if k = key then some type else entries.lookup k := by
  split
  · next h => rw [h, lookup_replaceOrAdd]
  · next h => exact lookup_replaceOrAdd_of_ne type h

theorem lookup_eq_none_of_not_mem (h : k ∉ entries.map Prod.fst) : entries.lookup k = none := by
  refine List.lookup_eq_none_iff.mpr fun e he => bne_iff_ne.mpr ?_
  rintro rfl
  exact h (List.mem_map_of_mem he)

/-- If keys differ, nothing is left of an entry that is taken out. -/
theorem lookup_eraseP (h : (entries.map Prod.fst).Nodup) :
    (entries.eraseP (·.1 = key)).lookup k = if k = key then none else entries.lookup k := by
  induction entries with
  | nil => simp
  | cons e rest ih =>
    obtain ⟨hnew, hrest⟩ := List.nodup_cons.mp h
    by_cases he : e.1 = key
    · rw [List.eraseP_cons_of_pos (by simpa using he)]
      split
      · next hk => exact lookup_eq_none_of_not_mem (by rwa [hk, ← he])
      · next hk => rw [List.lookup_cons, beq_eq_false_iff_ne.mpr (he ▸ hk)]
    · rw [List.eraseP_cons_of_neg (by simpa using he), List.lookup_cons, ih hrest, List.lookup_cons]
      by_cases hk : k = e.1
      · simp [hk, he]
      · simp [beq_eq_false_iff_ne.mpr hk]

end

/-! ### Rules -/

/-- The types behind a rule. -/
def follow (c : ContentTypes) : TypeRule → ContentTypes
  | .extension extension type => c.addDefault extension type
  | .part path type => c.addOverride path type
  | .untyped path => c.eraseOverride path

theorem apply_eq_ok {c c' : ContentTypes} {tag : Tag} (h : c.apply tag = .ok c') :
    c' = (TypeRule.ofTag? tag).toList.foldl follow c := by
  unfold apply at h
  unfold TypeRule.ofTag?
  split at h
  · next hlabel =>
    rw [if_pos hlabel]
    split at h
    · next hext htype =>
      cases h
      rw [hext, htype]
      rfl
    · cases h
  next hdefault =>
  rw [if_neg hdefault]
  split at h
  · next hlabel =>
    rw [if_pos hlabel]
    split at h
    · next hname htype =>
      cases h
      rw [hname, htype]
      rfl
    · cases h
  · next hlabel =>
    cases h
    rw [if_neg hlabel]
    rfl

/-- Types that are read are those that the tags say. -/
theorem readEvents_eq_ok {fault : Option Markup.Fault} {events : List Event} :
    ∀ {c c' : ContentTypes}, c.readEvents fault events = .ok c' →
      c' = ((events.filterMap Event.tag?).filterMap TypeRule.ofTag?).foldl follow c := by
  induction events with
  | nil =>
    intro c c' h
    cases fault with
    | none => cases h; rfl
    | some fault => cases h
  | cons event rest ih =>
    intro c c' h
    cases event with
    | opening tag | empty tag =>
      obtain ⟨next, hnext, h⟩ := bind_eq_ok.mp h
      rw [ih h, apply_eq_ok hnext]
      simp only [List.filterMap_cons, Event.tag?]
      cases TypeRule.ofTag? tag <;> rfl
    | closing name | text content | cdata content | aside source => exact ih h

theorem call_eq_foldl (rules : List TypeRule) (call : TypeCall) :
    (rules.foldl follow {} : ContentTypes).call call =
      (rulesBehind rules call).foldl follow {} := by
  cases call with
  | forDocument mainPart => rfl
  | read source =>
    rw [ContentTypes.call, rulesBehind]
    cases h : read source with
    | ok c => exact readEvents_eq_ok h
    | error fault => rfl
  | addDefault extension type | addOverride path type | eraseOverride path =>
    rw [rulesBehind, List.foldl_concat]
    rfl

/-- Calls in a row come to the rules that are left behind them. -/
theorem after_eq_foldl (calls : List TypeCall) :
    after {} calls = (history calls).foldl follow {} := by
  induction calls using List.reverseRecOn with
  | nil => rfl
  | append_singleton calls c ih =>
    rw [after, history, List.foldl_concat, List.foldl_concat]
    exact (congrArg (call · c) ih).trans (call_eq_foldl _ c)

/-- The entries are sound and give to each part and to each extension what the rules do. -/
structure Obeys (c : ContentTypes) (rules : List TypeRule) : Prop where
  sound : c.Sound
  part : ∀ path, c.override? path = partType? rules path
  extension : ∀ x, c.defaults.lookup (String.ofList (x.map Char.toLower)) = extensionType? rules x

theorem partType?_concat (rules : List TypeRule) (r : TypeRule) (path : String) :
    partType? (rules ++ [r]) path = if r.isForPart path then r.type? else partType? rules path := by
  rw [partType?, List.reverse_concat, List.find?_cons]
  split <;> simp_all [partType?]

theorem extensionType?_concat (rules : List TypeRule) (r : TypeRule) (x : List Char) :
    extensionType? (rules ++ [r]) x =
      if r.isForExtension x then r.type? else extensionType? rules x := by
  rw [extensionType?, List.reverse_concat, List.find?_cons]
  split <;> simp_all [extensionType?]

theorem Obeys.follow {c : ContentTypes} {rules : List TypeRule} (h : c.Obeys rules) (r : TypeRule) :
    (c.follow r).Obeys (rules ++ [r]) := by
  have hpart : ∀ p path, partName path = partName p ↔ samePart p path = true := by
    intro p path
    rw [samePart_iff, eq_comm]
  cases r with
  | extension e type =>
    refine ⟨h.sound.addDefault e type, fun path => ?_, fun x => ?_⟩
    · rw [partType?_concat]
      exact h.part path
    · have hkey : String.ofList (x.map Char.toLower) = extensionName e ↔
          (TypeRule.extension e type).isForExtension x = true := by
        rw [extensionName, String.ofList_inj, TypeRule.isForExtension, decide_eq_true_eq,
          eq_comm]
      rw [extensionType?_concat, ContentTypes.follow, addDefault, lookup_replaceOrAdd_eq,
        ← h.extension]
      exact if_congr hkey rfl rfl
  | part p type =>
    refine ⟨h.sound.addOverride p type, fun path => ?_, fun x => ?_⟩
    · rw [partType?_concat, override?, ContentTypes.follow, addOverride, lookup_replaceOrAdd_eq,
        ← h.part]
      exact if_congr (hpart p path) rfl rfl
    · rw [extensionType?_concat]
      exact h.extension x
  | untyped p =>
    refine ⟨h.sound.eraseOverride p, fun path => ?_, fun x => ?_⟩
    · rw [partType?_concat, override?, ContentTypes.follow, eraseOverride,
        lookup_eraseP h.sound.overrides.nodup, ← h.part]
      exact if_congr (hpart p path) rfl rfl
    · rw [extensionType?_concat]
      exact h.extension x

theorem obeys_foldl (rules : List TypeRule) :
    (rules.foldl follow {} : ContentTypes).Obeys rules := by
  induction rules using List.reverseRecOn with
  | nil => exact ⟨.empty, fun _ => rfl, fun _ => rfl⟩
  | append_singleton rules r ih =>
    rw [List.foldl_concat]
    exact ih.follow r

theorem Obeys.type?_eq {c : ContentTypes} {rules : List TypeRule} (h : c.Obeys rules)
    (path : String) : c.type? path = (partType? rules path).or
      ((extension? (partName path)).bind fun e => c.defaults.lookup e) := by
  rw [type?, h.part]

theorem Obeys.lawful {c : ContentTypes} {rules : List TypeRule} (h : c.Obeys rules) :
    c.Lawful rules where
  extensions := h.sound.defaults.nodup
  lowercase := fun e he => (of_extensionName_eq_self (h.sound.defaults.fixed e he)).1
  dotless := fun e he => (of_extensionName_eq_self (h.sound.defaults.fixed e he)).2
  names := h.sound.overrides.nodup
  slashed := fun e he => head?_of_partName_eq_self (h.sound.overrides.fixed e he)
  reread := read_xml h.sound
  part := fun path type hpart => by rw [h.type?_eq, hpart, Option.some_or]
  extension := by
    intro path before x hpart hpath hx
    have hname : ∃ before', (partName path).toList = before' ++ '.' :: x := by
      rcases toList_partName path with hname | hname
      · exact ⟨before, hname.trans hpath⟩
      · exact ⟨'/' :: before, by rw [hname, hpath, List.cons_append]⟩
    obtain ⟨before', hname⟩ := hname
    rw [h.type?_eq, hpart, Option.none_or, extension?_eq_some hname hx, Option.bind_some,
      h.extension]
  untyped := by
    intro path hpart hdot
    have hname : '.' ∉ (partName path).toList := by
      rcases toList_partName path with hname | hname <;> simp [hname, hdot]
    rw [h.type?_eq, hpart, extension?_eq_none hname]
    rfl

/-- Behind any calls in a row, the types are those that the calls gave. -/
theorem lawful_history (calls : List TypeCall) : (after {} calls).Lawful (history calls) := by
  rw [after_eq_foldl]
  exact (obeys_foldl _).lawful

end ContentTypes

end Letterpress
