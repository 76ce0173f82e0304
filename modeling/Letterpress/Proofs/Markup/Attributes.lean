import Letterpress.Markup.Attribute
import Letterpress.Markup.Piece
import Letterpress.Proofs.Markup.References
import Letterpress.Proofs.Text.Utf8

/-!
# Attributes are read back

The attributes written in a tag are the ones read from it, and what is read can be written: its
names are sound and no two are equal.
-/

namespace Letterpress

open Markup

namespace Markup

open Text

/-- What `find?` takes for a name: nothing blank at its start, and no end of a name behind it. -/
def SoundName : List Symbol → Prop
  | [] => False
  | s :: rest => s.isBlank = false ∧ ∀ t ∈ rest, Attribute.isNameEnd t = false

/-- An attribute as it is written. -/
def Attribute.ofTexts (a : String × String) : Attribute :=
  ⟨Symbol.ofString a.1, Symbol.ofString (escapeValue a.2)⟩

namespace Attribute

theorem not_mem_value {c : Char} (hc : c ∈ ['<', '>', '"', '\'']) (a : String × String) :
    .char c ∉ (ofTexts a).value := by
  rw [ofTexts, Symbol.mem_ofString]
  exact not_mem_escapeValue hc a.2

theorem value?_ofTexts (a : String × String) : (ofTexts a).value? = some a.2 := by
  simp [value?, ofTexts, resolve_escapeValue, Except.toOption]

/-- An attribute is written behind a blank. -/
theorem ofString_attributesSource_cons (a : String × String) (rest : List (String × String)) :
    Symbol.ofString (Piece.attributesSource (a :: rest)) =
      .char ' ' :: (Symbol.ofString a.1 ++ .char '=' :: .char '"' ::
        ((ofTexts a).value ++ .char '"' :: Symbol.ofString (Piece.attributesSource rest))) := by
  simp [Piece.attributesSource, Piece.attributeSource, String.join_cons, ofTexts, Symbol.ofString]

theorem find?_ofTexts {taken : List (List Symbol)} {a : String × String}
    (hname : SoundName (Symbol.ofString a.1)) (htaken : Symbol.ofString a.1 ∉ taken)
    (rest : List Symbol) :
    find? taken (Symbol.ofString a.1 ++
      .char '=' :: .char '"' :: ((ofTexts a).value ++ .char '"' :: rest)) =
      some (.sound (ofTexts a), rest) := by
  match hn : Symbol.ofString a.1 with
  | [] => exact (hn ▸ hname : SoundName []).elim
  | first :: tail =>
    have htail : ∀ t ∈ tail, (!isNameEnd t) = true := by
      have := (hn ▸ hname : SoundName (first :: tail)).2
      exact fun t ht => by simp [this t ht]
    have hvalue : ∀ t ∈ (ofTexts a).value, (t != .char '"') = true := by
      intro t ht
      rw [bne_iff_ne]
      rintro rfl
      exact not_mem_value (by decide) a ht
    have hdrop : (tail ++
        .char '=' :: .char '"' :: ((ofTexts a).value ++ .char '"' :: rest)).dropWhile
        (!isNameEnd ·) = .char '=' :: .char '"' :: ((ofTexts a).value ++ .char '"' :: rest) := by
      rw [List.dropWhile_append_of_pos htail]
      rfl
    have htake : (tail ++
        .char '=' :: .char '"' :: ((ofTexts a).value ++ .char '"' :: rest)).takeWhile
        (!isNameEnd ·) = tail := by
      rw [List.takeWhile_append_of_pos htail]
      exact List.append_nil tail
    have hrest : ((ofTexts a).value ++ .char '"' :: rest).dropWhile (· != .char '"') =
        .char '"' :: rest := by
      rw [List.dropWhile_append_of_pos hvalue]
      rfl
    have hclosed : ((ofTexts a).value ++ .char '"' :: rest).takeWhile (· != .char '"') =
        (ofTexts a).value := by
      rw [List.takeWhile_append_of_pos hvalue]
      exact List.append_nil _
    have hnew : taken.contains (first :: tail) = false := by
      rw [hn] at htaken
      simpa using htaken
    have hname : (ofTexts a).name = first :: tail := hn
    rw [List.cons_append, find?, hdrop, htake]
    have hsign : ∀ behind : List Symbol,
        (Symbol.char '=' :: behind).dropWhile Symbol.isBlank = .char '=' :: behind := fun _ => rfl
    have hquote : ∀ behind : List Symbol,
        (Symbol.char '"' :: behind).dropWhile Symbol.isBlank = .char '"' :: behind := fun _ => rfl
    simp only [hsign, hquote, hrest, hclosed, hnew, ne_eq, not_true_eq_false, if_false, true_or,
      if_true, Bool.false_eq_true]
    rw [← hname]

/-- Attributes whose names are sound and not repeated. -/
structure Sound (attributes : List (String × String)) : Prop where
  names : ∀ a ∈ attributes, SoundName (Symbol.ofString a.1)
  nodup : (attributes.map Prod.fst).Nodup

theorem readFrom_of_find?_sound {taken : List (List Symbol)} {input rest : List Symbol}
    {a : Attribute}
    (h : find? taken (input.dropWhile Symbol.isBlank) = some (.sound a, rest)) :
    readFrom taken input = a :: readFrom (a.name :: taken) rest := by
  rw [readFrom]
  split
  · next h' => simp [h] at h'
  · next found rest' h' =>
    have he := h.symm.trans h'
    cases he
    rfl

theorem readFrom_attributesSource {attributes : List (String × String)} :
    ∀ {taken : List (List Symbol)}, Sound attributes →
      (∀ a ∈ attributes, Symbol.ofString a.1 ∉ taken) →
      readFrom taken (Symbol.ofString (Piece.attributesSource attributes)) =
        attributes.map ofTexts := by
  induction attributes with
  | nil => intro taken _ _; rw [readFrom]; rfl
  | cons a rest ih =>
    intro taken hs ht
    have hname := hs.names a (List.mem_cons_self ..)
    have hnodup := List.nodup_cons.mp hs.nodup
    have hblank : (Symbol.ofString (Piece.attributesSource (a :: rest))).dropWhile Symbol.isBlank =
        Symbol.ofString a.1 ++ .char '=' :: .char '"' ::
          ((ofTexts a).value ++ .char '"' :: Symbol.ofString (Piece.attributesSource rest)) := by
      rw [ofString_attributesSource_cons]
      match hn : Symbol.ofString a.1 with
      | [] => exact (hn ▸ hname : SoundName []).elim
      | first :: tail =>
        have hfirst : first.isBlank = false := (hn ▸ hname : SoundName (first :: tail)).1
        rw [List.dropWhile_cons_of_pos rfl, List.cons_append,
          List.dropWhile_cons_of_neg (by simp [hfirst])]
    have hfind := find?_ofTexts hname (ht a (List.mem_cons_self ..))
      (Symbol.ofString (Piece.attributesSource rest))
    rw [← hblank] at hfind
    rw [readFrom_of_find?_sound hfind, List.map_cons]
    congr 1
    refine ih ⟨fun b hb => hs.names b (List.mem_cons_of_mem _ hb), hnodup.2⟩ fun b hb => ?_
    rw [List.mem_cons, not_or]
    refine ⟨fun he => hnodup.1 ?_, ht b (List.mem_cons_of_mem _ hb)⟩
    have : b.1 = a.1 := Symbol.ofString_injective he
    exact this ▸ List.mem_map_of_mem hb

/-! ### What is read can be written -/

theorem soundName_of_find? {taken : List (List Symbol)} {input rest : List Symbol} {a : Attribute}
    (h : find? taken (input.dropWhile Symbol.isBlank) = some (.sound a, rest)) :
    SoundName a.name ∧ a.name ∉ taken := by
  match hi : input.dropWhile Symbol.isBlank with
  | [] => rw [hi] at h; simp [find?] at h
  | first :: tail =>
    have hfirst : first.isBlank = false := by
      have := List.head?_dropWhile_not Symbol.isBlank input
      rw [hi] at this
      simpa using this
    have hname : SoundName (first :: tail.takeWhile (!isNameEnd ·)) :=
      ⟨hfirst, fun t ht => by
        simpa using List.all_eq_true.mp (List.all_takeWhile (l := tail)) t ht⟩
    rw [hi, find?] at h
    split at h
    · simp at h
    · split at h
      · simp at h
      · split at h
        · simp at h
        · split at h
          · split at h
            · simp at h
            · split at h
              · simp at h
              · next htaken =>
                simp only [Option.some.injEq, Prod.mk.injEq, Found.sound.injEq] at h
                obtain ⟨rfl, -⟩ := h
                exact ⟨hname, by simpa using htaken⟩
          · split at h <;> simp at h

theorem sound_readFrom (taken : List (List Symbol)) (input : List Symbol) :
    (∀ a ∈ readFrom taken input, SoundName a.name ∧ a.name ∉ taken) ∧
      ((readFrom taken input).map Attribute.name).Nodup := by
  fun_induction readFrom taken input with
  | case1 taken input h => simp
  | case2 taken input rest a _ h ih =>
    have ha := soundName_of_find? ‹_›
    refine ⟨fun b hb => ?_, ?_⟩
    · rcases List.mem_cons.mp hb with rfl | hb
      · exact ha
      · have := ih.1 b hb
        exact ⟨this.1, fun hm => this.2 (List.mem_cons_of_mem _ hm)⟩
    · rw [List.map_cons, List.nodup_cons]
      refine ⟨fun hm => ?_, ih.2⟩
      obtain ⟨b, hb, he⟩ := List.mem_map.mp hm
      exact (ih.1 b hb).2 (he ▸ List.mem_cons_self ..)
  | case3 taken input rest name _ h ih =>
    refine ⟨fun b hb => ?_, ih.2⟩
    have := ih.1 b hb
    exact ⟨this.1, fun hm => this.2 (List.mem_cons_of_mem _ hm)⟩
  | case4 taken input rest _ h ih => exact ih

end Attribute

/-- The attributes read from a tag can be written. -/
theorem Tag.sound_texts (t : Tag) : Attribute.Sound t.texts := by
  have hsound := Attribute.sound_readFrom [] (t.content.dropWhile (!·.isBlank))
  have names : ∀ attributes : List Attribute,
      ((attributes.filterMap fun a => do pure (← text? a.name, ← a.value?)).map
        fun b : String × String => Symbol.ofString b.1).Sublist
          (attributes.map Attribute.name) := by
    intro attributes
    induction attributes with
    | nil => exact .slnil
    | cons a rest ih =>
      rw [List.filterMap_cons, List.map_cons]
      cases hname : text? a.name with
      | none => exact ih.cons _
      | some name =>
        cases hvalue : a.value? with
        | none => exact ih.cons _
        | some value =>
          rw [← Symbol.ofString_of_text? hname]
          exact ih.cons_cons _
  refine ⟨fun a ha => ?_, ?_⟩
  · have hmem := (names _).subset (List.mem_map_of_mem ha)
    obtain ⟨b, hb, he⟩ := List.mem_map.mp hmem
    exact he ▸ (hsound.1 b hb).1
  · have hnodup := hsound.2.sublist (names _)
    have : ((t.texts.map Prod.fst).map Symbol.ofString).Nodup := by
      rw [List.map_map]
      exact hnodup
    exact List.Pairwise.of_map Symbol.ofString (fun _ _ hne he => hne (congrArg _ he)) this

/-! ### Written tags -/

/-- The part of a name behind its first colon. -/
def localName (name : String) : String :=
  match name.toList.dropWhile (· != ':') with
  | [] => name
  | _ :: rest => String.ofList rest

theorem localPart_ofString (name : String) :
    localPart (Symbol.ofString name) = Symbol.ofString (localName name) := by
  have hdrop : (Symbol.ofString name).dropWhile (· != .char ':') =
      (name.toList.dropWhile (· != ':')).map .char := by
    rw [Symbol.ofString, List.dropWhile_map]
    congr 2
    funext c
    rw [Function.comp, Bool.eq_iff_iff, bne_iff_ne, bne_iff_ne]
    simp
  rw [localPart, localName, hdrop]
  cases name.toList.dropWhile (· != ':') <;> simp [Symbol.ofString]

/-- Letters and colons make a plain name. -/
def isPlain (name : String) : Bool :=
  name ≠ "" && name.toList.all fun c => c.isAlpha || c = ':'

/-- The tag that is written with a name and attributes. -/
def Tag.written (name : String) (attributes : List (String × String)) : Tag :=
  ⟨Symbol.ofString (name ++ Piece.attributesSource attributes)⟩

theorem ne_of_isPlain {name : String} (h : isPlain name) {s : Symbol}
    (hs : s ∈ Symbol.ofString name)
    {d : Char} (hd : (d.isAlpha || d = ':') = false) : s ≠ .char d := by
  rintro rfl
  simp only [isPlain, Bool.and_eq_true, List.all_eq_true] at h
  have := h.2 d (Symbol.mem_ofString.mp hs)
  simp [hd] at this

theorem isBlank_of_mem_isPlain {name : String} (h : isPlain name) {s : Symbol}
    (hs : s ∈ Symbol.ofString name) : s.isBlank = false := by
  cases s with
  | stray b => rfl
  | char c =>
    have hne : ∀ d : Char, (d.isAlpha || d = ':') = false → c ≠ d :=
      fun d hd he => ne_of_isPlain h hs hd (congrArg Symbol.char he)
    simp [Symbol.isBlank, hne ' ' rfl, hne '\t' rfl, hne '\r' rfl, hne '\n' rfl]

theorem soundName_of_isPlain {name : String} (h : isPlain name) :
    SoundName (Symbol.ofString name) := by
  match hn : Symbol.ofString name with
  | [] =>
    have : name = "" := Symbol.ofString_injective (hn.trans rfl)
    simp [isPlain, this] at h
  | first :: rest =>
    refine ⟨isBlank_of_mem_isPlain h (hn ▸ List.mem_cons_self ..), fun t ht => ?_⟩
    have ht : t ∈ Symbol.ofString name := hn ▸ List.mem_cons_of_mem _ ht
    rw [Attribute.isNameEnd, isBlank_of_mem_isPlain h ht, Bool.or_false, beq_eq_false_iff_ne]
    exact ne_of_isPlain h ht rfl

namespace Tag

variable {name : String} {attributes : List (String × String)}

theorem content_written : (written name attributes).content =
    Symbol.ofString name ++ Symbol.ofString (Piece.attributesSource attributes) :=
  Symbol.ofString_append ..

theorem not_isBlank_of_isPlain (h : isPlain name) :
    ∀ s ∈ Symbol.ofString name, (!s.isBlank) = true := by
  intro s hs
  rw [isBlank_of_mem_isPlain h hs]
  rfl

theorem name_written (h : isPlain name) :
    (written name attributes).name = Symbol.ofString name := by
  rw [Tag.name, content_written, List.takeWhile_append_of_pos (not_isBlank_of_isPlain h)]
  cases attributes with
  | nil => exact List.append_nil _
  | cons a rest =>
    rw [Attribute.ofString_attributesSource_cons]
    exact List.append_nil _

theorem attributes_written (h : isPlain name) (ha : Attribute.Sound attributes) :
    (written name attributes).attributes = attributes.map Attribute.ofTexts := by
  have hdrop : (written name attributes).content.dropWhile (!·.isBlank) =
      Symbol.ofString (Piece.attributesSource attributes) := by
    rw [content_written, List.dropWhile_append_of_pos (not_isBlank_of_isPlain h)]
    cases attributes with
    | nil => rfl
    | cons a rest =>
      rw [Attribute.ofString_attributesSource_cons]
      rfl
  rw [Tag.attributes, hdrop, Attribute.readFrom_attributesSource ha]
  simp

theorem label_written (h : isPlain name) : (written name attributes).label = localName name := by
  rw [label, name_written h, localPart_ofString, text?_ofString]
  rfl

/-- The attributes of a written tag are read back. -/
theorem texts_written (h : isPlain name) (ha : Attribute.Sound attributes) :
    (written name attributes).texts = attributes := by
  have htext : ∀ a : String × String,
      (do pure (← text? (Attribute.ofTexts a).name, ← (Attribute.ofTexts a).value?)) = some a := by
    intro a
    rw [Attribute.value?_ofTexts, Attribute.ofTexts, text?_ofString]
    rfl
  rw [texts, attributes_written h ha, List.filterMap_map, Function.comp_def]
  simp only [htext, List.filterMap_some]

theorem value?_written (h : isPlain name) (ha : Attribute.Sound attributes) (l : String) :
    (written name attributes).value? l = (attributes.find? (localName ·.1 = l)).map Prod.snd := by
  have hlocal : ∀ a : String × String,
      decide (localPart (Attribute.ofTexts a).name = Symbol.ofString l) =
        decide (localName a.1 = l) := by
    intro a
    rw [Attribute.ofTexts, localPart_ofString]
    simp [Symbol.ofString_injective.eq_iff]
  rw [value?, attributes_written h ha, List.find?_map, Function.comp_def]
  simp only [hlocal]
  cases attributes.find? (localName ·.1 = l) with
  | none => rfl
  | some a => rw [Option.map_some, Option.map_some, Option.bind_some, Attribute.value?_ofTexts]

end Tag

end Markup

end Letterpress
