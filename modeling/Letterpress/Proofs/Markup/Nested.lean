import Letterpress.Markup.Content
import Letterpress.Proofs.Markup.Attributes

/-!
# Content is read back

Markup is read as the same content wherever it stands, whatever elements are open and whatever
follows: a written tag, an element around markup, a text before a tag.
-/

namespace Letterpress.Markup

open Text

/-- The quote that is open behind symbols, unless a tag ends among them. -/
def openQuote? (quote : Option Symbol) : List Symbol → Option (Option Symbol)
  | [] => some quote
  | s :: rest => if s = .char '>' ∧ quote = none then none else openQuote? (turnQuote quote s) rest

theorem openQuote?_append (quote : Option Symbol) (a b : List Symbol) :
    openQuote? quote (a ++ b) = (openQuote? quote a).bind (openQuote? · b) := by
  induction a generalizing quote with
  | nil => rfl
  | cons s rest ih =>
    rw [List.cons_append, openQuote?, openQuote?]
    split
    · rfl
    · exact ih _

theorem tagEnd?_append {quote open? : Option Symbol} {w : List Symbol}
    (h : openQuote? quote w = some open?)
    (rest : List Symbol) :
    tagEnd? quote (w ++ rest) = (tagEnd? open? rest).map fun p => (w ++ p.1, p.2) := by
  induction w generalizing quote with
  | nil => cases h; simp
  | cons s w ih =>
    unfold openQuote? at h
    split at h
    · simp at h
    · next hs =>
      rw [List.cons_append, tagEnd?, if_neg hs, ih h, Option.map_map]
      rfl

theorem openQuote?_of_plain {w : List Symbol}
    (h : ∀ s ∈ w, s ≠ .char '>' ∧ s ≠ .char '"' ∧ s ≠ .char '\'') :
      openQuote? none w = some none := by
  induction w with
  | nil => rfl
  | cons s rest ih =>
    obtain ⟨hend, hquot, hapos⟩ := h s (List.mem_cons_self ..)
    rw [openQuote?, if_neg (by simp [hend]), turnQuote, if_neg (by simp [hquot, hapos])]
    exact ih fun t ht => h t (List.mem_cons_of_mem _ ht)

theorem openQuote?_quoted {q : Symbol} {w : List Symbol} (h : q ∉ w) :
    openQuote? (some q) w = some (some q) := by
  induction w with
  | nil => rfl
  | cons s rest ih =>
    rw [List.mem_cons, not_or] at h
    rw [openQuote?, if_neg (by simp), turnQuote, if_neg (Ne.symm h.1)]
    exact ih h.2

/-- In a tag, the text closes the quotes it opens, and the tag does not end in it. -/
def ClosesQuotes (s : String) : Prop := openQuote? none (Symbol.ofString s) = some none

instance (s : String) : Decidable (ClosesQuotes s) := inferInstanceAs (Decidable (_ = _))

theorem closesQuotes_of_isPlain {name : String} (h : isPlain name) : ClosesQuotes name :=
  openQuote?_of_plain fun _ hs =>
    ⟨ne_of_isPlain h hs rfl, ne_of_isPlain h hs rfl, ne_of_isPlain h hs rfl⟩

theorem closesQuotes_attributesSource {attributes : List (String × String)}
    (h : ∀ a ∈ attributes, ClosesQuotes a.1) :
      ClosesQuotes (Piece.attributesSource attributes) := by
  induction attributes with
  | nil => rfl
  | cons a rest ih =>
    have hname : openQuote? none (Symbol.ofString a.1) = some none := h a (List.mem_cons_self ..)
    have hvalue : openQuote? (some (.char '"')) (Attribute.ofTexts a).value =
        some (some (.char '"')) :=
      openQuote?_quoted (Attribute.not_mem_value (by decide) a)
    have hquotes : ∀ w, openQuote? none (.char '=' :: .char '"' :: w) =
        openQuote? (some (.char '"')) w :=
      fun _ => rfl
    have hblank : ∀ w, openQuote? none (.char ' ' :: w) = openQuote? none w := fun _ => rfl
    have hclosed : ∀ w, openQuote? (some (.char '"')) (.char '"' :: w) = openQuote? none w :=
      fun _ => rfl
    rw [ClosesQuotes, Attribute.ofString_attributesSource_cons, hblank, openQuote?_append, hname,
      Option.bind_some, hquotes, openQuote?_append, hvalue, Option.bind_some, hclosed]
    exact ih fun b hb => h b (List.mem_cons_of_mem _ hb)

theorem Tag.openQuote?_written {name : String} {attributes : List (String × String)}
    (h : isPlain name)
    (ha : ClosesQuotes (Piece.attributesSource attributes)) :
    openQuote? none (written name attributes).content = some none := by
  rw [content_written, openQuote?_append, closesQuotes_of_isPlain h]
  exact ha

/-- A fold over the events of markup, whatever is open. -/
theorem scanFrom_markup {opened opened' : List (List Symbol)} {input rest : List Symbol}
    {event : Event}
    (h : scanMarkup input = .ok (event, rest)) (he : enter opened event = .ok opened') :
    scanFrom opened (.char '<' :: input) = (scanFrom opened' rest).cons event := by
  rw [scanFrom, if_pos rfl]
  split
  · next fault h' => simp [h] at h'
  · next event' rest' h' =>
    rw [h] at h'
    cases h'
    simp [he]

/-- A text reaches up to the next markup. -/
theorem exists_upToMarkup (input : List Symbol) : ∃ text rest, input = text ++ rest ∧
    .char '<' ∉ text ∧ (rest = [] ∨ rest.head? = some (.char '<')) := by
  induction input with
  | nil => exact ⟨[], [], rfl, List.not_mem_nil, .inl rfl⟩
  | cons s input ih =>
    by_cases hs : s = .char '<'
    · exact ⟨[], s :: input, rfl, List.not_mem_nil, .inr (congrArg some hs)⟩
    · obtain ⟨text, rest, rfl, hmem, hrest⟩ := ih
      exact ⟨s :: text, rest, rfl, List.not_mem_cons_of_ne_of_not_mem (Ne.symm hs) hmem, hrest⟩

theorem scanFrom_text {opened : List (List Symbol)} {text rest : List Symbol} (hne : text ≠ [])
    (h : .char '<' ∉ text) (hrest : rest = [] ∨ rest.head? = some (.char '<')) :
    scanFrom opened (text ++ rest) = (scanFrom opened rest).cons (.text text) := by
  match text with
  | [] => exact absurd rfl hne
  | s :: text =>
    rw [List.mem_cons, not_or] at h
    have hall : ∀ t ∈ text, (t != .char '<') = true := by
      intro t ht
      rw [bne_iff_ne]
      rintro rfl
      exact h.2 ht
    have hstop : rest.takeWhile (· != .char '<') = [] ∧ rest.dropWhile (· != .char '<') = rest := by
      match rest with
      | [] => exact ⟨rfl, rfl⟩
      | t :: rest =>
        have : t = .char '<' := by simpa using hrest
        simp [this]
    rw [List.cons_append, scanFrom, if_neg (Ne.symm h.1), List.takeWhile_append_of_pos hall,
      List.dropWhile_append_of_pos hall, hstop.1, hstop.2, List.append_nil]

namespace Content

/-- What a text is read as inside open elements. -/
def nested (opened : List (List Symbol)) (input : List Symbol) : Nested :=
  let events := scanFrom opened input
  events.list.foldr (put events.fault) ⟨cut events.fault, []⟩

def Nested.mapHere (f : Content → Content) (n : Nested) : Nested := { n with here := f n.here }

theorem nested_nil (opened : List (List Symbol)) : nested opened [] = ⟨cut none, []⟩ := by
  rw [nested, scanFrom]
  rfl

theorem nested_markup {opened opened' : List (List Symbol)} {input rest : List Symbol}
    {event : Event}
    (h : scanMarkup input = .ok (event, rest)) (he : enter opened event = .ok opened') :
    nested opened (.char '<' :: input) =
      put (scanFrom opened' rest).fault event (nested opened' rest) := by
  rw [nested, scanFrom_markup h he]
  rfl

/-- Nothing is read behind a fault. -/
theorem nested_fault {input : List Symbol} {fault : Fault} (opened : List (List Symbol))
    (h : scanMarkup input = .error fault ∨
      ∃ event rest, scanMarkup input = .ok (event, rest) ∧ enter opened event = .error fault) :
    nested opened (.char '<' :: input) = ⟨cut (some fault), []⟩ := by
  have hevents : scanFrom opened (.char '<' :: input) = ⟨[], some fault⟩ := by
    rw [scanFrom, if_pos rfl]
    split
    · next fault' hscan =>
      obtain h | ⟨event, rest, h, -⟩ := h
      · rw [hscan] at h; cases h; rfl
      · simp [hscan] at h
    · next event rest hscan =>
      obtain h | ⟨event', rest', h, henter⟩ := h
      · simp [hscan] at h
      · rw [hscan] at h
        cases h
        rw [henter]
  rw [nested, hevents]
  rfl

theorem nested_text {opened : List (List Symbol)} {content rest : List Symbol} (hne : content ≠ [])
    (h : .char '<' ∉ content) (hrest : rest = [] ∨ rest.head? = some (.char '<')) :
    nested opened (content ++ rest) = (nested opened rest).mapHere (text content) := by
  rw [nested, scanFrom_text hne h hrest]
  rfl

end Content

/-! ### Written tags and pieces -/

theorem scanTag_append {w : List Symbol} (h : openQuote? none w = some none)
    (event : List Symbol → Event)
    (rest : List Symbol) : scanTag event (w ++ .char '>' :: rest) = .ok (event w, rest) := by
  rw [scanTag, tagEnd?_append h]
  simp [tagEnd?]

/-- What begins with a plain name is no end tag, comment, instruction or declaration. -/
theorem scanMarkup_of_isPlain {name : String} (h : isPlain name) (w : List Symbol) :
    scanMarkup (Symbol.ofString name ++ w) = scanTag startTag (Symbol.ofString name ++ w) := by
  match hn : Symbol.ofString name with
  | [] => exact (hn ▸ soundName_of_isPlain h : SoundName []).elim
  | s :: rest =>
    have hs : s ∈ Symbol.ofString name := hn ▸ List.mem_cons_self ..
    have hhead : ∀ d : Char, (d.isAlpha || d = ':') = false →
        (s :: rest ++ w).head? ≠ some (.char d) :=
      fun d hd he => ne_of_isPlain h hs hd (Option.some.inj he)
    exact scanMarkup_of_head? (hhead _ rfl) (hhead _ rfl) (hhead _ rfl)

namespace Tag

variable {name : String} {attributes : List (String × String)}

/-- A tag that can be written: its name is plain, and no quote in its attributes' names stays open. -/
structure IsWritten (name : String) (attributes : List (String × String)) : Prop where
  name : isPlain name
  quotes : ClosesQuotes (Piece.attributesSource attributes)

theorem getLast?_attributesSource (attributes : List (String × String)) :
    (Symbol.ofString (Piece.attributesSource attributes)).getLast? =
      if attributes = [] then none else some (.char '"') := by
  induction attributes with
  | nil => rfl
  | cons a rest ih =>
    rw [Attribute.ofString_attributesSource_cons, if_neg (List.cons_ne_nil _ _)]
    simp only [List.getLast?_cons, List.getLast?_append, ih]
    split <;> simp

theorem getLast?_written (h : isPlain name) :
    (written name attributes).content.getLast? ≠ some (.char '/') := by
  rw [content_written, List.getLast?_append, getLast?_attributesSource]
  split
  · intro he
    exact ne_of_isPlain h (List.mem_of_getLast? he) rfl rfl
  · simp

theorem scanMarkup_written (h : IsWritten name attributes) (rest : List Symbol) :
    scanMarkup ((written name attributes).content ++ .char '>' :: rest) =
      .ok (.opening (written name attributes), rest) := by
  have hscan := scanTag_append (openQuote?_written h.name h.quotes) startTag rest
  have hopening : startTag (written name attributes).content =
      .opening (written name attributes) := by
    rw [startTag, if_neg (getLast?_written h.name)]
  rw [hopening] at hscan
  rw [← hscan, content_written, List.append_assoc, scanMarkup_of_isPlain h.name]

theorem scanMarkup_written_empty (h : IsWritten name attributes) (rest : List Symbol) :
    scanMarkup ((written name attributes).content ++ .char '/' :: .char '>' :: rest) =
      .ok (.empty (written name attributes), rest) := by
  have hquotes : openQuote? none ((written name attributes).content ++ [.char '/']) =
      some none := by
    rw [openQuote?_append, openQuote?_written h.name h.quotes]
    rfl
  have hscan := scanTag_append hquotes startTag rest
  have hempty : startTag ((written name attributes).content ++ [.char '/']) =
      .empty (written name attributes) := by
    rw [startTag, if_pos List.getLast?_concat, List.dropLast_concat]
  rw [hempty, List.append_assoc] at hscan
  rw [content_written, List.append_assoc] at hscan ⊢
  rw [scanMarkup_of_isPlain h.name, ← hscan]
  rfl

theorem scanMarkup_closing (h : isPlain name) (rest : List Symbol) :
    scanMarkup (.char '/' :: (Symbol.ofString name ++ .char '>' :: rest)) =
      .ok (.closing (Symbol.ofString name), rest) := by
  have hname : closingName (Symbol.ofString name) = Symbol.ofString name := by
    match hn : (Symbol.ofString name).reverse with
    | [] => simp [closingName, hn]
    | s :: more =>
      have hs : s ∈ Symbol.ofString name := List.mem_reverse.mp (hn ▸ List.mem_cons_self ..)
      rw [closingName, hn, List.dropWhile_cons_of_neg (by simp [isBlank_of_mem_isPlain h hs])]
      exact (congrArg List.reverse hn).symm.trans (List.reverse_reverse _)
  rw [scanMarkup, scanTag_append (closesQuotes_of_isPlain h), hname]

end Tag

namespace Piece

/-- The symbols of pieces as they are written. -/
def symbols (pieces : List Piece) : List Symbol := Symbol.ofString (join pieces)

@[simp] theorem symbols_nil : symbols [] = [] := rfl

theorem symbols_cons (p : Piece) (pieces : List Piece) :
    symbols (p :: pieces) = Symbol.ofString p.source ++ symbols pieces := by
  simp [symbols, join, String.join_cons, Symbol.ofString_append]

theorem symbols_append (a b : List Piece) : symbols (a ++ b) = symbols a ++ symbols b := by
  induction a with
  | nil => rfl
  | cons p rest ih => rw [List.cons_append, symbols_cons, symbols_cons, ih, List.append_assoc]

variable {name : String} {attributes : List (String × String)}

theorem ofString_opening : Symbol.ofString (opening name attributes).source =
    .char '<' :: ((Tag.written name attributes).content ++ [.char '>']) := by
  simp [source, Tag.written, Symbol.ofString]

theorem ofString_empty : Symbol.ofString (empty name attributes).source =
    .char '<' :: ((Tag.written name attributes).content ++ [.char '/', .char '>']) := by
  simp [source, Tag.written, Symbol.ofString]

theorem ofString_closing : Symbol.ofString (closing name).source =
    .char '<' :: .char '/' :: (Symbol.ofString name ++ [.char '>']) := by
  simp [source, Symbol.ofString]

end Piece

namespace Content

open Piece

variable {name : String} {attributes : List (String × String)} {k k' : Content → Content}
  {pieces a b : List Piece}

theorem nested_opening (h : Tag.IsWritten name attributes) (opened : List (List Symbol))
    (rest : List Symbol) : ∃ fault,
    nested opened (Symbol.ofString (opening name attributes).source ++ rest) =
      put fault (.opening (.written name attributes))
        (nested (Symbol.ofString name :: opened) rest) := by
  have henter : enter opened (.opening (.written name attributes)) =
      .ok (Symbol.ofString name :: opened) := by
    rw [enter, Tag.name_written h.name]
  refine ⟨(scanFrom (Symbol.ofString name :: opened) rest).fault, ?_⟩
  rw [ofString_opening, List.cons_append, List.append_assoc]
  exact nested_markup (Tag.scanMarkup_written h rest) henter

theorem nested_empty (h : Tag.IsWritten name attributes) (opened : List (List Symbol))
    (rest : List Symbol) :
    nested opened (Symbol.ofString (Piece.empty name attributes).source ++ rest) =
      (nested opened rest).mapHere (empty (.written name attributes)) := by
  rw [ofString_empty, List.cons_append, List.append_assoc]
  exact nested_markup (Tag.scanMarkup_written_empty h rest) rfl

theorem nested_closing (h : isPlain name) (opened : List (List Symbol)) (rest : List Symbol) :
    nested (Symbol.ofString name :: opened) (Symbol.ofString (closing name).source ++ rest) =
      ⟨done, (nested opened rest).here :: (nested opened rest).around⟩ := by
  have henter : enter (Symbol.ofString name :: opened) (.closing (Symbol.ofString name)) =
      .ok opened := by
    rw [enter, if_pos rfl]
  rw [ofString_closing, List.cons_append, List.cons_append, List.append_assoc]
  exact nested_markup (Tag.scanMarkup_closing h rest) henter

/-- Before a tag, pieces are read as `k` of what follows. -/
def Within (pieces : List Piece) (k : Content → Content) : Prop :=
  ∀ opened rest, rest.head? = some (.char '<') →
    nested opened (symbols pieces ++ rest) = (nested opened rest).mapHere k

/-- Pieces that begin with a tag, if there are any, and before a tag are read as `k` of what
follows. -/
structure Lines (pieces : List Piece) (k : Content → Content) : Prop where
  starts : symbols pieces = [] ∨ (symbols pieces).head? = some (.char '<')
  within : Within pieces k

/-- Pieces that begin with a tag, if there are any, and are read as `k` of whatever follows. -/
structure Reads (pieces : List Piece) (k : Content → Content) : Prop where
  starts : symbols pieces = [] ∨ (symbols pieces).head? = some (.char '<')
  reads : ∀ opened rest, nested opened (symbols pieces ++ rest) = (nested opened rest).mapHere k

theorem starts_append (ha : symbols a = [] ∨ (symbols a).head? = some (.char '<'))
    (hb : symbols b = [] ∨ (symbols b).head? = some (.char '<')) :
    symbols (a ++ b) = [] ∨ (symbols (a ++ b)).head? = some (.char '<') := by
  rw [symbols_append]
  rcases ha with h | h
  · rw [h]; exact hb
  · rw [List.head?_append, h]; exact .inr rfl

namespace Within

theorem append (ha : Within a k) (hb : Lines b k') : Within (a ++ b) (k ∘ k') := by
  intro opened rest hrest
  have hb' : (symbols b ++ rest).head? = some (.char '<') := by
    rcases hb.starts with h | h
    · rw [h]; exact hrest
    · rw [List.head?_append, h]; rfl
  rw [symbols_append, List.append_assoc, ha opened _ hb', hb.within opened rest hrest]
  rfl

theorem text {s : String} (hs : s ≠ "") :
    Within [.text s] (text (Symbol.ofString (escapeText s))) := by
  intro opened rest hrest
  rw [symbols_cons, symbols_nil, List.append_nil]
  refine nested_text ?_ ?_ (.inr hrest)
  · intro h
    have hempty : escapeText s = "" := Symbol.ofString_injective h
    have := resolve_escapeText s
    rw [hempty] at this
    exact hs (Except.ok.inj this).symm
  · intro h
    exact not_mem_escapeText (by decide) s (Symbol.mem_ofString.mp h)

/-- An element around pieces is read as such, whatever follows. -/
theorem nested_element (h : Within pieces k) (hw : Tag.IsWritten name attributes)
    (opened : List (List Symbol)) (rest : List Symbol) :
    nested opened (symbols (Piece.element name attributes pieces) ++ rest) =
      (nested opened rest).mapHere (element (.written name attributes) (k done)) := by
  have hclosing : (Symbol.ofString (closing name).source ++ rest).head? = some (.char '<') := by
    rw [ofString_closing]; rfl
  obtain ⟨fault, hopening⟩ := nested_opening hw opened
    (symbols pieces ++ (Symbol.ofString (closing name).source ++ rest))
  rw [Piece.element, List.cons_append, symbols_cons, symbols_append, symbols_cons, symbols_nil,
    List.append_nil, List.append_assoc, List.append_assoc, hopening, h _ _ hclosing, nested_closing hw.name]
  rfl

end Within

theorem head?_symbols_element :
    (symbols (Piece.element name attributes pieces)).head? = some (.char '<') := by
  rw [Piece.element, List.cons_append, symbols_cons, ofString_opening]
  rfl

theorem head?_symbols_empty : (symbols [Piece.empty name attributes]).head? = some (.char '<') := by
  rw [symbols_cons, ofString_empty]
  rfl

namespace Reads

theorem nil : Reads [] id := ⟨.inl rfl, fun _ _ => rfl⟩

theorem append (ha : Reads a k) (hb : Reads b k') : Reads (a ++ b) (k ∘ k') := by
  refine ⟨starts_append ha.starts hb.starts, fun opened rest => ?_⟩
  rw [symbols_append, List.append_assoc, ha.reads, hb.reads]
  rfl

theorem element (h : Within pieces k) (hw : Tag.IsWritten name attributes) :
    Reads (Piece.element name attributes pieces) (element (.written name attributes) (k done)) :=
  ⟨.inr head?_symbols_element, h.nested_element hw⟩

theorem empty (hw : Tag.IsWritten name attributes) :
    Reads [.empty name attributes] (empty (.written name attributes)) := by
  refine ⟨.inr head?_symbols_empty, fun opened rest => ?_⟩
  rw [symbols_cons, symbols_nil, List.append_nil, nested_empty hw]

theorem lines (h : Reads pieces k) : Lines pieces k :=
  ⟨h.starts, fun opened rest _ => h.reads opened rest⟩

/-- Markup with a text behind it. -/
theorem line (h : Reads pieces k) (hhead : (symbols pieces).head? = some (.char '<')) {s : String}
    (hs : s ≠ "") : Lines (pieces ++ [.text s]) (k ∘ text (Symbol.ofString (escapeText s))) := by
  refine ⟨.inr ?_, fun opened rest hrest => ?_⟩
  · rw [symbols_append, List.head?_append, hhead]
    rfl
  · rw [symbols_append, List.append_assoc, h.reads, Within.text hs opened rest hrest]
    rfl

end Reads

theorem Lines.append (ha : Lines a k) (hb : Lines b k') : Lines (a ++ b) (k ∘ k') :=
  ⟨starts_append ha.starts hb.starts, ha.within.append hb⟩

end Content

end Letterpress.Markup
