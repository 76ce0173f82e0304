import Letterpress.Markup.Fault

/-!
# Events of a marked-up text

A text is cut into tags, the texts between them, and comments, instructions and declarations. Every
end tag has the name of the innermost open element. Elements may be left open.
-/

namespace Letterpress.Markup

open Text

/-- What stands between the brackets of a start tag, without the slash of an empty one. -/
structure Tag where
  content : List Symbol
  deriving DecidableEq, Repr

namespace Tag

/-- Everything before the first blank. -/
def name (t : Tag) : List Symbol := t.content.takeWhile (!·.isBlank)

end Tag

/-- The part of a name behind its first colon. -/
def localPart (name : List Symbol) : List Symbol :=
  match name.dropWhile (· != .char ':') with
  | [] => name
  | _ :: rest => rest

/-- The local part of a tag's name; empty if it is no text. -/
def Tag.label (t : Tag) : String := (text? (localPart t.name)).getD ""

inductive Event where
  | opening (tag : Tag)
  | empty (tag : Tag)
  | closing (name : List Symbol)
  | text (content : List Symbol)
  | cdata (content : List Symbol)
  /-- A comment, an instruction or a declaration, as it is written. -/
  | aside (source : List Symbol)
  deriving DecidableEq, Repr

/-- The events up to the end of the text or to its first fault. -/
structure Events where
  list : List Event
  fault : Option Fault
  deriving DecidableEq, Repr

def literal (s : String) : List Symbol := Symbol.ofString s

/-- What stands before and behind the first `mark`. -/
def divide? (mark : List Symbol) : List Symbol → Option (List Symbol × List Symbol)
  | [] => none
  | s :: rest =>
    if mark.isPrefixOf (s :: rest) then some ([], rest.drop (mark.length - 1))
    else (divide? mark rest).map fun p => (s :: p.1, p.2)

/-- Leaves or enters a quoted value. -/
def turnQuote (quote : Option Symbol) (s : Symbol) : Option Symbol :=
  match quote with
  | some q => if s = q then none else quote
  | none => if s = .char '"' ∨ s = .char '\'' then some s else none

/-- A tag ends at the first bracket outside quotes. -/
def tagEnd? (quote : Option Symbol) : List Symbol → Option (List Symbol × List Symbol)
  | [] => none
  | s :: rest =>
    if s = .char '>' ∧ quote = none then some ([], rest)
    else (tagEnd? (turnQuote quote s) rest).map fun p => (s :: p.1, p.2)

/-- A declaration ends where its brackets balance; `depth` of them are open. -/
def doctypeEnd? (depth : Nat) : List Symbol → Option (List Symbol × List Symbol)
  | [] => none
  | s :: rest =>
    if s = .char '>' ∧ depth = 0 then some ([], rest)
    else
      let depth := if s = .char '<' then depth + 1 else if s = .char '>' then depth - 1 else depth
      (doctypeEnd? depth rest).map fun p => (s :: p.1, p.2)

/-- The rest behind a word, in any case of its letters. -/
def dropWord? : List Char → List Symbol → Option (List Symbol)
  | [], input => some input
  | c :: word, .char d :: input => if c.toLower = d.toLower then dropWord? word input else none
  | _ :: _, _ => none

abbrev Scanned := Except Fault (Event × List Symbol)

/-- Reads behind `<!`. -/
def scanBang : List Symbol → Scanned
  | .char '-' :: rest =>
    match dropWord? ['-'] rest with
    | none => .error (.unclosed .comment)
    | some rest =>
      match divide? (literal "-->") rest with
      | none => .error (.unclosed .comment)
      | some (content, rest) => .ok (.aside (literal "<!--" ++ content ++ literal "-->"), rest)
  | .char '[' :: rest =>
    if (literal "CDATA[").isPrefixOf rest then
      match divide? (literal "]]>") (rest.drop 6) with
      | none => .error (.unclosed .cdata)
      | some (content, rest) => .ok (.cdata content, rest)
    else .error (.unclosed .cdata)
  | .char c :: rest =>
    if c = 'D' ∨ c = 'd' then
      match dropWord? ['O', 'C', 'T', 'Y', 'P', 'E'] rest with
      | none => .error (.unclosed .doctype)
      | some rest =>
        match doctypeEnd? 0 rest with
        | none => .error (.unclosed .doctype)
        | some (content, rest) =>
          match content.dropWhile Symbol.isBlank with
          | [] => .error .namelessDoctype
          | content => .ok (.aside (literal "<!DOCTYPE " ++ content ++ literal ">"), rest)
    else .error .unknownMarkup
  | _ => .error .unknownMarkup

/-- Reads behind `<?`. -/
def scanInstruction (input : List Symbol) : Scanned :=
  if input.head? = some (.char '>') then .error (.unclosed .instruction)
  else
    match divide? (literal "?>") input with
    | none => .error (.unclosed .instruction)
    | some (content, rest) => .ok (.aside (literal "<?" ++ content ++ literal "?>"), rest)

/-- The name of an end tag: its content up to the blanks at its end, unless it is all blank. -/
def closingName (content : List Symbol) : List Symbol :=
  match content.reverse.dropWhile Symbol.isBlank with
  | [] => content
  | name => name.reverse

/-- A tag whose content ends in a slash is empty. -/
def startTag (content : List Symbol) : Event :=
  if content.getLast? = some (.char '/') then .empty ⟨content.dropLast⟩ else .opening ⟨content⟩

def scanTag (event : List Symbol → Event) (input : List Symbol) : Scanned :=
  match tagEnd? none input with
  | none => .error (.unclosed .tag)
  | some (content, rest) => .ok (event content, rest)

/-- Reads behind `<`. -/
def scanMarkup : List Symbol → Scanned
  | .char '!' :: rest => scanBang rest
  | .char '/' :: rest => scanTag (fun content => .closing (closingName content)) rest
  | .char '?' :: rest => scanInstruction rest
  | input => scanTag startTag input

/-- A name in a message; empty if it is no text. -/
def shown (name : List Symbol) : String := (text? name).getD ""

/-- The open elements behind an event, innermost first. -/
def enter (opened : List (List Symbol)) : Event → Except Fault (List (List Symbol))
  | .opening tag => .ok (tag.name :: opened)
  | .closing name =>
    match opened with
    | [] => .error (.unmatched (shown name))
    | expected :: opened =>
      if name = expected then .ok opened
      else .error (.mismatched (shown expected) (shown name))
  | _ => .ok opened

/-! ### What markup is scanned as -/

/-- Behind a bracket `input` is scanned as an event, and `rest` is left. -/
inductive ScansTo : List Symbol → Event → List Symbol → Prop
  | comment {input behind content rest : List Symbol} : dropWord? ['-'] input = some behind →
      divide? (literal "-->") behind = some (content, rest) →
      ScansTo (.char '!' :: .char '-' :: input)
        (.aside (literal "<!--" ++ content ++ literal "-->")) rest
  | cdata {input content rest : List Symbol} : (literal "CDATA[").isPrefixOf input →
      divide? (literal "]]>") (input.drop 6) = some (content, rest) →
      ScansTo (.char '!' :: .char '[' :: input) (.cdata content) rest
  | doctype {c : Char} {input behind content rest : List Symbol} : c = 'D' ∨ c = 'd' →
      dropWord? ['O', 'C', 'T', 'Y', 'P', 'E'] input = some behind →
      doctypeEnd? 0 behind = some (content, rest) → content.dropWhile Symbol.isBlank ≠ [] →
      ScansTo (.char '!' :: .char c :: input)
        (.aside (literal "<!DOCTYPE " ++ content.dropWhile Symbol.isBlank ++ literal ">")) rest
  | instruction {input content rest : List Symbol} : input.head? ≠ some (.char '>') →
      divide? (literal "?>") input = some (content, rest) →
      ScansTo (.char '?' :: input) (.aside (literal "<?" ++ content ++ literal "?>")) rest
  | closing {input content rest : List Symbol} : tagEnd? none input = some (content, rest) →
      ScansTo (.char '/' :: input) (.closing (closingName content)) rest
  | start {input content rest : List Symbol} : input.head? ≠ some (.char '!') →
      input.head? ≠ some (.char '/') → input.head? ≠ some (.char '?') →
      tagEnd? none input = some (content, rest) → ScansTo input (startTag content) rest

variable {input rest : List Symbol} {event : Event}

theorem scansTo_of_scanBang (h : scanBang input = .ok (event, rest)) :
    ScansTo (.char '!' :: input) event rest := by
  unfold scanBang at h
  split at h
  · split at h
    · cases h
    next hword =>
    split at h
    · cases h
    next hend =>
    cases h
    exact .comment hword hend
  · split at h
    · next hprefix =>
      split at h
      · cases h
      next hend =>
      cases h
      exact .cdata hprefix hend
    · cases h
  · split at h
    · next hc =>
      split at h
      · cases h
      next hword =>
      split at h
      · cases h
      next hend =>
      split at h
      · cases h
      next hcontent =>
      cases h
      exact .doctype hc hword hend hcontent
    · cases h
  · cases h

theorem scanMarkup_of_head? (hbang : input.head? ≠ some (.char '!'))
    (hslash : input.head? ≠ some (.char '/')) (hquestion : input.head? ≠ some (.char '?')) :
    scanMarkup input = scanTag startTag input := by
  unfold scanMarkup
  split
  · exact absurd rfl hbang
  · exact absurd rfl hslash
  · exact absurd rfl hquestion
  · rfl

theorem scanMarkup_eq_ok_iff : scanMarkup input = .ok (event, rest) ↔ ScansTo input event rest := by
  constructor
  · intro h
    unfold scanMarkup at h
    split at h
    · exact scansTo_of_scanBang h
    · unfold scanTag at h
      split at h
      · cases h
      next hend =>
      cases h
      exact .closing hend
    · unfold scanInstruction at h
      split at h
      · cases h
      next hhead =>
      split at h
      · cases h
      next hend =>
      cases h
      exact .instruction hhead hend
    · next hbang hslash hquestion =>
      unfold scanTag at h
      split at h
      · cases h
      next hend =>
      cases h
      refine .start (fun hs => ?_) (fun hs => ?_) (fun hs => ?_) hend <;>
        obtain ⟨more, hmore⟩ := List.head?_eq_some_iff.mp hs
      · exact hbang _ hmore
      · exact hslash _ hmore
      · exact hquestion _ hmore
  · intro h
    cases h with
    | comment hword hend => simp only [scanMarkup, scanBang, hword, hend]
    | cdata hprefix hend => simp only [scanMarkup, scanBang, hprefix, if_true, hend]
    | @doctype c _ _ content _ hc hword hend hcontent =>
      have hdash : c ≠ '-' := by rintro rfl; exact absurd hc (by decide)
      have hbracket : c ≠ '[' := by rintro rfl; exact absurd hc (by decide)
      rw [scanMarkup, scanBang.eq_3 _ _ hdash hbracket, if_pos hc, hword]
      dsimp only
      rw [hend]
      dsimp only
      split
      · next hnone => exact absurd hnone hcontent
      · rfl
    | instruction hhead hend => simp only [scanMarkup, scanInstruction, if_neg hhead, hend]
    | closing hend => simp only [scanMarkup, scanTag, hend]
    | start hbang hslash hquestion hend =>
      simp only [scanMarkup_of_head? hbang hslash hquestion, scanTag, hend]

theorem divide?_length {mark : List Symbol} :
    ∀ {input before behind}, divide? mark input = some (before, behind) →
      behind.length ≤ input.length
  | [], _, _, h => by simp [divide?] at h
  | s :: rest, before, behind, h => by
    unfold divide? at h
    split at h
    · simp only [Option.some.injEq, Prod.mk.injEq] at h
      rw [← h.2]; simp; omega
    · obtain ⟨p, hp, he⟩ := Option.map_eq_some_iff.mp h
      have := divide?_length (hp : _ = some (p.1, p.2))
      cases he; simp; omega

theorem tagEnd?_length : ∀ {quote input before behind},
    tagEnd? quote input = some (before, behind) → behind.length ≤ input.length
  | _, [], _, _, h => by simp [tagEnd?] at h
  | quote, s :: rest, before, behind, h => by
    unfold tagEnd? at h
    split at h
    · simp only [Option.some.injEq, Prod.mk.injEq] at h
      rw [← h.2]; simp
    · obtain ⟨p, hp, he⟩ := Option.map_eq_some_iff.mp h
      have := tagEnd?_length (hp : _ = some (p.1, p.2))
      cases he; simp; omega

theorem doctypeEnd?_length : ∀ {depth input before behind},
    doctypeEnd? depth input = some (before, behind) → behind.length ≤ input.length
  | _, [], _, _, h => by simp [doctypeEnd?] at h
  | depth, s :: rest, before, behind, h => by
    unfold doctypeEnd? at h
    split at h
    · simp only [Option.some.injEq, Prod.mk.injEq] at h
      rw [← h.2]; simp
    · obtain ⟨p, hp, he⟩ := Option.map_eq_some_iff.mp h
      have := doctypeEnd?_length (hp : _ = some (p.1, p.2))
      cases he; simp; omega

theorem dropWord?_length : ∀ {word input rest},
    dropWord? word input = some rest → rest.length ≤ input.length
  | [], _, _, h => by simp [dropWord?] at h; simp [h]
  | c :: word, .char d :: input, rest, h => by
    unfold dropWord? at h
    split at h
    · have := dropWord?_length h; simp; omega
    · simp at h
  | _ :: _, [], _, h => by simp [dropWord?] at h
  | _ :: _, .stray _ :: _, _, h => by simp [dropWord?] at h

theorem ScansTo.length_le {input rest : List Symbol} {event : Event}
    (h : ScansTo input event rest) : rest.length ≤ input.length := by
  cases h with
  | comment hword hend =>
    have hword := dropWord?_length hword
    have hend := divide?_length hend
    simp only [List.length_cons]
    omega
  | cdata _ hend =>
    have hend := divide?_length hend
    simp only [List.length_drop, List.length_cons] at hend ⊢
    omega
  | doctype _ hword hend =>
    have hword := dropWord?_length hword
    have hend := doctypeEnd?_length hend
    simp only [List.length_cons]
    omega
  | instruction _ hend => exact Nat.le_succ_of_le (divide?_length hend)
  | closing hend => exact Nat.le_succ_of_le (tagEnd?_length hend)
  | start _ _ _ hend => exact tagEnd?_length hend

theorem scanMarkup_length {input e rest} (h : scanMarkup input = .ok (e, rest)) :
    rest.length ≤ input.length :=
  (scanMarkup_eq_ok_iff.mp h).length_le

/-! ### Events -/

def Events.cons (event : Event) (events : Events) : Events := ⟨event :: events.list, events.fault⟩

/-- Reads on inside the elements `opened`. -/
def scanFrom (opened : List (List Symbol)) : List Symbol → Events
  | [] => ⟨[], none⟩
  | s :: input =>
    if s = .char '<' then
      match _h : scanMarkup input with
      | .error fault => ⟨[], some fault⟩
      | .ok (event, rest) =>
        match enter opened event with
        | .error fault => ⟨[], some fault⟩
        | .ok opened => (scanFrom opened rest).cons event
    else
      (scanFrom opened (input.dropWhile (· != .char '<'))).cons
        (.text (s :: input.takeWhile (· != .char '<')))
termination_by input => input.length
decreasing_by
  · have := scanMarkup_length _h; simp; omega
  · have := (List.dropWhile_suffix (l := input) (· != .char '<')).length_le; simp; omega

/-- The events of a text, whose byte order mark is no part of it. -/
def scan (input : List Symbol) : Events :=
  match input with
  | .char '\uFEFF' :: rest => scanFrom [] rest
  | input => scanFrom [] input

end Letterpress.Markup
