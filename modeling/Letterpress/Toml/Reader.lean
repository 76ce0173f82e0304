import Letterpress.Json.Reader
import Letterpress.Toml

/-!
# Reading TOML

Readers take the text from where they stand and return the text they leave. Those that take fuel
need no more of it than characters they read.
-/

namespace Letterpress.Toml

abbrev Reader (α : Type) := List Char → Option (α × List Char)

def isSpace (c : Char) : Bool := c = ' ' || c = '\t'

def skipSpaces (input : List Char) : List Char := input.dropWhile isSpace

/-- What may stand in a comment or a text: everything but controls. -/
def isPrintable (c : Char) : Bool := c = '\t' || (0x20 ≤ c.toNat && c.toNat ≠ 0x7F)

def newline? : List Char → Option (List Char)
  | '\n' :: rest => some rest
  | '\r' :: '\n' :: rest => some rest
  | _ => none

/-- Passes over a comment, if there is one. -/
def skipComment : List Char → List Char
  | '#' :: rest => rest.dropWhile isPrintable
  | input => input

/-- Passes over spaces, comments and newlines. -/
def skipTrivia : Nat → List Char → List Char
  | 0, input => input
  | fuel + 1, input =>
    let input := skipSpaces input
    match newline? (skipComment input) with
    | some rest => skipTrivia fuel rest
    | none => input

def trivia (input : List Char) : List Char := skipTrivia input.length input

/-- Reads the rest of a line that holds nothing more. -/
def lineEnd? (input : List Char) : Option (List Char) :=
  match skipComment (skipSpaces input) with
  | [] => some []
  | rest => newline? rest

/-- Reads a character by its code in `count` hexadecimal digits. -/
def coded? (count : Nat) (input : List Char) : Option (Char × List Char) := do
  let digits := input.take count
  if digits.length < count then none
  else
    let n ← digits.foldlM (fun n c => (Json.hex? c).map (16 * n + ·)) 0
    if n.isValidChar then some (Char.ofNat n, input.drop count) else none

/-- Reads behind a backslash. -/
def escape? : List Char → Option (Char × List Char)
  | 'b' :: rest => some ('\x08', rest)
  | 't' :: rest => some ('\t', rest)
  | 'n' :: rest => some ('\n', rest)
  | 'f' :: rest => some ('\x0c', rest)
  | 'r' :: rest => some ('\r', rest)
  | '"' :: rest => some ('"', rest)
  | '\\' :: rest => some ('\\', rest)
  | 'u' :: rest => coded? 4 rest
  | 'U' :: rest => coded? 8 rest
  | _ => none

def textOf (seen : List Char) : String := String.ofList seen.reverse

/-- Reads a text of one line behind its quote. -/
def basicFrom : Nat → List Char → Reader String
  | 0, _, _ => none
  | fuel + 1, seen, input =>
    match input with
    | [] => none
    | '"' :: rest => some (textOf seen, rest)
    | '\\' :: rest => do
      let (c, rest) ← escape? rest
      basicFrom fuel (c :: seen) rest
    | c :: rest => if isPrintable c then basicFrom fuel (c :: seen) rest else none

def literalFrom (input : List Char) : Option (String × List Char) :=
  let body := input.takeWhile fun c => c ≠ '\'' && isPrintable c
  match input.drop body.length with
  | '\'' :: rest => some (String.ofList body, rest)
  | _ => none

/-- Passes over blanks and newlines behind the end of a line that a backslash joins to the next. -/
def skipJoin : Nat → List Char → List Char
  | 0, input => input
  | fuel + 1, input =>
    let input := skipSpaces input
    match newline? input with
    | some rest => skipJoin fuel rest
    | none => input

/-- Reads a text of several lines behind its three quotes. `raw` keeps backslashes. -/
def linesFrom (quote : Char) (raw : Bool) : Nat → List Char → Reader String
  | 0, _, _ => none
  | fuel + 1, seen, input =>
    match newline? input with
    | some rest => linesFrom quote raw fuel ('\n' :: seen) rest
    | none =>
      match input with
      | [] => none
      | c :: rest =>
        if c = quote then
          let run := input.takeWhile (· = quote)
          let rest := input.dropWhile (· = quote)
          if run.length < 3 then linesFrom quote raw fuel (run ++ seen) rest
          else if run.length ≤ 5 then some (textOf (run.drop 3 ++ seen), rest)
          else none
        else if c = '\\' && !raw then
          match newline? (skipSpaces rest) with
          | some rest => linesFrom quote raw fuel seen (skipJoin rest.length rest)
          | none => do
            let (c, rest) ← escape? rest
            linesFrom quote raw fuel (c :: seen) rest
        else if isPrintable c then linesFrom quote raw fuel (c :: seen) rest
        else none

def dropNewline (input : List Char) : List Char := (newline? input).getD input

def text? (input : List Char) : Option (String × List Char) :=
  match input with
  | '"' :: '"' :: '"' :: rest => linesFrom '"' false (rest.length + 1) [] (dropNewline rest)
  | '\'' :: '\'' :: '\'' :: rest => linesFrom '\'' true (rest.length + 1) [] (dropNewline rest)
  | '"' :: rest => basicFrom (rest.length + 1) [] rest
  | '\'' :: rest => literalFrom rest
  | _ => none

def isKeyChar (c : Char) : Bool := c.isAlphanum || c = '_' || c = '-'

def simpleKey? (input : List Char) : Option (String × List Char) :=
  match input with
  | '"' :: rest => basicFrom (rest.length + 1) [] rest
  | '\'' :: rest => literalFrom rest
  | input =>
    let key := input.takeWhile isKeyChar
    if key.isEmpty then none else some (String.ofList key, input.dropWhile isKeyChar)

/-- Reads a key and the keys behind its dots. -/
def keyFrom : Nat → Reader (List String)
  | 0, _ => none
  | fuel + 1, input => do
    let (key, rest) ← simpleKey? (skipSpaces input)
    match skipSpaces rest with
    | '.' :: rest => do
      let (keys, rest) ← keyFrom fuel rest
      some (key :: keys, rest)
    | rest => some ([key], rest)

/-- The deepest nesting of keys and values. -/
def deepest : Nat := 79

/-- Reads a dotted key: its path and its last part. -/
def key? (input : List Char) : Option ((List String × String) × List Char) := do
  let (keys, rest) ← keyFrom deepest input
  match keys.getLast? with
  | some key => some ((keys.dropLast, key), rest)
  | none => none

/-! ### Numbers and dates -/

def isDigit (c : Char) : Bool := '0' ≤ c && c ≤ '9'

/-- Reads digits in groups joined by underscores. -/
def groupsFrom (p : Char → Bool) : Nat → Reader (List Char)
  | 0, _ => none
  | fuel + 1, input =>
    let digits := input.takeWhile p
    if digits.isEmpty then none
    else
      match input.dropWhile p with
      | '_' :: rest => do
        let (more, rest) ← groupsFrom p fuel rest
        some (digits ++ more, rest)
      | rest => some (digits, rest)

def groups? (p : Char → Bool) (input : List Char) : Option (List Char × List Char) :=
  groupsFrom p (input.length + 1) input

def sign? : List Char → Bool × List Char
  | '+' :: rest => (false, rest)
  | '-' :: rest => (true, rest)
  | rest => (false, rest)

/-- Reads a whole number: its sign and its digits, of which a zero stands alone. -/
def decimal? (input : List Char) : Option ((Bool × List Char) × List Char) :=
  let (negative, rest) := sign? input
  match rest with
  | '0' :: rest => some ((negative, ['0']), rest)
  | rest => do
    let (digits, rest) ← groups? isDigit rest
    some ((negative, digits), rest)

def natural (base : Nat) (digits : List Char) : Nat :=
  digits.foldl (fun n c => base * n + (Json.hex? c).getD 0) 0

def isBaseDigit (base : Nat) (c : Char) : Bool := (Json.hex? c).any (· < base)

/-- Reads digits of another base; the number has to fit into 64 bits with a sign. -/
def based? (base : Nat) (input : List Char) : Option (List Char) := do
  let (digits, rest) ← groups? (isBaseDigit base) input
  if natural base digits < Nat.pow 2 63 then some rest else none

def integer? (input : List Char) : Option (List Char) :=
  match input with
  | '0' :: 'x' :: rest => based? 16 rest
  | '0' :: 'o' :: rest => based? 8 rest
  | '0' :: 'b' :: rest => based? 2 rest
  | input => do
    let ((negative, digits), rest) ← decimal? input
    if natural 10 digits < Nat.pow 2 63 + (if negative then 1 else 0) then some rest else none

def fraction? : List Char → Option (List Char × List Char)
  | '.' :: rest => groups? isDigit rest
  | _ => none

/-- Reads an exponent, if there is one. -/
def exponent? : List Char → Option (Int × List Char)
  | 'e' :: rest => read rest
  | 'E' :: rest => read rest
  | _ => none
where
  read (rest : List Char) : Option (Int × List Char) := do
    let (negative, rest) := sign? rest
    let (digits, rest) ← groups? isDigit rest
    let n : Int := natural 10 digits
    some (if negative then -n else n, rest)

/-- Whether a decimal is beyond the range of double precision. -/
def overflows (digits : List Char) (exponent : Int) : Bool :=
  let digits := digits.dropWhile (· = '0')
  let magnitude := exponent + digits.length
  if digits.isEmpty then false
  else if magnitude < 300 then false
  else if magnitude > 400 then true
  else
    let n := natural 10 digits * Nat.pow 10 exponent.toNat
    (Number.Binary.round Number.double false n (Nat.pow 10 (-exponent).toNat) 0).isInfinite

/-- Reads a number with a fraction or an exponent. A positive one has to be in range. -/
def float? (input : List Char) : Option (List Char) := do
  let ((negative, digits), rest) ← decimal? input
  let check (digits : List Char) (exponent : Int) (rest : List Char) : Option (List Char) :=
    if !negative && overflows digits exponent then none else some rest
  match fraction? rest with
  | some (more, rest) =>
    let (e, rest) := (exponent? rest).getD (0, rest)
    check (digits ++ more) (e - more.length) rest
  | none =>
    let (e, rest) ← exponent? rest
    check digits e rest

def special? (input : List Char) : Option (List Char) :=
  match (sign? input).2 with
  | 'i' :: 'n' :: 'f' :: rest => some rest
  | 'n' :: 'a' :: 'n' :: rest => some rest
  | _ => none

/-- Reads `count` digits of a number in a range. -/
def digits? (count low high : Nat) (input : List Char) : Option (Nat × List Char) :=
  let digits := input.take count
  let n := natural 10 digits
  if digits.length = count && digits.all isDigit && low ≤ n && n ≤ high then
    some (n, input.drop count)
  else none

def char? (c : Char) : List Char → Option (List Char)
  | d :: rest => if c = d then some rest else none
  | [] => none

def daysOf (year month : Nat) : Nat :=
  if month = 2 then
    if year % 4 = 0 ∧ (year % 100 ≠ 0 ∨ year % 400 = 0) then 29 else 28
  else if month = 4 ∨ month = 6 ∨ month = 9 ∨ month = 11 then 30
  else 31

def date? (input : List Char) : Option (List Char) := do
  let (year, rest) ← digits? 4 0 9999 input
  let (month, rest) ← digits? 2 1 12 (← char? '-' rest)
  let (_, rest) ← digits? 2 1 (daysOf year month) (← char? '-' rest)
  some rest

def time? (input : List Char) : Option (List Char) := do
  let (_, rest) ← digits? 2 0 23 input
  let (_, rest) ← digits? 2 0 59 (← char? ':' rest)
  let (_, rest) ← digits? 2 0 60 (← char? ':' rest)
  match rest with
  | '.' :: rest => if (rest.takeWhile isDigit).isEmpty then none else some (rest.dropWhile isDigit)
  | rest => some rest

/-- Reads an offset, if there is one. -/
def offset? (input : List Char) : Option (List Char) :=
  let ofHours (rest : List Char) : Option (List Char) := do
    let (_, rest) ← digits? 2 0 23 rest
    let (_, rest) ← digits? 2 0 59 (← char? ':' rest)
    some rest
  match input with
  | 'Z' :: rest => some rest
  | 'z' :: rest => some rest
  | '+' :: rest => ofHours rest
  | '-' :: rest => ofHours rest
  | rest => some rest

def moment? (input : List Char) : Option (List Char) :=
  match date? input with
  | none => time? input
  | some rest =>
    match rest with
    | c :: rest' =>
      if c = 'T' ∨ c = 't' ∨ c = ' ' then
        match time? rest' with
        | some rest => offset? rest
        | none => some rest
      else some rest
    | [] => some []

def scalar? (input : List Char) : Option (List Char) :=
  (moment? input).or ((float? input).or ((special? input).or (integer? input)))

/-! ### Values and documents -/

/-- Reads items up to a closing bracket; one comma may stand behind the last. -/
def itemsFrom (value : Reader Toml) : Nat → List Toml → Reader (List Toml)
  | 0, _, _ => none
  | fuel + 1, items, input =>
    match trivia input with
    | ']' :: rest => some (items.reverse, rest)
    | input => do
      let (item, rest) ← value input
      match trivia rest with
      | ',' :: rest => itemsFrom value fuel (item :: items) rest
      | ']' :: rest => some ((item :: items).reverse, rest)
      | _ => none

/-- Reads the entries of an inline table up to its brace; none may be missing behind a comma. -/
def entriesFrom (value : Reader Toml) : Nat → Toml → Reader Toml
  | 0, _, _ => none
  | fuel + 1, t, input => do
    let ((path, key), rest) ← key? input
    let (item, rest) ← value (skipSpaces (← char? '=' (skipSpaces rest)))
    let t ← t.put path key item
    match skipSpaces rest with
    | ',' :: rest => entriesFrom value fuel t rest
    | '}' :: rest => some (t, rest)
    | _ => none

/-- Reads a value with at most `depth` levels in it. -/
def value? : Nat → Reader Toml := fun depth input =>
  match input with
  | '[' :: rest =>
    match depth with
    | 0 => none
    | depth + 1 => (itemsFrom (value? depth) (rest.length + 1) [] rest).map fun r => (.array r.1, r.2)
  | '{' :: rest =>
    match depth with
    | 0 => none
    | depth + 1 =>
      match skipSpaces rest with
      | '}' :: rest => some (.table .inline [], rest)
      | rest => entriesFrom (value? depth) (rest.length + 1) (.table .inline []) rest
  | 't' :: 'r' :: 'u' :: 'e' :: rest => some (.boolean true, rest)
  | 'f' :: 'a' :: 'l' :: 's' :: 'e' :: rest => some (.boolean false, rest)
  | '"' :: _ => (text? input).map fun r => (.string r.1, r.2)
  | '\'' :: _ => (text? input).map fun r => (.string r.1, r.2)
  | input => (scalar? input).map fun rest => (.scalar, rest)

/-- A document while it is read, and the path of the table that is open. -/
structure Draft where
  root : Toml := .table .header []
  path : List String := []

namespace Draft

/-- Reads a header behind its bracket. -/
def header (d : Draft) : List Char → Option (Draft × List Char)
  | '[' :: rest => do
    let ((path, key), rest) ← key? rest
    let rest ← char? ']' (← char? ']' (skipSpaces rest))
    some (⟨← d.root.openRow path key, path ++ [key]⟩, rest)
  | rest => do
    let ((path, key), rest) ← key? rest
    let rest ← char? ']' (skipSpaces rest)
    some (⟨← d.root.openTable path key, path ++ [key]⟩, rest)

def entry (d : Draft) (input : List Char) : Option (Draft × List Char) := do
  let ((path, key), rest) ← key? input
  let (item, rest) ← value? deepest (skipSpaces (← char? '=' (skipSpaces rest)))
  some ({ d with root := ← d.root.alter false d.path (·.put path key item) }, rest)

/-- Reads lines to the end. -/
def linesFrom : Nat → Draft → List Char → Option Toml
  | 0, _, _ => none
  | fuel + 1, d, input =>
    match trivia input with
    | [] => some d.root
    | input =>
      match lineEnd? input with
      | some rest => linesFrom fuel d rest
      | none => do
        let (d, rest) ← match input with
          | '[' :: rest => d.header rest
          | input => d.entry input
        linesFrom fuel d (← lineEnd? rest)

end Draft

/-- Reads a document, whose byte order mark is no part of it. -/
def read (text : String) : Option Toml :=
  let input := match text.toList with
    | '\uFEFF' :: rest => rest
    | input => input
  Draft.linesFrom (input.length + 1) {} input

end Letterpress.Toml
