import Letterpress.Json
import Letterpress.Number.Decimal

/-!
# Reading JSON

Readers take the text from where they stand and return the text they leave. An object or array may
stand at most `deepest` levels deep. Entries that nothing asks for are read without care: they may be
deeper, and their numbers and escapes only need the right form.
-/

namespace Letterpress.Json

/-- Why a text is refused: it ends early, it is no JSON, or it has no place for a value of this
type. -/
inductive Fault where
  | early
  | malformed
  | mismatch
  deriving DecidableEq, Repr

abbrev Reader (α : Type) := List Char → Except Fault (α × List Char)

def deepest : Nat := 127

def skipBlanks (input : List Char) : List Char :=
  input.dropWhile fun c => c = ' ' || c = '\n' || c = '\t' || c = '\r'

/-- Reads the letters of a word. -/
def word : List Char → List Char → Except Fault (List Char)
  | [], input => .ok input
  | _ :: _, [] => .error .early
  | w :: ws, c :: input => if w = c then word ws input else .error .malformed

def hex? (c : Char) : Option Nat :=
  if '0' ≤ c && c ≤ '9' then some (c.toNat - '0'.toNat)
  else if 'a' ≤ c && c ≤ 'f' then some (c.toNat - 'a'.toNat + 10)
  else if 'A' ≤ c && c ≤ 'F' then some (c.toNat - 'A'.toNat + 10)
  else none

def quad? (a b c d : Char) : Option Nat :=
  [a, b, c, d].foldlM (fun n c => (hex? c).map (16 * n + ·)) 0

/-- An escape with fewer than four bytes after it is cut off. -/
def badQuad (input : List Char) : Fault :=
  if (String.ofList input).utf8ByteSize < 4 then .early else .malformed

def isHighSurrogate (n : Nat) : Bool := 0xD800 ≤ n && n ≤ 0xDBFF

def isLowSurrogate (n : Nat) : Bool := 0xDC00 ≤ n && n ≤ 0xDFFF

/-- Reads a text behind its opening quote. `seen` is what was read, last character first. -/
def textFrom (strict : Bool) (seen : List Char) : List Char → Except Fault (String × List Char)
  | [] => .error .early
  | '"' :: rest => .ok (String.ofList seen.reverse, rest)
  | '\\' :: rest =>
    match rest with
    | [] => .error .early
    | '"' :: rest => textFrom strict ('"' :: seen) rest
    | '\\' :: rest => textFrom strict ('\\' :: seen) rest
    | '/' :: rest => textFrom strict ('/' :: seen) rest
    | 'b' :: rest => textFrom strict ('\x08' :: seen) rest
    | 'f' :: rest => textFrom strict ('\x0c' :: seen) rest
    | 'n' :: rest => textFrom strict ('\n' :: seen) rest
    | 'r' :: rest => textFrom strict ('\r' :: seen) rest
    | 't' :: rest => textFrom strict ('\t' :: seen) rest
    | 'u' :: a :: b :: c :: d :: rest =>
      match quad? a b c d with
      | none => .error .malformed
      | some n =>
        if !strict then textFrom strict ('\uFFFD' :: seen) rest
        else if isLowSurrogate n then .error .malformed
        else if !isHighSurrogate n then textFrom strict (Char.ofNat n :: seen) rest
        else
          match rest with
          | [] => .error .early
          | ['\\'] => .error .early
          | '\\' :: 'u' :: a :: b :: c :: d :: rest =>
            match quad? a b c d with
            | none => .error .malformed
            | some low =>
              if isLowSurrogate low then
                let n := (n - 0xD800) * 0x400 + (low - 0xDC00) + 0x10000
                textFrom strict (Char.ofNat n :: seen) rest
              else .error .malformed
          | '\\' :: 'u' :: rest => .error (badQuad rest)
          | _ => .error .malformed
    | 'u' :: rest => .error (badQuad rest)
    | _ => .error .malformed
  | c :: rest => if c.toNat < 0x20 then .error .malformed else textFrom strict (c :: seen) rest

def isDigit (c : Char) : Bool := '0' ≤ c && c ≤ '9'

/-- The digits a number keeps, as a whole number below `2 ^ 64`, and the power of ten it is scaled
by. -/
structure Significand where
  kept : Nat
  exponent : Int
  full : Bool

namespace Significand

/-- Takes a digit if there is room; after the first digit without room none is taken. -/
def push (s : Significand) (c : Char) : Option Significand :=
  let kept := s.kept * 10 + (c.toNat - '0'.toNat)
  if s.full || kept ≥ Nat.pow 2 64 then none else some { s with kept }

/-- A digit before the point that has no room scales the number. -/
def whole (s : Significand) (c : Char) : Significand :=
  (s.push c).getD { s with exponent := s.exponent + 1, full := true }

/-- A digit behind the point that has no room is dropped. -/
def fraction (s : Significand) (c : Char) : Significand :=
  ((s.push c).map fun s => { s with exponent := s.exponent - 1 }).getD { s with full := true }

/-- Divides by `10 ^ 308` until the rest of the exponent is in the table of powers. -/
def shrink (x : Number.Binary) : Nat → Int → Number.Binary × Int
  | 0, e => (x, e)
  | tries + 1, e =>
    if e < -308 && !x.isZero then
      shrink (x.div Number.double (Number.Binary.ofNat Number.double false (Nat.pow 10 308))) tries (e + 308)
    else (x, e)

/-- The number: the kept digits and the power of ten are rounded apart, and their product or
quotient once more. None beyond the range of the format. -/
def value? (s : Significand) (negative : Bool) : Option Number.Binary :=
  let power (e : Nat) := Number.Binary.ofNat Number.double false (Nat.pow 10 e)
  let (x, e) := shrink (Number.Binary.ofNat Number.double negative s.kept) 4 s.exponent
  if x.isZero then some x
  else if e > 308 then none
  else if e ≥ 0 then
    let x := x.mul Number.double (power e.toNat)
    if x.isInfinite then none else some x
  else some (x.div Number.double (power (-e).toNat))

end Significand

/-- A number cut off is early only where it is asked for. -/
def cutNumber (strict : Bool) (input : List Char) : Fault :=
  if strict && input.isEmpty then .early else .malformed

/-- Reads the digits behind an `e`, and its sign. -/
def exponentFrom (strict : Bool) (input : List Char) : Except Fault (Int × List Char) :=
  let (negative, input) := match input with
    | '+' :: input => (false, input)
    | '-' :: input => (true, input)
    | input => (false, input)
  let digits := input.takeWhile isDigit
  if digits.isEmpty then .error (cutNumber strict input)
  else
    let n : Int := ((Number.natural? digits).getD 0 : Nat)
    .ok (if negative then -n else n, input.dropWhile isDigit)

/-- Reads a number behind its sign. -/
def numberFrom (strict negative : Bool) (input : List Char) : Except Fault (Json × List Char) := do
  let digits := input.takeWhile isDigit
  let rest := input.dropWhile isDigit
  match digits with
  | [] => throw (cutNumber strict input)
  | '0' :: _ :: _ => throw .malformed
  | digits =>
    let s := digits.foldl Significand.whole ⟨0, 0, false⟩
    let (s, exact, rest) ← match rest with
      | '.' :: rest =>
        let digits := rest.takeWhile isDigit
        if digits.isEmpty then throw (cutNumber strict rest)
        -- the digits behind the point have the room that is left
        let s := digits.foldl Significand.fraction { s with full := false }
        pure (s, false, rest.dropWhile isDigit)
      | rest => pure (s, !s.full, rest)
    let (s, exact, rest) ← match rest with
      | c :: rest' =>
        if c = 'e' || c = 'E' then do
          let (e, rest) ← exponentFrom strict rest'
          pure ({ s with exponent := s.exponent + e }, false, rest)
        else pure (s, exact, rest)
      | [] => pure (s, exact, [])
    if exact && !negative then pure (.integer s.kept, rest)
    else if exact && s.kept ≠ 0 && s.kept ≤ Nat.pow 2 63 then pure (.integer (-(s.kept : Int)), rest)
    else
      match s.value? negative with
      | some x => pure (.float x, rest)
      | none => if strict then throw .malformed else pure (.null, rest)

/-! ### Items, entries and values -/

/-- Stands at the next item of an array, or behind its end. -/
def nextItem (first : Bool) (input : List Char) : Except Fault (Bool × List Char) :=
  match skipBlanks input with
  | [] => .error .early
  | ']' :: rest => .ok (false, rest)
  | c :: rest =>
    if first then .ok (true, c :: rest)
    else if c = ',' then
      match skipBlanks rest with
      | [] => .error .early
      | ']' :: _ => .error .malformed
      | rest => .ok (true, rest)
    else .error .malformed

/-- Reads the items up to the end of an array; every item takes at least one of `fuel`
characters. -/
def itemsFrom {σ : Type} (item : σ → Reader σ) : Nat → Bool → σ → Reader σ
  | 0, _, _, _ => .error .early
  | fuel + 1, first, s, input => do
    match ← nextItem first input with
    | (false, rest) => pure (s, rest)
    | (true, rest) =>
      let (s, rest) ← item s rest
      itemsFrom item fuel false s rest

/-- Reads an array behind its bracket. -/
def arrayOf {σ : Type} (start : σ) (item : σ → Reader σ) : Reader σ := fun input =>
  itemsFrom item (input.length + 1) true start input

/-- Stands behind the quote of the next key of an object, or behind its end. -/
def nextKey (first : Bool) (input : List Char) : Except Fault (Bool × List Char) :=
  let key (input : List Char) : Except Fault (Bool × List Char) :=
    match input with
    | [] => .error .early
    | '"' :: rest => .ok (true, rest)
    | _ => .error .malformed
  match skipBlanks input with
  | [] => .error .early
  | '}' :: rest => .ok (false, rest)
  | c :: rest =>
    if first then key (c :: rest)
    else if c = ',' then key (skipBlanks rest)
    else .error .malformed

def colon (input : List Char) : Except Fault (List Char) :=
  match skipBlanks input with
  | [] => .error .early
  | ':' :: rest => .ok rest
  | _ => .error .malformed

def entriesFrom {σ : Type} (strict : Bool) (entry : σ → String → Reader σ) :
    Nat → Bool → σ → Reader σ
  | 0, _, _, _ => .error .early
  | fuel + 1, first, s, input => do
    match ← nextKey first input with
    | (false, rest) => pure (s, rest)
    | (true, rest) =>
      let (key, rest) ← textFrom strict [] rest
      let rest ← colon rest
      let (s, rest) ← entry s key rest
      entriesFrom strict entry fuel false s rest

/-- Reads an object behind its brace. -/
def objectOf {σ : Type} (strict : Bool) (start : σ) (entry : σ → String → Reader σ) : Reader σ :=
  fun input => entriesFrom strict entry (input.length + 1) true start input

/-- Reads a value that may hold `depth` more levels. -/
def value (strict : Bool) : Nat → Reader Json := fun depth input =>
  match skipBlanks input with
  | [] => .error .early
  | 'n' :: rest => do pure (.null, ← word ['u', 'l', 'l'] rest)
  | 't' :: rest => do pure (.bool true, ← word ['r', 'u', 'e'] rest)
  | 'f' :: rest => do pure (.bool false, ← word ['a', 'l', 's', 'e'] rest)
  | '"' :: rest => do
    let (s, rest) ← textFrom strict [] rest
    pure (.string s, rest)
  | '-' :: rest => numberFrom strict true rest
  | '[' :: rest =>
    match depth with
    | 0 => .error .malformed
    | depth + 1 => do
      let (items, rest) ← arrayOf [] (fun items input => do
        let (item, rest) ← value strict depth input
        pure (item :: items, rest)) rest
      pure (.array items.reverse, rest)
  | '{' :: rest =>
    match depth with
    | 0 => .error .malformed
    | depth + 1 => do
      let (fields, rest) ← objectOf strict [] (fun fields key input => do
        let (item, rest) ← value strict depth input
        pure (Keyed.insert key item fields, rest)) rest
      pure (.object fields, rest)
  | c :: rest => if isDigit c then numberFrom strict false (c :: rest) else .error .malformed

/-- Reads past a value nothing asks for. -/
def ignored : Reader Unit := fun input => do
  let (_, rest) ← value false input.length input
  pure ((), rest)

/-- Why a value of another type is refused: a faulty one for its own fault. -/
def mismatchOf (input : List Char) : Fault :=
  let verdict {α : Type} : Except Fault α → Fault
    | .ok _ => .mismatch
    | .error f => f
  match input with
  | 'n' :: rest => verdict (word ['u', 'l', 'l'] rest)
  | 't' :: rest => verdict (word ['r', 'u', 'e'] rest)
  | 'f' :: rest => verdict (word ['a', 'l', 's', 'e'] rest)
  | '"' :: rest => verdict (textFrom true [] rest)
  | '-' :: rest => verdict (numberFrom true true rest)
  | '[' :: _ => .mismatch
  | '{' :: _ => .mismatch
  | c :: rest => if isDigit c then verdict (numberFrom true false (c :: rest)) else .malformed
  | [] => .early

/-- Reads a whole text. -/
def readAll {α : Type} (reader : Reader α) (text : String) : Except Fault α := do
  let (a, rest) ← reader text.toList
  if (skipBlanks rest).isEmpty then pure a else throw .malformed

def parse (text : String) : Except Fault Json := readAll (value true deepest) text

end Letterpress.Json
