import Letterpress.Markup.Fault
import Letterpress.Number.Decimal

/-!
# References

A reference `&name;` stands for one of five characters, `&#n;` and `&#xh;` for the character with
that code.
-/

namespace Letterpress.Markup

open Text

def entity? (name : List Char) : Option Char :=
  if name = ['l', 't'] then some '<'
  else if name = ['g', 't'] then some '>'
  else if name = ['a', 'm', 'p'] then some '&'
  else if name = ['a', 'p', 'o', 's'] then some '\''
  else if name = ['q', 'u', 'o', 't'] then some '"'
  else none

def hexDigit? (c : Char) : Option Nat :=
  if 'a' ≤ c && c ≤ 'f' then some (c.toNat - 'a'.toNat + 10)
  else if 'A' ≤ c && c ≤ 'F' then some (c.toNat - 'A'.toNat + 10)
  else Number.digit? c

/-- The number that digits spell, below `2 ^ 32`. -/
def code (base : Nat) (digits : List Char) : Except BadNumber Nat :=
  match digits with
  | [] => .error .empty
  | '+' :: _ => .error .sign
  | '-' :: _ => .error .sign
  | digits => digits.foldlM (fun n c =>
      match if base = 16 then hexDigit? c else Number.digit? c with
      | none => .error .digit
      | some d => if n * base + d < UInt32.size then .ok (n * base + d) else .error .large) 0

/-- The character a number stands for. -/
def numbered (number : List Char) : Except BadNumber Char := do
  let n ← match number with
    | 'x' :: digits => code 16 digits
    | digits => code 10 digits
  if n = 0 then throw .zero
  else if n.isValidChar then pure (Char.ofNat n)
  else throw (.noCharacter n)

def byteLength (cs : List Char) : Nat := (String.ofList cs).utf8ByteSize

/-- The character a reference stands for; its ampersand is at `start`. -/
def reference (start : Nat) (name : List Char) : Except Fault Char :=
  match name with
  | '#' :: number => (numbered number).mapError .badNumber
  | name =>
    match entity? name with
    | some c => .ok c
    | none => .error (.unknownEntity (start + 1) (start + 1 + byteLength name) (String.ofList name))

/-- Resolves the references of a text of which `offset` bytes are read. `pending` is the place of
the last ampersand, and the characters behind it, last first, if its reference is still open. -/
def resolveFrom (offset : Nat) (pending : Option (Nat × List Char)) :
    List Char → Except Fault (List Char)
  | [] =>
    match pending with
    | none => .ok []
    | some (start, _) => .error (.unterminated start offset)
  | c :: rest =>
    match pending with
    | none =>
      if c = '&' then resolveFrom (offset + 1) (some (offset, [])) rest
      else (resolveFrom (offset + c.utf8Size) none rest).map (c :: ·)
    | some (start, name) =>
      if c = '&' then .error (.unterminated start (offset + byteLength (c :: rest)))
      else if c = ';' then
        match reference start name.reverse with
        | .error fault => .error fault
        | .ok d => (resolveFrom (offset + 1) none rest).map (d :: ·)
      else resolveFrom (offset + c.utf8Size) (some (start, c :: name)) rest

def resolve (s : String) : Except Fault String := (resolveFrom 0 none s.toList).map String.ofList

/-- Text between tags. -/
def readText (content : List Symbol) : Except Fault String :=
  match text? content with
  | none => .error (.notText (broken content))
  | some s => resolve s

end Letterpress.Markup
