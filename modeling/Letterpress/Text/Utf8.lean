/-!
# Text in bytes

Bytes are read as symbols: the characters that UTF-8 spells, and the bytes that belong to none.
Every cut of a text at an ASCII character is a cut between symbols.
-/

namespace Letterpress.Text

/-- A character, or a byte that is part of none. -/
inductive Symbol where
  | char (c : Char)
  | stray (b : UInt8)
  deriving DecidableEq, Repr, Inhabited

namespace Symbol

def readFrom (bytes : ByteArray) (i : Nat) : List Symbol :=
  if h : i < bytes.size then
    match bytes.utf8DecodeChar? i with
    | some c => .char c :: readFrom bytes (i + c.utf8Size)
    | none => .stray bytes[i] :: readFrom bytes (i + 1)
  else []
termination_by bytes.size - i
decreasing_by
  · have := c.utf8Size_pos; omega
  · omega

def read (bytes : ByteArray) : List Symbol := readFrom bytes 0

def ofString (s : String) : List Symbol := s.toList.map .char

def bytes : Symbol → List UInt8
  | .char c => (String.singleton c).toUTF8.toList
  | .stray b => [b]

/-- The length in bytes. -/
def size : Symbol → Nat
  | .char c => c.utf8Size
  | .stray _ => 1

def isBlank : Symbol → Bool
  | .char c => c = ' ' || c = '\t' || c = '\r' || c = '\n'
  | .stray _ => false

/-- The character, if the symbol is one. -/
def char? : Symbol → Option Char
  | .char c => some c
  | .stray _ => none

end Symbol

/-- The length of a list of symbols in bytes. -/
def width (symbols : List Symbol) : Nat := symbols.foldl (fun n s => n + s.size) 0

/-- Where UTF-8 breaks: the offset of the first byte that is part of no character, and how many
bytes are at fault, unknown when the text ends inside a character. -/
structure Broken where
  offset : Nat
  length : Option Nat
  deriving DecidableEq, Repr

/-- How many bytes from the start of `bytes` begin a character without finishing it. -/
def Broken.lengthOf : List UInt8 → Option Nat
  | [] => some 1
  | b :: rest =>
    let tail (c : UInt8) := 0x80 ≤ c && c ≤ 0xBF
    let second (c : UInt8) :=
      if b = 0xE0 then 0xA0 ≤ c && c ≤ 0xBF
      else if b = 0xED then 0x80 ≤ c && c ≤ 0x9F
      else if b = 0xF0 then 0x90 ≤ c && c ≤ 0xBF
      else if b = 0xF4 then 0x80 ≤ c && c ≤ 0x8F
      else tail c
    if 0xC2 ≤ b && b ≤ 0xDF then if rest.isEmpty then none else some 1
    else if 0xE0 ≤ b && b ≤ 0xEF then
      match rest with
      | [] => none
      | [c] => if second c then none else some 1
      | c :: _ => some (if second c then 2 else 1)
    else if 0xF0 ≤ b && b ≤ 0xF4 then
      match rest with
      | [] => none
      | [c] => if second c then none else some 1
      | [c, d] => if !second c then some 1 else if !tail d then some 2 else none
      | c :: d :: _ => some (if !second c then 1 else if !tail d then 2 else 3)
    else some 1

/-- At most this many bytes decide `Broken.lengthOf`. -/
def Broken.reach : Nat := 4

/-- The symbols as a text, if all of them are characters. -/
def text? (symbols : List Symbol) : Option String :=
  (symbols.mapM Symbol.char?).map String.ofList

/-- The first break of a text that `text?` refuses. -/
def broken (symbols : List Symbol) : Broken :=
  let sound := symbols.takeWhile (·.char?.isSome)
  let rest := symbols.dropWhile (·.char?.isSome)
  ⟨width sound, Broken.lengthOf ((rest.take Broken.reach).flatMap Symbol.bytes)⟩

/-- Replaces every broken sequence by one replacement character. `skip` counts the symbols that
still belong to the last one. -/
def replacingFrom (skip : Nat) : List Symbol → List Char
  | [] => []
  | .char c :: rest => c :: replacingFrom 0 rest
  | .stray b :: rest =>
    if skip = 0 then
      let length := Broken.lengthOf (b :: (rest.take Broken.reach).flatMap Symbol.bytes)
      '\uFFFD' :: replacingFrom (length.getD Broken.reach - 1) rest
    else replacingFrom (skip - 1) rest

def replacing (symbols : List Symbol) : String := String.ofList (replacingFrom 0 symbols)

@[simp] theorem text?_ofString (s : String) : text? (Symbol.ofString s) = some s := by
  have h : ∀ cs : List Char, (cs.map Symbol.char).mapM Symbol.char? = some cs := by
    intro cs
    induction cs with
    | nil => rfl
    | cons c cs ih => simp [Symbol.char?, ih]
  simp [text?, Symbol.ofString, h]

end Letterpress.Text
