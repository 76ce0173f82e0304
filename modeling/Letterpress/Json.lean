import Letterpress.KeyMap
import Letterpress.Number.Shortest

/-!
# JSON values

Whole numbers and floating-point numbers are apart: `2` is not `2.0`. The fields of an object are in
the order of their keys.
-/

namespace Letterpress

inductive Json where
  | null
  | bool (b : Bool)
  | integer (n : Int)
  | float (x : Number.Binary)
  | string (s : String)
  | array (items : List Json)
  | object (fields : List (String × Json))
  deriving Repr, Inhabited

namespace Json

open Number

/-- The digits of a decimal without an exponent, and the fraction's digits. -/
def plainDigits (d : Decimal) : List Char × List Char :=
  if d.point ≤ 0 then (['0'], List.replicate (-d.point).toNat '0' ++ d.digits)
  else
    let whole := d.point.toNat
    (d.digits.take whole ++ List.replicate (whole - d.digits.length) '0', d.digits.drop whole)

/-- A decimal without an exponent; `whole` stands for the fraction of a whole number. -/
def showPlain (whole : String) (d : Decimal) : String :=
  let (before, behind) := plainDigits d
  String.ofList before ++ if behind.isEmpty then whole else "." ++ String.ofList behind

def showScientific (d : Decimal) : String :=
  let e := d.point - 1
  let fraction := d.digits.drop 1
  String.ofList (d.digits.take 1) ++ (if fraction.isEmpty then "" else "." ++ String.ofList fraction) ++
    (if e < 0 then "e-" else "e+") ++ toString e.natAbs

/-- JSON writes a number with its fraction, and with an exponent below `10 ^ -5` and from
`10 ^ 16`. -/
def showFloat : Binary → String
  | .infinite _ => "null"
  | .finite negative m e =>
    (if negative then "-" else "") ++
      if m = 0 then "0.0"
      else
        let d := shortest double m e
        if -5 < d.point && d.point ≤ 16 then showPlain ".0" d else showScientific d

def hexDigit (n : Nat) : Char := Nat.digitChar n

def escapeChar (c : Char) : List Char :=
  if c = '"' then ['\\', '"']
  else if c = '\\' then ['\\', '\\']
  else if c = '\x08' then ['\\', 'b']
  else if c = '\x0c' then ['\\', 'f']
  else if c = '\n' then ['\\', 'n']
  else if c = '\r' then ['\\', 'r']
  else if c = '\t' then ['\\', 't']
  else if c.toNat < 0x20 then ['\\', 'u', '0', '0', hexDigit (c.toNat / 16), hexDigit (c.toNat % 16)]
  else [c]

def quote (s : String) : String := "\"" ++ String.ofList (s.toList.flatMap escapeChar) ++ "\""

mutual

/-- The text without blanks. -/
def compact : Json → String
  | null => "null"
  | bool b => if b then "true" else "false"
  | integer n => toString n
  | float x => showFloat x
  | string s => quote s
  | array items => "[" ++ ",".intercalate (compactItems items) ++ "]"
  | object fields => "\x7b" ++ ",".intercalate (compactFields fields) ++ "\x7d"

def compactItems : List Json → List String
  | [] => []
  | item :: rest => compact item :: compactItems rest

def compactFields : List (String × Json) → List String
  | [] => []
  | (key, value) :: rest => (quote key ++ ":" ++ compact value) :: compactFields rest

end

/-- The text a value is filled in as: no quotes around a text, no fraction on a whole number, no
exponent, and nothing for null. -/
def display : Json → String
  | null => ""
  | string s => s
  | float (.finite negative m e) =>
    (if negative then "-" else "") ++ if m = 0 then "0" else showPlain "" (shortest double m e)
  | value => compact value

/-- Null, `false`, zero and the empty text do not hold. -/
def holds : Json → Bool
  | null => false
  | bool b => b
  | integer n => n != 0
  | float x => !x.isZero
  | string s => !s.isEmpty
  | array _ => true
  | object _ => true

def kind : Json → String
  | null => "null"
  | bool _ => "bool"
  | integer _ => "number"
  | float _ => "number"
  | string _ => "string"
  | array _ => "array"
  | object _ => "object"

def fields? : Json → Option (List (String × Json))
  | object fields => some fields
  | _ => none

/-- A field of an object. -/
def field? (value : Json) (key : String) : Option Json := value.fields?.bind (Keyed.find? key)

/-- The number as a floating-point number. -/
def double? : Json → Option Binary
  | integer n => some (Binary.ofInt Number.double n)
  | float x => some x
  | _ => none

end Json

end Letterpress
