/-!
# Decimal numerals of fixed width

A numeral is a run of ASCII digits, with a plus sign or, for a signed width, a minus sign before it.
A numeral beyond its width is none.
-/

namespace Letterpress.Number

def digit? (c : Char) : Option Nat :=
  if '0' ≤ c && c ≤ '9' then some (c.toNat - '0'.toNat) else none

/-- The number a nonempty run of digits spells. -/
def natural? (cs : List Char) : Option Nat :=
  if cs.isEmpty then none else cs.foldlM (fun n c => (digit? c).map (10 * n + ·)) 0

def unsigned? (limit : Nat) (cs : List Char) : Option Nat :=
  (natural? (match cs with
    | '+' :: cs => cs
    | cs => cs)).filter (· < limit)

/-- A numeral from `-limit` up to, and without, `limit`. -/
def signed? (limit : Nat) (cs : List Char) : Option Int :=
  match cs with
  | '-' :: cs => ((natural? cs).filter (· ≤ limit)).map fun n => -(n : Int)
  | cs => (unsigned? limit cs).map fun n => (n : Int)

def uint32? (s : String) : Option UInt32 := (unsigned? UInt32.size s.toList).map UInt32.ofNat

def int32? (s : String) : Option Int32 := (signed? (Nat.pow 2 31) s.toList).map Int32.ofInt

def int64? (s : String) : Option Int64 := (signed? (Nat.pow 2 63) s.toList).map Int64.ofInt

def showUInt32 (n : UInt32) : String := toString n.toNat

def showInt32 (n : Int32) : String := toString n.toInt

def showInt64 (n : Int64) : String := toString n.toInt

end Letterpress.Number
