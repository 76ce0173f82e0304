import Letterpress.Number.Binary

/-!
# Measures

Sizes are given in points as single-precision numbers and kept in whole units: twips are twentieths
of a point, line heights are counted in 240ths of a line.
-/

namespace Letterpress

open Number

/-- A single-precision number of points or lines. -/
abbrev Points := Binary

namespace Points

def times (p : Points) (n : Nat) : UInt32 :=
  (Binary.mul single p (Binary.ofNat single false n)).toUInt32

def halves (p : Points) : UInt32 := p.times 2

def twips (p : Points) : UInt32 := times p.positivePart 20

def lineUnits (p : Points) : UInt32 := times p.positivePart 240

def isPositive : Points → Bool
  | .finite negative m _ => !negative && m != 0
  | .infinite negative => !negative

end Points

end Letterpress
