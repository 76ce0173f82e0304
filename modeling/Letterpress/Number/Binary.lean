/-!
# Binary floating-point numbers

A number is `±mantissa · 2 ^ exponent` or an infinity. `Binary.round` gives the nearest number of a
format to a quotient, ties to the even mantissa; products and quotients are exact before it.
-/

namespace Letterpress.Number

/-- The nearest whole number to `num / den`, a tie going to the even one. -/
def roundEven (num den : Nat) : Nat :=
  let q := num / den
  let r := num % den
  if 2 * r < den then q else if 2 * r > den then q + 1 else q + q % 2

/-- The nearest whole number to `num / den`, a tie going up. -/
def roundUp (num den : Nat) : Nat := (2 * num + den) / (2 * den)

/-- A binary format: the bits of a full mantissa, and the range of exponents. -/
structure Format where
  precision : Nat
  least : Int
  greatest : Int

def single : Format := ⟨24, -149, 104⟩

def double : Format := ⟨53, -1074, 971⟩

/-- A floating-point number, infinities included. -/
inductive Binary where
  | finite (negative : Bool) (mantissa : Nat) (exponent : Int)
  | infinite (negative : Bool)
  deriving DecidableEq, Repr, Inhabited

namespace Binary

/-- `num / den · 2 ^ shift` as a quotient of whole numbers. -/
def scaled (num den : Nat) (shift : Int) : Nat × Nat :=
  (num * Nat.pow 2 shift.toNat, den * Nat.pow 2 (-shift).toNat)

/-- The exponent a nonzero quotient has in a format: its mantissa is full, or the exponent is the
least one. -/
def exponentOf (f : Format) (num den : Nat) : Int :=
  let guess : Int := (num.log2 : Int) - (den.log2 : Int) - f.precision
  let (n, d) := scaled num den (-guess)
  max f.least (if n < Nat.pow 2 f.precision * d then guess else guess + 1)

/-- The number of the format nearest to `num / den · 2 ^ shift`. -/
def round (f : Format) (negative : Bool) (num den : Nat) (shift : Int) : Binary :=
  if num = 0 then .finite negative 0 f.least
  else
    let (num, den) := scaled num den shift
    let e := exponentOf f num den
    let (n, d) := scaled num den (-e)
    let m := roundEven n d
    let (m, e) := if m = Nat.pow 2 f.precision then (Nat.pow 2 (f.precision - 1), e + 1) else (m, e)
    if e > f.greatest then .infinite negative else .finite negative m e

def ofNat (f : Format) (negative : Bool) (n : Nat) : Binary := round f negative n 1 0

def ofInt (f : Format) (n : Int) : Binary := ofNat f (n < 0) n.natAbs

def negative : Binary → Bool
  | .finite s _ _ => s
  | .infinite s => s

def isZero : Binary → Bool
  | .finite _ m _ => m == 0
  | .infinite _ => false

def isInfinite : Binary → Bool
  | .finite .. => false
  | .infinite _ => true

/-- The same number in another format. -/
def «to» (f : Format) : Binary → Binary
  | .finite s m e => round f s m 1 e
  | .infinite s => .infinite s

/-- The product, for factors of which none is zero where the other is infinite. -/
def mul (f : Format) : Binary → Binary → Binary
  | .finite s m e, .finite s' m' e' => round f (s != s') (m * m') 1 (e + e')
  | x, y => .infinite (x.negative != y.negative)

/-- The quotient by a number that is finite and not zero. -/
def div (f : Format) : Binary → Binary → Binary
  | .finite s m e, .finite s' m' e' => round f (s != s') m m' (e - e')
  | x, y => .infinite (x.negative != y.negative)

/-- The nearest number that is not negative. -/
def positivePart : Binary → Binary
  | .finite false m e => .finite false m e
  | .infinite false => .infinite false
  | .finite true _ e => .finite false 0 e
  | .infinite true => .finite false 0 0

/-- The nearest whole number, ties away from zero, kept between zero and `2 ^ 32 - 1`. -/
def toUInt32 : Binary → UInt32
  | .finite true _ _ => 0
  | .finite false m e =>
    let (n, d) := scaled m 1 e
    UInt32.ofNat (min (roundUp n d) (UInt32.size - 1))
  | .infinite true => 0
  | .infinite false => UInt32.ofNat (UInt32.size - 1)

end Binary

end Letterpress.Number
