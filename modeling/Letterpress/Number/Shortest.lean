import Letterpress.Number.Binary

/-!
# The shortest decimal of a binary number

Of all decimals that read back as a number, the ones with the fewest digits; of those, the nearest
to it.
-/

namespace Letterpress.Number

/-- The positive decimal `0.d₁d₂… · 10 ^ point`. -/
structure Decimal where
  digits : List Char
  point : Int
  deriving DecidableEq, Repr

namespace Shortest

/-- The value and the ends of the interval that rounds to it, in quarters of the last place. -/
structure Cell where
  low : Nat
  value : Nat
  high : Nat
  closed : Bool

def cell (f : Format) (m : Nat) (e : Int) : Cell :=
  let low := if m = Nat.pow 2 (f.precision - 1) && e > f.least then 4 * m - 1 else 4 * m - 2
  ⟨low, 4 * m, 4 * m + 2, m % 2 == 0⟩

/-- Whether the decimal `n · 10 ^ k` lies in the cell, whose unit is `2 ^ e`. -/
def Cell.holds (c : Cell) (e : Int) (n : Nat) (k : Int) : Bool :=
  let left := n * Nat.pow 10 k.toNat * Nat.pow 2 (-e).toNat
  let unit := Nat.pow 10 (-k).toNat * Nat.pow 2 e.toNat
  if c.closed then c.low * unit ≤ left && left ≤ c.high * unit
  else c.low * unit < left && left < c.high * unit

/-- The whole number of steps `10 ^ k` below the cell's value, and twice the rest against one step:
less, equal or greater. -/
def Cell.below (c : Cell) (e k : Int) : Nat × Ordering :=
  let num := c.value * Nat.pow 2 e.toNat * Nat.pow 10 (-k).toNat
  let den := Nat.pow 2 (-e).toNat * Nat.pow 10 k.toNat
  (num / den, compare (2 * (num % den)) den)

/-- The decimal of the cell on the grid of `10 ^ k`, if there is one. -/
def Cell.onGrid (c : Cell) (e k : Int) : Option Nat :=
  let (n, half) := c.below e k
  let down := c.holds e n k
  let up := c.holds e (n + 1) k
  match down, up with
  | true, true => some (match half with
    | .lt => n
    | .gt => n + 1
    | .eq => n + n % 2)
  | true, false => some n
  | false, true => some (n + 1)
  | false, false => none

/-- The first grid, from coarse to fine, that holds a decimal of the cell. -/
def search (c : Cell) (e : Int) : Nat → Int → Nat × Int
  | 0, k => (c.below e k |>.1, k)
  | tries + 1, k =>
    match c.onGrid e k with
    | some n => (n, k)
    | none => search c e tries (k - 1)

end Shortest

/-- The shortest decimal of the positive number `m · 2 ^ e`. -/
def shortest (f : Format) (m : Nat) (e : Int) : Decimal :=
  let c := Shortest.cell f m e
  let e := e - 2
  -- an upper bound of the number's decimal exponent
  let start := ((m.log2 : Int) + e + 3) * 30103 / 100000 + 2
  let (n, k) := Shortest.search c e (f.precision + 20) start
  let digits := Nat.toDigits 10 n
  let kept := (digits.reverse.dropWhile (· = '0')).reverse
  ⟨kept, k + digits.length⟩

end Letterpress.Number
