import CssUrls.Number.Double

/-! The shortest decimal that reads back as a given number.

The magnitudes that round to a rank form an interval around its value, which reaches halfway to
the neighbouring ranks and holds its ends exactly when the rank is even. On the decimal grids
of one, two, … seventeen digits the interval is tried against the two grid points around the
value; the first grid with a point inside decides, and there the point nearer to the value, or the
even one if both are equally near.

This is the rule that is assumed of the printer of numbers, and it is exact. A printer that approximates the ends
of the interval may find more digits, or another last one. Of 43042.23734742335, rounded to fifteen digits, it may
write another fifteenth.

All magnitudes are compared as natural numbers, in units of `2 ^ -1075 * 10 ^ -places`, which
make every end of an interval and every grid point whole. -/
namespace CssUrls

/-- The number `digits * 10 ^ power`. -/
structure Decimal where
  digits : Nat
  power : Int
  deriving DecidableEq

/-- How many decimal digits are written for an integer. -/
def digitCount (n : Nat) : Nat := (Nat.toDigits 10 n).length

namespace Decimal

/-- More decimal places than a grid of seventeen digits has for any finite number. -/
def places : Nat := 344

/-- The value of a rank, in the common unit. -/
def valueOf (rank : Nat) : Nat := 2 * Double.units rank * Nat.pow 10 places

/-- The ends of the interval of magnitudes that round to the rank, in the common unit. -/
def lowerEnd (rank : Nat) : Nat := (Double.units (rank - 1) + Double.units rank) * Nat.pow 10 places
def upperEnd (rank : Nat) : Nat := (Double.units rank + Double.units (rank + 1)) * Nat.pow 10 places

/-- A magnitude in the common unit rounds to the rank. -/
def roundsTo (rank x : Nat) : Bool :=
  if rank % 2 = 0 then lowerEnd rank ≤ x && x ≤ upperEnd rank
  else lowerEnd rank < x && x < upperEnd rank

/-- The distance between two points of the grid of `10 ^ (shift - places)`, in the common unit. -/
def gridStep (shift : Nat) : Nat := Nat.pow 10 shift * Nat.pow 2 1075

/-- Of two neighbours on a grid the one nearer to the value, the even one if neither is. -/
def nearer (value step below : Nat) : Nat :=
  let down := value - below * step
  let up := (below + 1) * step - value
  if up < down ∨ (up = down ∧ below % 2 = 1) then below + 1 else below

/-- The point of the grid that rounds to the rank and is nearest to its value. -/
def onGrid? (rank shift : Nat) : Option Nat :=
  let value := valueOf rank
  let step := gridStep shift
  let below := value / step
  let downIn := roundsTo rank (below * step)
  let upIn := roundsTo rank ((below + 1) * step)
  if downIn && upIn then some (nearer value step below)
  else if downIn then some below
  else if upIn then some (below + 1)
  else none

/-- The same number without zeros at the end of its digits. `fuel` bounds their number. -/
def stripped : Nat → Decimal → Decimal
  | 0, d => d
  | fuel + 1, d =>
    if d.digits ≠ 0 ∧ d.digits % 10 = 0 then stripped fuel ⟨d.digits / 10, d.power + 1⟩ else d

/-- The decimal of the fewest digits that rounds to the rank. Seventeen are always enough. It stands for the digits
that a printer of numbers is assumed to find. -/
def shortest (rank : Nat) : Decimal :=
  let width := digitCount (valueOf rank / Nat.pow 2 1075)
  let found := (List.range 17).findSome? fun n =>
    let shift := width - (n + 1)
    (onGrid? rank shift).map fun digits => ⟨digits, (shift : Int) - places⟩
  stripped 17 (found.getD ⟨0, 0⟩)

end Decimal

end CssUrls
