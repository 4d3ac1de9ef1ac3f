import CssUrls.Number.Double

/-! Decimals read by scaling.

The quick way to read a decimal: its digits are rounded to a number first, and that is multiplied
or divided by the number nearest to the power of ten. Each step rounds to the nearest, so the result
may be a little beside the number nearest to the decimal, which `ofDecimal?` gives. -/
namespace CssUrls.Double

/-- The greatest power of ten that is not beyond the finite numbers. -/
def greatestPower : Nat := 308

/-- The rank nearest to a power of ten. -/
def powerRank (p : Nat) : Nat := nearestRank (Nat.pow 10 p) 1

/-- The rank nearest to the product of a magnitude and a power of ten. -/
def timesPower (rank p : Nat) : Nat :=
  nearestRank (units rank * units (powerRank p)) (Nat.pow 2 1074 * Nat.pow 2 1074)

/-- The rank nearest to the quotient of a magnitude and a power of ten. -/
def overPower (rank p : Nat) : Nat := nearestRank (units rank) (units (powerRank p))

/-- A magnitude divided by a power of ten, by the greatest one for as long as it takes. -/
def scaledDown (rank p : Nat) : Nat :=
  if p ≤ greatestPower then overPower rank p
  else scaledDown (overPower rank greatestPower) (p - greatestPower)
termination_by p
decreasing_by
  have : greatestPower = 308 := rfl
  omega

def scaledRank (digits : Nat) : Int → Nat
  | .ofNat p =>
    if digits = 0 then 0
    else if greatestPower < p then rankLimit
    else timesPower (nearestRank digits 1) p
  | .negSucc p => scaledDown (nearestRank digits 1) (p + 1)

/-- The number `digits * 10 ^ power` read by scaling, unless that is beyond the finite ones. -/
def ofScaled? (negative : Bool) (digits : Nat) (power : Int) : Option Double :=
  if h : scaledRank digits power < rankLimit then some ⟨negative, scaledRank digits power, h⟩ else none

end CssUrls.Double
