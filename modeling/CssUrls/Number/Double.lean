/-! Finite binary64 numbers.

The finite magnitudes are counted from zero upwards: a magnitude is its place in that
order, its *rank*. Ranks step through the significands of one binary scale after another, so
`units` gives the value of a rank in units of `2 ^ -1074`, the least magnitude of all, and a
rank is even exactly when its significand is. Reading a decimal is finding the rank nearest to
it, the even one of two that are equally near; nothing here rounds twice. -/
namespace CssUrls

/-- The first rank past the finite magnitudes. -/
def rankLimit : Nat := 2047 * Nat.pow 2 52

theorem rankLimit_pos : 0 < rankLimit := by decide

/-- A sign and a finite magnitude. Zero has both signs. -/
structure Double where
  negative : Bool
  rank : Nat
  rank_lt : rank < rankLimit
  deriving DecidableEq

namespace Double

/-- The power of two by which the significand of a rank is scaled. -/
def scale (rank : Nat) : Nat := rank / Nat.pow 2 52 - 1

/-- The magnitude of a rank in units of `2 ^ -1074`. -/
def units (rank : Nat) : Nat := (rank - scale rank * Nat.pow 2 52) * Nat.pow 2 (scale rank)

/-- The same number, with the two zeros taken for one. -/
def same (x y : Double) : Bool := x.rank == y.rank && (x.negative == y.negative || x.rank == 0)

def isZero (x : Double) : Bool := x.rank == 0

/-- Zero without a sign. -/
def zero : Double := ⟨false, 0, rankLimit_pos⟩

/-- A whole number. -/
def isIntegral (x : Double) : Bool := units x.rank % Nat.pow 2 1074 == 0

/-- The finite number furthest from zero. -/
def greatest (negative : Bool) : Double := ⟨negative, rankLimit - 1, by decide⟩

/-- The 64 bits of the number: its sign in front of its rank. -/
def bits (x : Double) : Nat := (if x.negative then Nat.pow 2 63 else 0) + x.rank

/-- The number with these bits, if they are those of a finite one. -/
def ofBits? (bits : Nat) : Option Double :=
  if h : bits % Nat.pow 2 63 < rankLimit then some ⟨Nat.pow 2 63 ≤ bits, bits % Nat.pow 2 63, h⟩
  else none

/-! ### The number nearest to a fraction -/

/-- The quotient rounded to the nearest integer, to the even one of two. -/
def halfEven (n d : Nat) : Nat :=
  if 2 * (n % d) < d ∨ (2 * (n % d) = d ∧ n / d % 2 = 0) then n / d else n / d + 1

/-- The rank nearest to `n / d`. Past the finite magnitudes it goes on as if there were more. -/
def nearestRank (n d : Nat) : Nat :=
  let binary := (n * Nat.pow 2 1074 / d).log2 - 52
  binary * Nat.pow 2 52 + halfEven (n * Nat.pow 2 1074) (d * Nat.pow 2 binary)

/-- The rank nearest to `m * 10 ^ e`. Exponents that settle the rank by themselves are not raised
to. -/
def decimalRank (m : Nat) : Int → Nat
  | .ofNat k =>
    if m = 0 then 0
    else if 310 ≤ k then rankLimit
    else nearestRank (m * Nat.pow 10 k) 1
  | .negSucc k =>
    if m = 0 ∨ m.log2 + 1076 ≤ 3 * (k + 1) then 0 else nearestRank m (Nat.pow 10 (k + 1))

/-- The number nearest to a decimal, unless that is beyond the finite ones. -/
def ofDecimal? (negative : Bool) (m : Nat) (e : Int) : Option Double :=
  if h : decimalRank m e < rankLimit then some ⟨negative, decimalRank m e, h⟩ else none

end Double

end CssUrls
