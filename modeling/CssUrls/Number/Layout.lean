import CssUrls.Number.Shortest

/-! Decimal numbers laid out as text.

A number is written with its point in place, or as a coefficient between one and ten and a
power of ten, depending on where the point falls in its digits. A `DecimalStyle` says which, and
how many significant digits a coefficient may have before it is rounded. -/
namespace CssUrls

/-- The decisions in writing a number. The point is in place if the digits before it number at
least `firstPoint` and at most `lastPoint`, each zero between it and the digits counting as one
below zero. A coefficient is rounded to `significant` digits, and `plusPower` puts a plus sign before
a power of ten that is not negative. -/
structure DecimalStyle where
  firstPoint : Int
  lastPoint : Int
  significant : Nat
  plusPower : Bool

/-- A coefficient, how many of its digits stand after the point, and the power of ten beside it. -/
structure Layout where
  coefficient : Nat
  places : Nat
  exponent : Option Int
  deriving DecidableEq

namespace Layout

/-- Rounds the coefficient to so many significant digits, half upwards. It keeps its places, so
a carry out of the first digit makes it longer. -/
def rounded (significant : Nat) (l : Layout) : Layout :=
  let cut := digitCount l.coefficient - significant
  if cut = 0 then l
  else
    let kept := (l.coefficient + 5 * Nat.pow 10 (cut - 1)) / Nat.pow 10 cut
    { l with coefficient := kept * Nat.pow 10 cut }

/-- Leaves out the zeros that end the places after the point. -/
def trimmed (coefficient : Nat) : Nat → Nat × Nat
  | 0 => (coefficient, 0)
  | places + 1 =>
    if coefficient % 10 = 0 then trimmed (coefficient / 10) places else (coefficient, places + 1)

def trim (l : Layout) : Layout :=
  let (coefficient, places) := trimmed l.coefficient l.places
  { l with coefficient, places }

/-- The digits of an integer, filled up with zeros at the front. -/
def padded (width n : Nat) : String :=
  let digits := toString n
  String.ofList (List.replicate (width - digits.length) '0') ++ digits

def text (plusPower : Bool) (l : Layout) : String :=
  let whole := toString (l.coefficient / Nat.pow 10 l.places)
  let fraction :=
    if l.places = 0 then "" else "." ++ padded l.places (l.coefficient % Nat.pow 10 l.places)
  let power := match l.exponent with
    | none => ""
    | some e => (if plusPower && 0 ≤ e then "e+" else "e") ++ toString e
  whole ++ fraction ++ power

end Layout

namespace DecimalStyle

/-- Where the point and the power of ten go. -/
def place (style : DecimalStyle) (d : Decimal) : Layout :=
  let count := digitCount d.digits
  let point := count + d.power
  if style.firstPoint ≤ point ∧ point ≤ style.lastPoint then
    ⟨d.digits * Nat.pow 10 d.power.toNat, (-d.power).toNat, none⟩
  else ⟨d.digits, count - 1, some (point - 1)⟩

def layout (style : DecimalStyle) (d : Decimal) : Layout :=
  ((style.place d).rounded style.significant).trim

/-- A magnitude as text, from the digits that are assumed to be printed for it (`Decimal.shortest`). A whole number
that is written as such gets a decimal place. -/
def magnitude (style : DecimalStyle) (x : Double) : String :=
  if x.isZero then "0.0"
  else
    let l := style.layout (Decimal.shortest x.rank)
    let text := l.text style.plusPower
    if l.places = 0 ∧ l.exponent.isNone ∧ x.isIntegral then text ++ ".0" else text

def text (style : DecimalStyle) (x : Double) : String :=
  if x.negative then "-" ++ style.magnitude x else style.magnitude x

end DecimalStyle

end CssUrls
