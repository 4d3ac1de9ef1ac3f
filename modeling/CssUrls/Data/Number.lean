import CssUrls.Data.Value
import CssUrls.Lexical.Numeral
import CssUrls.Number.Scaled

/-! Numbers of configuration data.

A numeral without fraction and exponent is an integer if 64 bits hold it, signed for a negative one
and unsigned for all others. Everything else is a float, the negative zero too. A float is read by
scaling, from as many of its digits as 64 bits hold. -/
namespace CssUrls.Data
open Lexical

/-- Goes on with an integer digit by digit while it stays below `2 ^ 64`. Returns it with the digits
that are left. -/
def takeDigits (n : Nat) : List Char → Nat × List Char
  | [] => (n, [])
  | c :: rest =>
    let next := n * 10 + (c.toNat - '0'.toNat)
    if next < Nat.pow 2 64 then takeDigits next rest else (n, c :: rest)

/-- The float that a numeral stands for. Digits left of the point that do not fit count as zeros,
those right of it are passed over. -/
def floatOf? (n : Numeral) : Option Double :=
  let fraction := n.fraction.getD []
  let (whole, wholeLeft) := takeDigits 0 n.whole
  let (digits, fractionLeft) := takeDigits whole fraction
  let taken : Int := fraction.length - fractionLeft.length
  Double.ofScaled? n.negative digits (n.power + wholeLeft.length - taken)

/-- Held by 64 bits. Zero has no sign. -/
def isStored (negative : Bool) (i : Int) : Bool :=
  if negative then -Int.pow 2 63 ≤ i && i < 0 else i < Int.pow 2 64

/-- The value that a numeral stands for, unless it is beyond the finite numbers. -/
def Value.ofNumeral? (n : Numeral) : Option Value :=
  match n.int? with
  | some i => if isStored n.negative i then some (.integer i) else (floatOf? n).map .float
  | none => (floatOf? n).map .float

end CssUrls.Data
