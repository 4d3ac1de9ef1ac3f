import CssUrls.Text.Class
import CssUrls.Lexical.Fault
import CssUrls.Token.Basic

/-! Numerals: how numbers are written in a stylesheet.

A sign, digits, a fraction and an exponent; all may be missing, but not the digits both
before and after the point. `Numeral` holds the parts and `readNumeral` takes the longest numeral
at the front of a text. What that stands for is up to the parser that gets it (`parseNumeric`); the
one of this library takes a numeral for the nearest `Double` (`Numeral.numeric`). The integer itself
is kept if there is neither fraction nor exponent. A value out of range is replaced by the nearest one
in range. -/
namespace CssUrls.Lexical
open Text

inductive Sign
  | plus
  | minus
  deriving DecidableEq

def readSign : List Char → Option Sign × List Char
  | '+' :: rest => (some .plus, rest)
  | '-' :: rest => (some .minus, rest)
  | text => (none, text)

def signLength (sign : Option Sign) : Nat := if sign.isSome then 1 else 0

def startsDigit (text : List Char) : Bool := startsWith Char.isDigit text

/-- The text starts with a digit, or with a point and a digit. -/
def startsDigits : List Char → Bool
  | '.' :: rest => startsDigit rest
  | text => startsDigit text

/-- The text starts with a numeral. -/
def startsNumeral (text : List Char) : Bool := startsDigits (readSign text).2

/-- The parts of a numeral. A fraction or an exponent that is there has digits. -/
structure Numeral where
  sign : Option Sign
  whole : List Char
  fraction : Option (List Char)
  exponent : Option (Option Sign × List Char)
  deriving DecidableEq

def readFraction : List Char → Option (List Char)
  | '.' :: rest => if startsDigit rest then some (rest.takeWhile Char.isDigit) else none
  | _ => none

def readExponent : List Char → Option (Option Sign × List Char)
  | c :: rest =>
    let (sign, digits) := readSign rest
    if (c == 'e' || c == 'E') && startsDigit digits then some (sign, digits.takeWhile Char.isDigit)
    else none
  | [] => none

/-- The code points of a fraction, its point among them. -/
def fractionLength : Option (List Char) → Nat
  | none => 0
  | some digits => 1 + digits.length

/-- The code points of an exponent, its letter among them. -/
def exponentLength : Option (Option Sign × List Char) → Nat
  | none => 0
  | some (sign, digits) => 1 + signLength sign + digits.length

/-- A sign as it is written. -/
def signText : Option Sign → List Char
  | none => []
  | some .plus => ['+']
  | some .minus => ['-']

/-- A fraction as it is written. -/
def fractionText : Option (List Char) → List Char
  | none => []
  | some digits => '.' :: digits

/-- An exponent as it is written, with a small letter. -/
def exponentText : Option (Option Sign × List Char) → List Char
  | none => []
  | some (sign, digits) => 'e' :: (signText sign ++ digits)

/-- The longest numeral at the front of the text. -/
def readNumeral (text : List Char) : Numeral :=
  let (sign, unsigned) := readSign text
  let whole := unsigned.takeWhile Char.isDigit
  let afterWhole := unsigned.drop whole.length
  let fraction := readFraction afterWhole
  let afterFraction := afterWhole.drop (fractionLength fraction)
  { sign, whole, fraction, exponent := readExponent afterFraction }

namespace Numeral

def length (n : Numeral) : Nat :=
  signLength n.sign + n.whole.length + fractionLength n.fraction + exponentLength n.exponent

/-- A numeral as it is written. -/
def text (n : Numeral) : List Char :=
  signText n.sign ++ (n.whole ++ (fractionText n.fraction ++ exponentText n.exponent))

def digitsValue (digits : List Char) : Nat :=
  digits.foldl (fun n c => n * 10 + (c.toNat - '0'.toNat)) 0

/-- The value of an exponent's digits. Past `2 ^ 16` it grows no more: no number is left to tell
apart by it. -/
def exponentValue (digits : List Char) : Nat :=
  digits.foldl (fun n c => if n < Nat.pow 2 16 then n * 10 + (c.toNat - '0'.toNat) else n) 0

def negative (n : Numeral) : Bool := n.sign == some .minus

/-- The power of ten that is written out. -/
def power (n : Numeral) : Int :=
  match n.exponent with
  | none => 0
  | some (some .minus, digits) => -exponentValue digits
  | some (_, digits) => exponentValue digits

/-- All digits before the exponent as one integer, and the power of ten it is multiplied by. -/
def decimal (n : Numeral) : Nat × Int :=
  let fraction := n.fraction.getD []
  (digitsValue (n.whole ++ fraction), n.power - fraction.length)

def isInteger (n : Numeral) : Bool := n.fraction.isNone && n.exponent.isNone

/-- The least and the greatest integer that a number token holds. -/
def leastInt : Int := -Int.pow 2 63
def greatestInt : Int := Int.pow 2 63 - 1

/-- The number as an integer, before it is brought into range. -/
def int? (n : Numeral) : Option Int :=
  if n.isInteger then
    let magnitude : Int := digitsValue n.whole
    some (if n.negative then -magnitude else magnitude)
  else none

def double? (n : Numeral) : Option Double :=
  Double.ofDecimal? n.negative n.decimal.1 n.decimal.2

/-- The number, from what its text was parsed as. Zero stands for what was refused. -/
def numericOf (n : Numeral) (parsed : Option (Option Double)) : Numeric :=
  { value := match parsed with
      | some value? => value?.getD (Double.greatest n.negative)
      | none => Double.zero
    int := n.int?.map fun i => max leastInt (min i greatestInt)
    signed := n.sign.isSome }

/-- One fault if the number was refused or is out of range, and another if the integer is out of range. -/
def faultsOf (n : Numeral) (parsed : Option (Option Double)) : List Fault :=
  (match parsed with
    | some (some _) => []
    | some none => [⟨.numberOutOfRange, 0⟩]
    | none => [⟨.invalidNumber, 0⟩]) ++
    (if n.int?.any fun i => i < leastInt || greatestInt < i then [⟨.numberOutOfRange, 0⟩] else [])

/-- The number that a numeral stands for, and what is wrong with it, if it is taken for the number nearest to it. -/
def numeric (n : Numeral) : Numeric := n.numericOf (some n.double?)
def faults (n : Numeral) : List Fault := n.faultsOf (some n.double?)

theorem faults_eq_append (n : Numeral) : n.faults =
    (if n.double?.isNone then [⟨.numberOutOfRange, 0⟩] else []) ++
      (if n.int?.any fun i => i < leastInt || greatestInt < i then [⟨.numberOutOfRange, 0⟩] else []) := by
  unfold faults faultsOf
  cases n.double? <;> rfl

end Numeral

/-! ### Parsed numbers -/

/-- What parses the text of a number may refuse it. A number beyond the finite ones is none. -/
abbrev NumberParser := List Char → Option (Option Double)

/-- The number at the front of a text. The parser is given the longest numeral there, with a small letter for its
exponent. -/
def parseNumeric (parse : NumberParser) (text : List Char) : Reading Numeric :=
  let n := readNumeral text
  let parsed := parse n.text
  ⟨n.numericOf parsed, n.length, n.faultsOf parsed⟩

/-- A parser of numerals and of nothing else. -/
def parseNumeral : NumberParser := fun text =>
  if startsNumeral text = true ∧ (readNumeral text).length = text.length then some (readNumeral text).double?
  else none

def readNumeric (text : List Char) : Reading Numeric := parseNumeric parseNumeral text

theorem startsNumeral_of_isDigit {c : Char} (h : c.isDigit = true) (rest : List Char) :
    startsNumeral (c :: rest) = true := by
  unfold startsNumeral readSign
  split
  · rename_i e
    cases e
    exact absurd h (by decide)
  · rename_i e
    cases e
    exact absurd h (by decide)
  · unfold startsDigits
    split
    · rename_i e
      cases e
      exact absurd h (by decide)
    · exact h

/-- Where a numeral starts, it has digits. -/
theorem readNumeral_length_pos {text : List Char} (h : startsNumeral text = true) :
    0 < (readNumeral text).length := by
  unfold startsNumeral at h
  simp only [readNumeral, Numeral.length]
  generalize readSign text = s at *
  obtain ⟨sign, unsigned⟩ := s
  cases unsigned with
  | nil => simp [startsDigits, startsDigit] at h
  | cons c rest =>
    by_cases hc : c.isDigit
    · have hwhole : 0 < ((c :: rest).takeWhile Char.isDigit).length := by simp [hc]
      simp only []
      omega
    · have hpoint : c = '.' := by
        unfold startsDigits at h
        split at h
        · rename_i e
          cases e
          rfl
        · exact absurd h hc
      subst hpoint
      have hfraction : 0 < fractionLength (readFraction ('.' :: rest)) := by
        rw [startsDigits] at h
        simp only [readFraction, h, if_true, fractionLength]
        omega
      have hwhole : ('.' :: rest).takeWhile Char.isDigit = [] := by simp [hc]
      simp only [hwhole, List.length_nil, List.drop_zero]
      omega

end CssUrls.Lexical
