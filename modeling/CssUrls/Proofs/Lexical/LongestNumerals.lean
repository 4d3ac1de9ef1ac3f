import CssUrls.Proofs.Lexical.SpelledNumerals
import CssUrls.Proofs.Number.Overflow

/-! The longest numeral.

The number at the front of a text is that of the longest numeral there, and it is the same for every parser that takes
numerals for the numbers nearest to them. Main statement: `readNumeric_longest`. -/
namespace CssUrls.Lexical
open Text

variable {p : List Char} {n : Numeral}

/-! ### What numerals stand for -/

namespace Numeral

/-- The integer that the sign and the digits in front of the point are written for. -/
def integer (n : Numeral) : Int := (if n.sign = some .minus then -1 else 1) * Nat.ofDigitChars 10 n.whole 0

/-- The number is written with neither fraction nor exponent. -/
def Plain (n : Numeral) : Prop := n.fraction = none ∧ n.exponent = none

instance (n : Numeral) : Decidable n.Plain := inferInstanceAs (Decidable (_ ∧ _))

theorem int?_eq (n : Numeral) : n.int? = if n.Plain then some n.integer else none := by
  have hplain : n.isInteger = true ↔ n.Plain := by
    rw [isInteger, Bool.and_eq_true, Option.isNone_iff_eq_none, Option.isNone_iff_eq_none]
    rfl
  have hinteger : (if n.negative = true then -(digitsValue n.whole : Int) else digitsValue n.whole) = n.integer := by
    have hnegative : n.negative = true ↔ n.sign = some .minus := beq_iff_eq
    simp only [integer, hnegative, digitsValue_eq_ofDigitChars]
    split
    · rw [Int.neg_one_mul]
    · rw [Int.one_mul]
  simp only [int?, hplain, hinteger]

theorem numeric_int (n : Numeral) :
    n.numeric.int = if n.Plain then some (max (-2 ^ 63) (min n.integer (2 ^ 63 - 1))) else none := by
  show n.int?.map (fun i => max leastInt (min i greatestInt)) = _
  rw [int?_eq]
  split <;> rfl

theorem faults_eq (n : Numeral) : n.faults =
    (if (2 ^ 1024 - 2 ^ 970 : ℚ) ≤ n.decimal.1 * 10 ^ n.decimal.2 then [⟨.numberOutOfRange, 0⟩] else []) ++
    (if n.Plain ∧ (n.integer < -2 ^ 63 ∨ 2 ^ 63 - 1 < n.integer) then [⟨.numberOutOfRange, 0⟩] else []) := by
  have hvalue : n.double?.isNone = true ↔ (2 ^ 1024 - 2 ^ 970 : ℚ) ≤ n.decimal.1 * 10 ^ n.decimal.2 := by
    rw [Option.isNone_iff_eq_none, double?, Double.ofDecimal?_eq_none_iff]
  have hinteger : (n.int?.any fun i => i < leastInt || greatestInt < i) = true ↔
      n.Plain ∧ (n.integer < -2 ^ 63 ∨ 2 ^ 63 - 1 < n.integer) := by
    rw [int?_eq]
    split
    · rename_i hplain
      rw [Option.any_some, Bool.or_eq_true, decide_eq_true_eq, decide_eq_true_eq, and_iff_right hplain]
      rfl
    · rename_i hplain
      exact iff_of_false Bool.false_ne_true fun h => hplain h.1
  simp only [faults_eq_append, hvalue, hinteger]

end Numeral

/-! ### The longest numeral -/

/-- A number is read as the longest numeral that is written at the front of a text, and its parts are those of that
numeral. Its integer is there if there is neither fraction nor exponent, and is brought into range. There is one fault
for a value beyond the finite ones, where the exponent counts as far as `Numeral.exponentValue` says, one for an
integer out of range, and no other. -/
structure TakesLongest (text : List Char) (r : Reading Numeric) (n : Numeral) (p : List Char) : Prop where
  front : p <+: text
  spells : SpellsNumeral n p
  longest : ∀ m q, q <+: text → SpellsNumeral m q → q.length ≤ p.length
  unique : ∀ m, SpellsNumeral m p → m = n
  length : r.length = p.length
  signed : r.value.signed = true ↔ ∃ rest, p = '+' :: rest ∨ p = '-' :: rest
  int : r.value.int = if n.Plain then some (max (-2 ^ 63) (min n.integer (2 ^ 63 - 1))) else none
  value : r.value.value = n.double?.getD (Double.greatest n.negative)
  faults : r.faults =
    (if (2 ^ 1024 - 2 ^ 970 : ℚ) ≤ n.decimal.1 * 10 ^ n.decimal.2 then [⟨.numberOutOfRange, 0⟩] else []) ++
    (if n.Plain ∧ (n.integer < -2 ^ 63 ∨ 2 ^ 63 - 1 < n.integer) then [⟨.numberOutOfRange, 0⟩] else [])

theorem SpellsNumeral.sign_iff (h : SpellsNumeral n p) :
    n.sign.isSome = true ↔ ∃ rest, p = '+' :: rest ∨ p = '-' :: rest := by
  cases h with
  | @mk sign whole fraction exponent written hwhole hfraction hexponent =>
    match sign with
    | some .plus => exact iff_of_true rfl ⟨_, .inl rfl⟩
    | some .minus => exact iff_of_true rfl ⟨_, .inr rfl⟩
    | none =>
      refine iff_of_false Bool.false_ne_true ?_
      rintro ⟨rest, hp⟩
      have hne : signText none ++ (whole ++ (fractionText fraction ++ written)) ≠ [] := by
        rcases hp with hp | hp <;> exact hp ▸ List.cons_ne_nil _ _
      have hsign := readSign_of_spells hwhole hexponent hne []
      rw [List.append_nil] at hsign
      rcases hp with hp | hp <;>
        · rw [hp] at hsign
          exact absurd (congrArg Prod.fst hsign) (Option.some_ne_none _)

/-- **The number at the front of a text is the longest numeral there.** A parser that takes numerals for the numbers
nearest to them refuses none that is read. -/
theorem readNumeric_longest {parse : NumberParser} (hparse : ParsesNumerals parse) {text : List Char}
    (hstarts : startsNumeral text = true) :
    parseNumeric parse text = readNumeric text ∧ ∃ n p, TakesLongest text (readNumeric text) n p := by
  obtain ⟨p, hp, hspells⟩ := exists_spellsNumeral text
  have hcovers (m : Numeral) (q : List Char) (hq : q <+: text) (hm : SpellsNumeral m q) :
      Covers Numeral.length (readNumeral text) m := by
    obtain ⟨rest, rfl⟩ := hq
    exact hm.covers rest hstarts
  rw [readNumeric_eq hstarts]
  refine ⟨parseNumeric_eq hparse hstarts, readNumeral text, p, hp, hspells, ?_, ?_, hspells.length_eq.symm,
    hspells.sign_iff, ?_, rfl, ?_⟩
  · intro m q hq hm
    rw [hm.length_eq, hspells.length_eq]
    exact (hcovers m q hq hm).le
  · intro m hm
    refine ((hcovers m p hp hm).eq ?_).symm
    rw [← hspells.length_eq, hm.length_eq]
  · exact (readNumeral text).numeric_int
  · exact (readNumeral text).faults_eq

/-- Where an exponent breaks off there is none, and an integer below the least one is that. -/
theorem readNumeric_longest_least :
    ParsesNumerals parseNumeral ∧ startsNumeral "-9223372036854775809e+".toList = true ∧
      parseNumeric parseNumeral "-9223372036854775809e+".toList = readNumeric "-9223372036854775809e+".toList ∧
      ∃ n p, TakesLongest "-9223372036854775809e+".toList (readNumeric "-9223372036854775809e+".toList) n p :=
  ⟨parsesNumerals_parseNumeral, by decide, readNumeric_longest parsesNumerals_parseNumeral (by decide)⟩

end CssUrls.Lexical
