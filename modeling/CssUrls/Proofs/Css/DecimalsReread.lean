import CssUrls.Proofs.Css.IntegersReread

/-! Decimals written and read again.

A number that was read as no integer is written as a numeral with a fraction or an exponent
(`numericText_eq_decimal`), so it is read as no integer again. The exception is a number that becomes whole
when its digits are rounded (`LosesPoint`): a decimal place is added only to what was whole before. Main
statement: `tokenize_decimal`. -/
namespace CssUrls

/-! ### Layouts as numerals -/

namespace Layout
open Lexical

/-- The digits of the places after the point. -/
def fractionDigits (l : Layout) : List Char :=
  (padded l.places (l.coefficient % Nat.pow 10 l.places)).toList

/-- A layout as a numeral with a sign. -/
def numeral (sign : Option Sign) (l : Layout) : Numeral where
  sign := sign
  whole := Nat.toDigits 10 (l.coefficient / Nat.pow 10 l.places)
  fraction := if l.places = 0 then none else some l.fractionDigits
  exponent := l.exponent.map fun e => (if e < 0 then some .minus else none, Nat.toDigits 10 e.natAbs)

theorem toList_padded (width n : Nat) :
    (padded width n).toList = List.replicate (width - (toString n).length) '0' ++ Nat.toDigits 10 n := by
  rw [padded, String.toList_append, String.toList_ofList]
  exact congrArg _ String.toList_ofList

theorem isDigits_fractionDigits (l : Layout) : IsDigits l.fractionDigits := by
  have hdigits := isDigits_toDigits (l.coefficient % Nat.pow 10 l.places)
  rw [fractionDigits, toList_padded]
  refine ⟨List.append_ne_nil_of_right_ne_nil _ hdigits.ne_nil, fun c hc => ?_⟩
  rcases List.mem_append.mp hc with hzero | hdigit
  · rw [List.eq_of_mem_replicate hzero]
    rfl
  · exact hdigits.isDigit c hdigit

theorem numeral_wellFormed (sign : Option Sign) (l : Layout) : (l.numeral sign).WellFormed where
  whole := isDigits_toDigits _
  fraction digits h := by
    obtain ⟨-, hdigits⟩ := Option.ite_none_left_eq_some.mp h
    rw [← Option.some.inj hdigits]
    exact isDigits_fractionDigits l
  exponent e h := by
    obtain ⟨power, -, hpower⟩ := Option.map_eq_some_iff.mp h
    rw [← hpower]
    exact isDigits_toDigits _

/-- **A layout is written as its numeral.** -/
theorem text_numeral (sign : Option Sign) (l : Layout) :
    (l.numeral sign).text = signText sign ++ (l.text false).toList := by
  have hwhole : (toString (l.coefficient / Nat.pow 10 l.places)).toList = (l.numeral sign).whole :=
    String.toList_ofList
  have hfraction :
      (if l.places = 0 then "" else "." ++ padded l.places (l.coefficient % Nat.pow 10 l.places)).toList =
        fractionText (l.numeral sign).fraction := by
    show _ = fractionText (if l.places = 0 then none else some l.fractionDigits)
    split
    · rfl
    · rw [String.toList_append]
      rfl
  have hpower (e : Int) : ("e" ++ toString e).toList =
      exponentText (some (if e < 0 then some .minus else none, Nat.toDigits 10 e.natAbs)) := by
    rw [String.toList_append, Css.toList_toString_int]
    by_cases hneg : e < 0
    · rw [if_pos hneg, if_pos hneg]
      rfl
    · rw [if_neg hneg, if_neg hneg]
      rfl
  rw [Numeral.text, Layout.text, String.toList_append, String.toList_append, hwhole, hfraction, List.append_assoc]
  show signText sign ++ (_ ++ (_ ++ exponentText (l.exponent.map _))) = _
  cases l.exponent with
  | none => rfl
  | some e => exact congrArg (fun power => signText sign ++ (_ ++ (_ ++ power))) (hpower e).symm

/-! ### Whole layouts -/

/-- No places after the point are left just where the coefficient is divided by all of them. -/
theorem trimmed_eq_zero_iff (coefficient places : Nat) :
    (trimmed coefficient places).2 = 0 ↔ Nat.pow 10 places ∣ coefficient := by
  induction places generalizing coefficient with
  | zero => simp [trimmed]
  | succ places ih =>
    have hpow : Nat.pow 10 (places + 1) = Nat.pow 10 places * 10 := rfl
    rw [trimmed, hpow]
    split
    · rename_i hzero
      obtain ⟨tens, rfl⟩ := Nat.dvd_of_mod_eq_zero hzero
      rw [ih, Nat.mul_div_cancel_left _ (by decide), Nat.mul_comm 10, Nat.mul_dvd_mul_iff_right (by decide)]
    · rename_i hzero
      refine iff_of_false (Nat.succ_ne_zero _) fun h => hzero ?_
      exact Nat.mod_eq_zero_of_dvd (Nat.dvd_trans (Nat.dvd_mul_left ..) h)

theorem trim_places_eq_zero_iff (l : Layout) : l.trim.places = 0 ↔ Nat.pow 10 l.places ∣ l.coefficient :=
  trimmed_eq_zero_iff ..

theorem isInteger_numeral_iff (sign : Option Sign) (l : Layout) :
    (l.numeral sign).isInteger = true ↔ l.places = 0 ∧ l.exponent.isNone = true := by
  have hfraction : (l.numeral sign).fraction.isNone = true ↔ l.places = 0 := by
    show (if l.places = 0 then none else some l.fractionDigits).isNone = true ↔ _
    split
    · exact iff_of_true rfl ‹_›
    · exact iff_of_false Bool.false_ne_true ‹_›
  rw [Numeral.isInteger, Bool.and_eq_true, hfraction]
  show _ ∧ (l.exponent.map _).isNone = true ↔ _
  rw [Option.isNone_map]

end Layout

/-! ### Decimals as they are written -/

namespace Css
open Text Lexical Lexical.Numeral

/-- The number is not whole, but its rounded digits are those of a whole number, with the point in place. -/
def LosesPoint (x : Double) : Prop :=
  let rounded := (decimalStyle.place (Decimal.shortest x.rank)).rounded decimalStyle.significant
  x.isIntegral = false ∧ rounded.exponent.isNone = true ∧ Nat.pow 10 rounded.places ∣ rounded.coefficient

instance (x : Double) : Decidable (LosesPoint x) := inferInstanceAs (Decidable (_ ∧ _ ∧ _))

/-- What a number is written as that is no integer, as a numeral. -/
def decimalNumeral (sign : Option Sign) (x : Double) : Numeral :=
  if x.isZero then ⟨sign, ['0'], some ['0'], none⟩
  else
    let m := (decimalStyle.layout (Decimal.shortest x.rank)).numeral sign
    if m.isInteger ∧ x.isIntegral then { m with fraction := some ['0'] } else m

theorem isDigits_zero : IsDigits ['0'] := isDigits_toDigits 0

theorem decimalNumeral_wellFormed (sign : Option Sign) (x : Double) : (decimalNumeral sign x).WellFormed := by
  have hlayout := Layout.numeral_wellFormed sign (decimalStyle.layout (Decimal.shortest x.rank))
  have hzero : ∀ digits ∈ some ['0'], IsDigits digits := by
    intro digits h
    cases h
    exact isDigits_zero
  unfold decimalNumeral
  split
  · exact ⟨isDigits_zero, hzero, fun _ h => by contradiction⟩
  · dsimp only
    split
    · exact ⟨hlayout.whole, hzero, hlayout.exponent⟩
    · exact hlayout

theorem decimalNumeral_sign (sign : Option Sign) (x : Double) : (decimalNumeral sign x).sign = sign := by
  unfold decimalNumeral
  split
  · rfl
  · dsimp only
    split <;> rfl

/-- A decimal place behind an integer is a fraction of it. -/
theorem text_of_isInteger {m : Numeral} (h : m.isInteger = true) :
    { m with fraction := some ['0'] }.text = m.text ++ ".0".toList := by
  obtain ⟨sign, whole, fraction, exponent⟩ := m
  rw [isInteger, Bool.and_eq_true, Option.isNone_iff_eq_none, Option.isNone_iff_eq_none] at h
  obtain ⟨rfl, rfl⟩ := h
  simp only [Numeral.text, fractionText, exponentText, List.append_nil, List.append_assoc]
  rfl

/-- **A magnitude is written as its numeral.** -/
theorem text_decimalNumeral (sign : Option Sign) (x : Double) :
    (decimalNumeral sign x).text = signText sign ++ (decimalStyle.magnitude x).toList := by
  by_cases hzero : x.isZero = true
  · rw [decimalNumeral, DecimalStyle.magnitude, if_pos hzero, if_pos hzero]
    rfl
  · rw [decimalNumeral, DecimalStyle.magnitude, if_neg hzero, if_neg hzero]
    generalize decimalStyle.layout (Decimal.shortest x.rank) = l
    have hplace : ((l.numeral sign).isInteger = true ∧ x.isIntegral = true) ↔
        (l.places = 0 ∧ l.exponent.isNone = true ∧ x.isIntegral = true) := by
      rw [Layout.isInteger_numeral_iff, and_assoc]
    by_cases hwhole : (l.numeral sign).isInteger = true ∧ x.isIntegral = true
    · simp only [if_pos hwhole, if_pos (hplace.mp hwhole)]
      rw [text_of_isInteger hwhole.1, Layout.text_numeral, String.toList_append, List.append_assoc]
      rfl
    · simp only [if_neg hwhole, if_neg (mt hplace.mpr hwhole)]
      exact Layout.text_numeral sign l

/-- **A number that was read as no integer is written with its sign.** -/
theorem numericText_eq_decimal {n : Numeral} (h : n.numeric.int = none) :
    numericText n.numeric = (decimalNumeral n.sign n.numeric.value).text := by
  rw [numericText, h, plusText_numeric, text_decimalNumeral]
  show _ ++ (decimalStyle.text n.numeric.value).toList = _
  rw [DecimalStyle.text, numeric_value_negative, negative]
  rcases n.sign with _ | _ | _
  · rfl
  · rfl
  · show [] ++ ("-" ++ _).toList = _
    rw [String.toList_append]
    rfl

/-! ### Decimals read again -/

theorem isIntegral_of_isZero {x : Double} (h : x.isZero = true) : x.isIntegral = true := by
  rw [Double.isZero, beq_iff_eq] at h
  simp only [Double.isIntegral, h, Double.units, Nat.zero_sub, Nat.zero_mul, Nat.zero_mod, beq_self_eq_true]

theorem numeric_int_eq_none_iff (n : Numeral) : n.numeric.int = none ↔ n.isInteger = false := by
  show n.int?.map _ = none ↔ _
  rw [Option.map_eq_none_iff, int?]
  cases n.isInteger with
  | false => exact iff_of_true rfl rfl
  | true => exact iff_of_false (Option.some_ne_none _) Bool.noConfusion

/-- **A number is written as an integer just where it loses its point.** -/
theorem isInteger_decimalNumeral_iff (sign : Option Sign) (x : Double) :
    (decimalNumeral sign x).isInteger = true ↔ LosesPoint x := by
  by_cases hzero : x.isZero = true
  · rw [decimalNumeral, if_pos hzero]
    refine iff_of_false Bool.false_ne_true fun h => ?_
    rw [LosesPoint, isIntegral_of_isZero hzero] at h
    exact Bool.noConfusion h.1
  · have hlayout : ((decimalStyle.layout (Decimal.shortest x.rank)).numeral sign).isInteger = true ↔
        let rounded := (decimalStyle.place (Decimal.shortest x.rank)).rounded decimalStyle.significant
        rounded.exponent.isNone = true ∧ Nat.pow 10 rounded.places ∣ rounded.coefficient := by
      rw [Layout.isInteger_numeral_iff, DecimalStyle.layout, Layout.trim_places_eq_zero_iff, and_comm]
      rfl
    rw [decimalNumeral, if_neg hzero, LosesPoint, ← hlayout]
    generalize (decimalStyle.layout (Decimal.shortest x.rank)).numeral sign = m
    -- A whole number gets its decimal place here, so an integer that is left was not whole.
    by_cases hwhole : m.isInteger = true ∧ x.isIntegral = true
    · simp only [if_pos hwhole]
      refine iff_of_false Bool.false_ne_true fun h => ?_
      rw [hwhole.2] at h
      exact Bool.noConfusion h.1
    · simp only [if_neg hwhole]
      constructor
      · exact fun hinteger => ⟨Bool.eq_false_iff.mpr fun hintegral => hwhole ⟨hinteger, hintegral⟩, hinteger⟩
      · exact And.right

/-- **A number or a percentage that was read as no integer is read again where it is written**, with its sign.
It is no integer again unless it is rounded to a whole number: the decimal place that would make the difference
is not written then. -/
theorem tokenize_decimal {text : List Char} {span : Span} {n : Numeric} {make : Numeric → Token}
    (hmake : make = .number ∨ make = .percentage) (hspan : span ∈ (tokenize text).spans)
    (htoken : span.token = make n) (hint : n.int = none) :
    let written := (writeToken span.token).text.toList
    ∃ m : Numeric,
      (tokenize written).spans = [⟨make m, 0, written.length⟩, ⟨.endOfFile, written.length, written.length⟩] ∧
        m.signed = n.signed ∧ m.value.negative = n.value.negative ∧ (m.int = none ↔ ¬ LosesPoint n.value) := by
  intro written
  have hnumeric : span.token.numeric? = some n := by
    rw [htoken]
    rcases hmake with rfl | rfl <;> rfl
  obtain ⟨source, -, -, rfl, -⟩ := exists_readNumber hspan hnumeric
  have hwritten := tokenize_numeralText (numericText_eq_decimal hint) (decimalNumeral_wellFormed _ _) hmake
  rw [← htoken] at hwritten
  refine ⟨_, hwritten.1, ?_, ?_, ?_⟩
  · show (decimalNumeral _ _).sign.isSome = _
    rw [decimalNumeral_sign]
    rfl
  · rw [numeric_value_negative, numeric_value_negative, negative, negative, decimalNumeral_sign]
  · rw [numeric_int_eq_none_iff, ← isInteger_decimalNumeral_iff, Bool.not_eq_true]

/-- A number that loses its last digits keeps its point, its sign and what makes it a percentage. -/
theorem tokenize_decimal_rounded :
    let text := "a:-.30000000000000004%".toList
    let n := (readNumeral "-.30000000000000004".toList).numeric
    let span : Span := ⟨.percentage n, 2, 22⟩
    span ∈ (tokenize text).spans ∧ n.int = none ∧ ¬ LosesPoint n.value ∧
      (writeToken span.token).text = "-0.3%" ∧
      ∃ m : Numeric, (tokenize "-0.3%".toList).spans = [⟨.percentage m, 0, 5⟩, ⟨.endOfFile, 5, 5⟩] ∧
        m.int = none ∧ m.signed = true := by
  intro text n span
  have hspan : span ∈ (tokenize text).spans := by decide +kernel
  have hint : n.int = none := by decide +kernel
  have hkept : ¬ LosesPoint n.value := by decide +kernel
  have hwritten : (writeToken span.token).text = "-0.3%" := by decide +kernel
  obtain ⟨m, hspans, hsigned, -, hnone⟩ := tokenize_decimal (.inr rfl) hspan rfl hint
  rw [hwritten] at hspans
  exact ⟨hspan, hint, hkept, hwritten, m, hspans, hnone.mpr hkept, hsigned⟩

/-- A number just below a whole one is rounded to it, and read again as an integer. -/
theorem tokenize_decimal_integer :
    let text := "99.99999999999999".toList
    let n := (readNumeral text).numeric
    let span : Span := ⟨.number n, 0, 17⟩
    let again := (readNumeral "100".toList).numeric
    span ∈ (tokenize text).spans ∧ n.int = none ∧ LosesPoint n.value ∧ (writeToken span.token).text = "100" ∧
      (tokenize (writeToken span.token).text.toList).spans = [⟨.number again, 0, 3⟩, ⟨.endOfFile, 3, 3⟩] ∧
      again.int = some 100 := by
  decide +kernel

end Css

end CssUrls
