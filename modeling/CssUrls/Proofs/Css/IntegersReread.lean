import CssUrls.Proofs.Css.Spelling
import CssUrls.Proofs.Lexical.Numbers

/-! Integers written and read again.

An integer is written with the sign it had, except that zero has no minus sign (`numericText_eq`). It is read
as the same integer again, as long as nothing behind it is taken for an exponent
(`readNumeral_numericText`). Main statement: `tokenize_integer`. -/
namespace CssUrls

/-! ### Integers -/

namespace Lexical.Numeral

/-- The numeral of an integer. -/
def ofDigits (sign : Option Sign) (whole : List Char) : Numeral := ⟨sign, whole, none, none⟩

theorem text_ofDigits (sign : Option Sign) (whole : List Char) :
    (ofDigits sign whole).text = signText sign ++ whole := by
  simp only [text, ofDigits, fractionText, exponentText, List.append_nil]

/-- Only a numeral with neither fraction nor exponent is an integer, and it is brought into range. -/
theorem eq_ofDigits_of_int {n : Numeral} {i : Int} (h : n.numeric.int = some i) :
    n = ofDigits n.sign n.whole ∧
      i = max leastInt
        (min (if n.sign = some .minus then -(digitsValue n.whole : Int) else digitsValue n.whole)
          greatestInt) := by
  obtain ⟨sign, whole, fraction, exponent⟩ := n
  cases fraction with
  | some digits => contradiction
  | none =>
    cases exponent with
    | some e => contradiction
    | none =>
      refine ⟨rfl, (Option.some.inj h).symm.trans ?_⟩
      simp only [negative, beq_iff_eq]

/-- An integer is in range, and its sign is the one that was written. -/
theorem int_bounds {n : Numeral} {i : Int} (h : n.numeric.int = some i) :
    leastInt ≤ i ∧ i ≤ greatestInt ∧ if n.sign = some .minus then i ≤ 0 else 0 ≤ i := by
  have hleast : leastInt = -9223372036854775808 := rfl
  have hgreatest : greatestInt = 9223372036854775807 := rfl
  obtain ⟨-, hi⟩ := eq_ofDigits_of_int h
  split at hi
  · rw [if_pos ‹_›]
    omega
  · rw [if_neg ‹_›]
    omega

/-- A number has the sign of its numeral. -/
theorem numeric_value_negative (n : Numeral) : n.numeric.value.negative = n.negative := by
  show (n.double?.getD (Double.greatest n.negative)).negative = n.negative
  cases hvalue : n.double? with
  | none => rfl
  | some x =>
    rw [double?, Double.ofDecimal?] at hvalue
    split at hvalue
    · cases hvalue
      rfl
    · contradiction

/-- What digits are read as depends on their value alone. -/
theorem ofDigits_congr (sign : Option Sign) {a b : List Char} (h : digitsValue a = digitsValue b) :
    (ofDigits sign a).numeric = (ofDigits sign b).numeric ∧
      (ofDigits sign a).faults = (ofDigits sign b).faults := by
  have hdouble : (ofDigits sign a).double? = (ofDigits sign b).double? := by
    simp only [double?, decimal, ofDigits, Option.getD_none, List.append_nil, h]
    rfl
  have hint : (ofDigits sign a).int? = (ofDigits sign b).int? := by
    simp only [int?, ofDigits, h]
    rfl
  refine ⟨?_, ?_⟩
  · simp only [numeric, numericOf, hdouble, hint]
    rfl
  · simp only [faults_eq_append, hdouble, hint]

end Lexical.Numeral

/-! ### Integers as they are written -/

namespace Css
open Text Lexical Lexical.Numeral

/-- The sign that is written for an integer which had one. -/
def writtenSign (sign : Option Sign) (i : Int) : Option Sign := if i = 0 ∧ sign = some .minus then none else sign

theorem toList_toString_int (i : Int) :
    (toString i).toList = (if i < 0 then ['-'] else []) ++ Nat.toDigits 10 i.natAbs := by
  cases i with
  | ofNat k => exact String.toList_ofList
  | negSucc k =>
    show ("-" ++ (k + 1).repr).toList = _
    rw [String.toList_append, if_pos (Int.negSucc_lt_zero k)]
    exact congrArg (['-'] ++ ·) String.toList_ofList

/-- What an integer is written as, as a numeral. -/
def writtenNumeral (n : Numeral) (i : Int) : Numeral := ofDigits (writtenSign n.sign i) (Nat.toDigits 10 i.natAbs)

theorem writtenNumeral_wellFormed (n : Numeral) (i : Int) : (writtenNumeral n i).WellFormed where
  whole := isDigits_toDigits _
  fraction _ h := by contradiction
  exponent _ h := by contradiction

theorem plusText_numeric (n : Numeral) : plusText n.numeric = if n.sign = some .plus then ['+'] else [] := by
  rw [plusText, numeric_value_negative]
  show (if (n.sign.isSome && !n.negative) = true then ['+'] else []) = _
  rw [negative]
  rcases n.sign with _ | _ | _ <;> rfl

/-- **An integer is written with its sign**, unless that is the minus sign of zero. -/
theorem numericText_eq {n : Numeral} {i : Int} (h : n.numeric.int = some i) :
    numericText n.numeric = (writtenNumeral n i).text := by
  obtain ⟨-, -, hsign⟩ := int_bounds h
  rw [writtenNumeral, text_ofDigits, numericText, h, plusText_numeric, writtenSign]
  show _ ++ (toString i).toList = _
  rw [toList_toString_int]
  -- A plus sign is written for itself, a minus sign by the digits of an integer below zero.
  cases hn : n.sign with
  | none =>
    rw [hn, if_neg (by simp)] at hsign
    simp [hsign, signText]
  | some sign =>
    cases sign with
    | plus =>
      rw [hn, if_neg (by simp)] at hsign
      simp [hsign, signText]
    | minus =>
      rw [hn, if_pos rfl] at hsign
      by_cases hzero : i = 0
      · simp [hzero, signText]
      · have hneg : i < 0 := by omega
        simp [hzero, hneg, signText]

/-! ### Integers read again -/

section Reread
variable {n : Numeral} {i : Int} {rest : List Char}

/-- **What is written for an integer reads as it**, in front of what goes on with neither digits nor a
fraction. What would be an exponent becomes one. -/
theorem readNumeral_numericText (h : n.numeric.int = some i) (hrest : startsDigits rest = false) :
    readNumeral (numericText n.numeric ++ rest) = { writtenNumeral n i with exponent := readExponent rest } := by
  have hwritten := writtenNumeral_wellFormed n i
  rw [numericText_eq h, writtenNumeral, text_ofDigits, List.append_assoc]
  exact readNumeral_front _ hwritten.whole hwritten.fraction hrest

theorem writtenSign_eq_minus_iff (h : n.numeric.int = some i) :
    writtenSign n.sign i = some .minus ↔ i < 0 := by
  obtain ⟨-, -, hsign⟩ := int_bounds h
  rw [writtenSign]
  by_cases hminus : n.sign = some .minus
  · rw [if_pos hminus] at hsign
    by_cases hzero : i = 0
    · simp [hzero]
    · simp only [hzero, hminus, false_and, if_false, true_iff]
      omega
  · rw [if_neg hminus] at hsign
    simp [hminus, hsign]

/-- What is written is the same integer. -/
theorem int?_writtenNumeral (h : n.numeric.int = some i) : (writtenNumeral n i).int? = some i := by
  have hnegative : (writtenNumeral n i).negative = decide (i < 0) := by
    rw [Bool.eq_iff_iff, decide_eq_true_eq, ← writtenSign_eq_minus_iff h]
    exact beq_iff_eq
  show some (if (writtenNumeral n i).negative = true then -(digitsValue (Nat.toDigits 10 i.natAbs) : Int)
    else digitsValue (Nat.toDigits 10 i.natAbs)) = some i
  rw [digitsValue_toDigits, hnegative, Option.some.injEq]
  split <;> rename_i hneg <;> rw [decide_eq_true_eq] at hneg <;> omega

theorem writtenNumeral_numeric_int (h : n.numeric.int = some i) : (writtenNumeral n i).numeric.int = some i := by
  obtain ⟨hleast, hgreatest, -⟩ := int_bounds h
  show (writtenNumeral n i).int?.map (fun i => max leastInt (min i greatestInt)) = some i
  rw [int?_writtenNumeral h, Option.map_some, Int.min_eq_left hgreatest, Int.max_eq_right hleast]

/-- Digits in range are those of the integer. -/
theorem digitsValue_of_faults (h : n.numeric.int = some i) (hfaults : n.faults = []) :
    digitsValue n.whole = i.natAbs := by
  obtain ⟨hn, hi⟩ := eq_ofDigits_of_int h
  have hint : n.int? =
      some (if n.sign = some .minus then -(digitsValue n.whole : Int) else digitsValue n.whole) := by
    rw [hn]
    simp only [int?, isInteger, ofDigits, Option.isNone_none, Bool.and_self, if_true, negative, beq_iff_eq]
    rfl
  rw [faults_eq_append] at hfaults
  have hnone := (List.append_eq_nil_iff.mp hfaults).2
  rw [hint, Option.any_some, ite_eq_right_iff] at hnone
  have hrange := mt hnone (List.cons_ne_nil _ _)
  simp only [Bool.or_eq_true, decide_eq_true_eq, not_or] at hrange
  split at hrange <;> rename_i hsign <;> simp only [hsign, if_true, if_false] at hi <;> omega

/-- **An integer in range is written as what it is**, unless it is zero and has a minus sign. -/
theorem writtenNumeral_of_faults (h : n.numeric.int = some i) (hfaults : n.faults = [])
    (hzero : ¬ (i = 0 ∧ n.sign = some .minus)) :
    (writtenNumeral n i).numeric = n.numeric ∧ (writtenNumeral n i).faults = [] := by
  have hwhole : digitsValue (Nat.toDigits 10 i.natAbs) = digitsValue n.whole := by
    rw [digitsValue_toDigits, digitsValue_of_faults h hfaults]
  have hcongr := ofDigits_congr n.sign hwhole
  rw [← (eq_ofDigits_of_int h).1, hfaults] at hcongr
  rw [writtenNumeral, writtenSign, if_neg hzero]
  exact hcongr

theorem startsNumeral_numericText (h : n.numeric.int = some i) (rest : List Char) :
    startsNumeral (numericText n.numeric ++ rest) = true := by
  rw [numericText_eq h]
  exact (writtenNumeral_wellFormed n i).startsNumeral_append rest

theorem tokenize_numericText (h : n.numeric.int = some i) (rest : List Char) :
    let text := numericText n.numeric ++ rest
    (tokenize text).spans.map Span.token =
        (readNumber text).value :: (tokenize (text.drop (readNumber text).length)).spans.map Span.token ∧
      (tokenize text).faults = (readNumber text).faults ++
        (tokenize (text.drop (readNumber text).length)).faults.map (Fault.shift (readNumber text).length) := by
  intro text
  obtain ⟨hspans, hfaults⟩ := tokenize_of_startsNumeral (startsNumeral_numericText h rest)
  refine ⟨?_, hfaults⟩
  rw [hspans, List.map_cons, List.map_map]
  rfl

end Reread

/-! ### Numbers and percentages -/

/-- Zero as it is written without a sign. -/
def unsignedZero : Numeric := ⟨⟨false, 0, by decide⟩, some 0, false⟩

theorem text_writeToken_number (n : Numeric) : (writeToken (.number n)).text.toList = numericText n ++ [] := by
  show (writeNumeric n).text.toList = _
  rw [writeNumeric_eq, text_writeChars, String.toList_ofList, List.append_nil]

theorem text_writeToken_percentage (n : Numeric) :
    (writeToken (.percentage n)).text.toList = numericText n ++ ['%'] := by
  have hwrite : writeToken (.percentage n) = writeChars (numericText n ++ ['%']) := by
    rw [writeChars_append, ← writeNumeric_eq, ← writeChar_eq]
    rfl
  rw [hwrite, text_writeChars, String.toList_ofList]

/-- **A number or a percentage that is written as a numeral** is read as what the numeral stands for, and is
the only token. -/
theorem tokenize_numeralText {n : Numeric} {m : Numeral} (htext : numericText n = m.text) (hm : m.WellFormed)
    {make : Numeric → Token} (hmake : make = .number ∨ make = .percentage) :
    let written := (writeToken (make n)).text.toList
    (tokenize written).spans =
        [⟨make m.numeric, 0, written.length⟩, ⟨.endOfFile, written.length, written.length⟩] ∧
      (tokenize written).faults = m.faults := by
  rcases hmake with rfl | rfl
  · rw [text_writeToken_number, htext]
    apply tokenize_of_readNumber (hm.startsNumeral_append _)
    rw [hm.readNumber_text rfl rfl, List.append_nil]
    rfl
  · rw [text_writeToken_percentage, htext]
    apply tokenize_of_readNumber (hm.startsNumeral_append _)
    rw [hm.readNumber_text rfl rfl, List.length_append]
    exact Reading.andThen_plain ..

/-- What is written for an integer is read as what is written. -/
theorem tokenize_writeToken {n : Numeral} {i : Int} (h : n.numeric.int = some i) {make : Numeric → Token}
    (hmake : make = .number ∨ make = .percentage) :
    (tokenize (writeToken (make n.numeric)).text.toList).spans.map Span.token =
        [make (writtenNumeral n i).numeric, .endOfFile] ∧
      (tokenize (writeToken (make n.numeric)).text.toList).faults = (writtenNumeral n i).faults := by
  obtain ⟨hspans, hfaults⟩ := tokenize_numeralText (numericText_eq h) (writtenNumeral_wellFormed n i) hmake
  refine ⟨?_, hfaults⟩
  rw [hspans]
  rfl

/-- **An integer that was read in a text is read again where it is written.** Nothing is wrong with what is
written, and it is the same number or percentage, unless it is zero with a minus sign: that is written
without the sign. -/
theorem tokenize_integer {text : List Char} {span : Span} {n : Numeric} {i : Int} {make : Numeric → Token}
    (hmake : make = .number ∨ make = .percentage) (hspan : span ∈ (tokenize text).spans)
    (htoken : span.token = make n) (hint : n.int = some i)
    (hrange : ⟨.numberOutOfRange, span.start⟩ ∉ (tokenize text).faults) :
    let again := tokenize (writeToken span.token).text.toList
    again.faults = [] ∧
      (¬ (i = 0 ∧ n.value.negative = true) → again.spans.map Span.token = [span.token, .endOfFile]) ∧
      (i = 0 ∧ n.value.negative = true →
        again.spans.map Span.token = [make unsignedZero, .endOfFile] ∧ n.signed ≠ unsignedZero.signed) := by
  intro again
  have hnumeric : span.token.numeric? = some n := by
    rw [htoken]
    rcases hmake with rfl | rfl <;> rfl
  obtain ⟨source, -, -, rfl, hfaults⟩ := exists_readNumber hspan hnumeric
  have hminus :
      (readNumeral source).numeric.value.negative = true ↔ (readNumeral source).sign = some .minus := by
    rw [numeric_value_negative]
    exact beq_iff_eq
  obtain ⟨hspans, hagain⟩ := tokenize_writeToken hint hmake
  rw [← htoken] at hspans hagain
  rw [hminus]
  by_cases hzero : i = 0 ∧ (readNumeral source).sign = some .minus
  · obtain ⟨rfl, hsign⟩ := hzero
    have hwritten : writtenNumeral (readNumeral source) 0 = ofDigits none ['0'] := by
      rw [writtenNumeral, writtenSign, if_pos ⟨rfl, hsign⟩]
      rfl
    have hread : (ofDigits none ['0']).numeric = unsignedZero ∧ (ofDigits none ['0']).faults = [] := by
      decide +kernel
    have hsigned : (readNumeral source).numeric.signed ≠ unsignedZero.signed := by
      show (readNumeral source).sign.isSome ≠ false
      rw [hsign]
      decide
    rw [hwritten, hread.1] at hspans
    rw [hwritten, hread.2] at hagain
    exact ⟨hagain, fun h => absurd ⟨rfl, hsign⟩ h, fun _ => ⟨hspans, hsigned⟩⟩
  · obtain ⟨hsame, hnone⟩ := writtenNumeral_of_faults hint (hfaults hrange) hzero
    rw [hsame, ← htoken] at hspans
    exact ⟨hagain.trans hnone, fun _ => hspans, fun h => absurd h hzero⟩

/-- Zeros in front of an integer are not written again, and its sign is. -/
theorem tokenize_integer_padded :
    let text := "a:-007%".toList
    let n := (readNumeral "-007".toList).numeric
    let span : Span := ⟨.percentage n, 2, 7⟩
    span ∈ (tokenize text).spans ∧ n.int = some (-7) ∧
      ⟨.numberOutOfRange, span.start⟩ ∉ (tokenize text).faults ∧
      (tokenize (writeToken span.token).text.toList).spans.map Span.token = [span.token, .endOfFile] := by
  intro text n span
  have hspan : span ∈ (tokenize text).spans := by decide +kernel
  have hint : n.int = some (-7) := by decide +kernel
  have hrange : ⟨.numberOutOfRange, span.start⟩ ∉ (tokenize text).faults := by decide +kernel
  obtain ⟨-, hsame, -⟩ := tokenize_integer (.inr rfl) hspan rfl hint hrange
  exact ⟨hspan, hint, hrange, hsame (by decide)⟩

/-- Zero with a minus sign is read again as zero without one. -/
theorem tokenize_integer_minusZero :
    let text := "-0".toList
    let n := (readNumeral text).numeric
    let span : Span := ⟨.number n, 0, 2⟩
    span ∈ (tokenize text).spans ∧ n.int = some 0 ∧ (tokenize text).faults = [] ∧
      (writeToken span.token).text = "0" ∧
      (tokenize (writeToken span.token).text.toList).spans.map Span.token = [.number unsignedZero, .endOfFile] ∧
      n.signed ≠ unsignedZero.signed := by
  decide +kernel

end Css

end CssUrls
