import CssUrls.Proofs.Lexical.Lookahead

/-! Numerals as they are written.

A numeral with digits wherever it has to have some is written as its parts one after another
(`Numeral.text`). It is read as itself, in front of what goes on with neither digits, a fraction nor an
exponent. Main statement: `Numeral.WellFormed.readNumeral_text`. -/
namespace CssUrls.Lexical
open Text

/-! ### Digits -/

/-- Digits, and at least one. -/
structure IsDigits (digits : List Char) : Prop where
  ne_nil : digits ≠ []
  isDigit : ∀ c ∈ digits, c.isDigit = true

theorem isDigits_toDigits (k : Nat) : IsDigits (Nat.toDigits 10 k) where
  ne_nil := Nat.toDigits_ne_nil
  isDigit _ hc := Nat.isDigit_of_mem_toDigits (by decide) (by decide) hc

theorem Numeral.digitsValue_eq_ofDigitChars (digits : List Char) :
    digitsValue digits = Nat.ofDigitChars 10 digits 0 := by
  have hstep : (fun (n : Nat) (c : Char) => n * 10 + (c.toNat - '0'.toNat)) =
      fun n c => 10 * n + (c.toNat - '0'.toNat) := by
    funext n c
    rw [Nat.mul_comm]
  rw [digitsValue, hstep, Nat.ofDigitChars]

theorem Numeral.digitsValue_toDigits (n : Nat) : digitsValue (Nat.toDigits 10 n) = n := by
  rw [digitsValue_eq_ofDigitChars, Nat.ofDigitChars_ten_toDigits]

/-- Digits end where no digit follows. -/
theorem takeWhile_isDigit_append {digits rest : List Char} (h : ∀ c ∈ digits, c.isDigit = true)
    (hrest : startsDigit rest = false) : (digits ++ rest).takeWhile Char.isDigit = digits := by
  have hstop : rest.takeWhile Char.isDigit = [] := List.length_eq_zero_iff.mp (countOf_eq_zero hrest)
  rw [List.takeWhile_append_of_pos h, hstop, List.append_nil]

namespace IsDigits
variable {digits rest : List Char}

theorem startsDigit_append (h : IsDigits digits) (rest : List Char) : startsDigit (digits ++ rest) = true := by
  obtain ⟨c, more, rfl⟩ := List.exists_cons_of_ne_nil h.ne_nil
  exact h.isDigit c (List.mem_cons_self ..)

theorem startsDigits_append (h : IsDigits digits) (rest : List Char) : startsDigits (digits ++ rest) = true := by
  obtain ⟨c, more, rfl⟩ := List.exists_cons_of_ne_nil h.ne_nil
  have hdigit := h.isDigit c (List.mem_cons_self ..)
  have hpoint : c ≠ '.' := ne_of_inClass hdigit rfl
  rw [List.cons_append, startsDigits_plain hpoint]
  exact hdigit

theorem takeWhile_append (h : IsDigits digits) (hrest : startsDigit rest = false) :
    (digits ++ rest).takeWhile Char.isDigit = digits :=
  takeWhile_isDigit_append h.isDigit hrest

end IsDigits

theorem startsDigit_of_startsDigits {text : List Char} (h : startsDigits text = false) :
    startsDigit text = false := by
  cases text with
  | nil => rfl
  | cons c rest =>
    by_cases hpoint : c = '.'
    · subst hpoint
      rfl
    · rwa [startsDigits_plain hpoint] at h

/-! ### Parts of a numeral -/

theorem signText_length (sign : Option Sign) : (signText sign).length = signLength sign := by
  match sign with
  | none => rfl
  | some .plus => rfl
  | some .minus => rfl

theorem fractionText_length (fraction : Option (List Char)) :
    (fractionText fraction).length = fractionLength fraction := by
  cases fraction with
  | none => rfl
  | some digits => exact Nat.add_comm ..

theorem exponentText_length (exponent : Option (Option Sign × List Char)) :
    (exponentText exponent).length = exponentLength exponent := by
  cases exponent with
  | none => rfl
  | some e =>
    rw [exponentText, exponentLength, List.length_cons, List.length_append, signText_length]
    omega

theorem readSign_signText (sign : Option Sign) {text : List Char} (h : startsDigit text = true) :
    readSign (signText sign ++ text) = (sign, text) := by
  match sign with
  | none =>
    cases text with
    | nil => contradiction
    | cons c rest =>
      have hdigit : c.isDigit = true := h
      exact readSign_plain (ne_of_inClass hdigit rfl) (ne_of_inClass hdigit rfl) rest
  | some .plus => rfl
  | some .minus => rfl

theorem readFraction_of_startsDigits {text : List Char} (h : startsDigits text = false) :
    readFraction text = none := by
  cases text with
  | nil => rfl
  | cons c rest =>
    by_cases hpoint : c = '.'
    · subst hpoint
      exact if_neg (Bool.eq_false_iff.mp h)
    · exact readFraction_plain hpoint rest

section Parts
variable {rest : List Char}

theorem startsDigit_fractionText (fraction : Option (List Char)) (hrest : startsDigits rest = false) :
    startsDigit (fractionText fraction ++ rest) = false := by
  cases fraction with
  | none => exact startsDigit_of_startsDigits hrest
  | some digits => rfl

theorem startsDigits_exponentText (exponent : Option (Option Sign × List Char))
    (hrest : startsDigits rest = false) : startsDigits (exponentText exponent ++ rest) = false := by
  cases exponent with
  | none => exact hrest
  | some e => rfl

theorem readFraction_fractionText {fraction : Option (List Char)} (h : ∀ digits ∈ fraction, IsDigits digits)
    (hrest : startsDigits rest = false) : readFraction (fractionText fraction ++ rest) = fraction := by
  cases fraction with
  | none => exact readFraction_of_startsDigits hrest
  | some digits =>
    have hdigits := h digits rfl
    show (if startsDigit (digits ++ rest) then some ((digits ++ rest).takeWhile Char.isDigit) else none) = _
    rw [hdigits.startsDigit_append, hdigits.takeWhile_append (startsDigit_of_startsDigits hrest), if_pos rfl]

theorem readExponent_exponentText {exponent : Option (Option Sign × List Char)}
    (h : ∀ e ∈ exponent, IsDigits e.2) (hrest : startsDigit rest = false) (hnone : readExponent rest = none) :
    readExponent (exponentText exponent ++ rest) = exponent := by
  match exponent with
  | none => exact hnone
  | some (sign, digits) =>
    have hdigits : IsDigits digits := h _ rfl
    show readExponent ('e' :: (signText sign ++ digits ++ rest)) = _
    rw [readExponent_cons, List.append_assoc, readSign_signText _ (hdigits.startsDigit_append rest),
      hdigits.startsDigit_append, hdigits.takeWhile_append hrest]
    rfl

/-- **A sign, digits and a fraction are read as they are**, in front of what goes on with neither digits nor
a fraction. -/
theorem readNumeral_front (sign : Option Sign) {whole : List Char} {fraction : Option (List Char)}
    (hwhole : IsDigits whole) (hfraction : ∀ digits ∈ fraction, IsDigits digits)
    (hrest : startsDigits rest = false) :
    readNumeral (signText sign ++ (whole ++ (fractionText fraction ++ rest))) =
      ⟨sign, whole, fraction, readExponent rest⟩ := by
  have hbehind : (fractionText fraction ++ rest).drop (fractionLength fraction) = rest := by
    rw [← fractionText_length, List.drop_left]
  simp only [readNumeral, readSign_signText sign (hwhole.startsDigit_append _),
    hwhole.takeWhile_append (startsDigit_fractionText fraction hrest), List.drop_left,
    readFraction_fractionText hfraction hrest, hbehind]

end Parts

/-! ### Whole numerals -/

namespace Numeral

/-- There are digits in front of the point, and in each part that is there. -/
structure WellFormed (n : Numeral) : Prop where
  whole : IsDigits n.whole
  fraction : ∀ digits ∈ n.fraction, IsDigits digits
  exponent : ∀ e ∈ n.exponent, IsDigits e.2

theorem text_length (n : Numeral) : n.text.length = n.length := by
  simp only [text, length, List.length_append, signText_length, fractionText_length, exponentText_length,
    Nat.add_assoc]

variable {n : Numeral} {rest : List Char}

theorem WellFormed.startsNumeral_append (h : n.WellFormed) (rest : List Char) :
    startsNumeral (n.text ++ rest) = true := by
  rw [text, List.append_assoc, List.append_assoc, startsNumeral,
    readSign_signText n.sign (h.whole.startsDigit_append _)]
  exact h.whole.startsDigits_append _

/-- **What is written for a numeral reads as it**, in front of what goes on with neither digits, a fraction nor
an exponent. -/
theorem WellFormed.readNumeral_text (h : n.WellFormed) (hrest : startsDigits rest = false)
    (hexponent : readExponent rest = none) : readNumeral (n.text ++ rest) = n := by
  rw [text, List.append_assoc, List.append_assoc, List.append_assoc,
    readNumeral_front n.sign h.whole h.fraction (startsDigits_exponentText n.exponent hrest),
    readExponent_exponentText h.exponent (startsDigit_of_startsDigits hrest) hexponent]

end Numeral

end CssUrls.Lexical
