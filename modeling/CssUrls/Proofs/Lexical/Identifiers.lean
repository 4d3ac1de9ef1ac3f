import CssUrls.Proofs.Lexical.Lookahead

/-! What starts with an identifier.

A text that does has that at its front, and what it opens (`readToken_of_startsIdentifier`). Only `-->`
starts with one and is a mark. -/
namespace CssUrls.Lexical
open Text

theorem isDigit_iff {c : Char} : c.isDigit = true ↔ 48 ≤ c.toNat ∧ c.toNat ≤ 57 := by
  simp only [Char.isDigit, Bool.and_eq_true, decide_eq_true_eq, UInt32.le_iff_toNat_le]
  rfl

theorem isDigit_eq_false_of_isNameStart {c : Char} (h : isNameStart c = true) : c.isDigit = false := by
  have hdigits : ∀ n < 58, 48 ≤ n → isNameStart (Char.ofNat n) = false := by decide
  rw [← Bool.not_eq_true, isDigit_iff]
  intro hdigit
  have hstart := hdigits c.toNat (by omega) hdigit.1
  rw [Char.ofNat_toNat, h] at hstart
  contradiction

theorem isNamePart_of_isNameStart {c : Char} (h : isNameStart c = true) : isNamePart c = true := by
  rw [isNamePart, h]
  rfl

theorem isNamePart_of_isDigit {c : Char} (h : c.isDigit = true) : isNamePart c = true := by
  rw [isNamePart, h, Bool.or_true]
  rfl

/-- What may stand in a name opens nothing and parts nothing. -/
theorem plain_of_isNamePart {c : Char} (h : isNamePart c = true) :
    punctuation? c = none ∧ isWhitespace c = false ∧ isQuote c = false := by
  refine ⟨?_, ?_, ?_⟩
  · unfold punctuation?
    split <;> first | rfl | contradiction
  · rw [← Bool.not_eq_true]
    simp only [isWhitespace, isNewline, Bool.or_eq_true, beq_iff_eq]
    rintro ((rfl | rfl) | (rfl | rfl) | rfl) <;> contradiction
  · rw [← Bool.not_eq_true, isQuote, Bool.or_eq_true, beq_iff_eq, beq_iff_eq]
    rintro (rfl | rfl) <;> contradiction

/-- Whatever starts a name starts no other token. -/
theorem readToken_of_isNameStart {c : Char} (h : isNameStart c = true) (rest : List Char) :
    readToken (c :: rest) = readIdentLike (c :: rest) := by
  obtain ⟨hpunctuation, hwhitespace, hquote⟩ := plain_of_isNamePart (isNamePart_of_isNameStart h)
  simp only [readToken, hpunctuation, hwhitespace, hquote, isDigit_eq_false_of_isNameStart h, h, if_true,
    Bool.false_eq_true, if_false]

/-- No number starts with a hyphen that an identifier starts with. -/
theorem startsNumeral_hyphen {rest : List Char} (h : startsIdentifier ('-' :: rest) = true) :
    startsNumeral ('-' :: rest) = false := by
  show startsDigits rest = false
  rw [startsIdentifier, Bool.or_eq_true] at h
  cases rest with
  | nil => rfl
  | cons c rest =>
    by_cases hback : c = '\\'
    · subst hback
      rfl
    · rw [startsEscape_cons hback, startsWith_cons, Bool.or_eq_true, beq_iff_eq] at h
      obtain (hstart | rfl) | h := h
      · rw [startsDigits_plain, isDigit_eq_false_of_isNameStart hstart]
        rintro rfl
        contradiction
      · rfl
      · contradiction

/-- A text that starts with an identifier has what that opens at its front, unless it starts with a
closing mark. -/
theorem readToken_of_startsIdentifier {text : List Char} (h : startsIdentifier text = true)
    (hcdc : ['-', '-', '>'].isPrefixOf text = false) : readToken text = readIdentLike text := by
  cases text with
  | nil => contradiction
  | cons c rest =>
    by_cases hhyphen : c = '-'
    · subst hhyphen
      have hmark : ¬['-', '>'].isPrefixOf rest = true := Bool.eq_false_iff.mp hcdc
      show readHyphen rest = _
      rw [readHyphen, startsNumeral_hyphen h, if_neg Bool.false_ne_true, if_neg hmark, if_pos h]
    · by_cases hback : c = '\\'
      · subst hback
        exact if_pos h
      · rw [startsIdentifier_plain hhyphen hback] at h
        exact readToken_of_isNameStart h rest

end CssUrls.Lexical
