import CssUrls.Lexical.Lexeme

/-! Every token takes something.

Each reading that `readToken` may choose takes at least one code point, so the tokens of a text
come to an end. Main statement: `readToken_length_pos`. -/
namespace CssUrls.Lexical
open Text

theorem readNumber_length_pos {text : List Char} (h : startsNumeral text = true) :
    0 < (readNumber text).length := by
  have := readNumeral_length_pos h
  have : 0 < (readNumeric text).length := this
  unfold readNumber
  simp only []
  split
  · simp only [Reading.andThen_length]; omega
  · split
    · simp only [Reading.andThen_length]; omega
    · exact this

theorem readIdentLike_length_pos {text : List Char} (h : 0 < (readName text).length) :
    0 < (readIdentLike text).length := by
  simp only [readIdentLike]
  split
  · split
    · simp only [Reading.andThen_length]; omega
    · exact Nat.lt_of_lt_of_le h (Nat.le_add_right ..)
  · exact h

theorem readQuoted_length_pos (quote : Char) (text : List Char) :
    0 < (readQuoted quote text).length := by
  simp only [readQuoted]
  split
  · simp only; omega
  · split <;> simp only <;> omega

theorem readMark_length_pos (c : Char) (rest : List Char) : 0 < (readMark c rest).length := by
  have hmatch (mark : Char) (token : Token) : 0 < (readMatch mark token rest).length := by
    unfold readMatch; split <;> exact Nat.succ_pos _
  unfold readMark
  split
  · unfold readHash; split
    · simp only [Reading.behind]; omega
    · exact Nat.one_pos
  · exact hmatch ..
  · exact hmatch ..
  · exact hmatch ..
  · exact hmatch ..
  · unfold readBar; split
    · exact Nat.two_pos
    · exact hmatch ..
  · unfold readPointOrPlus; split
    · exact readNumber_length_pos ‹_›
    · exact Nat.one_pos
  · unfold readPointOrPlus; split
    · exact readNumber_length_pos ‹_›
    · exact Nat.one_pos
  · unfold readHyphen; split
    · exact readNumber_length_pos ‹_›
    · split
      · exact Nat.succ_pos _
      · split
        · exact readIdentLike_length_pos (readName_length_pos_of_startsIdentifier ‹_›)
        · exact Nat.one_pos
  · unfold readLess; split <;> exact Nat.succ_pos _
  · unfold readAtKeyword; split
    · simp only [Reading.behind]; omega
    · exact Nat.one_pos
  · unfold readBackslash; split
    · exact readIdentLike_length_pos (readName_length_pos (.inr ‹_›))
    · exact Nat.one_pos
  · exact Nat.one_pos

/-- Every token but the end of the file takes something. -/
theorem readToken_length_pos (c : Char) (rest : List Char) : 0 < (readToken (c :: rest)).length := by
  unfold readToken
  simp only
  split
  · exact Nat.one_pos
  · split
    · simp [Reading.plain, countOf, *]
    · split
      · exact readQuoted_length_pos ..
      · split
        · exact readNumber_length_pos (startsNumeral_of_isDigit ‹_› rest)
        · split
          · exact readIdentLike_length_pos (readName_length_pos (.inl (by simp [isNamePart, *])))
          · exact readMark_length_pos ..

end CssUrls.Lexical
