import CssUrls.Lexical.Progress
import CssUrls.Proofs.Lexical.Pieces

/-! No reading goes past the end of its text.

Every piece is bounded by what follows it, and each reading is pieces and marks that were seen to
be there. Main statement: `readToken_length_le`. -/
namespace CssUrls.Lexical
open Text

/-! ### Pieces -/

theorem swallowed_le (text : List Char) : swallowed text ≤ text.length := by
  unfold swallowed
  split
  · simp only [List.length_cons]
    omega
  · split <;> simp only [List.length_cons] <;> omega
  · exact Nat.le_refl _

theorem escapeDigits_length_le (text : List Char) : (escapeDigits text).length ≤ text.length :=
  Nat.le_trans (List.takeWhile_sublist _).length_le (List.length_take_le' ..)

theorem escapePiece_more_le (text : List Char) : (escapePiece text).more ≤ text.length := by
  cases text with
  | nil => exact Nat.le_refl _
  | cons c rest =>
    cases h : isHexDigit c with
    | false =>
      rw [escapePiece_plain h, List.length_cons]
      exact Nat.succ_le_succ (Nat.zero_le _)
    | true =>
      rw [escapePiece_hex h]
      have hdigits := escapeDigits_length_le (c :: rest)
      have hswallowed := swallowed_le ((c :: rest).drop (escapeDigits (c :: rest)).length)
      rw [List.length_drop] at hswallowed
      simp only
      omega

theorem namePiece_bounded : Bounded namePiece := by
  intro first rest p h
  unfold namePiece at h
  split at h
  · split at h
    · contradiction
    · cases h
      exact escapePiece_more_le rest
  · split at h
    · cases h
      exact Nat.zero_le _
    · contradiction

theorem quotedPiece_bounded (quote : Char) : Bounded (quotedPiece quote) := by
  intro first rest p h
  unfold quotedPiece at h
  split at h
  · cases h
    simp only [List.length_cons]
    omega
  · split at h
    · cases h
      cases rest with
      | nil => simp at *
      | cons c rest =>
        simp only [List.length_cons]
        omega
    · cases h
      exact escapePiece_more_le _
  · split at h
    · contradiction
    · cases h
      exact Nat.zero_le _

theorem urlPiece_bounded : Bounded urlPiece := by
  intro first rest p h
  unfold urlPiece at h
  split at h
  · split at h
    · contradiction
    · cases h
      exact escapePiece_more_le rest
  · split at h
    · contradiction
    · cases h
      exact Nat.zero_le _

theorem remnantPiece_bounded : Bounded remnantPiece := by
  intro first rest p h
  unfold remnantPiece at h
  split at h
  · contradiction
  · cases h
    simp only [List.length_cons]
    omega
  · cases h
    exact Nat.zero_le _

theorem commentPiece_bounded : Bounded commentPiece := by
  intro first rest p h
  unfold commentPiece at h
  split at h
  · contradiction
  · cases h
    exact Nat.zero_le _

/-! ### Names, strings and URLs -/

theorem readRun_length_le {next : Char → List Char → Option (Piece (Option Char))}
    (h : Bounded next) (text : List Char) : (readRun next text).length ≤ text.length :=
  covered_pieces_le h text

theorem readName_length_le (text : List Char) : (readName text).length ≤ text.length :=
  readRun_length_le namePiece_bounded text

theorem readQuoted_length_le (quote : Char) (text : List Char) :
    (readQuoted quote text).length ≤ 1 + text.length := by
  have hle := covered_pieces_le (quotedPiece_bounded quote) text
  simp only [readQuoted]
  split
  · simp only
    omega
  · rename_i c rest hrest
    have hlength := congrArg List.length hrest
    rw [List.length_drop, List.length_cons] at hlength
    split <;> simp only <;> omega

theorem remnantLength_le (text : List Char) : remnantLength text ≤ text.length := by
  have hle := covered_pieces_le remnantPiece_bounded text
  simp only [remnantLength]
  split
  · exact hle
  · rename_i h
    rw [List.isEmpty_iff, List.drop_eq_nil_iff] at h
    omega

theorem readUrlEnd_length_le (url : String) (text : List Char) :
    (readUrlEnd url text).length ≤ text.length := by
  have hle := countOf_le isWhitespace text
  simp only [readUrlEnd]
  split
  · exact hle
  · rename_i rest hrest
    have hlength := congrArg List.length hrest
    rw [List.length_drop, List.length_cons] at hlength
    simp only
    omega
  · have hremnant := remnantLength_le (text.drop (countOf isWhitespace text))
    rw [List.length_drop] at hremnant
    simp only
    omega

theorem readUrl_length_le (text : List Char) : (readUrl text).length ≤ text.length := by
  have hrun := readRun_length_le urlPiece_bounded text
  have hend := readUrlEnd_length_le (readRun urlPiece text).value
    (text.drop (readRun urlPiece text).length)
  rw [List.length_drop] at hend
  show (readRun urlPiece text).length + _ ≤ text.length
  omega

/-! ### Numerals -/

theorem readSign_length (text : List Char) :
    signLength (readSign text).1 + (readSign text).2.length = text.length := by
  unfold readSign signLength
  split <;> simp only [Option.isSome, if_true, Bool.false_eq_true, if_false, List.length_cons] <;>
    omega

theorem fractionLength_readFraction_le (text : List Char) :
    fractionLength (readFraction text) ≤ text.length := by
  unfold readFraction
  split
  · rename_i rest
    split
    · have hle := countOf_le Char.isDigit rest
      unfold countOf at hle
      simp only [fractionLength, List.length_cons]
      omega
    · exact Nat.zero_le _
  · exact Nat.zero_le _

theorem exponentLength_readExponent_le (text : List Char) :
    exponentLength (readExponent text) ≤ text.length := by
  unfold readExponent
  split
  · rename_i c rest
    have hsign := readSign_length rest
    have hle := countOf_le Char.isDigit (readSign rest).2
    unfold countOf at hle
    simp only
    split
    · simp only [exponentLength, List.length_cons]
      omega
    · exact Nat.zero_le _
  · exact Nat.zero_le _

theorem readNumeral_length_le (text : List Char) : (readNumeral text).length ≤ text.length := by
  have hsign := readSign_length text
  have hwhole := countOf_le Char.isDigit (readSign text).2
  unfold countOf at hwhole
  simp only [readNumeral, Numeral.length]
  generalize (readSign text).2.takeWhile Char.isDigit = whole at *
  have hfraction := fractionLength_readFraction_le ((readSign text).2.drop whole.length)
  rw [List.length_drop] at hfraction
  generalize readFraction ((readSign text).2.drop whole.length) = fraction at *
  have hexponent := exponentLength_readExponent_le
    (((readSign text).2.drop whole.length).drop (fractionLength fraction))
  rw [List.length_drop, List.length_drop] at hexponent
  omega

theorem readNumeric_length_le (text : List Char) : (readNumeric text).length ≤ text.length :=
  readNumeral_length_le text

theorem readNumber_length_le (text : List Char) : (readNumber text).length ≤ text.length := by
  have hnumeric := readNumeric_length_le text
  simp only [readNumber]
  split
  · have hname := readName_length_le (text.drop (readNumeric text).length)
    rw [List.length_drop] at hname
    simp only [Reading.andThen_length, Reading.map_length]
    omega
  · split
    · rename_i hpercent
      cases hrest : text.drop (readNumeric text).length with
      | nil => simp [hrest] at hpercent
      | cons c rest =>
        have hlength := congrArg List.length hrest
        rw [List.length_drop, List.length_cons] at hlength
        simp only [Reading.andThen_length, Reading.plain_length]
        omega
    · exact hnumeric

/-! ### Tokens -/

theorem readUrlFunction_length_le (name : String) (text : List Char) :
    (readUrlFunction name text).length ≤ text.length := by
  have hblank := countOf_le isWhitespace text
  simp only [readUrlFunction]
  split
  · simp only [Reading.plain_length]
    omega
  · have hurl := readUrl_length_le (text.drop (countOf isWhitespace text))
    rw [List.length_drop] at hurl
    simp only [Reading.behind_length]
    omega

theorem readIdentLike_length_le (text : List Char) : (readIdentLike text).length ≤ text.length := by
  have hname := readName_length_le text
  simp only [readIdentLike]
  split
  · rename_i rest hrest
    have hlength := congrArg List.length hrest
    rw [List.length_drop, List.length_cons] at hlength
    have hfunction := readUrlFunction_length_le (readName text).value rest
    split
    · simp only [Reading.andThen_length, Reading.plain_length]
      omega
    · simp only [Reading.andThen_length, Reading.plain_length, Reading.map_length]
      omega
  · exact hname

/-- A mark that the text starts with is no longer than the text. -/
theorem length_le_of_isPrefixOf {mark text : List Char} (h : mark.isPrefixOf text = true) :
    mark.length ≤ text.length :=
  (List.isPrefixOf_iff_prefix.mp h).length_le

theorem length_pos_of_startsWith {inClass : Char → Bool} {text : List Char}
    (h : startsWith inClass text = true) : 0 < text.length := by
  cases text with
  | nil => simp at h
  | cons c rest => exact Nat.succ_pos _

theorem readMatch_length_le (mark : Char) (token : Token) (rest : List Char) :
    (readMatch mark token rest).length ≤ 1 + rest.length := by
  unfold readMatch
  split
  · have := length_pos_of_startsWith ‹_›
    simp only [Reading.plain_length]
    omega
  · exact Nat.le_add_right ..

theorem readHash_length_le (rest : List Char) : (readHash rest).length ≤ 1 + rest.length := by
  have := readName_length_le rest
  unfold readHash
  split
  · simp only [Reading.behind_length, Reading.map_length]
    omega
  · exact Nat.le_add_right ..

theorem readAtKeyword_length_le (rest : List Char) :
    (readAtKeyword rest).length ≤ 1 + rest.length := by
  have := readName_length_le rest
  unfold readAtKeyword
  split
  · simp only [Reading.behind_length, Reading.map_length]
    omega
  · exact Nat.le_add_right ..

theorem readHyphen_length_le (rest : List Char) : (readHyphen rest).length ≤ 1 + rest.length := by
  have hnumber := readNumber_length_le ('-' :: rest)
  have hident := readIdentLike_length_le ('-' :: rest)
  rw [List.length_cons] at hnumber hident
  unfold readHyphen
  split
  · omega
  · split
    · have hmark := length_le_of_isPrefixOf ‹_›
      simp only [Reading.plain_length, List.length_cons, List.length_nil] at hmark ⊢
      omega
    · split
      · omega
      · exact Nat.le_add_right ..

theorem readBackslash_length_le (rest : List Char) :
    (readBackslash rest).length ≤ 1 + rest.length := by
  have hident := readIdentLike_length_le ('\\' :: rest)
  rw [List.length_cons] at hident
  unfold readBackslash
  split
  · omega
  · exact Nat.le_add_right ..

theorem readPointOrPlus_length_le (c : Char) (rest : List Char) :
    (readPointOrPlus c rest).length ≤ 1 + rest.length := by
  have hnumber := readNumber_length_le (c :: rest)
  rw [List.length_cons] at hnumber
  unfold readPointOrPlus
  split
  · omega
  · exact Nat.le_add_right ..

theorem readLess_length_le (rest : List Char) : (readLess rest).length ≤ 1 + rest.length := by
  unfold readLess
  split
  · have hmark := length_le_of_isPrefixOf ‹_›
    simp only [Reading.plain_length, List.length_cons, List.length_nil] at hmark ⊢
    omega
  · exact Nat.le_add_right ..

theorem readBar_length_le (rest : List Char) : (readBar rest).length ≤ 1 + rest.length := by
  unfold readBar
  split
  · have := length_pos_of_startsWith ‹_›
    simp only [Reading.plain_length]
    omega
  · exact readMatch_length_le ..

theorem readMark_length_le (c : Char) (rest : List Char) :
    (readMark c rest).length ≤ 1 + rest.length := by
  unfold readMark
  split
  · exact readHash_length_le rest
  · exact readMatch_length_le ..
  · exact readMatch_length_le ..
  · exact readMatch_length_le ..
  · exact readMatch_length_le ..
  · exact readBar_length_le rest
  · exact readPointOrPlus_length_le ..
  · exact readPointOrPlus_length_le ..
  · exact readHyphen_length_le rest
  · exact readLess_length_le rest
  · exact readAtKeyword_length_le rest
  · exact readBackslash_length_le rest
  · exact Nat.le_add_right ..

/-- **No token goes past the end of its text.** -/
theorem readToken_length_le (text : List Char) : (readToken text).length ≤ text.length := by
  unfold readToken
  split
  · exact Nat.le_refl _
  · rename_i c rest
    split
    · exact Nat.succ_le_succ (Nat.zero_le _)
    · split
      · exact countOf_le ..
      · split
        · rw [List.length_cons, Nat.add_comm]
          exact readQuoted_length_le c rest
        · split
          · exact readNumber_length_le _
          · split
            · exact readIdentLike_length_le _
            · rw [List.length_cons, Nat.add_comm]
              exact readMark_length_le c rest

end CssUrls.Lexical
