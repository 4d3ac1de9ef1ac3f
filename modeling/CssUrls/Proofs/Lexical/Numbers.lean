import CssUrls.Proofs.Lexical.Decoded
import CssUrls.Proofs.Lexical.FaultAccount
import CssUrls.Proofs.Lexical.Identifiers

/-! Tokens that are numbers.

A token is a number only if it was read as one (`readToken_of_numeric?`), and digits are read so wherever a
token starts with them. Each token of a text is read where it starts, and what is wrong with it there is
among the faults of the text (`readToken_of_mem_spans`). Main statement: `exists_readNumber`. -/
namespace CssUrls.Lexical
open Text

variable {text : List Char}

/-! ### What is read as a number -/

theorem numeric?_of_isNamed {t : Token} (h : isNamed t = true) : t.numeric? = none := by
  cases t <;> first | rfl | contradiction

/-- **Only a number is read as one.** -/
theorem readToken_of_numeric? {n : Numeric} (h : (readToken text).value.numeric? = some n) :
    startsNumeral text = true ∧ readToken text = readNumber text := by
  have hnone {r : Reading Token} (hread : readToken text = r) (hr : r.value.numeric? = none) : False := by
    rw [hread, hr] at h
    contradiction
  cases text with
  | nil => contradiction
  | cons c rest =>
    rcases readToken_sorts c rest with ⟨-, hident⟩ | ⟨-, hquoted⟩ | hnumber | ⟨-, halone⟩
    · exact (hnone hident (numeric?_of_isNamed (readIdentLike_isNamed _))).elim
    · refine (hnone hquoted ?_).elim
      rcases readQuoted_value c rest with hvalue | hvalue <;> rw [hvalue] <;> rfl
    · exact hnumber
    · exact (hnone rfl halone).elim

theorem readNumber_numeric? (h : startsNumeral text = true) :
    (readNumber text).value.numeric? = some (readNumeral text).numeric := by
  simp only [readNumber, readNumeric_eq h]
  split
  · rfl
  · split <;> rfl

/-- The unit of a dimension is the name behind its numeral. -/
theorem readNumber_eq_dimension {n : Numeric} {unit : String} (h : (readNumber text).value = .dimension n unit) :
    ∃ behind, behind <:+ text ∧ startsIdentifier behind = true ∧ unit = (readName behind).value := by
  simp only [readNumber] at h
  split at h
  · exact ⟨_, List.drop_suffix .., ‹_›, (Token.dimension.inj h).2.symm⟩
  · split at h <;> contradiction

/-- Where a name starts, there is something in it. -/
theorem readName_value_ne_nil (h : startsName text = true) : (readName text).value.toList ≠ [] := by
  show (spelled (pieces namePiece text)).toList ≠ []
  rw [spelled, String.toList_ofList, Ne, List.map_eq_nil_iff, pieces_namePiece_eq_nil_iff, h]
  exact Bool.noConfusion

/-- The faults of its numeral are among those of a number. -/
theorem faults_subset_readNumber (h : startsNumeral text = true) :
    (readNumeral text).faults ⊆ (readNumber text).faults := by
  simp only [readNumber, readNumeric_eq h]
  split
  · exact List.subset_append_left ..
  · split
    · exact List.subset_append_left ..
    · exact List.Subset.refl _

/-! ### Where a numeral starts -/

/-- What stands behind a numeral makes it a dimension or a percentage. -/
theorem Numeral.WellFormed.readNumber_text {n : Numeral} {rest : List Char} (h : n.WellFormed) (hrest : startsDigits rest = false)
    (hexponent : readExponent rest = none) :
    let number : Reading Numeric := ⟨n.numeric, n.text.length, n.faults⟩
    readNumber (n.text ++ rest) =
      if startsIdentifier rest then number.andThen ((readName rest).map (.dimension n.numeric))
      else if startsWith (· == '%') rest then number.andThen (.plain 1 (.percentage n.numeric))
      else number.map .number := by
  intro number
  have hread : readNumeric (n.text ++ rest) = number := by
    rw [readNumeric_eq (h.startsNumeral_append rest), h.readNumeral_text hrest hexponent, ← n.text_length]
  have hbehind : (n.text ++ rest).drop number.length = rest := List.drop_left
  simp only [readNumber, hread, hbehind]
  rfl

/-- What starts with a digit is read as a number. -/
theorem readToken_of_isDigit {c : Char} (h : c.isDigit = true) (rest : List Char) :
    readToken (c :: rest) = readNumber (c :: rest) := by
  obtain ⟨hpunctuation, hwhitespace, hquote⟩ := plain_of_isNamePart (isNamePart_of_isDigit h)
  simp only [readToken, hpunctuation, hwhitespace, hquote, h, if_true, Bool.false_eq_true, if_false]

/-- **A numeral is read as a number** wherever a token starts with it. -/
theorem readToken_of_startsNumeral (h : startsNumeral text = true) : readToken text = readNumber text := by
  cases text with
  | nil => contradiction
  | cons c rest =>
    by_cases hmark : c = '+' ∨ c = '-' ∨ c = '.'
    · rcases hmark with rfl | rfl | rfl <;> exact if_pos h
    · obtain ⟨hplus, hminus, hpoint⟩ := by simpa only [not_or] using hmark
      rw [startsNumeral, readSign_plain hplus hminus, startsDigits_plain hpoint] at h
      exact readToken_of_isDigit h rest

/-- No comment stands in front of a numeral. -/
theorem readComments_of_startsNumeral (h : startsNumeral text = true) : readComments text = .plain 0 () := by
  cases text with
  | nil => contradiction
  | cons c rest =>
    apply readComments_of_ne_slash
    intro hslash
    subst hslash
    contradiction

/-- Where a numeral starts a text, its number is the first token. -/
theorem tokenize_of_startsNumeral (h : startsNumeral text = true) :
    (tokenize text).spans = ⟨(readNumber text).value, 0, (readNumber text).length⟩ ::
        (tokenize (text.drop (readNumber text).length)).spans.map (Span.shift (readNumber text).length) ∧
      (tokenize text).faults = (readNumber text).faults ++
        (tokenize (text.drop (readNumber text).length)).faults.map (Fault.shift (readNumber text).length) := by
  have hcomments := readComments_of_startsNumeral h
  have hlexeme : readLexeme text = readNumber text := by
    rw [readLexeme_of_readComments hcomments, readToken_of_startsNumeral h]
  have hne : (readLexeme text).value ≠ .endOfFile := by
    rw [hlexeme]
    intro hend
    have hnumeric := readNumber_numeric? h
    rw [hend] at hnumeric
    contradiction
  have hboth := tokenize_eq_cons hne
  rw [hlexeme, hcomments] at hboth
  exact hboth

/-- A number with nothing behind it is the only token. -/
theorem tokenize_of_readNumber {t : Token} {faults : List Fault} (h : startsNumeral text = true)
    (hread : readNumber text = ⟨t, text.length, faults⟩) :
    (tokenize text).spans = [⟨t, 0, text.length⟩, ⟨.endOfFile, text.length, text.length⟩] ∧
      (tokenize text).faults = faults := by
  have hend : (tokenize []).spans = [⟨.endOfFile, 0, 0⟩] := by decide +kernel
  obtain ⟨hspans, hfaults⟩ := tokenize_of_startsNumeral h
  rw [hread] at hspans hfaults
  simp only [List.drop_length, hend, tokenize_nil.2, List.map_cons, List.map_nil, Span.shift, Nat.add_zero,
    List.append_nil] at hspans hfaults
  exact ⟨hspans, hfaults⟩

/-! ### Where a token was read -/

/-- What is at the front of a text is the token behind its comments, with what is wrong with that. -/
theorem shift_mem_readLexeme {f : Fault} (hf : f ∈ (readToken (afterComments text)).faults) :
    f.shift (readComments text).length ∈ (readLexeme text).faults :=
  List.mem_append_right _ (List.mem_map_of_mem hf)

/-- **Each token of a text is read where it starts**, and what is wrong with it there is among the faults of the
text. -/
theorem readToken_of_mem_spans {span : Span} (h : span ∈ (tokenize text).spans) :
    span.token = (readToken (text.drop span.start)).value ∧
      span.stop = span.start + (readToken (text.drop span.start)).length ∧
      ∀ f ∈ (readToken (text.drop span.start)).faults, f.shift span.start ∈ (tokenize text).faults := by
  induction text using lexemes.induct generalizing span with
  | case1 text hend =>
    have hvalue : (readLexeme text).value = .endOfFile := hend
    obtain ⟨hspans, hfaults⟩ := tokenize_eq_singleton hvalue
    rw [hspans, List.mem_singleton] at h
    subst h
    rw [hfaults]
    exact ⟨hvalue.symm, rfl, fun f hf => shift_mem_readLexeme hf⟩
  | case2 text hne ih =>
    obtain ⟨hspans, hfaults⟩ := tokenize_eq_cons hne
    have hrest : text.drop (readLexeme text).length = afterLexeme text := by
      rw [readLexeme_length, afterLexeme]
    rw [hspans, hrest, List.mem_cons] at h
    rw [hfaults, hrest]
    rcases h with rfl | h
    · exact ⟨rfl, rfl, fun f hf => List.mem_append_left _ (shift_mem_readLexeme hf)⟩
    · obtain ⟨span, hspan, rfl⟩ := List.mem_map.mp h
      obtain ⟨htoken, hstop, hread⟩ := ih hspan
      have hdrop : text.drop ((readLexeme text).length + span.start) = (afterLexeme text).drop span.start := by
        rw [← hrest, List.drop_drop]
      simp only [Span.shift, hdrop]
      refine ⟨htoken, by rw [hstop, Nat.add_assoc], fun f hf => List.mem_append_right _ ?_⟩
      rw [← Fault.shift_shift]
      exact List.mem_map_of_mem (hread f hf)

/-- **Each number of a text was read as one.** If it is not said to be out of range, nothing is wrong with the
numeral it was read from. -/
theorem exists_readNumber {span : Span} {n : Numeric} (h : span ∈ (tokenize text).spans)
    (hn : span.token.numeric? = some n) :
    ∃ rest, rest <:+ text ∧ span.token = (readNumber rest).value ∧ n = (readNumeral rest).numeric ∧
      (⟨.numberOutOfRange, span.start⟩ ∉ (tokenize text).faults → (readNumeral rest).faults = []) := by
  obtain ⟨htoken, -, hfaults⟩ := readToken_of_mem_spans h
  rw [htoken] at hn
  obtain ⟨hstarts, hread⟩ := readToken_of_numeric? hn
  rw [hread] at hn htoken hfaults
  rw [readNumber_numeric? hstarts, Option.some.injEq] at hn
  refine ⟨text.drop span.start, List.drop_suffix .., htoken, hn.symm, fun hrange => ?_⟩
  refine List.eq_nil_iff_forall_not_mem.mpr fun f hf => hrange ?_
  have hfault := hfaults f (faults_subset_readNumber hstarts hf)
  rw [Numeral.eq_of_mem_faults hf] at hfault
  exact hfault

end CssUrls.Lexical
