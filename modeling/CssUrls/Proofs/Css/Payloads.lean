import CssUrls.Proofs.Css.IntegersReread
import CssUrls.Proofs.Css.TokensReread

/-! What tokens hold.

A token is chosen by what stands ahead before anything of it is read, and the writer relies on what it then
holds. That ahead stands a name is enough for something to be in the name that is read (`isName_readName`),
and if it is none of an identifier, it starts like a number (`startsLikeNumber_readName`). Main statement:
`tokenize_wellFormed`. -/
namespace CssUrls.Css
open Text Lexical

/-! ### Payloads -/

/-- A sign was written if the number has the sign bit of what is below zero, or is an integer below zero. -/
def SignedIfNegative (n : Numeric) : Prop :=
  (n.value.negative = true ∨ ∃ i, n.int = some i ∧ i < 0) → n.signed = true

/-- A token is fit to be written: no text in it holds NUL, no name is empty, an identifier is not taken for a
number nor a mark for a part of a name, and no number is below zero without its sign. -/
def WellFormed : Token → Prop
  | .ident name | .atKeyword name | .idHash name | .function name => IsName name
  | .hash name => IsName name ∧ startsLikeNumber name.toList = true
  | .string text | .url text => '\x00' ∉ text.toList
  | .delim c => isLoneMark c = true ∨ c = '\\'
  | .number n | .percentage n => SignedIfNegative n
  | .dimension n unit => SignedIfNegative n ∧ IsName unit
  | _ => True

variable {text rest : List Char}

/-! ### Names -/

/-- A name that starts in a text is one, even if it is an escape at the end of the text. -/
theorem isName_readName (hnul : '\x00' ∉ text) (h : startsName text = true) : IsName (readName text).value :=
  ⟨fun hempty => readName_value_ne_nil h (String.toList_eq_nil_iff.mpr hempty), nul_not_mem_readName hnul⟩

theorem readName_cons {c : Char} (h : isNamePart c = true) (rest : List Char) :
    (readName (c :: rest)).value.toList = c :: (readName rest).value.toList := by
  have hpiece : namePiece c rest = some ⟨some c, 0⟩ := by
    rw [namePiece_plain (ne_of_inClass h rfl), if_pos h]
  show (spelled (pieces namePiece (c :: rest))).toList = c :: (spelled (pieces namePiece rest)).toList
  rw [pieces_cons_of_some hpiece, spelled, spelled, String.toList_ofList, String.toList_ofList]
  rfl

theorem readName_nil (h : startsName text = false) : (readName text).value.toList = [] := by
  show (spelled (pieces namePiece text)).toList = []
  rw [pieces_namePiece_eq_nil_iff.mpr h]
  rfl

theorem startsLikeNumber_cons {c : Char} (h : c.isDigit = true) (rest : List Char) :
    startsLikeNumber (c :: rest) = true := by
  have hhyphen : c ≠ '-' := ne_of_inClass h rfl
  unfold startsLikeNumber
  split <;> simp_all

theorem isDigit_of_isNamePart {c : Char} (h : isNamePart c = true) (hstart : isNameStart c = false)
    (hhyphen : c ≠ '-') : c.isDigit = true := by
  simpa [isNamePart, hstart, hhyphen] using h

/-- Behind a hyphen that starts no identifier there is no name, or one that starts with a digit. -/
theorem startsLikeNumber_readName_hyphen (h : startsIdentifier ('-' :: rest) = false) :
    startsLikeNumber ('-' :: (readName rest).value.toList) = true := by
  rw [startsIdentifier, Bool.or_eq_false_iff] at h
  obtain ⟨hfirst, hescape⟩ := h
  cases hrest : startsWith isNamePart rest with
  | false =>
    rw [readName_nil (by rw [startsName, hrest, hescape]; rfl)]
    rfl
  | true =>
    cases rest with
    | nil => contradiction
    | cons d more =>
      rw [startsWith_cons] at hfirst hrest
      rw [Bool.or_eq_false_iff, beq_eq_false_iff_ne] at hfirst
      rw [readName_cons hrest]
      exact isDigit_of_isNamePart hrest hfirst.1 hfirst.2

/-- **A name that is no identifier starts like a number**: with a digit, or with a hyphen that stands alone or in
front of a digit. -/
theorem startsLikeNumber_readName (hname : startsName text = true) (hstarts : startsIdentifier text = false) :
    startsLikeNumber (readName text).value.toList = true := by
  cases text with
  | nil => contradiction
  | cons c rest =>
    by_cases hback : c = '\\'
    · -- An escape that starts a name starts an identifier.
      subst hback
      exact absurd (hname.symm.trans hstarts) (by decide)
    · rw [startsName, startsEscape_cons hback, startsWith_cons, Bool.or_false] at hname
      rw [readName_cons hname]
      by_cases hhyphen : c = '-'
      · subst hhyphen
        exact startsLikeNumber_readName_hyphen hstarts
      · rw [startsIdentifier_plain hhyphen hback] at hstarts
        exact startsLikeNumber_cons (isDigit_of_isNamePart hname hstarts hhyphen) _

/-! ### Numbers -/

/-- The sign of a numeral is the only one that its number can have. -/
theorem signedIfNegative_numeric (n : Numeral) : SignedIfNegative n.numeric := by
  intro hnegative
  have hminus : n.sign = some .minus := by
    rcases hnegative with hbit | ⟨i, hint, hlt⟩
    · rw [Numeral.numeric_value_negative] at hbit
      exact beq_iff_eq.mp hbit
    · obtain ⟨-, -, hsign⟩ := Numeral.int_bounds hint
      by_contra hplain
      rw [if_neg hplain] at hsign
      omega
  show n.sign.isSome = true
  rw [hminus]
  rfl

theorem wellFormed_readNumber (hnul : '\x00' ∉ text) (h : startsNumeral text = true) :
    WellFormed (readNumber text).value := by
  have hsigned : SignedIfNegative (readNumeric text).value := by
    rw [readNumeric_eq h]
    exact signedIfNegative_numeric _
  simp only [readNumber]
  split
  · exact ⟨hsigned, isName_readName (fun hmem => hnul (List.mem_of_mem_drop hmem))
      (startsName_of_startsIdentifier ‹_›)⟩
  · split
    · exact hsigned
    · exact hsigned

/-! ### What names and quotes open -/

theorem wellFormed_readUrl (hnul : '\x00' ∉ text) : WellFormed (readUrl text).value := by
  have hdecoded : '\x00' ∉ decoded (readUrlEnd _ _).value := nul_not_mem_decoded_readUrl hnul
  show WellFormed (readUrlEnd _ _).value
  revert hdecoded
  simp only [readUrlEnd]
  split
  · exact fun _ => trivial
  · exact id
  · exact fun _ => trivial

theorem wellFormed_readQuoted (quote : Char) (hnul : '\x00' ∉ text) : WellFormed (readQuoted quote text).value := by
  have hdecoded := nul_not_mem_decoded_readQuoted quote hnul
  rcases readQuoted_value quote text with hvalue | hvalue
  · rw [hvalue]
    trivial
  · rw [hvalue] at hdecoded ⊢
    exact hdecoded

theorem wellFormed_readIdentLike (hnul : '\x00' ∉ text) (h : startsIdentifier text = true) :
    WellFormed (readIdentLike text).value := by
  have hname := isName_readName hnul (startsName_of_startsIdentifier h)
  simp only [readIdentLike]
  split
  · rename_i rest hrest
    split
    · show WellFormed (readUrlFunction _ rest).value
      simp only [readUrlFunction]
      split
      · exact hname
      · refine wellFormed_readUrl fun hmem => hnul (List.mem_of_mem_drop (i := (readName text).length) ?_)
        rw [hrest]
        exact List.mem_cons_of_mem _ (List.mem_of_mem_drop hmem)
    · exact hname
  · exact hname

/-! ### Marks -/

theorem wellFormed_readHash (hnul : '\x00' ∉ rest) : WellFormed (readHash rest).value := by
  unfold readHash
  split
  · have hname := isName_readName hnul ‹_›
    show WellFormed ((if startsIdentifier rest then Token.idHash else Token.hash) _)
    split
    · exact hname
    · exact ⟨hname, startsLikeNumber_readName ‹_› (Bool.eq_false_iff.mpr ‹_›)⟩
  · exact .inl rfl

theorem wellFormed_readAtKeyword (hnul : '\x00' ∉ rest) : WellFormed (readAtKeyword rest).value := by
  unfold readAtKeyword
  split
  · exact isName_readName hnul (startsName_of_startsIdentifier ‹_›)
  · exact .inl rfl

theorem wellFormed_readHyphen (hnul : '\x00' ∉ '-' :: rest) : WellFormed (readHyphen rest).value := by
  unfold readHyphen
  split
  · exact wellFormed_readNumber hnul ‹_›
  · split
    · trivial
    · split
      · exact wellFormed_readIdentLike hnul ‹_›
      · exact .inl rfl

theorem wellFormed_readPointOrPlus {c : Char} (hnul : '\x00' ∉ c :: rest) (hc : isLoneMark c = true) :
    WellFormed (readPointOrPlus c rest).value := by
  unfold readPointOrPlus
  split
  · exact wellFormed_readNumber hnul ‹_›
  · exact .inl hc

theorem wellFormed_readBackslash (hnul : '\x00' ∉ '\\' :: rest) : WellFormed (readBackslash rest).value := by
  unfold readBackslash
  split
  · exact wellFormed_readIdentLike hnul ‹_›
  · exact .inr rfl

/-- What a mark starts is well formed, if it is a mark that may stand alone. -/
theorem wellFormed_readMark {c : Char} (hnul : '\x00' ∉ c :: rest) (hc : isLoneMark c = true ∨ c = '\\') :
    WellFormed (readMark c rest).value := by
  have hrest : '\x00' ∉ rest := fun hmem => hnul (List.mem_cons_of_mem c hmem)
  have hmatch {mark : Char} {token : Token} (hmark : isLoneMark mark = true) (htoken : WellFormed token) :
      WellFormed (readMatch mark token rest).value := by
    unfold readMatch
    split
    · exact htoken
    · exact .inl hmark
  unfold readMark
  split
  · exact wellFormed_readHash hrest
  · exact hmatch rfl trivial
  · exact hmatch rfl trivial
  · exact hmatch rfl trivial
  · exact hmatch rfl trivial
  · unfold readBar
    split
    · trivial
    · exact hmatch rfl trivial
  · exact wellFormed_readPointOrPlus hnul rfl
  · exact wellFormed_readPointOrPlus hnul rfl
  · exact wellFormed_readHyphen hnul
  · unfold readLess
    split
    · trivial
    · exact hc
  · exact wellFormed_readAtKeyword hrest
  · exact wellFormed_readBackslash hnul
  · exact hc

/-! ### Tokens -/

theorem wellFormed_of_punctuation? {c : Char} {token : Token} (h : punctuation? c = some token) :
    WellFormed token := by
  unfold punctuation? at h
  split at h <;> cases h <;> trivial

theorem wellFormed_readToken (hnul : '\x00' ∉ text) : WellFormed (readToken text).value := by
  cases text with
  | nil => trivial
  | cons c rest =>
    unfold readToken
    simp only
    split
    · exact wellFormed_of_punctuation? ‹_›
    · split
      · trivial
      · split
        · exact wellFormed_readQuoted c fun hmem => hnul (List.mem_cons_of_mem c hmem)
        · split
          · exact wellFormed_readNumber hnul (startsNumeral_of_isDigit ‹_› rest)
          · split
            · exact wellFormed_readIdentLike hnul (startsIdentifier_of_isNameStart ‹_› rest)
            · rename_i hpunctuation hwhitespace hquote hdigit hstart
              refine wellFormed_readMark hnul (or_iff_not_imp_right.mpr fun hback => isLoneMark_iff.mpr ?_)
              rw [Bool.not_eq_true] at hwhitespace hquote hdigit hstart
              exact ⟨⟨hpunctuation, hwhitespace, hquote⟩, hdigit, hstart, hback⟩

/-- **Every token of a text without NUL is fit to be written**. -/
theorem tokenize_wellFormed (hnul : '\x00' ∉ text) : ∀ span ∈ (tokenize text).spans, WellFormed span.token := by
  intro span hspan
  rw [(readToken_of_mem_spans hspan).1]
  exact wellFormed_readToken fun hmem => hnul (List.mem_of_mem_drop hmem)

/-- Hyphens that start no identifier, an escaped digit for a unit, and a backslash at the end of the text for a name. -/
theorem tokenize_wellFormed_edges :
    let text := "#-\n#-0 -0\\31 @\\".toList
    '\x00' ∉ text ∧
      (tokenize text).spans.map Span.token =
        [.hash "-", .whitespace, .hash "-0", .whitespace, .dimension (readNumeral "-0".toList).numeric "1",
          .atKeyword "\ufffd", .endOfFile] ∧
      ∀ span ∈ (tokenize text).spans, WellFormed span.token := by
  intro text
  have hnul : '\x00' ∉ text := by decide
  exact ⟨hnul, by decide +kernel, tokenize_wellFormed hnul⟩

end CssUrls.Css
