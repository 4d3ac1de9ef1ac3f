import CssUrls.Css.Reread
import CssUrls.Proofs.Css.NameReread
import CssUrls.Proofs.Lexical.Restart

/-! Written tokens, read again.

A token that `HasSpelling` is read from its own text, and from nothing behind that, if white space or the
end of the text is there (`readLexeme_spelling`). So tokens with white space between them read back one
after another. Main statement: `tokenize_tokensText`. -/
namespace CssUrls.Css
open Text Lexical

/-! ### Tokens that can be written -/

/-- There is something in the name, and no NUL. -/
def IsName (name : String) : Prop := name ≠ "" ∧ '\x00' ∉ name.toList

/-- A digit, a hyphen and a digit, or a hyphen alone: no identifier starts so. -/
def startsLikeNumber : List Char → Bool
  | [] => false
  | ['-'] => true
  | '-' :: c :: _ => c.isDigit
  | c :: _ => c.isDigit

/-- A mark of ASCII that is no part of a name, opens no string and is no token of its own. -/
def isLoneMark (c : Char) : Bool :=
  c.toNat < 128 && !(isWhitespace c || c.isAlphanum || c == '_' || isQuote c || c == '\\' ||
    ['(', ')', '[', ']', '{', '}', ',', ':', ';'].contains c)

/-- What is written for the token can be read as it. Numbers are left out, which are written rounded, and
so are white space and malformed tokens. A URL is read as a function and a string. -/
def HasSpelling : Token → Prop
  | .ident name | .atKeyword name | .idHash name => IsName name
  | .function name => IsName name ∧ sameLetters name "url" = false
  | .hash name => '\x00' ∉ name.toList ∧ startsLikeNumber name.toList = true
  | .string text => '\x00' ∉ text.toList
  | .delim c => isLoneMark c = true
  | .url _ | .number _ | .percentage _ | .dimension .. => False
  | .whitespace | .badUrl | .badString | .endOfFile => False
  | _ => True

instance (name : String) : Decidable (IsName name) := inferInstanceAs (Decidable (_ ∧ _))

instance : DecidablePred HasSpelling
  | .ident name | .atKeyword name | .idHash name => inferInstanceAs (Decidable (IsName name))
  | .function _ | .hash _ => inferInstanceAs (Decidable (_ ∧ _))
  | .string _ => inferInstanceAs (Decidable (_ ∉ _))
  | .delim c => inferInstanceAs (Decidable (isLoneMark c = true))
  | .url _ | .number _ | .percentage _ | .dimension .. => isFalse id
  | .whitespace | .badUrl | .badString | .endOfFile => isFalse id
  | .colon | .semicolon | .comma | .column | .cdo | .cdc => isTrue trivial
  | .includeMatch | .dashMatch | .prefixMatch | .suffixMatch | .substringMatch => isTrue trivial
  | .openParen | .openSquare | .openCurly | .closeParen | .closeSquare | .closeCurly => isTrue trivial

/-- What is written for a token. -/
def spelling (t : Token) : List Char := (writeToken t).text.toList

/-! ### Where tokens are apart -/

/-- White space is there, or the text ends. -/
inductive Apart : List Char → Prop
  | nil : Apart []
  | space (rest : List Char) : Apart (' ' :: rest)

variable {rest : List Char}

theorem Apart.startsWith_eq (h : Apart rest) {inClass : Char → Bool} (hclass : inClass ' ' = false) :
    startsWith inClass rest = false := by
  cases h with
  | nil => rfl
  | space rest => exact hclass

theorem Apart.startsName_eq (h : Apart rest) : startsName rest = false := by
  cases h <;> rfl

/-! ### Names -/

theorem IsName.spells {name : String} (h : IsName name) :
    SpellsIdentifier name.toList (identifierText name.toList) :=
  spellsIdentifier_identifierText (fun hnil => h.1 (String.toList_eq_nil_iff.mp hnil)) h.2

theorem readName_apart {name : String} {text : List Char} (h : SpellsName name.toList text) (hrest : Apart rest) :
    readName (text ++ rest) = .plain text.length name := by
  rw [h.readName_eq hrest.startsName_eq, String.ofList_toList]

theorem readToken_ident {name : String} (h : IsName name) (hrest : Apart rest) :
    readToken (identifierText name.toList ++ rest) =
      .plain (identifierText name.toList).length (.ident name) := by
  have hname := readName_apart h.spells.spellsName hrest
  rw [h.spells.readToken_eq (hrest.startsWith_eq rfl), readIdentLike_plain, hname]
  · rfl
  · rw [hname, Reading.plain_length, List.drop_left]
    exact hrest.startsWith_eq rfl

theorem readToken_function {name : String} (h : IsName name) (hurl : sameLetters name "url" = false) :
    readToken (identifierText name.toList ++ ['('] ++ rest) =
      .plain (identifierText name.toList ++ ['(']).length (.function name) := by
  have hname : readName (identifierText name.toList ++ '(' :: rest) =
      .plain (identifierText name.toList).length name := by
    rw [h.spells.spellsName.readName_eq rfl, String.ofList_toList]
  have hopen : (identifierText name.toList ++ '(' :: rest).drop
      (readName (identifierText name.toList ++ '(' :: rest)).length = '(' :: rest := by
    rw [hname, Reading.plain_length, List.drop_left]
  have hnot : ¬sameLetters name "url" = true := Bool.eq_false_iff.mp hurl
  rw [List.append_assoc, List.singleton_append, h.spells.readToken_eq rfl, readIdentLike_opened hopen, hname]
  show (if sameLetters name "url" = true then _ else _) = _
  rw [if_neg hnot, List.length_append]
  rfl

theorem readToken_atKeyword {name : String} (h : IsName name) (hrest : Apart rest) :
    readToken ('@' :: identifierText name.toList ++ rest) =
      .plain ('@' :: identifierText name.toList).length (.atKeyword name) := by
  show readAtKeyword (identifierText name.toList ++ rest) = _
  rw [readAtKeyword, h.spells.startsIdentifier_eq, if_pos rfl, readName_apart h.spells.spellsName hrest,
    List.length_cons, Nat.add_comm]
  rfl

theorem readToken_idHash {name : String} (h : IsName name) (hrest : Apart rest) :
    readToken ('#' :: identifierText name.toList ++ rest) =
      .plain ('#' :: identifierText name.toList).length (.idHash name) := by
  have hstarts := h.spells.startsIdentifier_eq rest
  have hname := startsName_of_startsIdentifier hstarts
  show readHash (identifierText name.toList ++ rest) = _
  rw [readHash, ← startsName, hname, if_pos rfl, hstarts, readName_apart h.spells.spellsName hrest,
    List.length_cons, Nat.add_comm]
  rfl

theorem isNameStart_eq_false_of_isDigit {c : Char} (h : c.isDigit = true) : isNameStart c = false := by
  rw [← Bool.not_eq_true]
  intro hstart
  rw [isDigit_eq_false_of_isNameStart hstart] at h
  contradiction

/-- What is written for a name that starts like a number starts a name, and no identifier. -/
theorem starts_of_startsLikeNumber {name : List Char} (h : startsLikeNumber name = true) (hrest : Apart rest) :
    startsName (nameText name ++ rest) = true ∧ startsIdentifier (nameText name ++ rest) = false := by
  have hplain {c : Char} (hc : c.isDigit = true) : c ≠ '-' ∧ c ≠ '\\' :=
    ⟨ne_of_inClass hc rfl, ne_of_inClass hc rfl⟩
  unfold startsLikeNumber at h
  split at h
  · exact absurd h Bool.false_ne_true
  · have hhyphen : nameChar '-' = ['-'] := rfl
    have htext : nameText ['-'] ++ rest = '-' :: rest := by
      show nameChar '-' ++ [] ++ rest = _
      rw [hhyphen]
      rfl
    rw [htext]
    cases hrest <;> exact ⟨rfl, rfl⟩
  · rename_i c more
    have htext : nameText ('-' :: c :: more) ++ rest = '-' :: c :: (nameText more ++ rest) := by
      show nameChar '-' ++ (nameChar c ++ nameText more) ++ rest = _
      rw [nameChar_of_isDigit h]
      rfl
    rw [htext]
    refine ⟨rfl, ?_⟩
    rw [startsIdentifier, startsWith_cons, isNameStart_eq_false_of_isDigit h,
      beq_eq_false_iff_ne.mpr (hplain h).1, startsEscape_cons (hplain h).2]
    rfl
  · rename_i c more hlone hhyphen
    have htext : nameText (c :: more) ++ rest = c :: (nameText more ++ rest) := by
      show nameChar c ++ nameText more ++ rest = _
      rw [nameChar_of_isDigit h]
      rfl
    rw [htext, startsIdentifier_plain (hplain h).1 (hplain h).2]
    refine ⟨?_, isNameStart_eq_false_of_isDigit h⟩
    simp [startsName, isNamePart, h]

theorem readToken_hash {name : String} (hnul : '\x00' ∉ name.toList)
    (hnumber : startsLikeNumber name.toList = true) (hrest : Apart rest) :
    readToken ('#' :: nameText name.toList ++ rest) =
      .plain ('#' :: nameText name.toList).length (.hash name) := by
  obtain ⟨hname, hstarts⟩ := starts_of_startsLikeNumber hnumber hrest
  show readHash (nameText name.toList ++ rest) = _
  rw [readHash, ← startsName, hname, if_pos rfl, hstarts, readName_apart (spellsName_nameText hnul) hrest,
    List.length_cons, Nat.add_comm]
  rfl

/-! ### Strings and marks -/

theorem readToken_string {text : String} (hnul : '\x00' ∉ text.toList) :
    readToken (quoted text.toList ++ rest) = .plain (quoted text.toList).length (.string text) := by
  have hsame : text.toList.map withoutNul = text.toList.map id := by
    refine List.map_congr_left fun c hc => if_neg ?_
    rintro rfl
    exact hnul hc
  rw [readToken_quoted, hsame, List.map_id, String.ofList_toList]
  rfl

/-- **A lone mark is what no other token takes.** -/
theorem isLoneMark_iff {c : Char} : isLoneMark c = true ↔
    (punctuation? c = none ∧ isWhitespace c = false ∧ isQuote c = false) ∧
      c.isDigit = false ∧ isNameStart c = false ∧ c ≠ '\\' := by
  have hmarks : ∀ n < 128, isLoneMark (Char.ofNat n) = true ↔
      (punctuation? (Char.ofNat n) = none ∧ isWhitespace (Char.ofNat n) = false ∧
        isQuote (Char.ofNat n) = false) ∧
      (Char.ofNat n).isDigit = false ∧ isNameStart (Char.ofNat n) = false ∧ Char.ofNat n ≠ '\\' := by
    decide +kernel
  by_cases hascii : c.toNat < 128
  · have hc := hmarks c.toNat hascii
    rwa [Char.ofNat_toNat] at hc
  · -- Above ASCII everything starts a name.
    have hstart : isNameStart c = true := by simp [isNameStart, Nat.le_of_not_lt hascii]
    simp [isLoneMark, hascii, hstart]

/-- A mark makes another token only with what can stand right behind it. -/
theorem readToken_delim {c : Char} (h : isLoneMark c = true) (hrest : Apart rest) :
    readToken (c :: rest) = .plain 1 (.delim c) := by
  obtain ⟨⟨hpunctuation, hwhitespace, hquote⟩, hdigit, hstart, hback⟩ := isLoneMark_iff.mp h
  simp only [readToken, hpunctuation, hwhitespace, hquote, hdigit, hstart, Bool.false_eq_true, if_false]
  cases hrest <;> unfold readMark <;> split <;> first | rfl | contradiction

/-! ### Tokens -/

theorem readToken_of_write {t : Token} {text : List Char} (hwrite : writeToken t = writeChars text)
    (hread : readToken (text ++ rest) = .plain text.length t) :
    readToken (spelling t ++ rest) = .plain (spelling t).length t := by
  have hspelling : spelling t = text := by rw [spelling, hwrite, text_writeChars, String.toList_ofList]
  rw [hspelling, hread]

/-- **The text of a token reads as it**, apart from other tokens. -/
theorem readToken_spelling {t : Token} (h : HasSpelling t) (hrest : Apart rest) :
    readToken (spelling t ++ rest) = .plain (spelling t).length t := by
  cases t with
  | ident name => exact readToken_of_write (writeIdentifier_eq _) (readToken_ident h hrest)
  | atKeyword name =>
    refine readToken_of_write ?_ (readToken_atKeyword h hrest)
    rw [writeToken, writeIdentifier_eq, ← writeChars_cons]
  | hash name =>
    refine readToken_of_write ?_ (readToken_hash h.1 h.2 hrest)
    rw [writeToken, writeName_eq, ← writeChars_cons]
  | idHash name =>
    refine readToken_of_write ?_ (readToken_idHash h hrest)
    rw [writeToken, writeIdentifier_eq, ← writeChars_cons]
  | string text => exact readToken_of_write (writeQuoted_eq _) (readToken_string h)
  | function name =>
    refine readToken_of_write ?_ (readToken_function h.1 h.2)
    rw [writeToken, writeIdentifier_eq, writeChar_eq, ← writeChars_append]
  | delim c => exact readToken_of_write (writeChar_eq c) (readToken_delim h hrest)
  | colon => exact readToken_of_write (show _ = writeChars [':'] from rfl) rfl
  | semicolon => exact readToken_of_write (show _ = writeChars [';'] from rfl) rfl
  | comma => exact readToken_of_write (show _ = writeChars [','] from rfl) rfl
  | includeMatch => exact readToken_of_write (show _ = writeChars ['~', '='] from rfl) rfl
  | dashMatch => exact readToken_of_write (show _ = writeChars ['|', '='] from rfl) rfl
  | prefixMatch => exact readToken_of_write (show _ = writeChars ['^', '='] from rfl) rfl
  | suffixMatch => exact readToken_of_write (show _ = writeChars ['$', '='] from rfl) rfl
  | substringMatch => exact readToken_of_write (show _ = writeChars ['*', '='] from rfl) rfl
  | column => exact readToken_of_write (show _ = writeChars ['|', '|'] from rfl) rfl
  | cdo => exact readToken_of_write (show _ = writeChars ['<', '!', '-', '-'] from rfl) rfl
  | cdc => exact readToken_of_write (show _ = writeChars ['-', '-', '>'] from rfl) rfl
  | openParen => exact readToken_of_write (show _ = writeChars ['('] from rfl) rfl
  | openSquare => exact readToken_of_write (show _ = writeChars ['['] from rfl) rfl
  | openCurly => exact readToken_of_write (show _ = writeChars ['{'] from rfl) rfl
  | closeParen => exact readToken_of_write (show _ = writeChars [')'] from rfl) rfl
  | closeSquare => exact readToken_of_write (show _ = writeChars [']'] from rfl) rfl
  | closeCurly => exact readToken_of_write (show _ = writeChars ['}'] from rfl) rfl
  | url _ | number _ | percentage _ | dimension _ _ => exact h.elim
  | whitespace | badUrl | badString | endOfFile => exact h.elim

/-! ### Lists of tokens -/

/-- It starts no comment. -/
theorem readComments_spelling {t : Token} (h : HasSpelling t) (hrest : Apart rest) :
    readComments (spelling t ++ rest) = .plain 0 () := by
  have hread := readToken_spelling h hrest
  have hnone : pieces wholeComment (spelling t ++ rest) = [] := by
    cases htext : spelling t ++ rest with
    | nil => exact pieces_nil _
    | cons c text =>
      refine pieces_cons_of_none ?_
      by_cases hslash : c = '/'
      · subst hslash
        cases text with
        | nil => rfl
        | cons d text =>
          refine wholeComment_slash ?_ text
          rintro rfl
          rw [htext] at hread
          have hone : 1 = (spelling t).length := congrArg Reading.length hread
          have hdrop := congrArg (List.drop (spelling t).length) htext
          rw [List.drop_left, ← hone] at hdrop
          rw [hdrop] at hrest
          cases hrest
      · exact wholeComment_plain hslash text
  rw [readComments, hnone]
  rfl

/-- The lexeme at its front is the token alone. -/
theorem readLexeme_spelling {t : Token} (h : HasSpelling t) (hrest : Apart rest) :
    readLexeme (spelling t ++ rest) = .plain (spelling t).length t := by
  rw [readLexeme_of_readComments (readComments_spelling h hrest), readToken_spelling h hrest]

theorem tokenize_of_readLexeme {text : List Char} {t : Token}
    (h : readLexeme (text ++ rest) = .plain text.length t) (ht : t ≠ .endOfFile) :
    (tokenize (text ++ rest)).spans.map Span.token = t :: (tokenize rest).spans.map Span.token ∧
      (tokenize (text ++ rest)).faults = (tokenize rest).faults.map (Fault.shift text.length) := by
  have hne : (readLexeme (text ++ rest)).value ≠ .endOfFile := by
    rw [h]
    exact ht
  have hboth := tokenize_of_ne_endOfFile hne
  rw [h, Reading.plain_length, List.drop_left] at hboth
  exact hboth

theorem startsWith_spelling {t : Token} (h : HasSpelling t) (hrest : Apart rest) :
    startsWith isWhitespace (spelling t ++ rest) = false := by
  have hread := readToken_spelling h hrest
  cases htext : spelling t ++ rest with
  | nil => rfl
  | cons c text =>
    rw [startsWith_cons, ← Bool.not_eq_true]
    intro hspace
    rw [htext, readToken_whitespace hspace] at hread
    have hwhitespace : Token.whitespace = t := congrArg Reading.value hread
    subst hwhitespace
    exact h

theorem HasSpelling.ne_endOfFile {t : Token} (h : HasSpelling t) : t ≠ .endOfFile := by
  rintro rfl
  exact h

/-- What is written for tokens with white space between them. -/
def spaced (tokens : List Token) : List Char := (tokens.intersperse .whitespace).flatMap spelling

theorem spelling_whitespace : spelling .whitespace = [' '] := by
  have hwrite : writeToken .whitespace = writeChars [' '] := rfl
  rw [spelling, hwrite, text_writeChars, String.toList_ofList]

theorem spaced_cons_cons (t u : Token) (tokens : List Token) :
    spaced (t :: u :: tokens) = spelling t ++ ' ' :: spaced (u :: tokens) := by
  rw [spaced, List.intersperse_cons_cons, List.flatMap_cons, List.flatMap_cons, spelling_whitespace]
  rfl

theorem startsWith_spaced {t : Token} (h : HasSpelling t) (tokens : List Token) :
    startsWith isWhitespace (spaced (t :: tokens)) = false := by
  cases tokens with
  | nil => exact startsWith_spelling h .nil
  | cons u tokens =>
    rw [spaced_cons_cons]
    exact startsWith_spelling h (.space _)

theorem tokenize_spaced {tokens : List Token} (h : ∀ t ∈ tokens, HasSpelling t) :
    (tokenize (spaced tokens)).spans.map Span.token = tokens.intersperse .whitespace ++ [.endOfFile] ∧
      (tokenize (spaced tokens)).faults = [] := by
  induction tokens with
  | nil => exact tokenize_nil
  | cons t tokens ih =>
    have ht := h t (List.mem_cons_self ..)
    have htokens (u : Token) (hu : u ∈ tokens) := h u (List.mem_cons_of_mem _ hu)
    cases tokens with
    | nil =>
      have hboth := tokenize_of_readLexeme (readLexeme_spelling ht .nil) ht.ne_endOfFile
      rw [tokenize_nil.1, tokenize_nil.2] at hboth
      exact hboth
    | cons u tokens =>
      have hspace : readLexeme ([' '] ++ spaced (u :: tokens)) = .plain [' '].length .whitespace := by
        have hstop := countOf_eq_zero (startsWith_spaced (htokens u (List.mem_cons_self ..)) tokens)
        have hone : countOf isWhitespace (' ' :: spaced (u :: tokens)) = 1 :=
          congrArg (· + 1) hstop
        rw [List.singleton_append, readLexeme_whitespace (by decide), hone]
        rfl
      have hrest := tokenize_of_readLexeme hspace Token.noConfusion
      have hboth := tokenize_of_readLexeme (readLexeme_spelling ht (.space (spaced (u :: tokens)))) ht.ne_endOfFile
      rw [List.singleton_append, (ih htokens).1, (ih htokens).2] at hrest
      rw [hrest.1, hrest.2] at hboth
      rw [spaced_cons_cons, List.intersperse_cons_cons]
      exact hboth

/-- **Written tokens read back**, if white space is written between them: the text has just these tokens,
and no fault. -/
theorem tokenize_tokensText {tokens : List Token} (h : ∀ t ∈ tokens, HasSpelling t) :
    (tokenize (tokensText (tokens.intersperse .whitespace)).toList).spans.map Span.token =
        tokens.intersperse .whitespace ++ [.endOfFile] ∧
      (tokenize (tokensText (tokens.intersperse .whitespace)).toList).faults = [] := by
  have htext : (tokensText (tokens.intersperse .whitespace)).toList = spaced tokens := by
    rw [tokensText, String.toList_join, List.flatMap_map]
    rfl
  rw [htext]
  exact tokenize_spaced h

/-- Names of hyphens, digits and a control code, and marks that would start a comment without white space. -/
theorem tokenize_tokensText_hyphens :
    let tokens : List Token := [.ident "-", .ident "--\x01", .function "-9é", .string "\\\n", .hash "-0", .delim '/',
      .delim '*', .cdc, .atKeyword "9"]
    (∀ t ∈ tokens, HasSpelling t) ∧
      tokensText (tokens.intersperse .whitespace) =
        "\\- --\\1  -\\39 é( \"\\\\\\a \" #-0 / * --> @\\39 " ∧
      (tokenize (tokensText (tokens.intersperse .whitespace)).toList).spans.map Span.token =
        tokens.intersperse .whitespace ++ [.endOfFile] := by
  intro tokens
  have htokens : ∀ t ∈ tokens, HasSpelling t := by decide +kernel
  exact ⟨htokens, by decide +kernel, (tokenize_tokensText htokens).1⟩

end CssUrls.Css
