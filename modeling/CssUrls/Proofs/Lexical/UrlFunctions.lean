import CssUrls.Proofs.Lexical.Restart
import CssUrls.Proofs.Lexical.TokenFaults
import CssUrls.Proofs.Lexical.Numbers

/-! What follows `url(` when it is a token of its own.

Before a quote `url(` is a function and not a URL. That is decided two code points ahead, and it leaves no more
than one white space, so what comes next is bound to be what was seen: a string, or one white space and a
string, without a comment in between. Main statement: `tokenize_urlFunction`. -/
namespace CssUrls.Lexical
open Text

variable {text rest : List Char} {name : String}

/-! ### Announcements -/

/-- What a quote opens: a string, or a malformed one. -/
def isString : Token → Bool
  | .string _ | .badString => true
  | _ => false

/-- The first of the spans is a string, which starts at `position`. -/
def StringAt (position : Nat) : List Span → Prop
  | [] => False
  | s :: _ => isString s.token = true ∧ s.start = position

/-- The spans start at `position` with a string, or with white space of one code point and a string. -/
inductive AnnouncedAt (position : Nat) : List Span → Prop
  | direct {spans : List Span} (h : StringAt position spans) : AnnouncedAt position spans
  | blank {spans : List Span} (h : StringAt (position + 1) spans) :
    AnnouncedAt position (⟨.whitespace, position, position + 1⟩ :: spans)

theorem StringAt.shift {position : Nat} {spans : List Span} (h : StringAt position spans) (n : Nat) :
    StringAt (n + position) (spans.map (Span.shift n)) := by
  cases spans with
  | nil => contradiction
  | cons s spans => exact ⟨h.1, congrArg (n + ·) h.2⟩

theorem AnnouncedAt.shift {position : Nat} {spans : List Span} (h : AnnouncedAt position spans) (n : Nat) :
    AnnouncedAt (n + position) (spans.map (Span.shift n)) := by
  cases h with
  | direct h => exact .direct (h.shift n)
  | blank h => exact .blank (h.shift n)

/-! ### What the function leaves -/

/-- The text starts with a quote, or with one white space and a quote. -/
inductive Announces : List Char → Prop
  | direct {quote : Char} (hquote : isQuote quote = true) (rest : List Char) : Announces (quote :: rest)
  | blank {c quote : Char} (hc : isWhitespace c = true) (hquote : isQuote quote = true) (rest : List Char) :
    Announces (c :: quote :: rest)

/-- Of the white space in front of a quote the last is left. -/
theorem announces_drop (h : startsWith isQuote (text.drop (countOf isWhitespace text)) = true) :
    Announces (text.drop (countOf isWhitespace text - 1)) := by
  have hrun : text.takeWhile isWhitespace ++ text.drop (countOf isWhitespace text) = text := by
    rw [drop_countOf, List.takeWhile_append_dropWhile]
  have hblank : ∀ c ∈ text.takeWhile isWhitespace, isWhitespace c = true := List.all_eq_true.mp List.all_takeWhile
  rw [countOf] at h hrun ⊢
  cases hrest : text.drop (text.takeWhile isWhitespace).length with
  | nil =>
    rw [hrest] at h
    contradiction
  | cons quote rest =>
    rw [hrest] at h hrun
    rcases List.eq_nil_or_concat (text.takeWhile isWhitespace) with hnil | ⟨init, last, hconcat⟩
    · rw [hnil] at hrest ⊢
      rw [List.length_nil, List.drop_zero] at hrest
      rw [List.length_nil, List.drop_zero, hrest]
      exact .direct h rest
    · rw [List.concat_eq_append] at hconcat
      have hlast : isWhitespace last = true := by
        apply hblank
        rw [hconcat]
        exact List.mem_append_right _ (List.mem_singleton_self last)
      have hdrop : text.drop init.length = last :: quote :: rest := by
        rw [← hrun, hconcat, List.append_assoc, List.drop_left]
        rfl
      rw [hconcat, List.length_append, List.length_singleton, Nat.add_sub_cancel, hdrop]
      exact .blank hlast h rest

/-- What is between parentheses is read as a function only where a quote was seen. -/
theorem announces_of_readUrlFunction {other : String} (h : (readUrlFunction name text).value = .function other) :
    Announces (text.drop (readUrlFunction name text).length) := by
  simp only [readUrlFunction] at h ⊢
  split
  · exact announces_drop ‹_›
  · rename_i hquote
    rw [if_neg hquote] at h
    rcases readUrl_cases (text.drop (countOf isWhitespace text)) with ⟨length, url, hread⟩ |
      ⟨length, position, hread, -⟩ | ⟨escapes, hread, -⟩ <;>
    · rw [hread] at h
      contradiction

/-- **A function whose name is `url` leaves a quote**, or one white space and a quote. -/
theorem announces_of_readIdentLike (h : (readIdentLike text).value = .function name)
    (hname : sameLetters name "url" = true) : Announces (text.drop (readIdentLike text).length) := by
  cases hdrop : text.drop (readName text).length with
  | nil =>
    rw [readIdentLike_plain (by rw [hdrop]; rfl)] at h
    contradiction
  | cons c rest =>
    by_cases hc : c = '('
    · subst hc
      rw [readIdentLike_opened hdrop] at h ⊢
      split at h
      · rename_i hurl
        have hbehind (n : Nat) : text.drop ((readName text).length + 1 + n) = rest.drop n := by
          rw [← List.drop_drop, ← List.drop_drop, hdrop]
          rfl
        rw [if_pos hurl, Reading.andThen_length, Reading.andThen_length, Reading.plain_length, hbehind]
        exact announces_of_readUrlFunction h
      · rename_i hother
        cases h
        contradiction
    · rw [readIdentLike_plain (by rw [hdrop, startsWith_cons, beq_eq_false_iff_ne]; exact hc)] at h
      contradiction

/-- Only a name and a parenthesis are read as a function. -/
theorem readToken_of_function (h : (readToken text).value = .function name) :
    readToken text = readIdentLike text := by
  cases text with
  | nil => contradiction
  | cons c rest =>
    rcases readToken_cases c rest with ⟨-, hident⟩ | ⟨-, hquoted⟩ | halone
    · exact hident
    · rw [hquoted] at h
      rcases readQuoted_value c rest with hvalue | hvalue <;>
      · rw [hvalue] at h
        contradiction
    · rw [h] at halone
      contradiction

/-! ### What is read there -/

/-- A quote is read as a string. -/
theorem stringAt_tokenize {quote : Char} (h : isQuote quote = true) (rest : List Char) :
    StringAt 0 (tokenize (quote :: rest)).spans := by
  have hcomments := readComments_of_ne_slash (classes_of_isQuote h).2.2.2 rest
  have hread : readLexeme (quote :: rest) = readQuoted quote rest := by
    rw [readLexeme_of_readComments hcomments]
    rw [isQuote, Bool.or_eq_true, beq_iff_eq, beq_iff_eq] at h
    rcases h with rfl | rfl <;> rfl
  have hstring : isString (readLexeme (quote :: rest)).value = true := by
    rw [hread]
    rcases readQuoted_value quote rest with hvalue | hvalue <;>
    · rw [hvalue]
      rfl
  have hne : (readLexeme (quote :: rest)).value ≠ .endOfFile := by
    intro hend
    rw [hend] at hstring
    contradiction
  rw [(tokenize_eq_cons hne).1]
  exact ⟨hstring, congrArg Reading.length hcomments⟩

/-- What the function leaves is read as what was seen. -/
theorem Announces.announcedAt (h : Announces text) : AnnouncedAt 0 (tokenize text).spans := by
  cases h with
  | direct hquote rest => exact .direct (stringAt_tokenize hquote rest)
  | @blank c quote hc hquote rest =>
    have hslash : c ≠ '/' := ne_of_inClass hc rfl
    have hwhite : startsWith isWhitespace (quote :: rest) = false := (classes_of_isQuote hquote).1
    have hcount : countOf isWhitespace ([c] ++ quote :: rest) = [c].length := by
      rw [countOf_append_of_forall (List.forall_mem_singleton.mpr hc), countOf_eq_zero hwhite, Nat.add_zero]
    have hread : readToken ([c] ++ quote :: rest) = .plain [c].length .whitespace :=
      (readToken_whitespace hc _).trans (congrArg (Reading.plain · _) hcount)
    have hspans := (tokenize_append (readComments_of_ne_slash hslash _) hread Token.noConfusion).1
    rw [List.singleton_append] at hspans
    rw [hspans]
    exact .blank ((stringAt_tokenize hquote rest).shift 1)

/-- Behind a token come the tokens of what is left of the text. -/
theorem spans_behind {before after : List Span} {span : Span} (h : (tokenize text).spans = before ++ span :: after)
    (hspan : span.token ≠ .endOfFile) :
    after = (tokenize (text.drop span.stop)).spans.map (Span.shift span.stop) := by
  induction text using lexemes.induct generalizing before span after with
  | case1 text hend =>
    have hvalue : (readLexeme text).value = .endOfFile := hend
    rw [(tokenize_eq_singleton hvalue).1] at h
    cases before with
    | nil =>
      cases h
      contradiction
    | cons first before => simp at h
  | case2 text hne ih =>
    have hrest : text.drop (readLexeme text).length = afterLexeme text := by
      rw [readLexeme_length, afterLexeme]
    rw [(tokenize_eq_cons hne).1] at h
    cases before with
    | nil =>
      cases h
      rfl
    | cons first before =>
      rw [List.cons_append, List.cons.injEq] at h
      obtain ⟨front, tail, hspans, -, htail⟩ := List.map_eq_append_iff.mp h.2
      obtain ⟨s, after, rfl, rfl, rfl⟩ := List.map_eq_cons_iff.mp htail
      rw [hrest] at hspans
      rw [ih hspans hspan, List.map_map, ← hrest]
      simp only [Span.shift, List.drop_drop]
      refine List.map_congr_left fun t _ => ?_
      simp only [Function.comp_apply, Span.shift, Nat.add_assoc]

/-- **A function whose name is `url` announces a string.** Where it stops the next token starts, and is a string
or a malformed one, or else white space of one code point where the next token of these starts. -/
theorem tokenize_urlFunction {before after : List Span} {span : Span}
    (h : (tokenize text).spans = before ++ span :: after) (htoken : span.token = .function name)
    (hname : sameLetters name "url" = true) : AnnouncedAt span.stop after := by
  have hspan : span.token ≠ .endOfFile := by
    rw [htoken]
    exact Token.noConfusion
  have hmem : span ∈ (tokenize text).spans := by
    rw [h]
    exact List.mem_append_right _ (List.mem_cons_self ..)
  obtain ⟨hvalue, hstop, -⟩ := readToken_of_mem_spans hmem
  rw [htoken] at hvalue
  have hident := readToken_of_function hvalue.symm
  rw [hident] at hvalue hstop
  have hannounces : Announces (text.drop span.stop) := by
    rw [hstop, ← List.drop_drop]
    exact announces_of_readIdentLike hvalue.symm hname
  rw [spans_behind h hspan]
  exact hannounces.announcedAt.shift span.stop

/-- With an escape in its name, more white space than is left, and a string that is malformed. -/
theorem tokenize_urlFunction_trimmed :
    (tokenize "a:u\\72 l( \r\n'b\n".toList).spans = [⟨.ident "a", 0, 1⟩, ⟨.colon, 1, 2⟩] ++
        ⟨.function "url", 2, 11⟩ :: [⟨.whitespace, 11, 12⟩, ⟨.badString, 12, 14⟩, ⟨.whitespace, 14, 15⟩,
          ⟨.endOfFile, 15, 15⟩] ∧
      sameLetters "url" "url" = true ∧
      AnnouncedAt 11 [⟨.whitespace, 11, 12⟩, ⟨.badString, 12, 14⟩, ⟨.whitespace, 14, 15⟩, ⟨.endOfFile, 15, 15⟩] := by
  have hspans : (tokenize "a:u\\72 l( \r\n'b\n".toList).spans = [⟨.ident "a", 0, 1⟩, ⟨.colon, 1, 2⟩] ++
      ⟨.function "url", 2, 11⟩ :: [⟨.whitespace, 11, 12⟩, ⟨.badString, 12, 14⟩, ⟨.whitespace, 14, 15⟩,
        ⟨.endOfFile, 15, 15⟩] := by
    decide +kernel
  have hname : sameLetters "url" "url" = true := by decide +kernel
  exact ⟨hspans, hname, tokenize_urlFunction hspans rfl hname⟩

end CssUrls.Lexical
