import CssUrls.Proofs.Css.QuotedReread
import CssUrls.Proofs.Lexical.UnquotedUrls

/-! One URL, with quotes and without.

What may stand for a URL without quotes stands for the same text inside of quotes, since both readers take it
apart in the same way (`takesRun_urlPiece`, `takesRun_quotedPiece`). Only the tokens differ: without quotes the
URL is one, with quotes it is a function, a string and a parenthesis, and white space between them. Main
statement: `url_same_quoted`. -/
namespace CssUrls
open Text Lexical Css

variable {before body after url rest : List Char} {quote : Char}

/-! ### Both spellings -/

/-- A URL between its parentheses, with white space on either side. -/
def bareUrl (before body after : List Char) : List Char := "url(".toList ++ (before ++ (body ++ after) ++ [')'])

/-- The same between quotes. -/
def quotedUrl (quote : Char) (before body after : List Char) : List Char :=
  bareUrl before (quote :: (body ++ [quote])) after

/-- The URL is found at the front of the tokens of a text, up to where `rest` starts. -/
def FindsUrl (url : String) (front rest : List Char) : Prop :=
  ∃ first more taken, (tokenize (front ++ rest)).spans = first :: more ∧
    construct? first more = some ⟨⟨url, 0, front.length⟩, taken⟩

/-! ### Lexemes -/

/-- Lexemes that are a URL are found as it. -/
theorem findsUrl_of_lexemes {front : List Char} {first : Lexeme} {more : List Lexeme} {url : String}
    (h : lexemes (front ++ rest) = first :: (more ++ lexemes rest)) (hgap : first.gap = [])
    (htext : textOf (first :: more) = front) (hurl : SpellsUrl (tokensOf (first :: more)) url) :
    FindsUrl url front rest := by
  subst htext
  have hspans : (tokenize (textOf (first :: more) ++ rest)).spans =
      ⟨first.token, 0, first.text.length⟩ :: (spansFrom first.text.length more ++
        spansFrom (first.text.length + (textOf more).length) (lexemes rest)) := by
    rw [tokenize_spans, h, spansFrom, spansFrom_append, hgap]
    simp only [List.length_nil, Nat.zero_add]
  have hfound : construct? ⟨first.token, 0, first.text.length⟩ (spansFrom first.text.length more ++
      spansFrom (first.text.length + (textOf more).length) (lexemes rest)) =
      some ⟨⟨url, 0, reach first.text.length (spansFrom first.text.length more)⟩,
        (spansFrom first.text.length more).length⟩ := by
    apply construct?_eq_some
    rw [spansFrom_token]
    exact hurl
  have hlength : first.text.length + (textOf more).length = (textOf (first :: more)).length := by
    rw [textOf_cons, List.length_append]
  rw [hlength] at hspans hfound
  rw [reach_spansFrom, hlength] at hfound
  exact ⟨_, _, _, hspans, hfound⟩

/-- White space is one lexeme, if there is any. -/
theorem exists_blankLexemes {blank : List Char} (hblank : ∀ c ∈ blank, isWhitespace c = true)
    (hrest : startsWith isWhitespace rest = false) :
    ∃ ls n, lexemes (blank ++ rest) = ls ++ lexemes rest ∧ textOf ls = blank ∧
      tokensOf ls = List.replicate n .whitespace := by
  cases blank with
  | nil => exact ⟨[], 0, rfl, rfl, rfl⟩
  | cons c blank =>
    have hc := hblank c (List.mem_cons_self ..)
    have hcount : countOf isWhitespace (c :: blank ++ rest) = (c :: blank).length := by
      rw [countOf_append_of_forall hblank, countOf_eq_zero hrest, Nat.add_zero]
    have hslash : c ≠ '/' := ne_of_inClass hc rfl
    have hread : readToken (c :: blank ++ rest) = .plain (c :: blank).length .whitespace := by
      rw [List.cons_append, readToken_whitespace hc, ← List.cons_append, hcount]
    refine ⟨[⟨[], c :: blank, .whitespace⟩], 1, ?_, List.append_nil _, rfl⟩
    exact lexemes_of_readToken (readComments_of_ne_slash hslash _) hread Token.noConfusion

/-! ### Strings -/

theorem takesRun_quotedPiece (hquote : isQuote quote = true) : TakesRun isUrlPart (quotedPiece quote) where
  plain c rest hc := by
    have hescape : c ≠ '\\' := ne_of_inClass hc rfl
    have hne : c ≠ quote := (ne_of_inClass hquote (isQuote_of_isUrlPart hc)).symm
    have hnewline : isNewline c = false := isNewline_eq_false (isWhitespace_of_isUrlPart hc)
    rw [quotedPiece_plain quote hescape, beq_eq_false_iff_ne.mpr hne, hnewline]
    rfl
  escape rest hnewline := quotedPiece_escape quote hnewline

/-- What stands for a URL without quotes is read as the same between quotes. -/
theorem readToken_quotedRun (hquote : isQuote quote = true) (h : SpellsRun isUrlPart url body)
    (rest : List Char) :
    readToken (quote :: (body ++ [quote]) ++ rest) =
      .plain (quote :: (body ++ [quote])).length (.string (String.ofList url)) := by
  obtain ⟨hwhite, hhex, hescape, -⟩ := classes_of_isQuote hquote
  have hread : readToken (quote :: (body ++ quote :: rest)) = readQuoted quote (body ++ quote :: rest) := by
    rw [isQuote, Bool.or_eq_true, beq_iff_eq, beq_iff_eq] at hquote
    obtain rfl | rfl := hquote <;> rfl
  have hstop : startsWith isHexDigit (quote :: rest) = false := hhex
  have hblank : countOf isWhitespace (quote :: rest) = 0 := countOf_eq_zero hwhite
  obtain ⟨ps, k, hpieces, hvalue, hcovered, hk⟩ := h.exists_pieces (takesRun_quotedPiece hquote)
    (fun c => isWhitespace_of_isUrlPart) hstop
  rw [hblank, Nat.le_zero] at hk
  subst hk
  have hend : pieces (quotedPiece quote) (quote :: rest) = [] := by
    apply pieces_cons_of_none
    rw [quotedPiece_plain quote hescape, beq_self_eq_true]
    rfl
  rw [List.drop_zero, hend, List.append_nil] at hpieces
  have htext : ps.filterMap Piece.value = url := by
    have hmap : ps.filterMap Piece.value = (ps.map Piece.value).filterMap id := by
      rw [List.filterMap_map]
      rfl
    rw [hmap, hvalue, List.filterMap_map]
    exact List.filterMap_some
  have happend : quote :: (body ++ [quote]) ++ rest = quote :: (body ++ quote :: rest) := by simp
  have hlength : 1 + body.length + 1 = (quote :: (body ++ [quote])).length := by
    simp only [List.length_cons, List.length_append, List.length_nil]
    omega
  rw [happend, hread]
  simp only [readQuoted, hpieces, htext, hcovered, Nat.add_zero, List.drop_left, beq_self_eq_true, if_true,
    hlength]
  rfl

/-! ### The function -/

/-- Before a quote `url(` is a function, which leaves no more than one white space. -/
theorem readToken_function_quoted (hquote : isQuote quote = true)
    (hbefore : ∀ c ∈ before, isWhitespace c = true) (rest : List Char) :
    readToken ("url(".toList ++ (before ++ quote :: rest)) =
      .plain (4 + (before.length - 1)) (.function "url") := by
  have hblank : countOf isWhitespace (quote :: rest) = 0 := countOf_eq_zero (classes_of_isQuote hquote).1
  have hcount : countOf isWhitespace (before ++ quote :: rest) = before.length := by
    rw [countOf_append_of_forall hbefore, hblank, Nat.add_zero]
  apply readToken_urlFunction
  simp only [readUrlFunction, hcount, List.drop_left, startsWith_cons, hquote, if_true]

/-! ### URLs -/

theorem lexemes_bareUrl (hbefore : ∀ c ∈ before, isWhitespace c = true) (h : SpellsRun isUrlPart url body)
    (hafter : ∀ c ∈ after, isWhitespace c = true) (rest : List Char) :
    lexemes (bareUrl before body after ++ rest) =
      ⟨[], bareUrl before body after, .url (String.ofList url)⟩ :: lexemes rest := by
  have hargument : SpellsArgument url (before ++ (body ++ after)) := ⟨before, body, after, rfl, hbefore, h, hafter⟩
  have hread := readToken_urlFunction (hargument.readUrlFunction_eq "url" rest)
  have hsplit : bareUrl before body after ++ rest =
      "url(".toList ++ (before ++ (body ++ after) ++ ')' :: rest) := by
    simp [bareUrl]
  have hlength : 4 + ((before ++ (body ++ after)).length + 1) = (bareUrl before body after).length := by
    simp only [bareUrl, List.length_append]
    rfl
  rw [← hsplit, hlength] at hread
  exact lexemes_of_readToken (readComments_of_ne_slash (show 'u' ≠ '/' by decide) _) hread Token.noConfusion

theorem exists_lexemes_quotedUrl (hquote : isQuote quote = true) (hbefore : ∀ c ∈ before, isWhitespace c = true)
    (h : SpellsRun isUrlPart url body) (hafter : ∀ c ∈ after, isWhitespace c = true) (rest : List Char) :
    ∃ first more m n, lexemes (quotedUrl quote before body after ++ rest) = first :: (more ++ lexemes rest) ∧
      first.gap = [] ∧ textOf (first :: more) = quotedUrl quote before body after ∧
      tokensOf (first :: more) = .function "url" :: (List.replicate m .whitespace ++ .string (String.ofList url) ::
        (List.replicate n .whitespace ++ [.closeParen])) := by
  -- The function takes all white space but the last.
  obtain ⟨taken, kept, rfl, htaken⟩ : ∃ taken kept, before = taken ++ kept ∧ taken.length = before.length - 1 :=
    ⟨before.take (before.length - 1), before.drop (before.length - 1), (List.take_append_drop ..).symm,
      List.length_take_of_le (Nat.sub_le ..)⟩
  have hkept : ∀ c ∈ kept, isWhitespace c = true := fun c hc => hbefore c (List.mem_append_right _ hc)
  have hopen : startsWith isWhitespace (quote :: (body ++ [quote]) ++ (after ++ ([')'] ++ rest))) = false :=
    (classes_of_isQuote hquote).1
  have hclose : startsWith isWhitespace ([')'] ++ rest) = false := rfl
  obtain ⟨blanks, m, hblanks, htext, htokens⟩ := exists_blankLexemes hkept hopen
  obtain ⟨blanks', n, hblanks', htext', htokens'⟩ := exists_blankLexemes hafter hclose
  have hfunction : readToken ("url(".toList ++ taken ++
      (kept ++ (quote :: (body ++ [quote]) ++ (after ++ ([')'] ++ rest))))) =
      .plain ("url(".toList ++ taken).length (.function "url") := by
    have hread := readToken_function_quoted hquote hbefore (body ++ [quote] ++ (after ++ ([')'] ++ rest)))
    rw [List.append_assoc taken, ← htaken] at hread
    rw [List.append_assoc, List.length_append]
    exact hread
  have hfirst := lexemes_of_readToken (readComments_of_ne_slash (show 'u' ≠ '/' by decide) _) hfunction
    Token.noConfusion
  have hstring := lexemes_of_readToken (readComments_of_ne_slash (classes_of_isQuote hquote).2.2.2 _)
    (readToken_quotedRun hquote h (after ++ ([')'] ++ rest))) Token.noConfusion
  have hparen : lexemes ([')'] ++ rest) = ⟨[], [')'], .closeParen⟩ :: lexemes rest :=
    lexemes_of_readToken (readComments_of_ne_slash (by decide) _) rfl Token.noConfusion
  refine ⟨⟨[], "url(".toList ++ taken, .function "url"⟩, blanks ++ ⟨[], quote :: (body ++ [quote]),
    .string (String.ofList url)⟩ :: (blanks' ++ [⟨[], [')'], .closeParen⟩]), m, n, ?_, rfl, ?_, ?_⟩
  · have hsplit : quotedUrl quote (taken ++ kept) body after ++ rest = "url(".toList ++ taken ++
        (kept ++ (quote :: (body ++ [quote]) ++ (after ++ ([')'] ++ rest)))) := by
      simp [quotedUrl, bareUrl]
    rw [hsplit, hfirst, hblanks, hstring, hblanks', hparen]
    simp
  · simp [Lexeme.text, htext, htext', quotedUrl, bareUrl]
  · unfold tokensOf at htokens htokens' ⊢
    rw [List.map_cons, List.map_append, List.map_cons, List.map_append, htokens, htokens']
    rfl

theorem tokens_of_lexemes {text : List Char} {run : List Lexeme} (h : lexemes text = run ++ lexemes rest) :
    (tokenize text).spans.map Span.token = tokensOf run ++ (tokenize rest).spans.map Span.token := by
  rw [tokenize_spans, tokenize_spans, spansFrom_token, spansFrom_token, h]
  exact List.map_append

/-- **The same URL is found with quotes and without**, up to the same parenthesis, and the tokens behind that are
the same. -/
theorem url_same_quoted (hbefore : ∀ c ∈ before, isWhitespace c = true) (h : SpellsRun isUrlPart url body)
    (hafter : ∀ c ∈ after, isWhitespace c = true) (rest : List Char) :
    (tokenize (bareUrl before body after ++ rest)).spans.map Span.token =
        .url (String.ofList url) :: (tokenize rest).spans.map Span.token ∧
      FindsUrl (String.ofList url) (bareUrl before body after) rest ∧
      ∀ quote, isQuote quote = true →
        (∃ m n, (tokenize (quotedUrl quote before body after ++ rest)).spans.map Span.token =
          .function "url" :: (List.replicate m .whitespace ++ .string (String.ofList url) ::
            (List.replicate n .whitespace ++ .closeParen :: (tokenize rest).spans.map Span.token))) ∧
        FindsUrl (String.ofList url) (quotedUrl quote before body after) rest := by
  have hbare : lexemes (bareUrl before body after ++ rest) =
      [⟨[], bareUrl before body after, .url (String.ofList url)⟩] ++ lexemes rest :=
    lexemes_bareUrl hbefore h hafter rest
  refine ⟨tokens_of_lexemes hbare, findsUrl_of_lexemes hbare rfl (List.append_nil _) (.bare _), ?_⟩
  intro quote hquote
  obtain ⟨first, more, m, n, hlexemes, hgap, htext, htokens⟩ :=
    exists_lexemes_quotedUrl hquote hbefore h hafter rest
  refine ⟨⟨m, n, ?_⟩, ?_⟩
  · rw [← List.cons_append] at hlexemes
    rw [tokens_of_lexemes hlexemes, htokens]
    simp only [List.cons_append, List.append_assoc, List.nil_append]
  · apply findsUrl_of_lexemes hlexemes hgap htext
    rw [htokens]
    exact .quoted "url" _ m n (sameLetters_self _)

/-- An escape for a quote, and a number in front of more white space than it takes. -/
theorem url_same_quoted_escapes :
    let body := ['\\', '\'', '\\', '6', '2']
    (∀ c ∈ [' ', '\n'], isWhitespace c = true) ∧ SpellsRun isUrlPart ['\'', 'b'] body ∧
      String.ofList (bareUrl [' ', '\n'] body [' ', '\n']) = "url( \n\\'\\62 \n)" ∧
      String.ofList (quotedUrl '\'' [' ', '\n'] body [' ', '\n']) = "url( \n'\\'\\62' \n)" ∧
      (tokenize (bareUrl [' ', '\n'] body [' ', '\n'] ++ ['/'])).spans.map Span.token =
        [.url "'b", .delim '/', .endOfFile] ∧
      FindsUrl "'b" (bareUrl [' ', '\n'] body [' ', '\n']) ['/'] ∧
      FindsUrl "'b" (quotedUrl '\'' [' ', '\n'] body [' ', '\n']) ['/'] := by
  intro body
  have hblank : ∀ c ∈ [' ', '\n'], isWhitespace c = true := List.all_eq_true.mp (by decide)
  have hnumber : Escapes 'b' (['6', '2'] ++ []) := by
    have hb : scalar (hexValue ['6', '2']) = 'b' := by decide
    rw [← hb]
    exact .number (List.all_eq_true.mp (by decide)) (by decide) (by decide) .none
  have hself : Escapes '\'' ['\''] := .self (by decide) (by decide)
  have hrun : SpellsRun isUrlPart ['\'', 'b'] body :=
    .escape hself (by decide) (.escape hnumber (by decide) .nil)
  have hurl : String.ofList ['\'', 'b'] = "'b" := rfl
  have hslash : (tokenize ['/']).spans.map Span.token = [.delim '/', .endOfFile] := by decide +kernel
  obtain ⟨htokens, hbare, hquoted⟩ := url_same_quoted hblank hrun hblank ['/']
  rw [hurl] at hbare
  rw [hslash, hurl] at htokens
  have hfound := (hquoted '\'' rfl).2
  rw [hurl] at hfound
  exact ⟨hblank, hrun, rfl, rfl, htokens, hbare, hfound⟩

end CssUrls
