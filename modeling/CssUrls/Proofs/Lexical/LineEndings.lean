import CssUrls.Proofs.Lexical.InSource
import CssUrls.Proofs.Lexical.FaultAccount

/-! Line endings as they are written.

A text may be read before its line endings are made one kind: it has the tokens of its normal form, and
the faults of that, each at the code point it was written as. A reading stops within a line ending of
two code points in one place only, in front of the quoted argument of `url(`, and what it leaves there
is white space all the same (`Agrees`). Main statement: `tokenize_normalize`. -/
namespace CssUrls.Lexical
open Text

variable {α β : Type} {ps : List Point}

/-- The reading of the source of points is that of the points, but that it may take half of a line
ending that the other leaves. -/
structure Agrees (ps : List Point) (source reading : Reading α) : Prop where
  value : source.value = reading.value
  faults : source.faults = reading.faults.map (Fault.inSource ps)
  length : source.length = sourceIndex ps reading.length ∨
    source.length = sourceIndex ps reading.length + 1 ∧
      ∃ rest, ps.drop reading.length = pairPoint :: rest

theorem Agrees.of_eq {source reading : Reading α} (h : source = reading.inSource ps) :
    Agrees ps source reading := by
  subst h
  exact ⟨rfl, rfl, .inl rfl⟩

theorem Agrees.andThen {first : Reading α} {source reading : Reading β}
    (h : Agrees (ps.drop first.length) source reading) :
    Agrees ps ((first.inSource ps).andThen source) (first.andThen reading) := by
  refine ⟨h.value, ?_, ?_⟩
  · show first.faults.map (Fault.inSource ps) ++ _ = _
    rw [h.faults, Reading.andThen, List.map_append, Fault.map_inSource_shift]
    rfl
  · rw [Reading.andThen_length, Reading.andThen_length, sourceIndex_add, Reading.inSource_length,
      ← List.drop_drop]
    rcases h.length with hlength | ⟨hlength, hpair⟩
    · exact .inl (by rw [hlength])
    · exact .inr ⟨by rw [hlength, Nat.add_assoc], hpair⟩

/-! ### Comments -/

theorem commentPieces_source (h : Verbatim ps) :
    covered (pieces commentPiece (sourceOf ps)) =
      sourceIndex ps (covered (pieces commentPiece (ps.map Point.char))) := by
  have hone {c : Char} {rest : List Char} (hc : commentPiece c rest = some ⟨(), 0⟩) :
      covered (pieces commentPiece (c :: rest)) = 1 + covered (pieces commentPiece rest) := by
    rw [pieces_cons_of_some hc]
    rfl
  induction h with
  | nil => rw [sourceOf_nil, List.map_nil, pieces_nil]; rfl
  | @plain c ps hc h ih =>
    rw [sourceOf_plainPoint, List.map_cons, char_plainPoint]
    have hslash := h.startsWith_char_source (show '/' ≠ '\r' by decide) (show '/' ≠ '\n' by decide)
    by_cases hend : c = '*' ∧ startsWith (· == '/') (ps.map Point.char) = true
    · obtain ⟨rfl, hstart⟩ := hend
      rw [pieces_cons_of_none (by rw [commentPiece_star, hslash, if_pos hstart]),
        pieces_cons_of_none (by rw [commentPiece_star, if_pos hstart])]
      rfl
    · have hpiece {rest : List Char}
          (hrest : startsWith (· == '/') rest = startsWith (· == '/') (ps.map Point.char)) :
          commentPiece c rest = some ⟨(), 0⟩ := by
        by_cases hstar : c = '*'
        · subst hstar
          rw [commentPiece_star, hrest, if_neg fun hstart => hend ⟨rfl, hstart⟩]
        · exact commentPiece_plain hstar rest
      rw [hone (hpiece hslash), hone (hpiece rfl), ih, sourceIndex_plainPoint]
  | pair h ih =>
    rw [sourceOf_pairPoint, List.map_cons, char_pairPoint, hone (commentPiece_plain (by decide) _),
      hone (commentPiece_plain (by decide) _), hone (commentPiece_plain (by decide) _), ih,
      sourceIndex_pairPoint]
  | single hnext h ih =>
    rw [sourceOf_returnPoint, List.map_cons, char_returnPoint, hone (commentPiece_plain (by decide) _),
      hone (commentPiece_plain (by decide) _), ih, sourceIndex_returnPoint]

theorem wholeComment_foundAlike : FoundAlike wholeComment := by
  intro ps h
  cases h with
  | nil => exact .none
  | @plain c ps hc h =>
    show Option.Rel _ (wholeComment c (sourceOf ps)) (wholeComment c (ps.map Point.char))
    by_cases hslash : c = '/'
    · subst hslash
      cases h with
      | nil => exact .none
      | @plain d ps hd h =>
        rw [sourceOf_plainPoint, List.map_cons, char_plainPoint]
        by_cases hstar : d = '*'
        · subst hstar
          have hends := ends_drop (ps.map Point.char)
          simp only [wholeComment, commentPieces_source h, drop_sourceIndex, ← List.map_drop,
            (h.drop _).isEmpty_source] at hends ⊢
          generalize covered (pieces commentPiece (ps.map Point.char)) = n at *
          have hlength (m : Nat) :
              sourceIndex (plainPoint '/' :: plainPoint '*' :: ps) (1 + m + 1) = 1 + sourceIndex ps m + 1 := by
            rw [Nat.add_comm _ 1, sourceIndex_plainPoint, sourceIndex_plainPoint, Nat.add_comm]
          split
          · exact .some ⟨rfl, (hlength n).symm⟩
          · have hend : ∀ c ∈ ['*', '/'], c ≠ '\r' ∧ c ≠ '\n' := by simp
            have hmark := (h.drop n).sourceIndex_of_isPrefixOf hend
              (List.isPrefixOf_iff_prefix.mpr (hends (Bool.not_eq_true _ ▸ ‹_›)))
            refine .some ⟨rfl, ?_⟩
            show 1 + sourceIndex ps n + 2 + 1 = sourceIndex _ (1 + n + 2 + 1)
            rw [Nat.add_assoc 1 n, hlength, sourceIndex_add, Nat.add_assoc 1]
            exact congrArg (fun m => 1 + (sourceIndex ps n + m) + 1) hmark.symm
        · rw [wholeComment_slash hstar, wholeComment_slash hstar]
          exact .none
      | pair h | single hnext h => exact .none
    · rw [wholeComment_plain hslash, wholeComment_plain hslash]
      exact .none
  | pair h | single hnext h => exact .none

theorem readComments_source (h : Verbatim ps) :
    readComments (sourceOf ps) = (readComments (ps.map Point.char)).inSource ps := by
  have hpieces := pieces_inSource wholeComment_foundAlike h
  simp only [readComments, Reading.inSource, hpieces.covered_eq, hpieces.startsWhere_eq, List.map_map]
  rfl

/-! ### What a name opens -/

/-- The white space before a quote is cut to one code point, which may be half of a line ending. -/
theorem readUrlFunction_agrees (h : Verbatim ps) (name : String) :
    Agrees ps (readUrlFunction name (sourceOf ps)) (readUrlFunction name (ps.map Point.char)) := by
  have hcount := h.countOf_source isWhitespace rfl
  have hle := countOf_le isWhitespace (ps.map Point.char)
  rw [List.length_map] at hle
  simp only [readUrlFunction, hcount, drop_sourceIndex, ← List.map_drop]
  have hrest := h.drop (countOf isWhitespace (ps.map Point.char))
  rw [hrest.startsWith_source isQuote rfl]
  split
  · refine ⟨rfl, rfl, ?_⟩
    cases hn : countOf isWhitespace (ps.map Point.char) with
    | zero => exact .inl rfl
    | succ n =>
      rw [hn] at hle
      rw [Reading.plain_length, Reading.plain_length, Nat.add_sub_cancel, sourceIndex_add]
      have hlast := h.drop n
      cases hdrop : ps.drop n with
      | nil =>
        rw [List.drop_eq_nil_iff] at hdrop
        omega
      | cons p rest =>
        rw [hdrop] at hlast
        cases hlast with
        | plain hc hlast => exact .inl rfl
        | pair hlast => exact .inr ⟨rfl, rest, rfl⟩
        | single hnext hlast => exact .inl rfl
  · refine .of_eq ?_
    rw [readUrl_source hrest, Reading.inSource_behind]

theorem readIdentLike_agrees (h : Verbatim ps) :
    Agrees ps (readIdentLike (sourceOf ps)) (readIdentLike (ps.map Point.char)) := by
  have hname := readName_source h
  have hsource := drop_sourceIndex ps (readName (ps.map Point.char)).length
  have hchars := List.map_drop (f := Point.char) (l := ps) (i := (readName (ps.map Point.char)).length)
  have hrest := h.drop (readName (ps.map Point.char)).length
  have hindex : (readName (sourceOf ps)).length = sourceIndex ps (readName (ps.map Point.char)).length := by
    rw [hname, Reading.inSource_length]
  rw [← hindex] at hsource
  cases hopen : startsWith (· == '(') ((ps.drop (readName (ps.map Point.char)).length).map Point.char) with
  | false =>
    have hopen' := (hrest.startsWith_char_source (c := '(') (by decide) (by decide)).trans hopen
    rw [readIdentLike_plain (by rw [hsource, hopen']), readIdentLike_plain (by rw [← hchars, hopen]), hname]
    exact .of_eq rfl
  | true =>
    cases hdrop : ps.drop (readName (ps.map Point.char)).length with
    | nil =>
      rw [hdrop] at hopen
      contradiction
    | cons p rest =>
      rw [hdrop] at hrest hsource hchars hopen
      cases hrest with
      | @plain c rest hc hrest =>
        rw [List.map_cons, startsWith_cons, char_plainPoint, beq_iff_eq] at hopen
        subst hopen
        have hparen : ((readName (ps.map Point.char)).andThen (.plain 1 ())).inSource ps =
            ((readName (ps.map Point.char)).inSource ps).andThen (.plain 1 ()) := by
          rw [Reading.inSource_andThen, Reading.inSource_plain, hdrop]
          rfl
        have hvalue : ((readName (ps.map Point.char)).inSource ps).value =
            (readName (ps.map Point.char)).value := rfl
        rw [readIdentLike_opened hsource, readIdentLike_opened hchars.symm, hname, ← hparen, hvalue]
        by_cases hurl : sameLetters (readName (ps.map Point.char)).value "url" = true
        · rw [if_pos hurl, if_pos hurl]
          refine .andThen ?_
          rw [Reading.andThen_length, Reading.plain_length, ← List.drop_drop, hdrop]
          exact readUrlFunction_agrees hrest _
        · rw [if_neg hurl, if_neg hurl]
          exact .of_eq rfl
      | pair hrest | single hnext hrest => contradiction

/-! ### Marks -/

theorem readMatch_source (h : Verbatim ps) (mark : Char) (token : Token) :
    readMatch mark token (sourceOf ps) =
      (readMatch mark token (ps.map Point.char)).inSource (plainPoint mark :: ps) := by
  rw [readMatch, readMatch, h.startsWith_char_source (c := '=') (by decide) (by decide)]
  split
  · have hone := h.sourceIndex_one (c := '=') (by decide) (by decide) ‹_›
    rw [Reading.inSource_plain, sourceIndex_plainPoint mark ps 1, hone]
  · rfl

theorem readBar_source (h : Verbatim ps) :
    readBar (sourceOf ps) = (readBar (ps.map Point.char)).inSource (plainPoint '|' :: ps) := by
  rw [readBar, readBar, h.startsWith_char_source (c := '|') (by decide) (by decide)]
  split
  · have hone := h.sourceIndex_one (c := '|') (by decide) (by decide) ‹_›
    rw [Reading.inSource_plain, sourceIndex_plainPoint '|' ps 1, hone]
  · exact readMatch_source h '|' .dashMatch

theorem readLess_source (h : Verbatim ps) :
    readLess (sourceOf ps) = (readLess (ps.map Point.char)).inSource (plainPoint '<' :: ps) := by
  have hmark : ∀ c ∈ ['!', '-', '-'], c ≠ '\r' ∧ c ≠ '\n' := by simp
  rw [readLess, readLess, h.isPrefixOf_source hmark]
  split
  · have hthree := h.sourceIndex_of_isPrefixOf hmark ‹_›
    rw [Reading.inSource_plain, sourceIndex_plainPoint '<' ps 3]
    exact congrArg (fun n => Reading.plain (1 + n) Token.cdo) hthree.symm
  · rfl

theorem readHash_source (h : Verbatim ps) :
    readHash (sourceOf ps) = (readHash (ps.map Point.char)).inSource (plainPoint '#' :: ps) := by
  rw [readHash, readHash, h.startsWith_source isNamePart rfl, startsEscape_source h,
    startsIdentifier_source h, readName_source h]
  split
  · rw [Reading.inSource_behind, Reading.inSource_map]
    rfl
  · rfl

theorem readAtKeyword_source (h : Verbatim ps) :
    readAtKeyword (sourceOf ps) = (readAtKeyword (ps.map Point.char)).inSource (plainPoint '@' :: ps) := by
  rw [readAtKeyword, readAtKeyword, startsIdentifier_source h, readName_source h]
  split
  · rw [Reading.inSource_behind, Reading.inSource_map]
    rfl
  · rfl

theorem readPointOrPlus_source {c : Char} (h : Verbatim (plainPoint c :: ps)) :
    readPointOrPlus c (sourceOf ps) =
      (readPointOrPlus c (ps.map Point.char)).inSource (plainPoint c :: ps) := by
  have hstarts := startsNumeral_source h
  have hnumber := readNumber_source h
  rw [sourceOf_plainPoint, List.map_cons, char_plainPoint] at hstarts hnumber
  rw [readPointOrPlus, readPointOrPlus, hstarts]
  split
  · exact hnumber
  · rfl

theorem readHyphen_agrees (h : Verbatim (plainPoint '-' :: ps)) :
    Agrees (plainPoint '-' :: ps) (readHyphen (sourceOf ps)) (readHyphen (ps.map Point.char)) := by
  have hstarts := startsNumeral_source h
  have hnumber := readNumber_source h
  have hidentifier := startsIdentifier_source h
  have hident := readIdentLike_agrees h
  have hmark : ∀ c ∈ ['-', '>'], c ≠ '\r' ∧ c ≠ '\n' := by simp
  rw [sourceOf_plainPoint, List.map_cons, char_plainPoint] at hstarts hnumber hidentifier hident
  rw [readHyphen, readHyphen, hstarts, h.tail.isPrefixOf_source hmark, hidentifier]
  split
  · exact .of_eq hnumber
  · split
    · have htwo := h.tail.sourceIndex_of_isPrefixOf hmark ‹_›
      refine .of_eq ?_
      rw [Reading.inSource_plain, sourceIndex_plainPoint '-' ps 2]
      exact congrArg (fun n => Reading.plain (1 + n) Token.cdc) htwo.symm
    · split
      · exact hident
      · exact .of_eq rfl

theorem readBackslash_agrees (h : Verbatim (plainPoint '\\' :: ps)) :
    Agrees (plainPoint '\\' :: ps) (readBackslash (sourceOf ps)) (readBackslash (ps.map Point.char)) := by
  have hescape := startsEscape_source h
  have hident := readIdentLike_agrees h
  rw [sourceOf_plainPoint, List.map_cons, char_plainPoint] at hescape hident
  rw [readBackslash, readBackslash, hescape]
  split
  · exact hident
  · exact .of_eq rfl

theorem readMark_agrees {c : Char} (h : Verbatim (plainPoint c :: ps)) :
    Agrees (plainPoint c :: ps) (readMark c (sourceOf ps)) (readMark c (ps.map Point.char)) := by
  unfold readMark
  split
  · exact .of_eq (readHash_source h.tail)
  · exact .of_eq (readMatch_source h.tail ..)
  · exact .of_eq (readMatch_source h.tail ..)
  · exact .of_eq (readMatch_source h.tail ..)
  · exact .of_eq (readMatch_source h.tail ..)
  · exact .of_eq (readBar_source h.tail)
  · exact .of_eq (readPointOrPlus_source h)
  · exact .of_eq (readPointOrPlus_source h)
  · exact readHyphen_agrees h
  · exact .of_eq (readLess_source h.tail)
  · exact .of_eq (readAtKeyword_source h.tail)
  · exact readBackslash_agrees h
  · exact .of_eq rfl

/-! ### Tokens -/

theorem isNewline_of_isQuote {c : Char} (h : isQuote c = true) : isNewline c = false := by
  rw [isQuote, Bool.or_eq_true, beq_iff_eq, beq_iff_eq] at h
  rcases h with rfl | rfl <;> rfl

/-- **The token at the front of the source is that at the front of the points.** -/
theorem readToken_agrees (h : Verbatim ps) :
    Agrees ps (readToken (sourceOf ps)) (readToken (ps.map Point.char)) := by
  have hcount := h.countOf_source isWhitespace rfl
  have hnumber := readNumber_source h
  have hident := readIdentLike_agrees h
  cases h with
  | nil => exact .of_eq rfl
  | @plain c ps hc h =>
    rw [sourceOf_plainPoint, List.map_cons, char_plainPoint] at *
    unfold readToken
    cases hpunctuation : punctuation? c with
    | some token =>
      simp only [hpunctuation]
      exact .of_eq rfl
    | none =>
      simp only [hpunctuation]
      split
      · refine .of_eq ?_
        rw [hcount, Reading.inSource_plain]
      · split
        · exact .of_eq (readQuoted_source h (isNewline_of_isQuote ‹_›))
        · split
          · exact .of_eq hnumber
          · split
            · exact hident
            · exact readMark_agrees (.plain hc h)
  | pair h | single hnext h =>
    simp only [sourceOf_pairPoint, sourceOf_returnPoint, List.map_cons, char_pairPoint,
      char_returnPoint] at hcount ⊢
    rw [readToken_whitespace (by decide), readToken_whitespace (by decide), hcount]
    exact .of_eq rfl

theorem readLexeme_agrees (h : Verbatim ps) :
    Agrees ps (readLexeme (sourceOf ps)) (readLexeme (ps.map Point.char)) := by
  have hcomments := readComments_source h
  have htoken := readToken_agrees (h.drop (readComments (ps.map Point.char)).length)
  rw [← drop_sourceIndex, ← Reading.inSource_length, ← hcomments, List.map_drop] at htoken
  rw [readLexeme, hcomments]
  exact .andThen htoken

/-! ### Texts -/

/-- A text that starts with white space has no fault at its start. -/
theorem position_pos_of_whitespace {c : Char} (h : isWhitespace c = true) (rest : List Char) :
    ∀ f ∈ (tokenize (c :: rest)).faults, 0 < f.position := by
  have hlexeme := readLexeme_whitespace h rest
  have hpos : 0 < countOf isWhitespace (c :: rest) := countOf_pos h
  rw [(tokenize_of_ne_endOfFile (by rw [hlexeme]; exact Token.noConfusion)).2, hlexeme]
  intro f hf
  obtain ⟨g, -, rfl⟩ := List.mem_map.mp hf
  exact Nat.add_pos_left hpos _

theorem tokenize_source (h : Verbatim ps) :
    (tokenize (sourceOf ps)).spans.map Span.token = (tokenize (ps.map Point.char)).spans.map Span.token ∧
      (tokenize (sourceOf ps)).faults = (tokenize (ps.map Point.char)).faults.map (Fault.inSource ps) := by
  generalize hn : ps.length = n
  induction n using Nat.strongRecOn generalizing ps with
  | ind n ih =>
    subst hn
    have hagrees := readLexeme_agrees h
    by_cases hend : (readLexeme (ps.map Point.char)).value = .endOfFile
    · have hsource := tokenize_of_endOfFile (hagrees.value.trans hend)
      have hnormal := tokenize_of_endOfFile hend
      exact ⟨hsource.1.trans hnormal.1.symm, by rw [hsource.2, hnormal.2, hagrees.faults]⟩
    · have hsource := tokenize_of_ne_endOfFile (fun e => hend (hagrees.value.symm.trans e))
      have hnormal := tokenize_of_ne_endOfFile hend
      have hpos := readLexeme_length_pos hend
      have hdrop (n : Nat) : (ps.map Point.char).drop n = (ps.drop n).map Point.char := List.map_drop.symm
      have hle := readLexeme_length_le (ps.map Point.char)
      rw [List.length_map] at hle
      generalize readLexeme (ps.map Point.char) = lexeme at *
      generalize readLexeme (sourceOf ps) = lexeme' at *
      have hlt : (ps.drop lexeme.length).length < ps.length := by
        rw [List.length_drop]
        omega
      rw [hdrop] at hnormal
      rw [hsource.1, hsource.2, hnormal.1, hnormal.2, hagrees.value, hagrees.faults, List.map_append,
        Fault.map_inSource_shift]
      rcases hagrees.length with hlength | ⟨hlength, rest, hpair⟩
      · have hrest := ih _ hlt (h.drop lexeme.length) rfl
        rw [hlength, drop_sourceIndex, hrest.1, hrest.2]
        exact ⟨rfl, rfl⟩
      -- The half that is left is a line feed of its own.
      · have hverbatim := h.drop lexeme.length
        rw [hpair] at hverbatim hlt
        have hrest := ih _ hlt (.plain (c := '\n') (by decide) hverbatim.tail) rfl
        have hleft : (sourceOf ps).drop lexeme'.length = sourceOf (plainPoint '\n' :: rest) := by
          rw [hlength, ← List.drop_drop, drop_sourceIndex, hpair]
          rfl
        rw [hleft, hrest.1, hrest.2, hpair]
        refine ⟨rfl, congrArg _ ?_⟩
        rw [List.map_map, List.map_map]
        refine List.map_congr_left fun f hf => ?_
        have hpos := position_pos_of_whitespace (by decide) _ f hf
        obtain ⟨flaw, n⟩ := f
        cases n with
        | zero => contradiction
        | succ n =>
          show Fault.mk flaw (lexeme'.length + sourceIndex (plainPoint '\n' :: rest) (n + 1)) =
            ⟨flaw, sourceIndex ps lexeme.length + sourceIndex (pairPoint :: rest) (n + 1)⟩
          rw [hlength, sourceIndex_succ, sourceIndex_succ]
          congr 1
          show _ + 1 + (1 + sourceIndex rest n) = _ + (2 + sourceIndex rest n)
          omega

/-- **Line endings may be read as they are written.** A text without NUL has the tokens of its normal
form, and its faults are those of the normal form, each where in the text the code point of the normal
form was written that it is at. -/
theorem tokenize_normalize {text : List Char} (h : '\x00' ∉ text) :
    (tokenize text).spans.map Span.token = (tokenize (normalize text)).spans.map Span.token ∧
      (tokenize text).faults = (tokenize (normalize text)).faults.map (Fault.inSource (points text)) ∧
      ∀ f ∈ (tokenize (normalize text)).faults, f.position ≤ (normalize text).length := by
  have hsource := tokenize_source (verbatim_points h)
  rw [sourceOf_points] at hsource
  exact ⟨hsource.1, hsource.2, tokenize_within _⟩

/-- A carriage return and a line feed are parted where white space is cut in front of a quote, and where a string
breaks off at them. -/
theorem tokenize_normalize_halfPair :
    '\x00' ∉ "url(\r\n\"a\r\n".toList ∧
      (tokenize "url(\r\n\"a\r\n".toList).spans.map Span.token =
        [.function "url", .whitespace, .badString, .whitespace, .endOfFile] ∧
      (tokenize "url(\r\n\"a\r\n".toList).faults = [⟨.newlineInString, 8⟩] ∧
      (tokenize (normalize "url(\r\n\"a\r\n".toList)).faults = [⟨.newlineInString, 7⟩] := by
  have hnul : '\x00' ∉ "url(\r\n\"a\r\n".toList := by decide
  have hagrees := tokenize_normalize hnul
  have hspans : (tokenize (normalize "url(\r\n\"a\r\n".toList)).spans.map Span.token =
      [.function "url", .whitespace, .badString, .whitespace, .endOfFile] := by decide +kernel
  have hfaults : (tokenize (normalize "url(\r\n\"a\r\n".toList)).faults = [⟨.newlineInString, 7⟩] := by
    decide +kernel
  refine ⟨hnul, hagrees.1.trans hspans, hagrees.2.1.trans ?_, hfaults⟩
  rw [hfaults]
  decide +kernel

end CssUrls.Lexical
