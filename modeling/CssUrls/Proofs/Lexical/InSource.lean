import CssUrls.Proofs.Text.LineEndings
import CssUrls.Proofs.Lexical.Lookahead

/-! Readings of a text, found in what it was written as.

Each reader finds in the source of points what it finds among the points, and where that stands in the
source (`Reading.inSource`): a line ending of two code points is taken whole or left whole. -/
namespace CssUrls.Lexical
open Text

variable {α β : Type} {ps : List Point}

/-- A fault among points, in their source. -/
def Fault.inSource (ps : List Point) (f : Fault) : Fault := { f with position := sourceIndex ps f.position }

/-- A reading of points, in their source. -/
def Reading.inSource (ps : List Point) (r : Reading α) : Reading α :=
  ⟨r.value, sourceIndex ps r.length, r.faults.map (Fault.inSource ps)⟩

theorem Fault.map_inSource_shift (n : Nat) (faults : List Fault) :
    (faults.map (Fault.shift n)).map (Fault.inSource ps) =
      (faults.map (Fault.inSource (ps.drop n))).map (Fault.shift (sourceIndex ps n)) := by
  rw [List.map_map, List.map_map]
  refine List.map_congr_left fun f _ => ?_
  show Fault.mk f.flaw (sourceIndex ps (n + f.position)) =
    ⟨f.flaw, sourceIndex ps n + sourceIndex (ps.drop n) f.position⟩
  rw [sourceIndex_add]

namespace Reading

theorem inSource_andThen (r : Reading α) (next : Reading β) :
    (r.andThen next).inSource ps = (r.inSource ps).andThen (next.inSource (ps.drop r.length)) := by
  simp only [andThen, inSource, sourceIndex_add, List.map_append, Fault.map_inSource_shift]

theorem inSource_behind (n : Nat) (r : Reading α) :
    (r.behind n).inSource ps = (r.inSource (ps.drop n)).behind (sourceIndex ps n) := by
  simp only [behind, inSource, sourceIndex_add, Fault.map_inSource_shift]

theorem inSource_map (f : α → β) (r : Reading α) : (r.map f).inSource ps = (r.inSource ps).map f := rfl

theorem inSource_plain (n : Nat) (value : α) :
    (plain n value).inSource ps = plain (sourceIndex ps n) value := rfl

theorem inSource_length (r : Reading α) : (r.inSource ps).length = sourceIndex ps r.length := rfl

end Reading

theorem sourceIndex_plainPoint (c : Char) (ps : List Point) (n : Nat) :
    sourceIndex (plainPoint c :: ps) (1 + n) = 1 + sourceIndex ps n := by
  rw [Nat.add_comm 1 n, sourceIndex_succ]
  rfl

theorem sourceIndex_pairPoint (ps : List Point) (n : Nat) :
    sourceIndex (pairPoint :: ps) (1 + n) = 1 + (1 + sourceIndex ps n) := by
  rw [Nat.add_comm 1 n, sourceIndex_succ, ← Nat.add_assoc]
  rfl

theorem sourceIndex_returnPoint (ps : List Point) (n : Nat) :
    sourceIndex (returnPoint :: ps) (1 + n) = 1 + sourceIndex ps n := by
  rw [Nat.add_comm 1 n, sourceIndex_succ]
  rfl

/-! ### Escapes -/

theorem swallowed_source (h : Verbatim ps) :
    swallowed (sourceOf ps) = sourceIndex ps (swallowed (ps.map Point.char)) := by
  cases h with
  | nil => rfl
  | @plain c ps hc h =>
    have hnot (rest : List Char) : ¬(c = '\r' ∧ startsWith (· == '\n') rest = true) := fun h => hc h.1
    rw [sourceOf_plainPoint, List.map_cons, char_plainPoint, swallowed_cons, swallowed_cons,
      if_neg (hnot _), if_neg (hnot _)]
    split <;> rfl
  | pair h => rfl
  | single hnext h =>
    rw [sourceOf_returnPoint, swallowed_cons, if_neg (by simp [hnext])]
    rfl

theorem escapeDigits_source (h : Verbatim ps) :
    escapeDigits (sourceOf ps) = escapeDigits (ps.map Point.char) ∧
      sourceIndex ps (escapeDigits (ps.map Point.char)).length =
        (escapeDigits (ps.map Point.char)).length := by
  obtain ⟨hrun, hindex⟩ := h.takeWhile_source isHexDigit rfl rfl
  have htake (text : List Char) : escapeDigits text = (text.takeWhile isHexDigit).take 6 :=
    List.take_takeWhile.symm
  have hlength := countOf_le isHexDigit (ps.map Point.char)
  rw [List.length_map] at hlength
  rw [htake, htake, hrun]
  exact ⟨rfl, h.sourceIndex_eq_of_le (List.take_sublist ..).length_le hlength hindex⟩

/-- A backslash escapes the same. -/
theorem escapePiece_source (h : Verbatim ps)
    (hnewline : startsWith isNewline (ps.map Point.char) = false) :
    (escapePiece (sourceOf ps)).InSource (plainPoint '\\' :: ps) (escapePiece (ps.map Point.char)) := by
  cases h with
  | nil => exact ⟨rfl, rfl⟩
  | @plain c ps hc h =>
    have hwhole : Verbatim (plainPoint c :: ps) := .plain hc h
    obtain ⟨hdigits, hindex⟩ := escapeDigits_source hwhole
    have hswallowed := swallowed_source
      (hwhole.drop (escapeDigits ((plainPoint c :: ps).map Point.char)).length)
    rw [← drop_sourceIndex, hindex, List.map_drop] at hswallowed
    rw [sourceOf_plainPoint, List.map_cons, char_plainPoint] at *
    cases hhex : isHexDigit c with
    | false =>
      rw [escapePiece_plain hhex, escapePiece_plain hhex]
      exact ⟨rfl, rfl⟩
    | true =>
      rw [escapePiece_hex hhex, escapePiece_hex hhex, hdigits, hswallowed]
      refine ⟨rfl, ?_⟩
      rw [Piece.length, Piece.length, Nat.add_comm _ 1, Nat.add_comm _ 1, sourceIndex_plainPoint,
        sourceIndex_add, hindex]
  | pair h => contradiction
  | single hnext h => contradiction

theorem startsEscape_source (h : Verbatim ps) :
    startsEscape (sourceOf ps) = startsEscape (ps.map Point.char) := by
  cases h with
  | nil => rfl
  | @plain c ps hc h =>
    rw [sourceOf_plainPoint, List.map_cons, char_plainPoint]
    by_cases hescape : c = '\\'
    · subst hescape
      rw [startsEscape, startsEscape, h.startsWith_source _ rfl]
    · rw [startsEscape_cons hescape, startsEscape_cons hescape]
  | pair h => rfl
  | single hnext h => rfl

/-! ### Runs -/

/-- A code point that is taken for what it is. -/
theorem plainPiece_inSource (c : Char) (ps : List Point) :
    (Piece.mk (some c) 0).InSource (plainPoint c :: ps) ⟨some c, 0⟩ := ⟨rfl, rfl⟩

/-- Pieces that are escapes or code points of a class without line endings are found alike. -/
theorem foundAlike_of_escapes {next : Char → List Char → Option (Piece (Option Char))}
    (taken : Char → Bool)
    (hescape : ∀ rest, next '\\' rest = if startsWith isNewline rest then none else some (escapePiece rest))
    (hplain : ∀ c rest, c ≠ '\\' → next c rest = if taken c then some ⟨some c, 0⟩ else none)
    (hreturn : taken '\r' = false) (hfeed : taken '\n' = false) : FoundAlike next := by
  intro ps h
  cases h with
  | nil => exact .none
  | @plain c ps hc h =>
    show Option.Rel _ (next c (sourceOf ps)) (next c (ps.map Point.char))
    by_cases hc' : c = '\\'
    · subst hc'
      rw [hescape, hescape, h.startsWith_source _ rfl]
      split
      · exact .none
      · exact .some (escapePiece_source h (Bool.not_eq_true _ ▸ ‹_›))
    · rw [hplain c _ hc', hplain c _ hc']
      split
      · exact .some (plainPiece_inSource c ps)
      · exact .none
  | pair h | single hnext h =>
    simp only [sourceOf_pairPoint, sourceOf_returnPoint, List.map_cons, char_pairPoint, char_returnPoint,
      frontPiece]
    rw [hplain '\r' _ (by decide), hplain '\n' _ (by decide), hreturn, hfeed]
    exact .none

theorem namePiece_foundAlike : FoundAlike namePiece :=
  foundAlike_of_escapes isNamePart namePiece_escape (fun _ rest hc => namePiece_plain hc rest) rfl rfl

theorem urlPiece_foundAlike : FoundAlike urlPiece := by
  refine foundAlike_of_escapes (fun c =>
    !(isWhitespace c || isQuote c || c == '(' || c == ')' || isNonPrintable c)) urlPiece_escape
    (fun c rest hc => ?_) rfl rfl
  rw [urlPiece_plain hc]
  cases isWhitespace c || isQuote c || c == '(' || c == ')' || isNonPrintable c <;> rfl

/-- An escaped line ending is taken whole. -/
theorem quotedPiece_newline_source (quote : Char) (h : Verbatim ps)
    (hnewline : startsWith isNewline (ps.map Point.char) = true) :
    Option.Rel (Piece.InSource (plainPoint '\\' :: ps)) (quotedPiece quote '\\' (sourceOf ps))
      (quotedPiece quote '\\' (ps.map Point.char)) := by
  cases h with
  | nil => contradiction
  | plain hc h =>
    rw [List.map_cons, char_plainPoint] at hnewline ⊢
    rw [sourceOf_plainPoint, quotedPiece_newline quote hnewline, quotedPiece_newline quote hnewline,
      if_neg fun h => hc h.1, if_neg fun h => hc h.1]
    exact .some ⟨rfl, rfl⟩
  | pair h => exact .some ⟨rfl, rfl⟩
  | single hnext h =>
    rw [sourceOf_returnPoint, quotedPiece_newline quote rfl, if_neg (by simp [hnext])]
    exact .some ⟨rfl, rfl⟩

theorem quotedPiece_foundAlike (quote : Char) : FoundAlike (quotedPiece quote) := by
  intro ps h
  have hstop {c : Char} (hescape : c ≠ '\\') (hc : isNewline c = true) (rest : List Char) :
      quotedPiece quote c rest = none := by
    rw [quotedPiece_plain quote hescape, if_pos (by rw [hc, Bool.or_true])]
  cases h with
  | nil => exact .none
  | @plain c ps hc h =>
    show Option.Rel _ (quotedPiece quote c (sourceOf ps)) (quotedPiece quote c (ps.map Point.char))
    by_cases hescape : c = '\\'
    · subst hescape
      cases hnewline : startsWith isNewline (ps.map Point.char) with
      | true => exact quotedPiece_newline_source quote h hnewline
      | false =>
        rw [quotedPiece_escape quote hnewline,
          quotedPiece_escape quote ((h.startsWith_source _ rfl).trans hnewline)]
        exact .some (escapePiece_source h hnewline)
    · rw [quotedPiece_plain quote hescape, quotedPiece_plain quote hescape]
      split
      · exact .none
      · exact .some (plainPiece_inSource c ps)
  | pair h | single hnext h =>
    simp only [sourceOf_pairPoint, sourceOf_returnPoint, List.map_cons, char_pairPoint, char_returnPoint,
      frontPiece]
    rw [hstop (by decide) (by decide), hstop (by decide) (by decide)]
    exact .none

theorem readRun_source {next : Char → List Char → Option (Piece (Option Char))}
    (hnext : FoundAlike next) (h : Verbatim ps) :
    readRun next (sourceOf ps) = (readRun next (ps.map Point.char)).inSource ps := by
  have hpieces := pieces_inSource hnext h
  have hspelled (ps : List (Piece (Option Char))) :
      spelled ps = String.ofList ((ps.map Piece.value).map fun v => v.getD replacement) := by
    rw [spelled, List.map_map]
    rfl
  simp only [readRun, Reading.inSource, hspelled, hpieces.value_eq, hpieces.covered_eq,
    hpieces.startsWhere_eq, List.map_map]
  rfl

theorem readName_source (h : Verbatim ps) :
    readName (sourceOf ps) = (readName (ps.map Point.char)).inSource ps :=
  readRun_source namePiece_foundAlike h

theorem startsIdentifier_source (h : Verbatim ps) :
    startsIdentifier (sourceOf ps) = startsIdentifier (ps.map Point.char) := by
  cases h with
  | nil => rfl
  | @plain c ps hc h =>
    by_cases hhyphen : c = '-'
    · subst hhyphen
      have hclass := h.startsWith_source (fun c => isNameStart c || c == '-') rfl
      rw [sourceOf_plainPoint, List.map_cons, char_plainPoint, startsIdentifier, startsIdentifier,
        startsEscape_source h, hclass]
    · by_cases hescape : c = '\\'
      · subst hescape
        exact startsEscape_source (.plain hc h)
      · rw [sourceOf_plainPoint, List.map_cons, char_plainPoint, startsIdentifier_plain hhyphen hescape,
          startsIdentifier_plain hhyphen hescape]
  | pair h => rfl
  | single hnext h => rfl

/-! ### Strings -/

theorem readQuoted_source (h : Verbatim ps) {quote : Char} (hquote : isNewline quote = false) :
    readQuoted quote (sourceOf ps) =
      (readQuoted quote (ps.map Point.char)).inSource (plainPoint quote :: ps) := by
  have hpieces := pieces_inSource (quotedPiece_foundAlike quote) h
  have hvalues (ps : List (Piece (Option Char))) :
      ps.filterMap Piece.value = (ps.map Piece.value).filterMap id := by
    rw [List.filterMap_map]
    rfl
  have hother {c : Char} (hc : isNewline c = true) : ¬ (c == quote) = true := by
    rw [beq_iff_eq]
    rintro rfl
    exact Bool.false_ne_true (hquote.symm.trans hc)
  simp only [readQuoted, hvalues, hpieces.value_eq, hpieces.covered_eq, drop_sourceIndex, ← List.map_drop]
  generalize covered (pieces (quotedPiece quote) (ps.map Point.char)) = n
  have hrest := h.drop n
  cases hdrop : ps.drop n with
  | nil =>
    simp only [sourceOf_nil, List.map_nil, Reading.inSource, List.map_cons, Fault.inSource,
      sourceIndex_zero, sourceIndex_plainPoint]
  | cons p rest =>
    rw [hdrop] at hrest
    have hone : sourceIndex ps (n + 1) = sourceIndex ps n + p.source.length := by
      rw [sourceIndex_add, hdrop, sourceIndex_succ, sourceIndex_zero, Nat.add_zero]
    cases hrest with
    | plain hc hrest =>
      simp only [sourceOf_plainPoint, List.map_cons, char_plainPoint]
      split
      · simp only [Reading.inSource, List.map_nil, Nat.add_assoc, sourceIndex_plainPoint, hone]
        rfl
      · simp only [Reading.inSource, List.map_nil, List.map_cons, Fault.inSource, sourceIndex_plainPoint]
    | pair hrest | single hnext hrest =>
      simp only [sourceOf_pairPoint, sourceOf_returnPoint, List.map_cons, char_pairPoint, char_returnPoint]
      rw [if_neg (hother (by decide)), if_neg (hother (by decide))]
      simp only [Reading.inSource, List.map_nil, List.map_cons, Fault.inSource, sourceIndex_plainPoint]

/-! ### URLs -/

/-- As much is passed over of a malformed URL. -/
theorem remnantLength_source (h : Verbatim ps) :
    remnantLength (sourceOf ps) = sourceIndex ps (remnantLength (ps.map Point.char)) := by
  generalize hn : ps.length = n
  induction n using Nat.strongRecOn generalizing ps with
  | ind n ih =>
    subst hn
    have hone {c : Char} (hc : c ≠ '\\') (hp : c ≠ ')') (rest : List Char) :
        remnantLength (c :: rest) = 1 + remnantLength rest :=
      remnantLength_of_some (remnantPiece_plain hc hp rest)
    have htwo (c : Char) (rest : List Char) :
        remnantLength ('\\' :: c :: rest) = 1 + (1 + remnantLength rest) := by
      rw [remnantLength_of_some (remnantPiece_escape c rest), ← Nat.add_assoc]
      rfl
    cases h with
    | nil => rw [sourceOf_nil, List.map_nil, remnantLength, pieces_nil]; rfl
    | @plain c ps hc h =>
      have hrest := ih ps.length (Nat.lt_succ_self _) h rfl
      rw [sourceOf_plainPoint, List.map_cons, char_plainPoint]
      by_cases hparen : c = ')'
      · subst hparen
        rw [remnantLength_closed, remnantLength_closed]
        rfl
      · by_cases hescape : c = '\\'
        · subst hescape
          cases h with
          | nil =>
            have hlast : remnantPiece '\\' [] = some ⟨(), 0⟩ := rfl
            rw [sourceOf_nil, List.map_nil, remnantLength_of_some hlast, List.drop_nil, remnantLength,
              pieces_nil]
            rfl
          | @plain d ps hd h =>
            rw [sourceOf_plainPoint, List.map_cons, char_plainPoint, htwo, htwo,
              ih ps.length (by simp only [List.length_cons]; omega) h rfl, sourceIndex_plainPoint,
              sourceIndex_plainPoint]
          | @pair ps h =>
            -- The line feed of the pair is passed over for itself.
            rw [sourceOf_pairPoint, List.map_cons, char_pairPoint, htwo, htwo, hone (by decide) (by decide),
              ih ps.length (by simp only [List.length_cons]; omega) h rfl, sourceIndex_plainPoint,
              sourceIndex_pairPoint]
          | @single ps hnext h =>
            rw [sourceOf_returnPoint, List.map_cons, char_returnPoint, htwo, htwo,
              ih ps.length (by simp only [List.length_cons]; omega) h rfl, sourceIndex_plainPoint,
              sourceIndex_returnPoint]
        · rw [hone hescape hparen, hone hescape hparen, hrest, sourceIndex_plainPoint]
    | @pair ps h =>
      rw [sourceOf_pairPoint, List.map_cons, char_pairPoint, hone (by decide) (by decide),
        hone (by decide) (by decide), hone (by decide) (by decide), ih ps.length (Nat.lt_succ_self _) h rfl,
        sourceIndex_pairPoint]
    | @single ps hnext h =>
      rw [sourceOf_returnPoint, List.map_cons, char_returnPoint, hone (by decide) (by decide),
        hone (by decide) (by decide), ih ps.length (Nat.lt_succ_self _) h rfl, sourceIndex_returnPoint]

theorem readUrlEnd_source (h : Verbatim ps) (url : String) :
    readUrlEnd url (sourceOf ps) = (readUrlEnd url (ps.map Point.char)).inSource ps := by
  have hcount := h.countOf_source isWhitespace rfl
  have hsource := drop_sourceIndex ps (countOf isWhitespace (ps.map Point.char))
  have hchars := List.map_drop (f := Point.char) (l := ps) (i := countOf isWhitespace (ps.map Point.char))
  have hrest := h.drop (countOf isWhitespace (ps.map Point.char))
  have hremnant := remnantLength_source hrest
  rw [← hcount] at hsource
  have hbroken {c d : Char} {text rest : List Char} (hc : c ≠ ')') (hd : d ≠ ')')
      (htext : sourceOf (ps.drop (countOf isWhitespace (ps.map Point.char))) = c :: text)
      (hrest : (ps.drop (countOf isWhitespace (ps.map Point.char))).map Point.char = d :: rest) :
      readUrlEnd url (sourceOf ps) = (readUrlEnd url (ps.map Point.char)).inSource ps := by
    rw [htext, hrest] at hremnant
    rw [readUrlEnd_broken url hc (hsource.trans htext), readUrlEnd_broken url hd (hchars.symm.trans hrest),
      hremnant, hcount, Reading.inSource, sourceIndex_add]
    rfl
  cases hdrop : ps.drop (countOf isWhitespace (ps.map Point.char)) with
  | nil =>
    rw [hdrop] at hsource hchars
    rw [readUrlEnd_end url hsource, readUrlEnd_end url hchars.symm, hcount]
    rfl
  | cons p rest =>
    rw [hdrop] at hrest hsource hchars hbroken
    cases hrest with
    | @plain c rest hc hrest =>
      by_cases hparen : c = ')'
      · subst hparen
        rw [readUrlEnd_closed url hsource, readUrlEnd_closed url hchars.symm, hcount, Reading.inSource,
          sourceIndex_add, hdrop]
        rfl
      · exact hbroken hparen hparen rfl rfl
    | pair hrest => exact hbroken (show '\r' ≠ ')' by decide) (show '\n' ≠ ')' by decide) rfl rfl
    | single hnext hrest => exact hbroken (show '\r' ≠ ')' by decide) (show '\n' ≠ ')' by decide) rfl rfl

theorem readUrl_source (h : Verbatim ps) :
    readUrl (sourceOf ps) = (readUrl (ps.map Point.char)).inSource ps := by
  have hrun := readRun_source urlPiece_foundAlike h
  have hend := readUrlEnd_source (h.drop (readRun urlPiece (ps.map Point.char)).length)
    (readRun urlPiece (ps.map Point.char)).value
  rw [← drop_sourceIndex, List.map_drop] at hend
  simp only [readUrl, hrun, Reading.inSource_andThen]
  exact congrArg _ hend

/-! ### Numerals -/

theorem readSign_source (h : Verbatim ps) :
    ∃ sign, readSign (sourceOf ps) = (sign, sourceOf (ps.drop (signLength sign))) ∧
      readSign (ps.map Point.char) = (sign, (ps.drop (signLength sign)).map Point.char) ∧
      sourceIndex ps (signLength sign) = signLength sign := by
  cases h with
  | nil => exact ⟨none, rfl, rfl, rfl⟩
  | @plain c ps hc h =>
    by_cases hplus : c = '+'
    · subst hplus
      exact ⟨some .plus, rfl, rfl, rfl⟩
    · by_cases hminus : c = '-'
      · subst hminus
        exact ⟨some .minus, rfl, rfl, rfl⟩
      · rw [sourceOf_plainPoint, List.map_cons, char_plainPoint]
        exact ⟨none, readSign_plain hplus hminus _, readSign_plain hplus hminus _, rfl⟩
  | pair h | single hnext h => exact ⟨none, rfl, rfl, rfl⟩

theorem startsDigit_source (h : Verbatim ps) :
    startsDigit (sourceOf ps) = startsDigit (ps.map Point.char) := h.startsWith_source _ rfl

theorem startsDigits_source (h : Verbatim ps) :
    startsDigits (sourceOf ps) = startsDigits (ps.map Point.char) := by
  cases h with
  | nil => rfl
  | @plain c ps hc h =>
    rw [sourceOf_plainPoint, List.map_cons, char_plainPoint]
    by_cases hpoint : c = '.'
    · subst hpoint
      exact startsDigit_source h
    · rw [startsDigits_plain hpoint, startsDigits_plain hpoint]
  | pair h | single hnext h => rfl

theorem startsNumeral_source (h : Verbatim ps) :
    startsNumeral (sourceOf ps) = startsNumeral (ps.map Point.char) := by
  obtain ⟨sign, hsource, hchars, -⟩ := readSign_source h
  rw [startsNumeral, startsNumeral, hsource, hchars]
  exact startsDigits_source (h.drop _)

theorem readFraction_source (h : Verbatim ps) :
    readFraction (sourceOf ps) = readFraction (ps.map Point.char) ∧
      sourceIndex ps (fractionLength (readFraction (ps.map Point.char))) =
        fractionLength (readFraction (ps.map Point.char)) := by
  cases h with
  | nil => exact ⟨rfl, rfl⟩
  | @plain c ps hc h =>
    rw [sourceOf_plainPoint, List.map_cons, char_plainPoint]
    by_cases hpoint : c = '.'
    · subst hpoint
      obtain ⟨hrun, hindex⟩ := h.takeWhile_source Char.isDigit rfl rfl
      rw [readFraction_point, readFraction_point, startsDigit_source h, hrun]
      refine ⟨rfl, ?_⟩
      split
      · rw [fractionLength, sourceIndex_plainPoint, hindex]
      · rfl
    · rw [readFraction_plain hpoint, readFraction_plain hpoint]
      exact ⟨rfl, rfl⟩
  | pair h | single hnext h => exact ⟨rfl, rfl⟩

theorem readExponent_source (h : Verbatim ps) :
    readExponent (sourceOf ps) = readExponent (ps.map Point.char) ∧
      sourceIndex ps (exponentLength (readExponent (ps.map Point.char))) =
        exponentLength (readExponent (ps.map Point.char)) := by
  cases h with
  | nil => exact ⟨rfl, rfl⟩
  | @plain c ps hc h =>
    obtain ⟨sign, hsource, hchars, hsign⟩ := readSign_source h
    have hdigits := h.drop (signLength sign)
    obtain ⟨hrun, hindex⟩ := hdigits.takeWhile_source Char.isDigit rfl rfl
    rw [sourceOf_plainPoint, List.map_cons, char_plainPoint, readExponent_cons, readExponent_cons, hsource,
      hchars, startsDigit_source hdigits, hrun]
    refine ⟨rfl, ?_⟩
    split
    · rw [exponentLength, Nat.add_assoc, sourceIndex_plainPoint, sourceIndex_add, hsign, hindex]
    · rfl
  | pair h | single hnext h => exact ⟨rfl, rfl⟩

theorem readNumeral_source (h : Verbatim ps) :
    readNumeral (sourceOf ps) = readNumeral (ps.map Point.char) ∧
      sourceIndex ps (readNumeral (ps.map Point.char)).length =
        (readNumeral (ps.map Point.char)).length := by
  obtain ⟨sign, hsource, hchars, hsign⟩ := readSign_source h
  have hunsigned := h.drop (signLength sign)
  obtain ⟨hwhole, hwholeIndex⟩ := hunsigned.takeWhile_source Char.isDigit rfl rfl
  simp only [readNumeral, hsource, hchars, Numeral.length, hwhole]
  generalize ((ps.drop (signLength sign)).map Point.char).takeWhile Char.isDigit = whole at *
  have hafterWhole := hunsigned.drop whole.length
  have hdropWhole := drop_sourceIndex (ps.drop (signLength sign)) whole.length
  rw [hwholeIndex] at hdropWhole
  rw [hdropWhole, ← List.map_drop]
  obtain ⟨hfraction, hfractionIndex⟩ := readFraction_source hafterWhole
  rw [hfraction]
  generalize readFraction (((ps.drop (signLength sign)).drop whole.length).map Point.char) = fraction at *
  have hdropFraction := drop_sourceIndex ((ps.drop (signLength sign)).drop whole.length)
    (fractionLength fraction)
  rw [hfractionIndex] at hdropFraction
  rw [hdropFraction, ← List.map_drop]
  obtain ⟨hexponent, hexponentIndex⟩ := readExponent_source (hafterWhole.drop (fractionLength fraction))
  refine ⟨by rw [hexponent], ?_⟩
  simp only [sourceIndex_add, ← List.drop_drop, hsign, hwholeIndex, hfractionIndex, hexponentIndex]

theorem readNumeric_source (h : Verbatim ps) :
    readNumeric (sourceOf ps) = (readNumeric (ps.map Point.char)).inSource ps := by
  obtain ⟨hnumeral, hindex⟩ := readNumeral_source h
  have hfaults (n : Numeral) (parsed : Option (Option Double)) :
      (n.faultsOf parsed).map (Fault.inSource ps) = n.faultsOf parsed := by
    unfold Numeral.faultsOf
    rw [List.map_append]
    congr 1
    · split <;> rfl
    · split <;> rfl
  simp only [readNumeric, parseNumeric, hnumeral, Reading.inSource, hindex, hfaults]

theorem readNumber_source (h : Verbatim ps) :
    readNumber (sourceOf ps) = (readNumber (ps.map Point.char)).inSource ps := by
  have hrest := h.drop (readNumeric (ps.map Point.char)).length
  simp only [readNumber, readNumeric_source h, Reading.inSource_length, drop_sourceIndex, ← List.map_drop,
    startsIdentifier_source hrest, readName_source hrest,
    hrest.startsWith_char_source (show '%' ≠ '\r' by decide) (show '%' ≠ '\n' by decide)]
  split
  · rw [Reading.inSource_andThen, Reading.inSource_map]
    rfl
  · split
    · rw [Reading.inSource_andThen, Reading.inSource_plain,
        hrest.sourceIndex_one (c := '%') (by decide) (by decide) ‹_›]
      rfl
    · rfl

end CssUrls.Lexical
