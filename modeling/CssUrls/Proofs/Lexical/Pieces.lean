import CssUrls.Lexical.Lexeme
import CssUrls.Proofs.Text.Pieces

/-! The pieces of names, strings and URLs, case by case.

A backslash is looked at first, with what follows it; every other code point is taken or not for
what it is, whatever follows. -/
namespace CssUrls.Lexical
open Text

/-! ### Escapes -/

/-- The hexadecimal digits at the front of a text that an escape reads. -/
def escapeDigits (text : List Char) : List Char := (text.take 6).takeWhile isHexDigit

theorem escapePiece_plain {c : Char} (h : isHexDigit c = false) (rest : List Char) :
    escapePiece (c :: rest) = ⟨some c, 1⟩ := by
  simp [escapePiece, h]

theorem escapePiece_hex {c : Char} (h : isHexDigit c = true) (rest : List Char) :
    escapePiece (c :: rest) =
      ⟨some (scalar (hexValue (escapeDigits (c :: rest)))),
        (escapeDigits (c :: rest)).length +
          swallowed ((c :: rest).drop (escapeDigits (c :: rest)).length)⟩ := by
  have hne : (escapeDigits (c :: rest)).isEmpty = false := by simp [escapeDigits, h]
  show (if (escapeDigits (c :: rest)).isEmpty = true then _ else _) = _
  rw [hne]
  rfl

theorem swallowed_cons (c : Char) (rest : List Char) :
    swallowed (c :: rest) =
      if c = '\r' ∧ startsWith (· == '\n') rest = true then 2 else if isWhitespace c then 1 else 0 := by
  unfold swallowed
  split
  · rename_i e
    cases e
    rfl
  · rename_i hpair e
    cases e
    have hnot : ¬(c = '\r' ∧ startsWith (· == '\n') rest = true) := by
      intro h
      obtain ⟨rfl, hrest⟩ := h
      cases rest with
      | nil => simp at hrest
      | cons d rest =>
        rw [startsWith_cons, beq_iff_eq] at hrest
        exact hpair rest rfl (by rw [hrest])
    rw [if_neg hnot]
  · contradiction

theorem swallowed_eq_zero {text : List Char} (h : startsWith isWhitespace text = false) :
    swallowed text = 0 := by
  cases text with
  | nil => rfl
  | cons c rest =>
    rw [startsWith_cons] at h
    rw [swallowed_cons, h, if_neg]
    · rfl
    · intro h
      obtain ⟨rfl, -⟩ := h
      contradiction

/-! ### Names -/

theorem namePiece_escape (rest : List Char) :
    namePiece '\\' rest = if startsWith isNewline rest then none else some (escapePiece rest) := rfl

theorem namePiece_plain {c : Char} (h : c ≠ '\\') (rest : List Char) :
    namePiece c rest = if isNamePart c then some ⟨some c, 0⟩ else none := by
  unfold namePiece
  split
  · contradiction
  · rfl

/-- The text goes on with something that may stand in a name. -/
def startsName (text : List Char) : Bool := startsWith isNamePart text || startsEscape text

theorem startsEscape_cons {c : Char} (h : c ≠ '\\') (rest : List Char) :
    startsEscape (c :: rest) = false := by
  unfold startsEscape
  split
  · rename_i e
    cases e
    contradiction
  · rfl

theorem pieces_namePiece_eq_nil_iff {text : List Char} :
    pieces namePiece text = [] ↔ startsName text = false := by
  cases text with
  | nil => simp [startsName, startsEscape, pieces_nil]
  | cons c rest =>
    rw [pieces_cons, startsName, startsWith_cons]
    by_cases hc : c = '\\'
    · subst hc
      rw [namePiece_escape, startsEscape]
      cases startsWith isNewline rest <;> simp [show isNamePart '\\' = false by decide]
    · rw [namePiece_plain hc, startsEscape_cons hc]
      cases isNamePart c <;> simp

theorem startsName_of_startsIdentifier {text : List Char} (h : startsIdentifier text = true) :
    startsName text = true := by
  rw [← Bool.not_eq_false, ← pieces_namePiece_eq_nil_iff]
  intro hnil
  have hpos := readName_length_pos_of_startsIdentifier h
  rw [readName, readRun, hnil] at hpos
  exact absurd hpos (Nat.lt_irrefl _)

/-! ### Strings -/

theorem quotedPiece_escape (quote : Char) {rest : List Char} (h : startsWith isNewline rest = false) :
    quotedPiece quote '\\' rest = some (escapePiece rest) := by
  unfold quotedPiece
  split
  · exact absurd h (by rw [startsWith_cons]; decide)
  · rw [h]
    rfl
  · contradiction

theorem quotedPiece_newline (quote : Char) {c : Char} (h : isNewline c = true) (rest : List Char) :
    quotedPiece quote '\\' (c :: rest) =
      some ⟨none, if c = '\r' ∧ startsWith (· == '\n') rest = true then 2 else 1⟩ := by
  unfold quotedPiece
  split
  · rename_i e
    cases e
    rfl
  · rename_i hpair
    have hnot : ¬(c = '\r' ∧ startsWith (· == '\n') rest = true) := by
      intro h
      obtain ⟨rfl, hrest⟩ := h
      cases rest with
      | nil => simp at hrest
      | cons d rest =>
        rw [startsWith_cons, beq_iff_eq] at hrest
        exact hpair rest (by rw [hrest])
    rw [startsWith_cons, h, if_pos rfl, if_neg hnot]
  · contradiction

theorem quotedPiece_plain (quote : Char) {c : Char} (h : c ≠ '\\') (rest : List Char) :
    quotedPiece quote c rest = if c == quote || isNewline c then none else some ⟨some c, 0⟩ := by
  unfold quotedPiece
  split
  · contradiction
  · contradiction
  · rfl

/-- A string stops at its quote or at a newline. -/
theorem stops_of_quotedPiece_eq_none {quote c : Char} {rest : List Char}
    (h : quotedPiece quote c rest = none) : c = quote ∨ isNewline c = true := by
  unfold quotedPiece at h
  split at h
  · contradiction
  · split at h <;> contradiction
  · split at h
    · rename_i hstop
      rw [Bool.or_eq_true, beq_iff_eq] at hstop
      exact hstop
    · contradiction

/-! ### URLs -/

theorem urlPiece_escape (rest : List Char) :
    urlPiece '\\' rest = if startsWith isNewline rest then none else some (escapePiece rest) := rfl

theorem urlPiece_plain {c : Char} (h : c ≠ '\\') (rest : List Char) :
    urlPiece c rest =
      if isWhitespace c || isQuote c || c == '(' || c == ')' || isNonPrintable c then none
      else some ⟨some c, 0⟩ := by
  unfold urlPiece
  split
  · contradiction
  · rfl

theorem remnantPiece_eq_none_iff {c : Char} {rest : List Char} :
    remnantPiece c rest = none ↔ c = ')' := by
  constructor
  · intro h
    unfold remnantPiece at h
    split at h
    · rfl
    · contradiction
    · contradiction
  · intro heq
    subst heq
    rfl

theorem remnantPiece_escape (d : Char) (rest : List Char) :
    remnantPiece '\\' (d :: rest) = some ⟨(), 1⟩ := rfl

theorem remnantPiece_plain {c : Char} (hc : c ≠ '\\') (hp : c ≠ ')') (rest : List Char) :
    remnantPiece c rest = some ⟨(), 0⟩ := by
  unfold remnantPiece
  split
  · contradiction
  · contradiction
  · rfl

theorem remnantLength_of_some {first : Char} {rest : List Char} {p : Piece Unit}
    (h : remnantPiece first rest = some p) :
    remnantLength (first :: rest) = p.length + remnantLength (rest.drop p.more) := by
  have hdrop (n : Nat) : (first :: rest).drop (p.length + n) = (rest.drop p.more).drop n := by
    rw [← List.drop_drop, drop_length_cons]
  simp only [remnantLength, pieces_cons_of_some h, covered_cons, hdrop]
  split <;> omega

theorem remnantLength_closed (rest : List Char) : remnantLength (')' :: rest) = 1 := by
  rw [remnantLength, pieces_cons_of_none rfl]
  rfl

theorem remnantLength_pos {text : List Char} (h : text ≠ []) : 0 < remnantLength text := by
  simp only [remnantLength]
  cases hn : covered (pieces remnantPiece text) with
  | zero =>
    rw [List.drop_zero, if_neg]
    · exact Nat.one_pos
    · rw [List.isEmpty_iff]
      exact h
  | succ n => split <;> omega

theorem readUrlEnd_end (url : String) {text : List Char}
    (h : text.drop (countOf isWhitespace text) = []) :
    readUrlEnd url text = ⟨.badUrl, countOf isWhitespace text,
      [⟨.unterminatedUrl, countOf isWhitespace text⟩]⟩ := by
  simp only [readUrlEnd, h]

theorem readUrlEnd_closed (url : String) {text rest : List Char}
    (h : text.drop (countOf isWhitespace text) = ')' :: rest) :
    readUrlEnd url text = ⟨.url url, countOf isWhitespace text + 1, []⟩ := by
  simp only [readUrlEnd, h]

theorem readUrlEnd_broken (url : String) {text rest : List Char} {c : Char} (hc : c ≠ ')')
    (h : text.drop (countOf isWhitespace text) = c :: rest) :
    readUrlEnd url text = ⟨.badUrl, countOf isWhitespace text + remnantLength (c :: rest),
      [⟨.invalidUrl, 0⟩]⟩ := by
  simp only [readUrlEnd, h]
  split
  · contradiction
  · rename_i e
    cases e
    contradiction
  · rfl

/-! ### What a name opens -/

theorem readIdentLike_plain {text : List Char}
    (h : startsWith (· == '(') (text.drop (readName text).length) = false) :
    readIdentLike text = (readName text).map .ident := by
  simp only [readIdentLike]
  split
  · rename_i hopen
    rw [hopen] at h
    contradiction
  · rfl

theorem readIdentLike_opened {text rest : List Char}
    (h : text.drop (readName text).length = '(' :: rest) :
    readIdentLike text =
      if sameLetters (readName text).value "url" = true then
        ((readName text).andThen (.plain 1 ())).andThen (readUrlFunction (readName text).value rest)
      else ((readName text).andThen (.plain 1 ())).map fun _ => .function (readName text).value := by
  simp only [readIdentLike, h]

end CssUrls.Lexical
