import CssUrls.Lexical.TokenStream
import CssUrls.Proofs.Lexical.Comments

/-! A text as its lexemes.

A lexeme is a token with what it is written as and the comments in front of it. The lexemes of a
text make up the text (`textOf_lexemes`), and the tokens of the text are those of its lexemes, one
after another (`tokenize_spans`). What is said about lexemes needs no positions: a text that starts
with a lexeme has the lexemes of the rest behind it (`lexemes_append`). -/
namespace CssUrls.Lexical
open Text

/-- A token as it is written. -/
structure Lexeme where
  /-- The comments in front of the token. -/
  gap : List Char
  /-- The token itself. -/
  body : List Char
  token : Token

def Lexeme.text (l : Lexeme) : List Char := l.gap ++ l.body

/-- What lexemes are written as together. -/
def textOf (ls : List Lexeme) : List Char := ls.flatMap Lexeme.text

@[simp] theorem textOf_nil : textOf [] = [] := rfl

@[simp] theorem textOf_cons (l : Lexeme) (ls : List Lexeme) : textOf (l :: ls) = l.text ++ textOf ls :=
  rfl

@[simp] theorem textOf_append (a b : List Lexeme) : textOf (a ++ b) = textOf a ++ textOf b :=
  List.flatMap_append

/-- The tokens of lexemes. -/
def tokensOf (ls : List Lexeme) : List Token := ls.map Lexeme.token

@[simp] theorem tokensOf_cons (l : Lexeme) (ls : List Lexeme) :
    tokensOf (l :: ls) = l.token :: tokensOf ls := rfl

/-! ### The lexeme at the front -/

/-- The text without the comments at its front. -/
def afterComments (text : List Char) : List Char := text.drop (readComments text).length

/-- The lexeme at the front of the text. -/
def frontLexeme (text : List Char) : Lexeme :=
  ⟨text.take (readComments text).length,
    (afterComments text).take (readToken (afterComments text)).length,
    (readToken (afterComments text)).value⟩

theorem frontLexeme_gap_length (text : List Char) :
    (frontLexeme text).gap.length = (readComments text).length :=
  (List.length_take ..).trans (Nat.min_eq_left (readComments_length_le text))

theorem frontLexeme_body_length (text : List Char) :
    (frontLexeme text).body.length = (readToken (afterComments text)).length :=
  (List.length_take ..).trans (Nat.min_eq_left (readToken_length_le _))

theorem frontLexeme_text_length (text : List Char) :
    (frontLexeme text).text.length =
      (readComments text).length + (readToken (afterComments text)).length := by
  rw [Lexeme.text, List.length_append, frontLexeme_gap_length, frontLexeme_body_length]

/-- What the lexeme leaves of the text. -/
def afterLexeme (text : List Char) : List Char := text.drop (frontLexeme text).text.length

theorem afterLexeme_eq (text : List Char) :
    afterLexeme text = (afterComments text).drop (readToken (afterComments text)).length := by
  rw [afterLexeme, frontLexeme_text_length, afterComments, List.drop_drop]

/-- Nothing is lost between the lexeme and the rest. -/
theorem frontLexeme_append (text : List Char) :
    (frontLexeme text).text ++ afterLexeme text = text := by
  rw [afterLexeme_eq, Lexeme.text, List.append_assoc]
  show text.take _ ++ ((afterComments text).take _ ++ (afterComments text).drop _) = text
  rw [List.take_append_drop]
  exact List.take_append_drop ..

/-! ### What starts with a name, and what does not -/

/-- Neither the end of the file, nor a string, nor what a name and a parenthesis open. -/
def standsAlone : Token → Bool
  | .endOfFile | .string _ | .url _ | .function _ => false
  | _ => true

/-- A number, or a token that a mark makes, by itself or with a name or another mark behind it. -/
def isMade : Token → Bool
  | .number _ | .percentage _ | .dimension .. => true
  | .atKeyword _ | .hash _ | .idHash _ | .delim _ => true
  | .includeMatch | .dashMatch | .prefixMatch | .suffixMatch | .substringMatch => true
  | .column | .cdo | .cdc => true
  | _ => false

/-- A token that a mark makes. -/
def isMark : Token → Bool
  | .number _ | .percentage _ | .dimension .. => false
  | t => isMade t

theorem standsAlone_of_isMade {t : Token} (h : isMade t = true) : standsAlone t = true := by
  cases t <;> first | rfl | contradiction

theorem isMade_of_isMark {t : Token} (h : isMark t = true) : isMade t = true := by
  cases t <;> first | rfl | contradiction

theorem numeric?_of_isMark {t : Token} (h : isMark t = true) : t.numeric? = none := by
  cases t <;> first | rfl | contradiction

theorem startsIdentifier_of_isNameStart {c : Char} (h : isNameStart c = true) (rest : List Char) :
    startsIdentifier (c :: rest) = true := by
  unfold startsIdentifier
  split
  · rename_i e
    cases e
    exact absurd h (by decide)
  · rename_i e
    cases e
    exact absurd h (by decide)
  · exact h

theorem readNumber_isMade (text : List Char) : isMade (readNumber text).value = true := by
  simp only [readNumber]
  split
  · rfl
  · split <;> rfl

theorem readQuoted_value (quote : Char) (text : List Char) :
    (readQuoted quote text).value = .badString ∨ (readQuoted quote text).value =
      .string (String.ofList ((pieces (quotedPiece quote) text).filterMap Piece.value)) := by
  simp only [readQuoted]
  split
  · exact .inr rfl
  · split
    · exact .inr rfl
    · exact .inl rfl

theorem readMatch_isMark {token : Token} (h : isMark token = true) (mark : Char)
    (rest : List Char) : isMark (readMatch mark token rest).value = true := by
  unfold readMatch
  split
  · exact h
  · rfl

theorem readHash_isMark (rest : List Char) : isMark (readHash rest).value = true := by
  unfold readHash
  split
  · show isMark ((if startsIdentifier rest then Token.idHash else Token.hash) _) = true
    split <;> rfl
  · rfl

theorem punctuation?_standsAlone {c : Char} {token : Token} (h : punctuation? c = some token) :
    standsAlone token = true ∧ token.numeric? = none := by
  unfold punctuation? at h
  split at h <;> cases h <;> exact ⟨rfl, rfl⟩

/-- What a mark starts: an identifier, a number or a token of its own. -/
theorem readMark_sorts (c : Char) (rest : List Char) :
    (startsIdentifier (c :: rest) = true ∧ readMark c rest = readIdentLike (c :: rest)) ∨
      (startsNumeral (c :: rest) = true ∧ readMark c rest = readNumber (c :: rest)) ∨
      isMark (readMark c rest).value = true := by
  unfold readMark
  split
  · exact .inr (.inr (readHash_isMark rest))
  · exact .inr (.inr (readMatch_isMark rfl ..))
  · exact .inr (.inr (readMatch_isMark rfl ..))
  · exact .inr (.inr (readMatch_isMark rfl ..))
  · exact .inr (.inr (readMatch_isMark rfl ..))
  · unfold readBar
    split
    · exact .inr (.inr rfl)
    · exact .inr (.inr (readMatch_isMark rfl ..))
  · unfold readPointOrPlus
    split
    · exact .inr (.inl ⟨‹_›, rfl⟩)
    · exact .inr (.inr rfl)
  · unfold readPointOrPlus
    split
    · exact .inr (.inl ⟨‹_›, rfl⟩)
    · exact .inr (.inr rfl)
  · unfold readHyphen
    split
    · exact .inr (.inl ⟨‹_›, rfl⟩)
    · split
      · exact .inr (.inr rfl)
      · split
        · exact .inl ⟨‹_›, rfl⟩
        · exact .inr (.inr rfl)
  · unfold readLess
    split <;> exact .inr (.inr rfl)
  · unfold readAtKeyword
    split <;> exact .inr (.inr rfl)
  · unfold readBackslash
    split
    · exact .inl ⟨‹_›, rfl⟩
    · exact .inr (.inr rfl)
  · exact .inr (.inr rfl)

theorem readMark_cases (c : Char) (rest : List Char) :
    startsIdentifier (c :: rest) = true ∧ readMark c rest = readIdentLike (c :: rest) ∨
      isMade (readMark c rest).value = true := by
  rcases readMark_sorts c rest with hident | ⟨-, hnumber⟩ | hmark
  · exact .inl hident
  · rw [hnumber]
    exact .inr (readNumber_isMade _)
  · exact .inr (isMade_of_isMark hmark)

/-- What a text starts with: an identifier, a quote, a number or another token that stands alone. -/
theorem readToken_sorts (c : Char) (rest : List Char) :
    (startsIdentifier (c :: rest) = true ∧ readToken (c :: rest) = readIdentLike (c :: rest)) ∨
      (isQuote c = true ∧ readToken (c :: rest) = readQuoted c rest) ∨
      (startsNumeral (c :: rest) = true ∧ readToken (c :: rest) = readNumber (c :: rest)) ∨
      standsAlone (readToken (c :: rest)).value = true ∧ (readToken (c :: rest)).value.numeric? = none := by
  unfold readToken
  simp only
  split
  · exact .inr (.inr (.inr (punctuation?_standsAlone ‹_›)))
  · split
    · exact .inr (.inr (.inr ⟨rfl, rfl⟩))
    · split
      · exact .inr (.inl ⟨‹_›, rfl⟩)
      · split
        · exact .inr (.inr (.inl ⟨startsNumeral_of_isDigit ‹_› rest, rfl⟩))
        · split
          · exact .inl ⟨startsIdentifier_of_isNameStart ‹_› rest, rfl⟩
          · rcases readMark_sorts c rest with hident | hnumber | hmark
            · exact .inl hident
            · exact .inr (.inr (.inl hnumber))
            · have halone := standsAlone_of_isMade (isMade_of_isMark hmark)
              exact .inr (.inr (.inr ⟨halone, numeric?_of_isMark hmark⟩))

/-- A text that starts neither with an identifier nor with a quote has a token at its front that
stands alone. -/
theorem readToken_cases (c : Char) (rest : List Char) :
    (startsIdentifier (c :: rest) = true ∧ readToken (c :: rest) = readIdentLike (c :: rest)) ∨
      (isQuote c = true ∧ readToken (c :: rest) = readQuoted c rest) ∨
      standsAlone (readToken (c :: rest)).value = true := by
  rcases readToken_sorts c rest with hident | hquoted | ⟨-, hnumber⟩ | halone
  · exact .inl hident
  · exact .inr (.inl hquoted)
  · rw [hnumber]
    exact .inr (.inr (standsAlone_of_isMade (readNumber_isMade _)))
  · exact .inr (.inr halone.1)

/-! ### The end of the file -/

/-- What a name, or a name and a parenthesis, is read as. -/
def isNamed : Token → Bool
  | .ident _ | .function _ | .url _ | .badUrl => true
  | _ => false

theorem readUrl_isNamed (text : List Char) : isNamed (readUrl text).value = true := by
  show isNamed (readUrlEnd _ _).value = true
  simp only [readUrlEnd]
  split <;> rfl

theorem readIdentLike_isNamed (text : List Char) : isNamed (readIdentLike text).value = true := by
  simp only [readIdentLike]
  split
  · split
    · show isNamed (readUrlFunction _ _).value = true
      simp only [readUrlFunction]
      split
      · rfl
      · exact readUrl_isNamed _
    · rfl
  · rfl

/-- Only the empty text has the end of the file at its front. -/
theorem readToken_eq_endOfFile_iff {text : List Char} :
    (readToken text).value = .endOfFile ↔ text = [] := by
  constructor
  · intro h
    cases text with
    | nil => rfl
    | cons c rest =>
      exfalso
      rcases readToken_cases c rest with ⟨-, hident⟩ | ⟨-, hquoted⟩ | halone
      · have hnamed := readIdentLike_isNamed (c :: rest)
        rw [← hident, h] at hnamed
        contradiction
      · rw [hquoted] at h
        rcases readQuoted_value c rest with hvalue | hvalue <;>
          · rw [hvalue] at h
            contradiction
      · rw [h] at halone
        contradiction
  · intro heq
    subst heq
    rfl

/-- Only a quote opens a string. -/
theorem startsWith_isQuote_of_string {text : List Char} {value : String}
    (h : (readToken text).value = .string value) : startsWith isQuote text = true := by
  cases text with
  | nil => contradiction
  | cons c rest =>
    rcases readToken_cases c rest with ⟨-, hident⟩ | ⟨hquote, -⟩ | halone
    · have hnamed := readIdentLike_isNamed (c :: rest)
      rw [← hident, h] at hnamed
      contradiction
    · exact hquote
    · rw [h] at halone
      contradiction

theorem frontLexeme_token_eq_endOfFile_iff {text : List Char} :
    (frontLexeme text).token = .endOfFile ↔ afterComments text = [] :=
  readToken_eq_endOfFile_iff

theorem frontLexeme_body_pos {text : List Char} (h : (frontLexeme text).token ≠ .endOfFile) :
    0 < (frontLexeme text).body.length := by
  rw [frontLexeme_body_length]
  rw [Ne, frontLexeme_token_eq_endOfFile_iff] at h
  cases hrest : afterComments text with
  | nil => exact absurd hrest h
  | cons c rest => exact readToken_length_pos c rest

theorem frontLexeme_of_endOfFile {text : List Char} (h : (frontLexeme text).token = .endOfFile) :
    frontLexeme text = ⟨text, [], .endOfFile⟩ := by
  rw [frontLexeme_token_eq_endOfFile_iff] at h
  have hgap : text.take (readComments text).length = text := by
    apply List.take_of_length_le
    rw [afterComments, List.drop_eq_nil_iff] at h
    exact h
  rw [frontLexeme, h, hgap]
  rfl

/-! ### All lexemes -/

theorem afterLexeme_length_lt {text : List Char} (h : (frontLexeme text).token ≠ .endOfFile) :
    (afterLexeme text).length < text.length := by
  have hbody := frontLexeme_body_pos h
  have htext := congrArg List.length (frontLexeme_append text)
  rw [List.length_append, Lexeme.text, List.length_append] at htext
  omega

/-- The lexemes of a text, the end of the file last. -/
def lexemes (text : List Char) : List Lexeme :=
  if (frontLexeme text).token = .endOfFile then [frontLexeme text]
  else frontLexeme text :: lexemes (afterLexeme text)
termination_by text.length
decreasing_by exact afterLexeme_length_lt ‹_›

theorem lexemes_of_endOfFile {text : List Char} (h : (frontLexeme text).token = .endOfFile) :
    lexemes text = [⟨text, [], .endOfFile⟩] := by
  rw [lexemes, if_pos h, frontLexeme_of_endOfFile h]

theorem lexemes_nil : lexemes [] = [⟨[], [], .endOfFile⟩] :=
  lexemes_of_endOfFile (frontLexeme_token_eq_endOfFile_iff.mpr List.drop_nil)

theorem lexemes_of_ne_endOfFile {text : List Char} (h : (frontLexeme text).token ≠ .endOfFile) :
    lexemes text = frontLexeme text :: lexemes (afterLexeme text) := by
  rw [lexemes, if_neg h]

/-- **Lexemes leave out nothing of the text.** -/
theorem textOf_lexemes (text : List Char) : textOf (lexemes text) = text := by
  induction text using lexemes.induct with
  | case1 text h => simp [lexemes_of_endOfFile h, Lexeme.text]
  | case2 text h ih => rw [lexemes_of_ne_endOfFile h, textOf_cons, ih, frontLexeme_append]

/-- A text that starts with a lexeme has the lexemes of the rest behind it. -/
theorem lexemes_append {l : Lexeme} {rest : List Char} (h : frontLexeme (l.text ++ rest) = l)
    (hne : l.token ≠ .endOfFile) : lexemes (l.text ++ rest) = l :: lexemes rest := by
  rw [lexemes_of_ne_endOfFile (by rw [h]; exact hne), h, afterLexeme, h, List.drop_left]

/-- The lexeme that comments and a token make up, and those behind it. -/
theorem lexemes_eq_cons_mk (gap : List Char) {body rest : List Char} {token : Token}
    (hgap : (readComments (gap ++ (body ++ rest))).length = gap.length)
    (hvalue : (readToken (body ++ rest)).value = token)
    (hlength : (readToken (body ++ rest)).length = body.length) (hne : token ≠ .endOfFile) :
    lexemes (gap ++ (body ++ rest)) = ⟨gap, body, token⟩ :: lexemes rest := by
  have hafter : afterComments (gap ++ (body ++ rest)) = body ++ rest := by
    rw [afterComments, hgap, List.drop_left]
  have hfront : frontLexeme (gap ++ (body ++ rest)) = ⟨gap, body, token⟩ := by
    rw [frontLexeme, hafter, hgap, hvalue, hlength, List.take_left, List.take_left]
  have hlexemes : lexemes (Lexeme.text ⟨gap, body, token⟩ ++ rest) = ⟨gap, body, token⟩ :: lexemes rest :=
    lexemes_append (by rw [Lexeme.text, List.append_assoc, hfront]) hne
  rw [Lexeme.text, List.append_assoc] at hlexemes
  exact hlexemes

/-- A token that no comment stands in front of is a lexeme, in front of those behind it. -/
theorem lexemes_of_readToken {body rest : List Char} {t : Token}
    (hcomments : readComments (body ++ rest) = .plain 0 ())
    (hread : readToken (body ++ rest) = .plain body.length t) (ht : t ≠ .endOfFile) :
    lexemes (body ++ rest) = ⟨[], body, t⟩ :: lexemes rest :=
  lexemes_eq_cons_mk [] (congrArg Reading.length hcomments) (congrArg Reading.value hread)
    (congrArg Reading.length hread) ht

/-- What is behind a lexeme of a text is lexemes of a text too. -/
theorem lexemes_eq_cons {text : List Char} {l : Lexeme} {ls : List Lexeme}
    (h : lexemes text = l :: ls) :
    frontLexeme text = l ∧
      (l = ⟨text, [], .endOfFile⟩ ∧ ls = [] ∨ l.token ≠ .endOfFile ∧ ls = lexemes (afterLexeme text)) := by
  by_cases hend : (frontLexeme text).token = .endOfFile
  · rw [lexemes_of_endOfFile hend, List.cons.injEq] at h
    obtain ⟨rfl, rfl⟩ := h
    exact ⟨frontLexeme_of_endOfFile hend, .inl ⟨rfl, rfl⟩⟩
  · rw [lexemes_of_ne_endOfFile hend, List.cons.injEq] at h
    obtain ⟨rfl, rfl⟩ := h
    exact ⟨rfl, .inr ⟨hend, rfl⟩⟩

/-- The last lexemes of a text are the lexemes of what they are written as. -/
theorem lexemes_textOf_of_append {a b : List Lexeme} (h : lexemes (textOf (a ++ b)) = a ++ b)
    (ha : ∀ l ∈ a, l.token ≠ .endOfFile) : lexemes (textOf b) = b := by
  induction a with
  | nil => exact h
  | cons l a ih =>
    obtain ⟨hl, ha⟩ := List.forall_mem_cons.mp ha
    rw [List.cons_append, textOf_cons] at h
    obtain ⟨hfront, ⟨hend, -⟩ | ⟨-, htail⟩⟩ := lexemes_eq_cons h
    · rw [hend] at hl
      contradiction
    · rw [afterLexeme, hfront, List.drop_left] at htail
      exact ih htail.symm ha

/-- The comments in front of a token are closed. At the end of the file the last one may be open. -/
theorem gap_of_mem_lexemes {text : List Char} {l : Lexeme} (h : l ∈ lexemes text) :
    ClosedComments l.gap ∨
      l.token = .endOfFile ∧
        ∃ comments rest, l.gap = comments ++ rest ∧ ClosedComments comments ∧ OpenComment rest := by
  have hfront (text : List Char) : ClosedComments (frontLexeme text).gap ∨
      (frontLexeme text).token = .endOfFile ∧ ∃ comments rest,
        (frontLexeme text).gap = comments ++ rest ∧ ClosedComments comments ∧ OpenComment rest := by
    rcases readComments_spec text with hclosed | ⟨comments, rest, htext, hclosed, hopen, hlength⟩
    · exact .inl hclosed
    · right
      refine ⟨?_, comments, rest, ?_, hclosed, hopen⟩
      · rw [frontLexeme_token_eq_endOfFile_iff, afterComments, hlength, List.drop_length]
      · show text.take (readComments text).length = comments ++ rest
        rw [hlength, List.take_length, htext]
  induction text using lexemes.induct with
  | case1 text hend =>
    have hmem : l = frontLexeme text := by
      rw [lexemes_of_endOfFile hend, List.mem_singleton] at h
      rw [h, frontLexeme_of_endOfFile hend]
    rw [hmem]
    exact hfront text
  | case2 text hne ih =>
    rw [lexemes_of_ne_endOfFile hne, List.mem_cons] at h
    rcases h with rfl | h
    · exact hfront text
    · exact ih h

/-- The end of the file is the last lexeme and no other, and each other one is written as something. -/
theorem lexemes_eq_append_endOfFile (text : List Char) :
    ∃ front gap, lexemes text = front ++ [⟨gap, [], .endOfFile⟩] ∧
      ∀ l ∈ front, l.token ≠ .endOfFile ∧ 0 < l.body.length := by
  induction text using lexemes.induct with
  | case1 text h => exact ⟨[], text, lexemes_of_endOfFile h, by simp⟩
  | case2 text h ih =>
    obtain ⟨front, gap, heq, hfront⟩ := ih
    refine ⟨frontLexeme text :: front, gap, ?_, List.forall_mem_cons.mpr ⟨?_, hfront⟩⟩
    · rw [lexemes_of_ne_endOfFile h, heq]
      rfl
    · exact ⟨h, frontLexeme_body_pos h⟩

theorem lexemes_ne_nil (text : List Char) : lexemes text ≠ [] := by
  obtain ⟨front, gap, heq, -⟩ := lexemes_eq_append_endOfFile text
  rw [heq]
  exact List.append_ne_nil_of_right_ne_nil front (List.cons_ne_nil _ _)

/-- Whatever comes before other lexemes is not the end of the file. -/
theorem ne_endOfFile_of_lexemes {text : List Char} {a b : List Lexeme} (h : lexemes text = a ++ b)
    (hb : b ≠ []) : ∀ l ∈ a, l.token ≠ .endOfFile := by
  obtain ⟨front, gap, heq, hfront⟩ := lexemes_eq_append_endOfFile text
  obtain ⟨b, last, rfl⟩ := List.eq_nil_or_concat b |>.resolve_left hb
  rw [heq, List.concat_eq_append, ← List.append_assoc] at h
  obtain ⟨rfl, -⟩ := List.append_inj' h rfl
  exact fun l hl => (hfront l (List.mem_append_left b hl)).1

/-- Behind the comments at its front a text has the same lexemes. -/
theorem lexemes_afterComments {text : List Char} (h : (frontLexeme text).token ≠ .endOfFile) :
    lexemes (afterComments text) =
      ⟨[], (frontLexeme text).body, (frontLexeme text).token⟩ :: lexemes (afterLexeme text) := by
  have hcomments : pieces wholeComment (afterComments text) = [] := pieces_drop_covered wholeComment text
  have hnone : (readComments (afterComments text)).length = 0 := by
    rw [readComments, hcomments]
    rfl
  have htext : (frontLexeme text).body ++ afterLexeme text = afterComments text := by
    rw [afterLexeme_eq]
    exact List.take_append_drop ..
  rw [← htext] at hnone ⊢
  apply lexemes_eq_cons_mk []
  case hgap => exact hnone
  case hvalue => rw [htext]; rfl
  case hlength => rw [htext, frontLexeme_body_length]
  case hne => exact h

/-- Closed comments in front of a text are in front of its first token. -/
theorem lexemes_comments_append {comments rest : List Char} (h : ClosedComments comments) {l : Lexeme}
    {ls : List Lexeme} (hrest : lexemes rest = l :: ls) :
    lexemes (comments ++ rest) = ⟨comments ++ l.gap, l.body, l.token⟩ :: ls := by
  have hcomments : (readComments (comments ++ rest)).length = comments.length + (readComments rest).length := by
    rw [readComments_append h, Reading.behind_length]
  have hafter : afterComments (comments ++ rest) = afterComments rest := by
    rw [afterComments, hcomments, ← List.drop_drop, List.drop_left]
    rfl
  have hfront : frontLexeme (comments ++ rest) =
      ⟨comments ++ (frontLexeme rest).gap, (frontLexeme rest).body, (frontLexeme rest).token⟩ := by
    rw [frontLexeme, hafter, hcomments, List.take_length_add_append]
    rfl
  obtain ⟨rfl, ⟨hend, rfl⟩ | ⟨hne, rfl⟩⟩ := lexemes_eq_cons hrest
  · have htoken : (frontLexeme (comments ++ rest)).token = .endOfFile := by
      rw [hfront, hend]
    rw [lexemes_of_endOfFile htoken, hend]
  · have htoken : (frontLexeme (comments ++ rest)).token ≠ .endOfFile := by
      rw [hfront]
      exact hne
    rw [lexemes_of_ne_endOfFile htoken, afterLexeme_eq, hafter, ← afterLexeme_eq, hfront]

/-! ### Positions -/

/-- The tokens of lexemes, the first of which starts at `position` with its comments. -/
def spansFrom (position : Nat) : List Lexeme → List Span
  | [] => []
  | l :: ls =>
    ⟨l.token, position + l.gap.length, position + l.text.length⟩ ::
      spansFrom (position + l.text.length) ls

theorem spansFrom_append (position : Nat) (a b : List Lexeme) :
    spansFrom position (a ++ b) = spansFrom position a ++ spansFrom (position + (textOf a).length) b := by
  induction a generalizing position with
  | nil => rfl
  | cons l ls ih =>
    simp only [List.cons_append, spansFrom, ih, textOf_cons, List.length_append, Nat.add_assoc]

theorem spansFrom_token (position : Nat) (ls : List Lexeme) :
    (spansFrom position ls).map Span.token = tokensOf ls := by
  induction ls generalizing position with
  | nil => rfl
  | cons l ls ih => simp only [spansFrom, List.map_cons, ih, tokensOf_cons]

/-- Where spans stop, the first of which may start at `position`. -/
def reach (position : Nat) (spans : List Span) : Nat :=
  (spans.getLast?.map Span.stop).getD position

theorem reach_concat (position : Nat) (spans : List Span) (last : Span) :
    reach position (spans ++ [last]) = last.stop := by
  simp [reach]

theorem reach_cons (position : Nat) (first : Span) (rest : List Span) :
    reach position (first :: rest) = reach first.stop rest := by
  rw [reach, reach, List.getLast?_cons]
  cases rest.getLast? <;> rfl

theorem reach_spansFrom (position : Nat) (ls : List Lexeme) :
    reach position (spansFrom position ls) = position + (textOf ls).length := by
  induction ls generalizing position with
  | nil => rfl
  | cons l ls ih =>
    rw [spansFrom, reach_cons, ih, textOf_cons, List.length_append, Nat.add_assoc]

/-- Wherever spans of lexemes are parted, their lexemes are. -/
theorem spansFrom_eq_append {position : Nat} {ls : List Lexeme} {before after : List Span}
    {span : Span} (h : spansFrom position ls = before ++ span :: after) :
    ∃ a l b, ls = a ++ l :: b ∧ before = spansFrom position a ∧
      span = ⟨l.token, position + (textOf a).length + l.gap.length,
        position + (textOf a).length + l.text.length⟩ := by
  induction before generalizing position ls with
  | nil =>
    cases ls with
    | nil => contradiction
    | cons l ls =>
      rw [spansFrom, List.nil_append, List.cons.injEq] at h
      exact ⟨[], l, ls, rfl, rfl, h.1.symm⟩
  | cons first before ih =>
    cases ls with
    | nil => contradiction
    | cons l ls =>
      rw [spansFrom, List.cons_append, List.cons.injEq] at h
      obtain ⟨a, m, b, rfl, hbefore, hspan⟩ := ih h.2
      refine ⟨l :: a, m, b, rfl, ?_, ?_⟩
      · rw [spansFrom, ← hbefore, h.1]
      · rw [hspan, textOf_cons, List.length_append, ← Nat.add_assoc]

/-! ### The stream of tokens -/

/-- The stream behind the lexeme at its front. -/
theorem next?_eq {s : TokenStream} (h : s.ended = false) :
    ∃ s', s.next? = some (⟨(frontLexeme s.rest).token,
        s.position + (frontLexeme s.rest).gap.length,
        s.position + (frontLexeme s.rest).text.length⟩, s') ∧
      s'.rest = afterLexeme s.rest ∧ s'.position = s.position + (frontLexeme s.rest).text.length ∧
      s'.ended = ((frontLexeme s.rest).token == .endOfFile) := by
  rw [TokenStream.next?, h, frontLexeme_gap_length, frontLexeme_text_length, afterLexeme_eq]
  simp only [Bool.false_eq_true, if_false, ← Nat.add_assoc]
  exact ⟨_, rfl, rfl, rfl, rfl⟩

/-- Taking tokens from the stream one by one gives out these spans. -/
inductive Gives : TokenStream → List Span → TokenStream → Prop
  | nil {s} : Gives s [] s
  | cons {s s' last span spans} :
    s.next? = some (span, s') → Gives s' spans last → Gives s (span :: spans) last

theorem Gives.drain {s last : TokenStream} {spans : List Span} (h : Gives s spans last)
    (hlast : last.next? = none) : s.drain = (spans, last) := by
  induction h with
  | nil => exact TokenStream.drain_of_next?_eq_none hlast
  | cons hnext _ ih => rw [TokenStream.drain_of_next?_eq_some hnext, ih hlast]

/-- A stream gives out the tokens of its lexemes up to any of them, and stands behind it then. -/
theorem gives_lexemes {s : TokenStream} (hs : s.ended = false) {a b : List Lexeme}
    (h : lexemes s.rest = a ++ b) :
    ∃ last, Gives s (spansFrom s.position a) last ∧
      last.position = s.position + (textOf a).length ∧ last.ended = b.isEmpty := by
  induction a generalizing s with
  | nil =>
    refine ⟨s, .nil, rfl, ?_⟩
    rw [hs]
    cases b with
    | nil => exact absurd h (lexemes_ne_nil s.rest)
    | cons l ls => rfl
  | cons l ls ih =>
    obtain ⟨s', hnext, hrest, hposition, hended⟩ := next?_eq hs
    obtain ⟨hfront, hcase⟩ := lexemes_eq_cons h
    rw [hfront] at hnext hposition hended
    rcases hcase with ⟨hl, hnil⟩ | ⟨hne, htail⟩
    · obtain ⟨rfl, rfl⟩ := List.append_eq_nil_iff.mp hnil
      refine ⟨s', .cons hnext .nil, ?_, ?_⟩
      · rw [hposition, textOf_cons, textOf_nil, List.append_nil]
      · rw [hended, hl]
        rfl
    · have hs' : s'.ended = false := by
        rw [hended]
        exact beq_eq_false_iff_ne.mpr hne
      obtain ⟨last, hgives, hlast, hend⟩ := ih hs' (by rw [hrest]; exact htail.symm)
      rw [hposition] at hgives hlast
      refine ⟨last, .cons hnext hgives, ?_, hend⟩
      rw [hlast, textOf_cons, List.length_append, Nat.add_assoc]

/-- **The tokens of a text are those of its lexemes.** -/
theorem tokenize_spans (text : List Char) : (tokenize text).spans = spansFrom 0 (lexemes text) := by
  obtain ⟨last, hgives, -, hended⟩ :=
    gives_lexemes (s := .ofText text) rfl (List.append_nil _).symm
  have hnone : last.next? = none := by
    rw [TokenStream.next?, hended]
    rfl
  show (TokenStream.ofText text).drain.1 = _
  rw [hgives.drain hnone]
  rfl

end CssUrls.Lexical
