import CssUrls.Proofs.Lexical.Identifiers

/-! Tokens that a parenthesis closes.

A closing parenthesis that ends a token is the last that the token depends on, and no token in front of
it can look past it. So lexemes that end with such a token stay what they are in front of any text. Main
statement: `lexemes_textOf_append`. -/
namespace CssUrls.Lexical
open Text

variable {α : Type}

/-- Nothing in front of a closing parenthesis can tell what is behind it. -/
theorem alike_paren (s t : List Char) : Alike (')' :: s) (')' :: t) :=
  alike_of_marks rfl rfl rfl rfl rfl fun h => absurd h (by simp)

/-- The reading of the text ends with a closing parenthesis, and is the same whatever is behind that. -/
def Closed (read : List Char → Reading α) (text : List Char) : Prop :=
  ∃ p s, text = p ++ ')' :: s ∧ (read text).length = p.length + 1 ∧ ∀ t, read (p ++ ')' :: t) = read text

/-- The token ends with a closing parenthesis. -/
def closes : Token → Bool
  | .closeParen | .url _ => true
  | _ => false

/-- What is behind some code points of a text is behind them whatever ends the text. -/
theorem exists_append_of_drop {text q s : List Char} {n : Nat} (hn : n ≤ text.length)
    (h : text.drop n = q ++ s) :
    ∃ p, text = p ++ s ∧ p.length = n + q.length ∧ ∀ x, (p ++ x).drop n = q ++ x := by
  have htake : (text.take n).length = n := List.length_take_of_le hn
  refine ⟨text.take n ++ q, ?_, by rw [List.length_append, htake], fun x => ?_⟩
  · rw [List.append_assoc, ← h, List.take_append_drop]
  · rw [List.append_assoc]
    exact List.drop_left' htake

/-! ### URLs -/

theorem readUrlEnd_isClosed {url u : String} {text : List Char} (h : (readUrlEnd url text).value = .url u) :
    Closed (readUrlEnd url) text := by
  cases hrest : text.drop (countOf isWhitespace text) with
  | nil =>
    rw [readUrlEnd_end url hrest] at h
    contradiction
  | cons c rest =>
    by_cases hc : c = ')'
    · subst hc
      obtain ⟨p, htext, hlength, hdrop⟩ :=
        exists_append_of_drop (q := []) (countOf_le isWhitespace text) hrest
      have hle : countOf isWhitespace (p ++ ')' :: rest) ≤ p.length := by
        rw [← htext, hlength]
        exact Nat.le_refl _
      refine ⟨p, rest, htext, ?_, fun t => ?_⟩
      · rw [readUrlEnd_closed url hrest, hlength]
        rfl
      · have hcount : countOf isWhitespace (p ++ ')' :: t) = countOf isWhitespace text := by
          rw [htext]
          exact countOf_append_eq hle rfl
        have hrest' : (p ++ ')' :: t).drop (countOf isWhitespace (p ++ ')' :: t)) = ')' :: t := by
          rw [hcount, hdrop]
          rfl
        rw [readUrlEnd_closed url hrest, readUrlEnd_closed url hrest', hcount]
    · rw [readUrlEnd_broken url hc hrest] at h
      contradiction

theorem readUrl_isClosed {u : String} {text : List Char} (h : (readUrl text).value = .url u) :
    Closed readUrl text := by
  have hrun := readRun_length_le urlPiece_bounded text
  obtain ⟨q, s, hrest, hlength, hend⟩ := readUrlEnd_isClosed h
  obtain ⟨p, rfl, hp, hdrop⟩ := exists_append_of_drop hrun hrest
  have hread (t : List Char) : readRun urlPiece (p ++ ')' :: t) = readRun urlPiece (p ++ ')' :: s) := by
    have hle : covered (pieces urlPiece (p ++ ')' :: s)) ≤ p.length := hp ▸ Nat.le_add_right ..
    unfold readRun
    rw [pieces_eq_of_stable (alike_paren s t).urlPiece_stable p hle fun _ => pieces_cons_of_none rfl]
  refine ⟨p, s, rfl, ?_, fun t => ?_⟩
  · rw [readUrl, Reading.andThen_length, hlength, hp, Nat.add_assoc]
  · rw [readUrl, hread, hdrop, hend]
    rfl

/-! ### Names and what they open -/

theorem readUrlFunction_isClosed {name u : String} {text : List Char}
    (h : (readUrlFunction name text).value = .url u) : Closed (readUrlFunction name) text := by
  have hquote : startsWith isQuote (text.drop (countOf isWhitespace text)) = false := by
    rw [← Bool.not_eq_true]
    intro hquote
    simp only [readUrlFunction, if_pos hquote] at h
    contradiction
  have hfunction {x : List Char} (hx : startsWith isQuote (x.drop (countOf isWhitespace x)) = false) :
      readUrlFunction name x =
        (readUrl (x.drop (countOf isWhitespace x))).behind (countOf isWhitespace x) :=
    if_neg (Bool.eq_false_iff.mp hx)
  rw [hfunction hquote] at h
  obtain ⟨q, s, hrest, hlength, hurl⟩ := readUrl_isClosed h
  obtain ⟨p, htext, hp, hdrop⟩ := exists_append_of_drop (countOf_le isWhitespace text) hrest
  refine ⟨p, s, htext, ?_, fun t => ?_⟩
  · rw [hfunction hquote, Reading.behind_length, hlength, hp, Nat.add_assoc]
  · have hcount : countOf isWhitespace (p ++ ')' :: t) = countOf isWhitespace text := by
      rw [htext]
      refine countOf_append_eq ?_ rfl
      rw [← htext, hp]
      exact Nat.le_add_right ..
    have hquote' : startsWith isQuote ((p ++ ')' :: t).drop (countOf isWhitespace (p ++ ')' :: t))) = false := by
      rw [hcount, hdrop]
      rw [hrest] at hquote
      exact (startsWith_append_of_eq (alike_paren s t).quote q).trans hquote
    rw [hfunction hquote', hfunction hquote, hcount, hdrop, hurl]

/-- Only `url(` opens a URL. -/
theorem readIdentLike_of_url {u : String} {text : List Char} (h : (readIdentLike text).value = .url u) :
    ∃ rest, text.drop (readName text).length = '(' :: rest ∧
      sameLetters (readName text).value "url" = true ∧
      (readUrlFunction (readName text).value rest).value = .url u := by
  cases hdrop : text.drop (readName text).length with
  | nil =>
    rw [readIdentLike_plain (by rw [hdrop]; rfl)] at h
    contradiction
  | cons c rest =>
    by_cases hc : c = '('
    · subst hc
      rw [readIdentLike_opened hdrop] at h
      split at h
      · exact ⟨rest, rfl, ‹_›, h⟩
      · contradiction
    · rw [readIdentLike_plain (by rw [hdrop, startsWith_cons, beq_eq_false_iff_ne]; exact hc)] at h
      contradiction

theorem readIdentLike_isClosed {u : String} {text : List Char} (h : (readIdentLike text).value = .url u) :
    Closed readIdentLike text := by
  obtain ⟨rest, hopen, hname, hvalue⟩ := readIdentLike_of_url h
  obtain ⟨q, s, rfl, hlength, hfunction⟩ := readUrlFunction_isClosed hvalue
  obtain ⟨p, rfl, hp, hdrop⟩ := exists_append_of_drop (q := '(' :: q) (readName_length_le text) hopen
  have hread (t : List Char) : readName (p ++ ')' :: t) = readName (p ++ ')' :: s) :=
    (alike_paren s t).readName_eq (hp ▸ Nat.le_add_right ..)
  have hopened (t : List Char) : readIdentLike (p ++ ')' :: t) =
      ((readName (p ++ ')' :: s)).andThen (.plain 1 ())).andThen
        (readUrlFunction (readName (p ++ ')' :: s)).value (q ++ ')' :: s)) := by
    have hdrop' : (p ++ ')' :: t).drop (readName (p ++ ')' :: t)).length = '(' :: (q ++ ')' :: t) := by
      rw [hread, hdrop]
      rfl
    rw [readIdentLike_opened hdrop', hread, if_pos hname, hfunction]
  refine ⟨p, s, rfl, ?_, fun t => by rw [hopened, hopened]⟩
  rw [hopened, Reading.andThen_length, Reading.andThen_length, Reading.plain_length, hlength, hp,
    List.length_cons]
  omega

/-! ### Tokens -/

theorem readName_length_lt_of_url {u : String} {text : List Char} (h : (readIdentLike text).value = .url u) :
    (readName text).length < (readIdentLike text).length := by
  obtain ⟨rest, hopen, hname, -⟩ := readIdentLike_of_url h
  rw [readIdentLike_opened hopen, if_pos hname, Reading.andThen_length, Reading.andThen_length,
    Reading.plain_length]
  omega

theorem eq_of_punctuation? {c : Char} (h : punctuation? c = some .closeParen) : c = ')' := by
  unfold punctuation? at h
  split at h <;> first | rfl | cases h

/-- Only a closing parenthesis is read as one. -/
theorem readToken_eq_closeParen {text : List Char} (h : (readToken text).value = .closeParen) :
    ∃ rest, text = ')' :: rest := by
  cases text with
  | nil => contradiction
  | cons c rest =>
    cases hpunctuation : punctuation? c with
    | some token =>
      simp only [readToken, hpunctuation] at h
      exact ⟨rest, by rw [eq_of_punctuation? (hpunctuation.trans (congrArg some h))]⟩
    | none =>
      exfalso
      have hnot {t : Token} (ht : isMade t = true ∨ isNamed t = true) : t ≠ .closeParen := by
        rintro rfl
        rcases ht with ht | ht <;> contradiction
      simp only [readToken, hpunctuation] at h
      split at h
      · contradiction
      · split at h
        · rcases readQuoted_value c rest with hvalue | hvalue <;>
            · rw [hvalue] at h
              contradiction
        · split at h
          · exact hnot (.inl (readNumber_isMade _)) h
          · split at h
            · exact hnot (.inr (readIdentLike_isNamed _)) h
            · rcases readMark_cases c rest with ⟨-, hident⟩ | hmark
              · rw [hident] at h
                exact hnot (.inr (readIdentLike_isNamed _)) h
              · exact hnot (.inl hmark) h

/-- A URL is read where an identifier starts. -/
theorem readToken_eq_url {u : String} {text : List Char} (h : (readToken text).value = .url u) :
    startsIdentifier text = true ∧ readToken text = readIdentLike text := by
  cases text with
  | nil => contradiction
  | cons c rest =>
    rcases readToken_cases c rest with hident | ⟨-, hquoted⟩ | halone
    · exact hident
    · rw [hquoted] at h
      rcases readQuoted_value c rest with hvalue | hvalue <;>
        · rw [hvalue] at h
          contradiction
    · rw [h] at halone
      contradiction

/-- **A token that a parenthesis closes** is the same whatever is behind that. -/
theorem readToken_isClosed {text : List Char} (h : closes (readToken text).value = true) :
    Closed readToken text := by
  cases htoken : (readToken text).value with
  | closeParen =>
    obtain ⟨rest, rfl⟩ := readToken_eq_closeParen htoken
    exact ⟨[], rest, rfl, rfl, fun t => rfl⟩
  | url u =>
    obtain ⟨hstarts, hident⟩ := readToken_eq_url htoken
    rw [hident] at htoken
    have hname := readName_length_lt_of_url htoken
    obtain ⟨p, s, rfl, hlength, hread⟩ := readIdentLike_isClosed htoken
    refine ⟨p, s, rfl, by rw [hident, hlength], fun t => ?_⟩
    have halike := alike_paren s t
    have hstarts' := halike.startsIdentifier_append_of_le (by omega) hstarts
    have hcdc : ['-', '-', '>'].isPrefixOf (p ++ ')' :: t) = false := by
      rw [← Bool.not_eq_true]
      intro hcdc
      obtain ⟨rest, hrest⟩ := List.isPrefixOf_iff_prefix.mp (halike.isPrefixOf_append (List.all_eq_true.mp rfl) hcdc)
      have hmark : readToken (['-', '-', '>'] ++ rest) = .plain 3 .cdc := rfl
      rw [← hident, ← hrest, hmark] at htoken
      contradiction
    rw [hident, readToken_of_startsIdentifier hstarts' hcdc, hread]
  | _ =>
    rw [htoken] at h
    contradiction

/-! ### Lexemes -/

/-- A lexeme that ends with such a token is at the front of any text that starts with it. -/
theorem lexemes_append_of_closes {l : Lexeme} {s : List Char} (h : frontLexeme (l.text ++ s) = l)
    (hcloses : closes l.token = true) :
    (∃ q, l.text = q ++ [')']) ∧ ∀ t, lexemes (l.text ++ t) = l :: lexemes t := by
  obtain ⟨gap, body, token⟩ := l
  rw [Lexeme.text, List.append_assoc] at h
  have hgap : (readComments (gap ++ (body ++ s))).length = gap.length := by
    rw [← frontLexeme_gap_length, h]
  have hafter : afterComments (gap ++ (body ++ s)) = body ++ s := by
    rw [afterComments, hgap, List.drop_left]
  have hvalue : (readToken (body ++ s)).value = token := by
    rw [← hafter]
    exact congrArg Lexeme.token h
  have hlength : (readToken (body ++ s)).length = body.length := by
    rw [← hafter, ← frontLexeme_body_length, h]
  have hne : token ≠ .endOfFile := by
    rintro rfl
    contradiction
  rw [← hvalue] at hcloses
  obtain ⟨p, rest, hbody, hp, hread⟩ := readToken_isClosed hcloses
  obtain ⟨rfl, rfl⟩ : body = p ++ [')'] ∧ s = rest := by
    refine List.append_inj (hbody.trans (List.append_cons ..)) ?_
    rw [← hlength, hp, List.length_append, List.length_singleton]
  have hfront (t : List Char) : p ++ [')'] ++ t = p ++ ')' :: t := (List.append_cons ..).symm
  rw [hfront] at hgap hvalue hlength hread
  refine ⟨⟨gap ++ p, (List.append_assoc ..).symm⟩, fun t => ?_⟩
  rw [Lexeme.text, List.append_assoc]
  apply lexemes_eq_cons_mk gap
  case hgap =>
    rw [← List.append_assoc] at hgap
    rw [hfront, ← List.append_assoc, (alike_paren s t).readComments_eq, hgap]
    rw [hgap, List.length_append]
    exact Nat.le_add_right ..
  case hvalue => rw [hfront, hread, hvalue]
  case hlength => rw [hfront, hread, hlength]
  case hne => exact hne

/-- **Lexemes that end with such a token** are at the front of any text that starts with what they are
written as. -/
theorem lexemes_textOf_append {a b : List Lexeme} {l : Lexeme} {s : List Char}
    (h : lexemes (textOf (a ++ [l]) ++ s) = a ++ [l] ++ b) (hcloses : closes l.token = true) :
    (∃ q, textOf (a ++ [l]) = q ++ [')']) ∧
      ∀ t, lexemes (textOf (a ++ [l]) ++ t) = a ++ [l] ++ lexemes t := by
  induction a with
  | nil =>
    have htext : textOf ([] ++ [l]) = l.text := List.append_nil _
    rw [htext] at h ⊢
    exact lexemes_append_of_closes (lexemes_eq_cons h).1 hcloses
  | cons m a ih =>
    rw [List.cons_append, textOf_cons, List.append_assoc] at h
    obtain ⟨hm, ⟨-, hnil⟩ | ⟨hne, hrest⟩⟩ := lexemes_eq_cons h
    · simp at hnil
    · rw [afterLexeme, hm, List.drop_left] at hrest
      obtain ⟨⟨q, hq⟩, hall⟩ := ih hrest.symm
      refine ⟨⟨m.text ++ q, by rw [List.cons_append, textOf_cons, hq, List.append_assoc]⟩, fun t => ?_⟩
      have hparen (t : List Char) : m.text ++ (textOf (a ++ [l]) ++ t) = m.text ++ q ++ ')' :: t := by
        rw [hq, List.append_assoc, List.append_assoc]
        rfl
      have hfront : frontLexeme (m.text ++ (textOf (a ++ [l]) ++ t)) = m := by
        rw [hparen] at hm ⊢
        rw [(alike_paren s t).frontLexeme_eq, hm]
        rw [hm, List.length_append]
        exact Nat.le_add_right ..
      rw [List.cons_append, textOf_cons, List.append_assoc, lexemes_append hfront hne, hall]
      rfl

end CssUrls.Lexical
