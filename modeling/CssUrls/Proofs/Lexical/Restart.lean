import CssUrls.Proofs.Lexical.Covering

/-! A text read on from behind a token.

What a stream gives out depends on what is left of its text alone: the same text further ahead gives
the same tokens and faults there (`next?_behind`, `drain_behind`). So each place where a token stops
is one to start again from. Main statement: `tokenize_restart`. -/
namespace CssUrls

/-- The span as seen from `n` code points further ahead. -/
def Span.shift (n : Nat) (s : Span) : Span := ⟨s.token, n + s.start, n + s.stop⟩

namespace Lexical
open Text

namespace TokenStream

/-! ### A stream further ahead -/

/-- The stream as seen from `n` code points further ahead, with what is noted of them. -/
def behind (n : Nat) (noted : List Fault) (s : TokenStream) : TokenStream :=
  { s with position := n + s.position, noted := s.noted.map (Fault.shift n) ++ noted }

/-- The faults of what is further ahead come after those noted. -/
theorem faults_behind (n : Nat) (noted : List Fault) (s : TokenStream) :
    (s.behind n noted).faults = noted.reverse ++ s.faults.map (Fault.shift n) := by
  rw [faults, behind, List.reverse_append, ← List.map_reverse]
  rfl

/-- A stream that has not ended is that of what is left of its text, further ahead. -/
theorem behind_ofText {s : TokenStream} (h : s.ended = false) :
    (ofText s.rest).behind s.position s.noted = s := by
  obtain ⟨rest, position, noted, ended⟩ := s
  subst h
  rfl

/-- **One token further ahead is the same token there.** -/
theorem next?_behind (n : Nat) (noted : List Fault) (s : TokenStream) :
    (s.behind n noted).next? =
      s.next?.map fun (span, rest) => (span.shift n, rest.behind n noted) := by
  unfold next?
  cases hended : s.ended with
  | true => simp [behind, hended]
  | false =>
    simp only [behind, hended, Bool.false_eq_true, if_false, Option.map_some, Span.shift,
      List.map_append, List.map_reverse, Fault.map_shift_shift, List.append_assoc, Nat.add_assoc]

/-- **All tokens further ahead are the same there**, and so are the faults. -/
theorem drain_behind (n : Nat) (noted : List Fault) (s : TokenStream) :
    (s.behind n noted).drain = (s.drain.1.map (Span.shift n), s.drain.2.behind n noted) := by
  generalize hleft : s.left = left
  induction left using Nat.strongRecOn generalizing s with
  | ind left ih =>
    subst hleft
    have hnext := next?_behind n noted s
    cases h : s.next? with
    | none =>
      rw [h, Option.map_none] at hnext
      rw [drain_of_next?_eq_none hnext, drain_of_next?_eq_none h, List.map_nil]
    | some step =>
      obtain ⟨span, rest⟩ := step
      rw [h, Option.map_some] at hnext
      rw [drain_of_next?_eq_some hnext, drain_of_next?_eq_some h, ih _ (left_lt_of_next? h) rest rfl,
        List.map_cons]

end TokenStream

/-! ### Stopping on the way -/

/-- Behind a token the stream stands where it stops, with what is left of the text there. -/
theorem position_of_next? {s s' : TokenStream} {span : Span} (h : s.next? = some (span, s')) :
    s'.position = span.stop ∧ s'.ended = (span.token == .endOfFile) ∧
      ∀ text : List Char, s.rest = text.drop s.position → s'.rest = text.drop s'.position := by
  unfold TokenStream.next? at h
  split at h
  · contradiction
  · cases h
    refine ⟨rfl, rfl, fun text htext => ?_⟩
    simp only [htext, List.drop_drop]

/-- What a stream still gives out after some of its tokens are the others. -/
theorem exists_gives_of_drain {s : TokenStream} {before after : List Span}
    (h : s.drain.1 = before ++ after) :
    ∃ mid, Gives s before mid ∧ mid.drain = (after, s.drain.2) := by
  induction before generalizing s with
  | nil => exact ⟨s, .nil, by rw [← List.nil_append after, ← h]⟩
  | cons span before ih =>
    cases hnext : s.next? with
    | none =>
      rw [TokenStream.drain_of_next?_eq_none hnext] at h
      contradiction
    | some step =>
      obtain ⟨first, rest⟩ := step
      rw [TokenStream.drain_of_next?_eq_some hnext] at h ⊢
      obtain ⟨rfl, hrest⟩ := List.cons.inj h
      obtain ⟨mid, hgives, hdrain⟩ := ih hrest
      exact ⟨mid, .cons hnext hgives, hdrain⟩

/-- Behind its last token the stream stands where that stops. -/
theorem Gives.position_concat {s last : TokenStream} {before : List Span} {span : Span}
    (h : Gives s (before ++ [span]) last) :
    last.position = span.stop ∧ last.ended = (span.token == .endOfFile) ∧
      ∀ text : List Char, s.rest = text.drop s.position → last.rest = text.drop last.position := by
  induction before generalizing s with
  | nil =>
    cases h with
    | cons hnext hnil =>
      cases hnil
      exact position_of_next? hnext
  | cons first before ih =>
    cases h with
    | cons hnext hrest =>
      obtain ⟨hposition, hended, hread⟩ := ih hrest
      exact ⟨hposition, hended, fun text htext => hread text ((position_of_next? hnext).2.2 text htext)⟩

/-- **Where a token stops the text can be read from the start.** What is behind it has the tokens that
are still to come and the faults that are noted from there on, but for their places, which count from
there. -/
theorem tokenize_restart {text : List Char} {before after : List Span} {span : Span}
    (h : (tokenize text).spans = before ++ span :: after) (hspan : span.token ≠ .endOfFile) :
    ∃ s, Gives (.ofText text) (before ++ [span]) s ∧
      (tokenize (text.drop span.stop)).spans.map (Span.shift span.stop) = after ∧
      s.faults ++ (tokenize (text.drop span.stop)).faults.map (Fault.shift span.stop) =
        (tokenize text).faults := by
  rw [List.append_cons] at h
  obtain ⟨s, hgives, hdrain⟩ := exists_gives_of_drain (s := .ofText text) h
  obtain ⟨hposition, hended, hread⟩ := hgives.position_concat
  rw [beq_eq_false_iff_ne.mpr hspan] at hended
  have hrest : s.rest = text.drop span.stop := by
    rw [← hposition]
    exact hread text rfl
  have hbehind := TokenStream.behind_ofText hended
  rw [← hbehind, TokenStream.drain_behind, hposition, hrest] at hdrain
  obtain ⟨hspans, hlast⟩ := Prod.mk.inj hdrain
  refine ⟨s, hgives, hspans, ?_⟩
  have hfaults := congrArg TokenStream.faults hlast
  rw [TokenStream.faults_behind] at hfaults
  exact hfaults

/-- Behind `url(` and white space before a quote, which leaves some of it, in front of an escape at the
end of the text. -/
theorem tokenize_restart_quotedUrl :
    (tokenize "url(  'a'/**/\\".toList).spans = [] ++ ⟨.function "url", 0, 5⟩ ::
        [⟨.whitespace, 5, 6⟩, ⟨.string "a", 6, 9⟩, ⟨.ident "\ufffd", 13, 14⟩, ⟨.endOfFile, 14, 14⟩] ∧
      Token.function "url" ≠ .endOfFile ∧
      ∃ s, Gives (.ofText "url(  'a'/**/\\".toList) [⟨.function "url", 0, 5⟩] s ∧
        (tokenize " 'a'/**/\\".toList).spans.map (Span.shift 5) =
          [⟨.whitespace, 5, 6⟩, ⟨.string "a", 6, 9⟩, ⟨.ident "\ufffd", 13, 14⟩, ⟨.endOfFile, 14, 14⟩] ∧
        s.faults ++ (tokenize " 'a'/**/\\".toList).faults.map (Fault.shift 5) =
          [⟨.invalidEscape, 13⟩] := by
  have hspans : (tokenize "url(  'a'/**/\\".toList).spans = [] ++ ⟨.function "url", 0, 5⟩ ::
      [⟨.whitespace, 5, 6⟩, ⟨.string "a", 6, 9⟩, ⟨.ident "\ufffd", 13, 14⟩, ⟨.endOfFile, 14, 14⟩] := by
    decide +kernel
  have hfaults : (tokenize "url(  'a'/**/\\".toList).faults = [⟨.invalidEscape, 13⟩] := by decide +kernel
  have hrestart := tokenize_restart hspans Token.noConfusion
  rw [hfaults] at hrestart
  exact ⟨hspans, Token.noConfusion, hrestart⟩

/-! ### One lexeme at a time -/

/-- The comments at the front of the text, and the token behind them. -/
def readLexeme (text : List Char) : Reading Token :=
  (readComments text).andThen (readToken (afterComments text))

theorem readLexeme_length (text : List Char) :
    (readLexeme text).length = (frontLexeme text).text.length :=
  (frontLexeme_text_length text).symm

theorem readLexeme_length_le (text : List Char) : (readLexeme text).length ≤ text.length := by
  have hwhole := congrArg List.length (frontLexeme_append text)
  rw [List.length_append] at hwhole
  rw [readLexeme_length]
  omega

theorem readLexeme_length_pos {text : List Char} (h : (readLexeme text).value ≠ .endOfFile) :
    0 < (readLexeme text).length := by
  have hbody : 0 < (frontLexeme text).body.length := frontLexeme_body_pos h
  rw [readLexeme_length, Lexeme.text, List.length_append]
  omega

/-- Where no comment is, there is the token alone. -/
theorem readLexeme_of_readComments {text : List Char} (h : readComments text = .plain 0 ()) :
    readLexeme text = readToken text := by
  have hfaults : (readToken text).faults.map (Fault.shift 0) = (readToken text).faults :=
    List.map_id'' Fault.shift_zero _
  rw [readLexeme, afterComments, h, Reading.plain_length, List.drop_zero, Reading.andThen, Reading.plain_length,
    hfaults, Nat.zero_add]
  rfl

theorem readToken_whitespace {c : Char} (h : isWhitespace c = true) (rest : List Char) :
    readToken (c :: rest) = .plain (countOf isWhitespace (c :: rest)) .whitespace := by
  have hnot : punctuation? c = none := by
    simp only [isWhitespace, isNewline, Bool.or_eq_true, beq_iff_eq] at h
    rcases h with (rfl | rfl) | (rfl | rfl) | rfl <;> rfl
  simp only [readToken, hnot, h, if_true]

theorem readLexeme_whitespace {c : Char} (h : isWhitespace c = true) (rest : List Char) :
    readLexeme (c :: rest) = .plain (countOf isWhitespace (c :: rest)) .whitespace := by
  have hslash : c ≠ '/' := ne_of_inClass h rfl
  rw [readLexeme_of_readComments (readComments_of_ne_slash hslash rest), readToken_whitespace h]

/-- The first lexeme of a text as its stream gives it out. -/
theorem next?_ofText (text : List Char) :
    (TokenStream.ofText text).next? =
      some (⟨(readLexeme text).value, (readComments text).length, (readLexeme text).length⟩,
        { rest := text.drop (readLexeme text).length
          position := (readLexeme text).length
          noted := (readLexeme text).faults.reverse
          ended := (readLexeme text).value == .endOfFile }) := by
  have hnone (faults : List Fault) : faults.map (Fault.shift 0) = faults :=
    List.map_id'' Fault.shift_zero faults
  simp only [TokenStream.next?, TokenStream.ofText, Bool.false_eq_true, if_false, Nat.zero_add, hnone,
    List.append_nil, List.drop_drop]
  rfl

/-- A text with nothing but comments has the end of the file and the faults of the comments. -/
theorem tokenize_eq_singleton {text : List Char} (h : (readLexeme text).value = .endOfFile) :
    (tokenize text).spans = [⟨.endOfFile, (readComments text).length, (readLexeme text).length⟩] ∧
      (tokenize text).faults = (readLexeme text).faults := by
  have hnext := next?_ofText text
  rw [h, beq_self_eq_true] at hnext
  have hdrain := TokenStream.drain_of_next?_eq_some hnext
  rw [TokenStream.drain_of_next?_eq_none (s := ⟨_, _, _, true⟩) rfl] at hdrain
  show (TokenStream.ofText text).drain.1 = _ ∧ (TokenStream.ofText text).drain.2.faults = _
  rw [hdrain]
  exact ⟨rfl, List.reverse_reverse _⟩

/-- A text has the token at its front and the faults of that, and then those of what is behind it. -/
theorem tokenize_eq_cons {text : List Char} (h : (readLexeme text).value ≠ .endOfFile) :
    (tokenize text).spans =
        ⟨(readLexeme text).value, (readComments text).length, (readLexeme text).length⟩ ::
          (tokenize (text.drop (readLexeme text).length)).spans.map (Span.shift (readLexeme text).length) ∧
      (tokenize text).faults = (readLexeme text).faults ++
        (tokenize (text.drop (readLexeme text).length)).faults.map
          (Fault.shift (readLexeme text).length) := by
  have hnext := next?_ofText text
  rw [beq_eq_false_iff_ne.mpr h] at hnext
  have hdrain := TokenStream.drain_of_next?_eq_some hnext
  rw [← TokenStream.behind_ofText (s := ⟨_, _, _, false⟩) rfl, TokenStream.drain_behind] at hdrain
  show (TokenStream.ofText text).drain.1 = _ ∧ (TokenStream.ofText text).drain.2.faults = _
  rw [hdrain]
  refine ⟨rfl, ?_⟩
  rw [TokenStream.faults_behind, List.reverse_reverse]
  rfl

/-- A token that nothing stands in front of is the first, and those of the text behind it come after it. -/
theorem tokenize_append {front rest : List Char} {t : Token}
    (hcomments : readComments (front ++ rest) = .plain 0 ())
    (hread : readToken (front ++ rest) = .plain front.length t) (ht : t ≠ .endOfFile) :
    (tokenize (front ++ rest)).spans =
        ⟨t, 0, front.length⟩ :: (tokenize rest).spans.map (Span.shift front.length) ∧
      (tokenize (front ++ rest)).faults = (tokenize rest).faults.map (Fault.shift front.length) := by
  have hlexeme : readLexeme (front ++ rest) = .plain front.length t := by
    rw [readLexeme_of_readComments hcomments, hread]
  have hne : (readLexeme (front ++ rest)).value ≠ .endOfFile := by
    rw [hlexeme]
    exact ht
  have hboth := tokenize_eq_cons hne
  rw [hlexeme, hcomments] at hboth
  simp only [Reading.plain_length, List.drop_left] at hboth
  exact hboth

theorem tokenize_of_endOfFile {text : List Char} (h : (readLexeme text).value = .endOfFile) :
    (tokenize text).spans.map Span.token = [.endOfFile] ∧
      (tokenize text).faults = (readLexeme text).faults := by
  obtain ⟨hspans, hfaults⟩ := tokenize_eq_singleton h
  exact ⟨by rw [hspans]; rfl, hfaults⟩

theorem tokenize_nil : (tokenize []).spans.map Span.token = [.endOfFile] ∧ (tokenize []).faults = [] := by
  decide +kernel

/-- The tokens behind the first are the same wherever they stand. -/
theorem tokenize_of_ne_endOfFile {text : List Char} (h : (readLexeme text).value ≠ .endOfFile) :
    (tokenize text).spans.map Span.token = (readLexeme text).value ::
        (tokenize (text.drop (readLexeme text).length)).spans.map Span.token ∧
      (tokenize text).faults = (readLexeme text).faults ++
        (tokenize (text.drop (readLexeme text).length)).faults.map
          (Fault.shift (readLexeme text).length) := by
  obtain ⟨hspans, hfaults⟩ := tokenize_eq_cons h
  refine ⟨?_, hfaults⟩
  rw [hspans, List.map_cons, List.map_map]
  rfl

end Lexical

end CssUrls
