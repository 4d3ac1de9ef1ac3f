import CssUrls.Proofs.Lexical.Lexemes

/-! Tokens and comments cover the text.

`tokens_cover` is the whole account: taking tokens from a stream ends, the end of the file comes
last and once, every other token takes something, the stream stands where its last token stops,
and between one token and the next there is nothing but comments. -/
namespace CssUrls.Lexical
open Text

/-- The stream gives out all tokens, and then no more. -/
theorem gives_tokenize (text : List Char) :
    ∃ last, Gives (.ofText text) (tokenize text).spans last ∧ last.next? = none := by
  obtain ⟨last, hgives, -, hended⟩ := gives_lexemes (s := .ofText text) rfl (List.append_nil _).symm
  rw [tokenize_spans]
  refine ⟨last, hgives, ?_⟩
  rw [TokenStream.next?, hended]
  rfl

/-- The stream stands where its last lexeme ends. -/
theorem gives_concat {text : List Char} {a b : List Lexeme} {l : Lexeme}
    (h : lexemes text = a ++ l :: b) :
    ∃ s, Gives (.ofText text) (spansFrom 0 a ++ [⟨l.token, (textOf a).length + l.gap.length,
        (textOf a).length + l.text.length⟩]) s ∧
      s.position = (textOf a).length + l.text.length := by
  obtain ⟨s, hgives, hposition, -⟩ := gives_lexemes (s := .ofText text) (a := a ++ [l]) (b := b)
    rfl (h.trans (by simp))
  refine ⟨s, ?_, ?_⟩
  · rw [spansFrom_append] at hgives
    simpa [spansFrom, TokenStream.ofText] using hgives
  · rw [hposition, textOf_append]
    simp [TokenStream.ofText]

/-- The gap of a lexeme is what the text holds between the lexemes before and its token. -/
theorem extract_gap {text : List Char} {a b : List Lexeme} {l : Lexeme}
    (h : lexemes text = a ++ l :: b) :
    text.extract (textOf a).length ((textOf a).length + l.gap.length) = l.gap := by
  have htext := textOf_lexemes text
  rw [h, textOf_append, textOf_cons, Lexeme.text] at htext
  rw [List.extract_eq_take_drop, Nat.add_sub_cancel_left, ← htext, List.drop_left, List.append_assoc,
    List.take_left]

/-- The end of the file comes last, behind the last gap. -/
theorem exists_lastGap (text : List Char) :
    ∃ front gap, lexemes text = front ++ [⟨gap, [], .endOfFile⟩] ∧
      (∀ l ∈ front, l.token ≠ .endOfFile ∧ 0 < l.body.length) ∧
      (tokenize text).spans = spansFrom 0 front ++ [⟨.endOfFile, text.length, text.length⟩] ∧
      text.extract (textOf front).length text.length = gap := by
  obtain ⟨front, gap, heq, hfront⟩ := lexemes_eq_append_endOfFile text
  have hgap := extract_gap heq
  have hlength := congrArg List.length (textOf_lexemes text)
  rw [heq, textOf_append, List.length_append] at hlength
  simp only [textOf_cons, textOf_nil, Lexeme.text, List.append_nil] at hlength
  refine ⟨front, gap, heq, hfront, ?_, hlength ▸ hgap⟩
  rw [tokenize_spans, heq, spansFrom_append]
  simp only [spansFrom, Lexeme.text, List.append_nil, Nat.zero_add, hlength]

/-- The end of the file comes last, and each token in front of it takes something. -/
theorem spans_eq_append_endOfFile (text : List Char) :
    ∃ front, (tokenize text).spans = front ++ [⟨.endOfFile, text.length, text.length⟩] ∧
      ∀ span ∈ front, span.token ≠ .endOfFile ∧ span.start < span.stop := by
  obtain ⟨front, gap, -, hfront, hspans, -⟩ := exists_lastGap text
  refine ⟨spansFrom 0 front, hspans, ?_⟩
  intro span hspan
  obtain ⟨before, after, hsplit⟩ := List.append_of_mem hspan
  obtain ⟨a, l, b, rfl, -, rfl⟩ := spansFrom_eq_append hsplit
  have hl := hfront l (by simp)
  refine ⟨hl.1, ?_⟩
  simp only [Lexeme.text, List.length_append]
  omega

/-- **The tokens of any text, with the comments between them, cover it.** Taking tokens from its
stream gives out these and then no more. The last is the end of the file, which stands where the
text ends, and each of the others takes something. After each token the stream stands where the
token stops. Up to each token, from where the one before stops, there are closed comments only;
before the end of the file one that is not closed may follow them. -/
theorem tokens_cover (text : List Char) :
    (∃ last, Gives (.ofText text) (tokenize text).spans last ∧ last.next? = none) ∧
    (∃ front, (tokenize text).spans = front ++ [⟨.endOfFile, text.length, text.length⟩] ∧
      ∀ span ∈ front, span.token ≠ .endOfFile ∧ span.start < span.stop) ∧
    ∀ before span after, (tokenize text).spans = before ++ span :: after →
      (∃ s, Gives (.ofText text) (before ++ [span]) s ∧ s.position = span.stop) ∧
      reach 0 before ≤ span.start ∧ span.start ≤ span.stop ∧ span.stop ≤ text.length ∧
      (ClosedComments (text.extract (reach 0 before) span.start) ∨
        span.token = .endOfFile ∧ ∃ comments rest,
          text.extract (reach 0 before) span.start = comments ++ rest ∧
            ClosedComments comments ∧ OpenComment rest) := by
  refine ⟨gives_tokenize text, spans_eq_append_endOfFile text, ?_⟩
  intro before span after hsplit
  rw [tokenize_spans] at hsplit
  obtain ⟨a, l, b, hls, rfl, rfl⟩ := spansFrom_eq_append hsplit
  have hlength := congrArg List.length (textOf_lexemes text)
  rw [hls, textOf_append, textOf_cons, List.length_append, List.length_append] at hlength
  have htext : l.text.length = l.gap.length + l.body.length := List.length_append
  simp only [reach_spansFrom, Nat.zero_add]
  refine ⟨gives_concat hls, by omega, by omega, by omega, ?_⟩
  have hmem : l ∈ lexemes text := by
    rw [hls]
    exact List.mem_append_right a (List.mem_cons_self ..)
  rw [extract_gap hls]
  exact gap_of_mem_lexemes hmem

end CssUrls.Lexical
