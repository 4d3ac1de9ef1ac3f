import CssUrls.Proofs.Segment.Exchange
import CssUrls.Proofs.Segment.Matching

/-! Comments and strings changed.

Whatever closed comment is written where one was, and whatever string where one was that is no URL, the
tokens around it stay what they are: in front of it nothing can tell (`alike_comment`, `alike_quote`), and
it ends where it ends. So the lexemes are matched (`Inert.matched`). Main statement: `segment_replaced`. -/
namespace CssUrls
open Text Lexical Css

/-- The stylesheet with another text in place of what stands from `start` to `stop`, in code points of its
normal form. -/
def replaced (css : String) (start stop : Nat) (other : List Char) : String :=
  String.ofList (sourceOf ((points css.toList).take start) ++
    (other ++ sourceOf ((points css.toList).drop stop)))

/-- What stands from `start` to `stop` of a text says nothing of its URLs, and neither does another text that
is written there instead. -/
inductive Inert (text : List Char) (start stop : Nat) : List Char → Prop
  /-- A comment in front of a token, behind other comments there. -/
  | comment {before after : List Span} {span : Span} {other : List Char}
      (hspans : (tokenize text).spans = before ++ span :: after) (hstart : reach 0 before ≤ start)
      (hcomments : ClosedComments (text.extract (reach 0 before) start))
      (hcomment : ClosedComment (text.extract start stop)) (hother : ClosedComment other) :
      Inert text start stop other
  /-- A string that belongs to no URL. -/
  | string {value : String} (hspan : ⟨.string value, start, stop⟩ ∈ (tokenize text).spans)
      (hurl : Uncovered (items (tokenize text).spans) start stop) (other : String) :
      Inert text start stop (writeQuoted other.toList).text.toList

/-! ### In front of comments and strings -/

/-- **One comment is as good as another** for what is in front of it. -/
theorem alike_comment {a b : List Char} (ha : ClosedComment a) (hb : ClosedComment b) (s t : List Char) :
    Alike (a ++ s) (b ++ t) := by
  obtain ⟨body, -, rfl⟩ := ha
  obtain ⟨other, -, rfl⟩ := hb
  refine alike_of_marks rfl rfl rfl rfl rfl fun _ => ?_
  exact ⟨body ++ ['*', '/'] ++ s, rfl⟩

/-- **One string is as good as another** for what is in front of it. -/
theorem alike_quote {s : List Char} (h : startsWith isQuote s = true) (text rest : List Char) :
    Alike s (quoted text ++ rest) := by
  cases s with
  | nil => contradiction
  | cons c s =>
    have hc : c = '"' ∨ c = '\'' := by
      simpa [isQuote] using h
    obtain rfl | rfl := hc <;>
      exact alike_of_marks rfl rfl rfl rfl rfl fun hopens => absurd hopens (by simp)

/-! ### Lexemes -/

variable {text : List Char} {a b : List Lexeme} {l : Lexeme}

/-- A comment, with another in its place. -/
theorem matched_comment {comments comment other rest : List Char}
    (hls : lexemes (textOf a ++ (comments ++ (comment ++ rest))) = a ++ l :: b)
    (hcomments : ClosedComments comments) (hcomment : ClosedComment comment) (hother : ClosedComment other) :
    Matched (lexemes (textOf a ++ (comments ++ (comment ++ rest))))
      (lexemes (textOf a ++ (comments ++ (other ++ rest)))) := by
  have hne := ne_endOfFile_of_lexemes hls (List.cons_ne_nil l b)
  obtain ⟨m, ms, hrest⟩ := List.exists_cons_of_ne_nil (lexemes_ne_nil rest)
  have hbehind {comment : List Char} (h : ClosedComment comment) : lexemes (comments ++ (comment ++ rest)) =
      ⟨comments ++ (comment ++ m.gap), m.body, m.token⟩ :: ms :=
    lexemes_comments_append hcomments (lexemes_comments_append h.closedComments hrest)
  have hagree : AgreeText (comments ++ (comment ++ rest)) (comments ++ (other ++ rest)) :=
    .inr ⟨comments, _, _, rfl, rfl, alike_comment hcomment hother rest rest⟩
  rw [hagree.lexemes_textOf hls hne, AgreeText.lexemes_textOf (.inl rfl) hls hne, hbehind hcomment, hbehind hother]
  have hgap {comment : List Char} (h : ClosedComment comment) : comments ++ (comment ++ m.gap) ≠ [] := by
    obtain ⟨body, -, rfl⟩ := h
    simp
  exact matched_of_lexeme ⟨rfl, iff_of_false (hgap hother) (hgap hcomment), Iff.rfl⟩ 0 (.inl rfl)

/-- A string, with another in its place. -/
theorem matched_string (hls : lexemes (textOf (a ++ l :: b)) = a ++ l :: b) {value : String}
    (hl : l.token = .string value) {position : Nat}
    (hurl : Uncovered (items (spansFrom position (a ++ l :: b))) (position + (textOf a).length + l.gap.length)
      (position + (textOf a).length + l.text.length)) (other : List Char) :
    Matched (a ++ l :: b) (lexemes (textOf a ++ (l.gap ++ (quoted other ++ textOf b)))) := by
  have hne := ne_endOfFile_of_lexemes hls (List.cons_ne_nil l b)
  have hrest := lexemes_textOf_of_append hls hne
  have hb : lexemes (textOf b) = b := by
    refine lexemes_textOf_of_append (a := [l]) hrest ?_
    rw [List.forall_mem_singleton, hl]
    exact Token.noConfusion
  have hfront := (lexemes_eq_cons hrest).1
  rw [textOf_append, textOf_cons, Lexeme.text, List.append_assoc] at hls
  rw [textOf_cons, Lexeme.text, List.append_assoc] at hfront
  have hquote : startsWith isQuote (l.body ++ textOf b) = true :=
    startsWith_isQuote_of_string ((readToken_of_frontLexeme hfront).trans hl)
  have halike := alike_quote hquote other (textOf b)
  have hcomments := readComments_of_frontLexeme hfront
  have hagain : lexemes (l.gap ++ (quoted other ++ textOf b)) =
      ⟨l.gap, quoted other, .string (String.ofList (other.map withoutNul))⟩ :: b := by
    rw [lexemes_quoted, hb]
    rw [halike.readComments_eq (Nat.le_of_eq hcomments), hcomments]
  have hagree : AgreeText (l.gap ++ (l.body ++ textOf b)) (l.gap ++ (quoted other ++ textOf b)) :=
    .inr ⟨l.gap, _, _, rfl, rfl, halike⟩
  rw [hagree.lexemes_textOf hls hne, hagain]
  have hbody : l.body ≠ [] := by
    rw [← hfront] at hl ⊢
    refine List.ne_nil_of_length_pos (frontLexeme_body_pos ?_)
    rw [hl]
    exact Token.noConfusion
  refine matched_of_lexeme ⟨?_, Iff.rfl, iff_of_false (List.cons_ne_nil _ _) hbody⟩ position (.inr hurl)
  rw [hl]
  rfl

theorem toList_text_writeQuoted (text : List Char) : (writeQuoted text).text.toList = quoted text := by
  rw [writeQuoted_eq, text_writeChars, String.toList_ofList]

theorem take_append_extract {start stop : Nat} (h : start ≤ stop) (text : List Char) :
    text.take start ++ text.extract start stop = text.take stop := by
  rw [List.extract_eq_take_drop, ← List.take_add, Nat.add_sub_cancel' h]

theorem extract_append_drop {start stop : Nat} (h : start ≤ stop) (text : List Char) :
    text.extract start stop ++ text.drop stop = text.drop start := by
  have hstop : text.drop stop = (text.drop start).drop (stop - start) := by
    rw [List.drop_drop, Nat.add_sub_cancel' h]
  rw [hstop, List.extract_eq_take_drop, List.take_append_drop]

/-- A comment takes room. -/
theorem le_of_closedComment {start stop : Nat} (h : ClosedComment (text.extract start stop)) : start ≤ stop := by
  obtain ⟨body, -, hbody⟩ := h
  have hlength := congrArg List.length hbody
  rw [List.extract_eq_take_drop, List.length_take] at hlength
  simp only [List.cons_append, List.length_cons] at hlength
  omega

/-- **Nothing inert is in the way of a URL.** -/
theorem Inert.matched {start stop : Nat} {other : List Char} (h : Inert text start stop other) :
    Matched (lexemes text) (lexemes (text.take start ++ (other ++ text.drop stop))) := by
  cases h with
  | comment hspans hstart hcomments hcomment hother =>
    rw [tokenize_spans] at hspans
    obtain ⟨a, l, b, hls, rfl, -⟩ := spansFrom_eq_append hspans
    rw [reach_spansFrom, Nat.zero_add] at hstart hcomments
    have hfront : text.take (textOf a).length = textOf a := by
      conv => lhs; rw [← textOf_lexemes text, hls, textOf_append]
      exact List.take_left
    have htext : textOf a ++ (text.extract (textOf a).length start ++
        (text.extract start stop ++ text.drop stop)) = text := by
      rw [extract_append_drop (le_of_closedComment hcomment), extract_append_drop hstart]
      have hsplit := List.take_append_drop (textOf a).length text
      rw [hfront] at hsplit
      exact hsplit
    have hmatched := matched_comment (htext ▸ hls) hcomments hcomment hother
    rw [htext, ← List.append_assoc] at hmatched
    rw [← take_append_extract hstart, hfront]
    exact hmatched
  | @string value hspan hurl other =>
    obtain ⟨before, after, hspans⟩ := List.append_of_mem hspan
    rw [tokenize_spans] at hspans hurl
    obtain ⟨a, l, b, hls, -, hspan⟩ := spansFrom_eq_append hspans
    obtain ⟨hl, rfl, rfl⟩ := Span.mk.inj hspan
    have htext : textOf (a ++ l :: b) = text := by rw [← hls, textOf_lexemes]
    have hfront : text.take (0 + (textOf a).length + l.gap.length) = textOf a ++ l.gap := by
      rw [← htext, textOf_append, textOf_cons, Lexeme.text, List.append_assoc, ← List.append_assoc]
      exact List.take_left' (by rw [Nat.zero_add, List.length_append])
    have hback : text.drop (0 + (textOf a).length + l.text.length) = textOf b := by
      rw [← htext, textOf_append, textOf_cons, ← List.append_assoc]
      exact List.drop_left' (by rw [Nat.zero_add, List.length_append])
    rw [hls] at hurl
    have hmatched := matched_string (htext ▸ hls) hl.symm hurl other.toList
    rw [hfront, hback, toList_text_writeQuoted, List.append_assoc, hls]
    exact hmatched

/-! ### Stylesheets -/

/-- What ends no comment does not in normal form either. -/
theorem unbroken_normalize {body : List Char} (h : Unbroken body) : Unbroken (normalize body) := by
  rintro ⟨front, back, heq⟩
  rw [List.append_assoc] at heq
  obtain ⟨before, rest, hpoints, -, hrest⟩ := List.map_eq_append_iff.mp heq.symm
  obtain ⟨star, rest, rfl, hstar, hrest⟩ := List.map_eq_cons_iff.mp hrest
  obtain ⟨slash, after, rfl, hslash, -⟩ := List.map_eq_cons_iff.mp hrest
  have hsource {p : Point} (hp : p ∈ points body) {c : Char} (hc : p.char = c) (hfeed : c ≠ '\n')
      (hnul : c ≠ replacement) : p.source = [c] := by
    subst hc
    exact source_of_mem_points hp hfeed hnul
  refine h ⟨sourceOf before, sourceOf after, ?_⟩
  rw [← sourceOf_points body, hpoints, sourceOf_append, sourceOf_cons, sourceOf_cons,
    hsource (by simp [hpoints]) hstar (by decide) (by decide),
    hsource (by simp [hpoints]) hslash (by decide) (by decide), List.append_assoc]
  rfl

theorem closedComment_normalize {comment : List Char} (h : ClosedComment comment) :
    ClosedComment (normalize comment) := by
  obtain ⟨body, hbody, rfl⟩ := h
  refine ⟨normalize body, unbroken_normalize hbody, ?_⟩
  have hpoints : points ('/' :: '*' :: body ++ ['*', '/']) =
      ⟨'/', ['/']⟩ :: ⟨'*', ['*']⟩ :: (points body ++ points ['*', '/']) := by
    rw [List.cons_append, List.cons_append, points_plain (by decide) (by decide),
      points_plain (by decide) (by decide), points_append rfl]
  have hend : (points ['*', '/']).map Point.char = ['*', '/'] := normalize_of_plain (by simp)
  rw [Text.normalize, hpoints, List.map_cons, List.map_cons, List.map_append, hend]
  rfl

variable {start stop : Nat} {other : List Char}

/-- The normal form of an inert text is inert. -/
theorem Inert.normal (h : Inert text start stop other) : Inert text start stop (normalize other) := by
  cases h with
  | comment hspans hstart hcomments hcomment hother =>
    exact .comment hspans hstart hcomments hcomment (closedComment_normalize hother)
  | @string value hspan hurl other =>
    rw [toList_text_writeQuoted, normalize_of_plain (quoted_plain _), ← toList_text_writeQuoted]
    exact .string hspan hurl other

/-- No line ending reaches into an inert text, or out of it. -/
theorem Inert.points_within (h : Inert text start stop other) (before after : List Char) :
    points (before ++ (other ++ after)) = points before ++ (points other ++ points after) := by
  cases h with
  | comment hspans hstart hcomments hcomment hother =>
    obtain ⟨body, -, rfl⟩ := hother
    have hedges : '/' :: '*' :: body ++ ['*', '/'] = '/' :: ('*' :: body ++ ['*']) ++ ['/'] := by simp
    rw [hedges]
    exact points_append_of_edges (by decide) (by decide) (by decide) (by decide) _ before after
  | string hspan hurl other =>
    rw [toList_text_writeQuoted, quoted, ← List.cons_append]
    exact points_append_of_edges (by decide) (by decide) (by decide) (by decide) _ before after

theorem Inert.points_replaced {css : String} (h : Inert text start stop other) :
    points (replaced css start stop other).toList =
      (points css.toList).take start ++ (points other ++ (points css.toList).drop stop) := by
  have hsplit : points css.toList = [] ++ ((points css.toList).take start ++ (points css.toList).drop start) :=
    (List.take_append_drop ..).symm
  have hfront := points_sourceOf_of_infix hsplit
  have hback : points (sourceOf ((points css.toList).drop stop)) = (points css.toList).drop stop :=
    points_sourceOf_of_append (List.take_append_drop ..).symm
  rw [replaced, String.toList_ofList, h.points_within, hfront, hback]

/-- **Comments and strings are inert.** Whatever a comment holds, and whatever a string that is no URL,
the stylesheet has as many segments, of the same kinds and with the same URLs. -/
theorem segment_replaced (classifier : Classifier) (css : String)
    (h : Inert (normalize css.toList) start stop other) :
    ∃ segments again, segment classifier css = .ok segments ∧
      segment classifier (replaced css start stop other) = .ok again ∧
      List.Forall₂ Segment.SameUrl segments again := by
  have hmatched := h.normal.matched
  have hagain : normalize (replaced css start stop other).toList =
      (normalize css.toList).take start ++ (normalize other ++ (normalize css.toList).drop stop) := by
    simp only [Text.normalize, h.points_replaced, List.map_append, List.map_take, List.map_drop]
  rw [← hagain] at hmatched
  obtain ⟨parts, parts', hparts, hparts', hsimilar⟩ := hmatched.exists_parts classifier body_ne_nil_of_opensUrl
    body_ne_nil_of_opensUrl .initial (textOf_lexemes _).symm (textOf_lexemes _).symm
  have hsource {css : String} {parts : List Part} (h : Parts classifier .initial (points css.toList)
      (lexemes (normalize css.toList)) parts) : ∀ p ∈ pointsOf parts, p.source ≠ [] := by
    rw [h.pointsOf_eq]
    exact fun p => source_ne_nil
  exact ⟨_, _, hparts.segmentTokens_eq, hparts'.segmentTokens_eq,
    sameUrl_segmentsOf hsimilar Iff.rfl (hsource hparts) (hsource hparts') 0 0⟩

/-- A comment with the start of a URL and an open block in it, and a string with the start of a URL. -/
theorem segment_replaced_mask :
    Inert (normalize "a:'b'/*c*/url(d)".toList) 5 10 "/*url('\x7b*/".toList ∧
    Inert (normalize "a:'b'/*c*/url(d)".toList) 2 5 (writeQuoted "url(\r".toList).text.toList ∧
    (∃ again, segment .empty "a:'b'/*url('\x7b*/url(d)" = .ok again ∧ List.Forall₂ Segment.SameUrl
      [⟨.bytes, "a:'b'/*c*/", 0, 10⟩, ⟨.imageUrl, "d", 10, 16⟩] again) ∧
    ∃ again, segment .empty "a:\"url(\\d \"/*c*/url(d)" = .ok again ∧ List.Forall₂ Segment.SameUrl
      [⟨.bytes, "a:'b'/*c*/", 0, 10⟩, ⟨.imageUrl, "d", 10, 16⟩] again := by
  have hspans : (tokenize (normalize "a:'b'/*c*/url(d)".toList)).spans =
      [⟨.ident "a", 0, 1⟩, ⟨.colon, 1, 2⟩, ⟨.string "b", 2, 5⟩] ++ ⟨.url "d", 10, 16⟩ ::
        [⟨.endOfFile, 16, 16⟩] := by decide +kernel
  have hitems : items (tokenize (normalize "a:'b'/*c*/url(d)".toList)).spans =
      [.token (.ident "a"), .token .colon, .token (.string "b"), .url ⟨"d", 10, 16⟩,
        .token .endOfFile] := by decide +kernel
  have hold : (normalize "a:'b'/*c*/url(d)".toList).extract 5 10 = "/*c*/".toList := by decide +kernel
  have hnone : (normalize "a:'b'/*c*/url(d)".toList).extract 5 5 = [] := by decide +kernel
  have hcomment : Inert (normalize "a:'b'/*c*/url(d)".toList) 5 10 "/*url('\x7b*/".toList := by
    refine .comment hspans (by decide) ?_ ?_ ⟨"url('\x7b".toList, by decide +kernel, by decide +kernel⟩
    · show ClosedComments (List.extract _ 5 5)
      rw [hnone]
      exact .nil
    · rw [hold]
      exact ⟨['c'], by decide, by decide⟩
  have hstring : Inert (normalize "a:'b'/*c*/url(d)".toList) 2 5 (writeQuoted "url(\r".toList).text.toList := by
    refine @Inert.string _ 2 5 "b" (by rw [hspans]; simp) ?_ "url(\r"
    rw [hitems]
    intro u hu
    have hu : u = ⟨"d", 10, 16⟩ := by simpa using hu
    subst hu
    exact fun hcovers => absurd hcovers.1 (by decide)
  have hsegments : segment .empty "a:'b'/*c*/url(d)" =
      .ok [⟨.bytes, "a:'b'/*c*/", 0, 10⟩, ⟨.imageUrl, "d", 10, 16⟩] := by decide +kernel
  obtain ⟨segments, again, heq, hagain, hsame⟩ := segment_replaced .empty _ hcomment
  obtain ⟨segments', again', heq', hagain', hsame'⟩ := segment_replaced .empty _ hstring
  rw [hsegments] at heq heq'
  cases heq
  cases heq'
  have hwritten : replaced "a:'b'/*c*/url(d)" 5 10 "/*url('\x7b*/".toList = "a:'b'/*url('\x7b*/url(d)" := by
    decide +kernel
  have hwritten' : replaced "a:'b'/*c*/url(d)" 2 5 (writeQuoted "url(\r".toList).text.toList =
      "a:\"url(\\d \"/*c*/url(d)" := by decide +kernel
  rw [hwritten] at hagain
  rw [hwritten'] at hagain'
  exact ⟨hcomment, hstring, ⟨again, hagain, hsame⟩, again', hagain', hsame'⟩

end CssUrls
