import CssUrls.Proofs.Lexical.Extent

/-! Comments as CSS defines them.

A comment goes from `/*` to the first `*/` after that, or to the end of the text if there is none.
`readComments_spec`: what is skipped in front of a token is whole comments, and perhaps a last one
that is not closed, after which there is no text left. -/
namespace CssUrls.Lexical
open Text

/-- A body that no `*/` ends. -/
def Unbroken (body : List Char) : Prop := ¬ ['*', '/'] <:+: body

instance (body : List Char) : Decidable (Unbroken body) :=
  inferInstanceAs (Decidable (¬ ['*', '/'] <:+: body))

/-- From `/*` to the first `*/` after it. -/
def ClosedComment (text : List Char) : Prop :=
  ∃ body, Unbroken body ∧ text = '/' :: '*' :: body ++ ['*', '/']

/-- From `/*` on, with no `*/` after it. -/
def OpenComment (text : List Char) : Prop :=
  ∃ body, Unbroken body ∧ text = '/' :: '*' :: body

/-- Any number of closed comments and nothing else. -/
def ClosedComments (text : List Char) : Prop :=
  ∃ comments : List (List Char), (∀ c ∈ comments, ClosedComment c) ∧ text = comments.flatten

theorem ClosedComments.nil : ClosedComments [] := ⟨[], by simp, rfl⟩

theorem ClosedComments.cons {comment text : List Char} (hc : ClosedComment comment)
    (h : ClosedComments text) : ClosedComments (comment ++ text) := by
  obtain ⟨comments, hclosed, rfl⟩ := h
  exact ⟨comment :: comments, List.forall_mem_cons.mpr ⟨hc, hclosed⟩, rfl⟩

theorem ClosedComment.closedComments {comment : List Char} (h : ClosedComment comment) :
    ClosedComments comment :=
  ⟨[comment], List.forall_mem_singleton.mpr h, (List.flatten_singleton ..).symm⟩

/-! ### One comment -/

theorem commentPiece_plain {c : Char} (h : c ≠ '*') (rest : List Char) :
    commentPiece c rest = some ⟨(), 0⟩ := by
  unfold commentPiece
  split
  · contradiction
  · rfl

theorem commentPiece_star (rest : List Char) :
    commentPiece '*' rest = if startsWith (· == '/') rest then none else some ⟨(), 0⟩ := by
  cases rest with
  | nil => rfl
  | cons c rest =>
    by_cases hc : c = '/'
    · subst hc
      rfl
    · rw [startsWith_cons, beq_eq_false_iff_ne.mpr hc]
      unfold commentPiece
      split
      · rename_i e
        cases e
        contradiction
      · rfl

theorem wholeComment_plain {c : Char} (h : c ≠ '/') (rest : List Char) :
    wholeComment c rest = none := by
  unfold wholeComment
  split
  · contradiction
  · rfl

theorem wholeComment_slash {c : Char} (h : c ≠ '*') (rest : List Char) :
    wholeComment '/' (c :: rest) = none := by
  unfold wholeComment
  split
  · rename_i e
    cases e
    contradiction
  · rfl

theorem commentPiece_eq_none_iff {first : Char} {rest : List Char} :
    commentPiece first rest = none ↔ ['*', '/'] <+: first :: rest := by
  constructor
  · intro h
    unfold commentPiece at h
    split at h
    · exact ⟨_, rfl⟩
    · contradiction
  · intro h
    obtain ⟨tail, h⟩ := h
    cases h
    rfl

theorem commentPiece_eq_some {first : Char} {rest : List Char} {p : Piece Unit}
    (h : commentPiece first rest = some p) : p = ⟨(), 0⟩ := by
  unfold commentPiece at h
  split at h
  · contradiction
  · exact (Option.some.inj h).symm

/-- A comment's body reaches up to the first `*/`. -/
theorem unbroken_take (text : List Char) :
    Unbroken (text.take (covered (pieces commentPiece text))) := by
  unfold Unbroken
  induction text using pieces_induction commentPiece with
  | nil => simp
  | stop first rest h =>
    rw [pieces_cons_of_none h]
    simp
  | step first rest p h ih =>
    have hp := commentPiece_eq_some h
    subst hp
    rw [pieces_cons_of_some h, covered_cons, Piece.length, Nat.zero_add, Nat.add_comm,
      List.take_succ_cons, List.infix_cons_iff]
    intro h
    rcases h with hfirst | hinfix
    · have hnone : commentPiece first rest = none := by
        rw [commentPiece_eq_none_iff]
        exact hfirst.trans (List.prefix_cons_inj first |>.mpr (List.take_prefix ..))
      rw [hnone] at h
      contradiction
    · exact ih hinfix

theorem ends_drop (text : List Char)
    (h : (text.drop (covered (pieces commentPiece text))).isEmpty = false) :
    ['*', '/'] <+: text.drop (covered (pieces commentPiece text)) := by
  cases hd : text.drop (covered (pieces commentPiece text)) with
  | nil => simp [hd] at h
  | cons first rest =>
    have hstop := pieces_drop_covered commentPiece text
    rw [hd] at hstop
    rw [← commentPiece_eq_none_iff]
    cases hp : commentPiece first rest with
    | none => rfl
    | some p =>
      rw [pieces_cons_of_some hp] at hstop
      contradiction

/-- A comment is taken to the first `*/` after its start, or else with all that is left. -/
theorem wholeComment_eq_some {first : Char} {rest : List Char} {p : Piece Bool}
    (h : wholeComment first rest = some p) :
    if p.value then ∃ comment, ClosedComment comment ∧ comment.length = p.length ∧
      first :: rest = comment ++ rest.drop p.more
    else OpenComment (first :: rest) ∧ p.length = (first :: rest).length := by
  unfold wholeComment at h
  split at h
  · rename_i body
    simp only at h
    have hle := covered_pieces_le commentPiece_bounded body
    have hunbroken := unbroken_take body
    generalize hn : covered (pieces commentPiece body) = n at *
    split at h
    · rename_i hempty
      cases h
      rw [List.isEmpty_iff, List.drop_eq_nil_iff] at hempty
      have hbody : body.take n = body := List.take_of_length_le hempty
      rw [hbody] at hunbroken
      refine ⟨⟨body, hunbroken, rfl⟩, ?_⟩
      simp only [Piece.length, List.length_cons]
      omega
    · rename_i hempty
      cases h
      have hends := ends_drop body (by rw [hn]; simpa using hempty)
      rw [hn] at hends
      obtain ⟨tail, htail⟩ := hends
      have hbody : body = body.take n ++ ['*', '/'] ++ tail := by
        rw [List.append_assoc, htail, List.take_append_drop]
      refine ⟨'/' :: '*' :: body.take n ++ ['*', '/'], ⟨body.take n, hunbroken, rfl⟩, ?_, ?_⟩
      · simp only [List.cons_append, List.length_cons, List.length_append, List.length_take,
          List.length_nil, Piece.length]
        omega
      · have hdrop : ('*' :: body).drop (1 + n + 2) = tail := by
          have h1 : 1 + n + 2 = (n + 2) + 1 := by omega
          rw [h1, List.drop_succ_cons, ← List.drop_drop, ← htail]
          rfl
        simp only
        rw [hdrop]
        simp only [List.cons_append, List.cons.injEq, true_and]
        exact hbody
  · contradiction

theorem wholeComment_bounded : Bounded wholeComment := by
  intro first rest p h
  have hp := wholeComment_eq_some h
  split at hp
  · obtain ⟨comment, -, hlength, heq⟩ := hp
    have htotal := congrArg List.length heq
    rw [List.length_cons, List.length_append, hlength, Piece.length, List.length_drop] at htotal
    omega
  · have hlength := hp.2
    rw [Piece.length, List.length_cons] at hlength
    omega

theorem wholeComment_more_pos {first : Char} {rest : List Char} {p : Piece Bool}
    (h : wholeComment first rest = some p) : 0 < p.more := by
  unfold wholeComment at h
  split at h
  · simp only at h
    split at h <;> cases h <;> simp only <;> omega
  · contradiction

theorem pieces_wholeComment_eq_nil_iff {text : List Char} :
    pieces wholeComment text = [] ↔ ¬ ['/', '*'] <+: text := by
  cases text with
  | nil => simp [pieces_nil]
  | cons first rest =>
    constructor
    · intro h hopens
      obtain ⟨tail, htail⟩ := hopens
      have hnone := eq_none_of_pieces_eq_nil h
      obtain ⟨rfl, rfl⟩ := List.cons.inj htail
      simp only [wholeComment] at hnone
      split at hnone
      · split at hnone <;> contradiction
      · rename_i hnot
        exact hnot tail rfl rfl
    · intro h
      apply pieces_cons_of_none
      unfold wholeComment
      split
      · exact absurd ⟨_, rfl⟩ h
      · rfl

/-! ### The comments in front of a token -/

/-- No comment starts with anything but a slash. -/
theorem readComments_of_ne_slash {c : Char} (hc : c ≠ '/') (rest : List Char) :
    readComments (c :: rest) = .plain 0 () := by
  rw [readComments, pieces_cons_of_none (wholeComment_plain hc rest)]
  rfl

theorem readComments_length_le (text : List Char) : (readComments text).length ≤ text.length :=
  covered_pieces_le wholeComment_bounded text

/-- A body is gone through to where it ends. -/
theorem covered_body {body rest : List Char} (hbody : Unbroken body)
    (hrest : rest = [] ∨ ['*', '/'] <+: rest) : covered (pieces commentPiece (body ++ rest)) = body.length := by
  induction body with
  | nil =>
    rcases hrest with rfl | ⟨tail, rfl⟩
    · rw [List.append_nil, pieces_nil]
      rfl
    · rw [List.nil_append, List.cons_append, pieces_cons_of_none rfl]
      rfl
  | cons c body ih =>
    have htail : Unbroken body := fun hends => hbody (hends.trans (List.suffix_cons c body).isInfix)
    cases hpiece : commentPiece c (body ++ rest) with
    | some p =>
      have hp := commentPiece_eq_some hpiece
      subst hp
      rw [List.cons_append, pieces_cons_of_some hpiece, covered_cons, List.drop_zero, ih htail, Piece.length,
        List.length_cons, Nat.add_comm]
    | none =>
      exfalso
      -- An end that the body and the rest make up together would have to start the body with `*/`.
      obtain ⟨tail, htext⟩ := commentPiece_eq_none_iff.mp hpiece
      rw [List.cons_append, List.cons.injEq] at htext
      obtain ⟨rfl, htext⟩ := htext
      cases body with
      | nil =>
        rw [List.nil_append] at htext
        rcases hrest with rfl | ⟨behind, rfl⟩
        · contradiction
        · exact absurd (List.cons.inj htext).1 (by decide)
      | cons d body =>
        obtain ⟨rfl, -⟩ := List.cons.inj htext
        exact hbody ⟨[], body, rfl⟩

theorem readComments_of_not_opened {text : List Char} (h : ¬ ['/', '*'] <+: text) :
    readComments text = .plain 0 () := by
  rw [readComments, pieces_wholeComment_eq_nil_iff.mpr h]
  rfl

/-- **A comment that is not closed** takes all that is left, and is a fault where it starts. -/
theorem readComments_open {text : List Char} (h : OpenComment text) :
    readComments text = ⟨(), text.length, [⟨.unterminatedComment, 0⟩]⟩ := by
  obtain ⟨body, hbody, rfl⟩ := h
  have hcovered := covered_body hbody (.inl rfl)
  have hpiece : wholeComment '/' ('*' :: body) = some ⟨false, 1 + body.length⟩ := by
    rw [List.append_nil] at hcovered
    simp only [wholeComment, hcovered, List.drop_length, List.isEmpty_nil, if_true]
  have hdrop : ('*' :: body).drop (1 + body.length) = [] :=
    List.drop_eq_nil_iff.mpr (Nat.le_of_eq (by rw [List.length_cons, Nat.add_comm]))
  rw [readComments, pieces_cons_of_some hpiece, hdrop, pieces_nil]
  simp only [covered_cons, covered_nil, Piece.length, List.length_cons, startsWhere, Bool.not_false, if_true]
  rw [Nat.add_comm 1]
  rfl

/-- A closed comment is skipped. -/
theorem readComments_closed {comment : List Char} (h : ClosedComment comment) (rest : List Char) :
    readComments (comment ++ rest) = (readComments rest).behind comment.length := by
  obtain ⟨body, hbody, rfl⟩ := h
  have hcovered : covered (pieces commentPiece (body ++ '*' :: '/' :: rest)) = body.length :=
    covered_body hbody (.inr ⟨rest, rfl⟩)
  have hpiece : wholeComment '/' ('*' :: (body ++ '*' :: '/' :: rest)) = some ⟨true, 1 + body.length + 2⟩ := by
    simp only [wholeComment, hcovered, List.drop_left, List.isEmpty_cons, Bool.false_eq_true, if_false]
  have hdrop : ('*' :: (body ++ '*' :: '/' :: rest)).drop (1 + body.length + 2) = rest := by
    rw [Nat.add_comm 1, Nat.add_right_comm, List.drop_succ_cons, ← List.drop_drop, List.drop_left]
    rfl
  have htext : '/' :: '*' :: body ++ ['*', '/'] ++ rest = '/' :: '*' :: (body ++ '*' :: '/' :: rest) := by
    simp
  have hlength : ('/' :: '*' :: body ++ ['*', '/']).length = 1 + body.length + 2 + 1 := by
    simp
    omega
  rw [htext, hlength, readComments, pieces_cons_of_some hpiece, hdrop]
  simp only [startsWhere, Bool.not_true, Bool.false_eq_true, if_false, covered_cons]
  rw [Nat.add_comm 0, startsWhere_add, List.map_map]
  simp only [Reading.behind, readComments, List.map_map]
  rfl

/-- So are any number of them. -/
theorem readComments_append {comments : List Char} (h : ClosedComments comments) (rest : List Char) :
    readComments (comments ++ rest) = (readComments rest).behind comments.length := by
  obtain ⟨comments, hclosed, rfl⟩ := h
  induction comments with
  | nil => exact (Reading.behind_zero _).symm
  | cons comment comments ih =>
    obtain ⟨hcomment, hcomments⟩ := List.forall_mem_cons.mp hclosed
    rw [List.flatten_cons, List.append_assoc, readComments_closed hcomment, ih hcomments, Reading.behind_behind,
      List.length_append]

/-- Behind the closed comments at its front, a text goes on with something else or with a comment that is
not closed. -/
theorem exists_closedComments (text : List Char) :
    ∃ comments rest, text = comments ++ rest ∧ ClosedComments comments ∧
      (¬ ['/', '*'] <+: rest ∨ OpenComment rest) := by
  induction text using pieces_induction wholeComment with
  | nil => exact ⟨[], [], rfl, .nil, .inl (by simp)⟩
  | stop first rest h =>
    exact ⟨[], first :: rest, rfl, .nil, .inl (pieces_wholeComment_eq_nil_iff.mp (pieces_cons_of_none h))⟩
  | step first rest p h ih =>
    have hp := wholeComment_eq_some h
    split at hp
    · obtain ⟨comment, hclosed, -, heq⟩ := hp
      obtain ⟨comments, tail, htail, hcomments, hrest⟩ := ih
      refine ⟨comment ++ comments, tail, ?_, .cons hclosed hcomments, hrest⟩
      rw [heq, htail, List.append_assoc]
    · exact ⟨[], first :: rest, rfl, .nil, .inr hp.1⟩

/-- Comments have a fault only if the last of them is not closed. -/
theorem readComments_cases (text : List Char) :
    (readComments text).faults = [] ∨ ∃ comments rest, text = comments ++ rest ∧ ClosedComments comments ∧
      OpenComment rest ∧ readComments text = ⟨(), text.length, [⟨.unterminatedComment, comments.length⟩]⟩ := by
  obtain ⟨comments, rest, rfl, hclosed, hnone | hopen⟩ := exists_closedComments text
  · left
    rw [readComments_append hclosed, readComments_of_not_opened hnone]
    rfl
  · refine .inr ⟨comments, rest, rfl, hclosed, hopen, ?_⟩
    rw [readComments_append hclosed, readComments_open hopen, List.length_append]
    rfl

/-- **What is skipped is comments**: closed ones, or closed ones and then an open one that takes all
the text that is left. -/
theorem readComments_spec (text : List Char) :
    ClosedComments (text.take (readComments text).length) ∨
      (∃ comments rest, text = comments ++ rest ∧ ClosedComments comments ∧ OpenComment rest ∧
        (readComments text).length = text.length) := by
  obtain ⟨comments, rest, rfl, hclosed, hnone | hopen⟩ := exists_closedComments text
  · left
    rw [readComments_append hclosed, readComments_of_not_opened hnone]
    exact List.take_left.symm ▸ hclosed
  · right
    refine ⟨comments, rest, rfl, hclosed, hopen, ?_⟩
    rw [readComments_append hclosed, readComments_open hopen, List.length_append]
    rfl

end CssUrls.Lexical
