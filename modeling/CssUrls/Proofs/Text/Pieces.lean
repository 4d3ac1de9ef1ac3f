import CssUrls.Text.Class
import CssUrls.Text.Piece

/-! How far pieces reach, and what they depend on.

Pieces found within their list take no more than the list (`covered_pieces_le`). What follows a
list matters to its pieces only where one of them looks at it: if every piece that ends inside
`p` is found just as well with `t` behind it as with `s`, then all pieces that end inside `p` are
(`pieces_eq_of_stable`). -/
namespace CssUrls.Text

variable {α β : Type} {next : β → List β → Option (Piece α)}

/-! ### Cutting, piece by piece -/

theorem pieces_cons_of_none {first : β} {rest : List β} (h : next first rest = none) :
    pieces next (first :: rest) = [] := by
  rw [pieces_cons, h]

theorem pieces_cons_of_some {first : β} {rest : List β} {p : Piece α} (h : next first rest = some p) :
    pieces next (first :: rest) = p :: pieces next (rest.drop p.more) := by
  rw [pieces_cons, h]

theorem drop_length_cons (p : Piece α) (first : β) (rest : List β) :
    (first :: rest).drop p.length = rest.drop p.more := List.drop_succ_cons ..

theorem eq_none_of_pieces_eq_nil {first : β} {rest : List β} (h : pieces next (first :: rest) = []) :
    next first rest = none := by
  rw [pieces_cons] at h
  split at h
  · assumption
  · contradiction

/-- What holds of the empty list, where cutting stops, and in front of a list of which it holds,
holds of all lists. -/
@[elab_as_elim]
theorem pieces_induction (next : β → List β → Option (Piece α)) {motive : List β → Prop}
    (nil : motive [])
    (stop : ∀ first rest, next first rest = none → motive (first :: rest))
    (step : ∀ first rest p, next first rest = some p → motive (rest.drop p.more) →
      motive (first :: rest))
    (list : List β) : motive list := by
  generalize h : list.length = n
  induction n using Nat.strongRecOn generalizing list with
  | ind n ih =>
    subst h
    cases list with
    | nil => exact nil
    | cons first rest =>
      cases hp : next first rest with
      | none => exact stop first rest hp
      | some p =>
        apply step first rest p hp
        apply ih _ _ _ rfl
        simp only [List.length_drop, List.length_cons]
        omega

/-- Each piece was found somewhere. -/
theorem exists_of_mem_pieces {list : List β} {p : Piece α} (h : p ∈ pieces next list) :
    ∃ first rest, next first rest = some p := by
  induction list using pieces_induction next with
  | nil =>
    rw [pieces_nil] at h
    contradiction
  | stop first rest hnone =>
    rw [pieces_cons_of_none hnone] at h
    contradiction
  | step first rest q hq ih =>
    rw [pieces_cons_of_some hq, List.mem_cons] at h
    rcases h with rfl | h
    · exact ⟨first, rest, hq⟩
    · exact ih h

/-! ### How far pieces reach -/

theorem covered_pos {ps : List (Piece α)} (h : ps ≠ []) : 0 < covered ps := by
  obtain ⟨p, ps, rfl⟩ := List.exists_cons_of_ne_nil h
  rw [covered_cons, Piece.length]
  omega

/-- No piece reaches past the end of the list that it is found in. -/
def Bounded (next : β → List β → Option (Piece α)) : Prop :=
  ∀ first rest p, next first rest = some p → p.more ≤ rest.length

theorem covered_pieces_le (h : Bounded next) (list : List β) :
    covered (pieces next list) ≤ list.length := by
  induction list using pieces_induction next with
  | nil => rw [pieces_nil]; exact Nat.le_refl _
  | stop first rest hp => rw [pieces_cons_of_none hp]; exact Nat.zero_le _
  | step first rest p hp ih =>
    have hmore := h first rest p hp
    rw [pieces_cons_of_some hp, covered_cons, List.length_cons]
    rw [List.length_drop] at ih
    simp only [Piece.length]
    omega

/-- Where cutting stops there is no piece. -/
theorem pieces_drop_covered (next : β → List β → Option (Piece α)) (list : List β) :
    pieces next (list.drop (covered (pieces next list))) = [] := by
  induction list using pieces_induction next with
  | nil => simp only [pieces_nil, List.drop_nil]
  | stop first rest hp =>
    rw [pieces_cons_of_none hp]
    exact pieces_cons_of_none hp
  | step first rest p hp ih =>
    rw [pieces_cons_of_some hp, covered_cons, Piece.length, Nat.add_right_comm, List.drop_succ_cons,
      ← List.drop_drop]
    exact ih

theorem startsWhere_add (property : α → Bool) (m n : Nat) (ps : List (Piece α)) :
    startsWhere property (m + n) ps = (startsWhere property n ps).map (m + ·) := by
  induction ps generalizing n with
  | nil => rfl
  | cons p ps ih =>
    rw [startsWhere, startsWhere, Nat.add_assoc, ih]
    split <;> rfl

/-! ### What pieces depend on -/

/-- A piece that ends before `s` is found just as well if `t` stands there, and where there is no
piece there is none then either. -/
structure Stable (next : β → List β → Option (Piece α)) (s t : List β) : Prop where
  found : ∀ first p q, next first (p ++ s) = some q → q.more ≤ p.length →
    next first (p ++ t) = some q
  ended : ∀ first p, next first (p ++ s) = none → next first (p ++ t) = none

theorem pieces_eq_of_stable {s t : List β} (h : Stable next s t) (p : List β)
    (hle : covered (pieces next (p ++ s)) ≤ p.length)
    (hend : covered (pieces next (p ++ s)) = p.length → pieces next t = []) :
    pieces next (p ++ t) = pieces next (p ++ s) := by
  generalize hn : p.length = n at hle hend
  induction n using Nat.strongRecOn generalizing p with
  | ind n ih =>
    subst hn
    cases p with
    | nil =>
      have hzero : covered (pieces next ([] ++ s)) = 0 := Nat.le_zero.mp hle
      have hs : pieces next s = [] := by
        by_cases hnil : pieces next s = []
        · exact hnil
        · exact absurd hzero (Nat.ne_of_gt (covered_pos hnil))
      exact (hend hzero).trans hs.symm
    | cons first p =>
      simp only [List.cons_append] at hle hend ⊢
      cases hq : next first (p ++ s) with
      | none => rw [pieces_cons_of_none hq, pieces_cons_of_none (h.ended first p hq)]
      | some q =>
        rw [pieces_cons_of_some hq, covered_cons, Piece.length, List.length_cons] at hle hend
        have hmore : q.more ≤ p.length := by omega
        rw [pieces_cons_of_some hq, pieces_cons_of_some (h.found first p q hq hmore)]
        rw [List.drop_append_of_le_length hmore] at hle hend ⊢
        rw [List.drop_append_of_le_length hmore]
        have hlength : (p.drop q.more).length = p.length - q.more := List.length_drop ..
        congr 1
        apply ih _ _ _ rfl
        · omega
        · intro heq
          apply hend
          omega
        · rw [List.length_cons]
          omega

/-! ### Runs of a class -/

theorem countOf_le (inClass : Char → Bool) (text : List Char) :
    countOf inClass text ≤ text.length :=
  (List.takeWhile_sublist _).length_le

/-- Code points differ if only one of them is in a class. -/
theorem ne_of_inClass {inClass : Char → Bool} {c d : Char} (hc : inClass c = true) (hd : inClass d = false) :
    c ≠ d := by
  intro h
  rw [h, hd] at hc
  contradiction

theorem countOf_eq_zero {inClass : Char → Bool} {text : List Char}
    (h : startsWith inClass text = false) : countOf inClass text = 0 := by
  cases text with
  | nil => rfl
  | cons c rest =>
    rw [startsWith_cons] at h
    simp [countOf, h]

theorem countOf_pos {inClass : Char → Bool} {text : List Char}
    (h : startsWith inClass text = true) : 0 < countOf inClass text := by
  cases text with
  | nil => contradiction
  | cons c rest =>
    rw [startsWith_cons] at h
    simp [countOf, h]

theorem drop_countOf (inClass : Char → Bool) (text : List Char) :
    text.drop (countOf inClass text) = text.dropWhile inClass :=
  (congrArg (List.drop _) List.takeWhile_append_dropWhile.symm).trans List.drop_left

theorem countOf_append_of_forall {inClass : Char → Bool} {run : List Char}
    (h : ∀ c ∈ run, inClass c = true) (rest : List Char) :
    countOf inClass (run ++ rest) = run.length + countOf inClass rest := by
  rw [countOf, List.takeWhile_append_of_pos h, List.length_append]
  rfl

/-- A run that ends before `s` ends there too if `t`, which does not go on with it, stands there. -/
theorem takeWhile_append_eq {inClass : Char → Bool} {p s t : List Char}
    (hle : ((p ++ s).takeWhile inClass).length ≤ p.length) (ht : startsWith inClass t = false) :
    (p ++ t).takeWhile inClass = (p ++ s).takeWhile inClass := by
  induction p with
  | nil =>
    have hs : s.takeWhile inClass = [] := List.length_eq_zero_iff.mp (Nat.le_zero.mp hle)
    have ht' : t.takeWhile inClass = [] := List.length_eq_zero_iff.mp (countOf_eq_zero ht)
    simp only [List.nil_append, hs, ht']
  | cons c p ih =>
    simp only [List.cons_append, List.takeWhile_cons] at hle ⊢
    cases hc : inClass c with
    | false => rfl
    | true =>
      simp only [hc, if_true, List.length_cons] at hle
      simp only [if_true]
      rw [ih (by omega)]

theorem startsWith_append_eq {inClass : Char → Bool} {p s t : List Char}
    (hle : ((p ++ s).takeWhile inClass).length ≤ p.length) (ht : startsWith inClass t = false) :
    startsWith inClass (p ++ t) = startsWith inClass (p ++ s) := by
  cases p with
  | nil =>
    rw [List.nil_append, ht]
    cases s with
    | nil => rfl
    | cons c s =>
      cases hc : inClass c with
      | false => exact hc.symm
      | true =>
        rw [List.nil_append, List.takeWhile_cons, hc] at hle
        exact absurd hle (Nat.not_succ_le_zero _)
  | cons c p => rfl

theorem countOf_append_eq {inClass : Char → Bool} {p s t : List Char}
    (hle : countOf inClass (p ++ s) ≤ p.length) (ht : startsWith inClass t = false) :
    countOf inClass (p ++ t) = countOf inClass (p ++ s) := by
  rw [countOf, countOf, takeWhile_append_eq hle ht]

/-- A run does not go past where its class ends. -/
theorem countOf_append_le {inClass : Char → Bool} {s : List Char} (hs : startsWith inClass s = false)
    (p : List Char) : countOf inClass (p ++ s) ≤ p.length := by
  induction p with
  | nil => exact Nat.le_of_eq (countOf_eq_zero hs)
  | cons c p ih =>
    unfold countOf at ih ⊢
    rw [List.cons_append, List.takeWhile_cons]
    split
    · exact Nat.succ_le_succ ih
    · exact Nat.zero_le _

end CssUrls.Text
