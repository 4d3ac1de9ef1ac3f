import CssUrls.Proofs.Text.Source

/-! A text beside its normal form.

Without NUL, a text differs from its normal form in its line endings alone, and `sourceIndex` says
where in the text each code point of the normal form was written. A run of a class that holds all
line endings or none has the same code points in both (`countOf_source`, `takeWhile_source`), and
pieces that are found alike are cut alike (`pieces_inSource`). -/
namespace CssUrls.Text

/-- Where in the source the point at an index was written. Behind the last point the source ends. -/
def sourceIndex (ps : List Point) (n : Nat) : Nat := (sourceOf (ps.take n)).length

/-- A code point that stands for itself. -/
def plainPoint (c : Char) : Point := ⟨c, [c]⟩

/-- A line feed that was written as two code points. -/
def pairPoint : Point := ⟨'\n', ['\r', '\n']⟩

/-- A line feed that was written as a carriage return. -/
def returnPoint : Point := ⟨'\n', ['\r']⟩

variable {c : Char} {ps : List Point}

@[simp] theorem sourceOf_plainPoint : sourceOf (plainPoint c :: ps) = c :: sourceOf ps := rfl

@[simp] theorem sourceOf_pairPoint : sourceOf (pairPoint :: ps) = '\r' :: '\n' :: sourceOf ps := rfl

@[simp] theorem sourceOf_returnPoint : sourceOf (returnPoint :: ps) = '\r' :: sourceOf ps := rfl

@[simp] theorem char_plainPoint : (plainPoint c).char = c := rfl

@[simp] theorem char_pairPoint : pairPoint.char = '\n' := rfl

@[simp] theorem char_returnPoint : returnPoint.char = '\n' := rfl

/-- Points whose sources differ from them in line endings alone, and do not run into one another. -/
inductive Verbatim : List Point → Prop
  | nil : Verbatim []
  | plain {c : Char} {ps : List Point} (hc : c ≠ '\r') (h : Verbatim ps) : Verbatim (plainPoint c :: ps)
  | pair {ps : List Point} (h : Verbatim ps) : Verbatim (pairPoint :: ps)
  | single {ps : List Point} (hfeed : startsWith (· == '\n') (sourceOf ps) = false) (h : Verbatim ps) :
    Verbatim (returnPoint :: ps)

/-- The points of a text without NUL are such. -/
theorem verbatim_points {text : List Char} (h : '\x00' ∉ text) : Verbatim (points text) := by
  generalize hn : text.length = n
  induction n using Nat.strongRecOn generalizing text with
  | ind n ih =>
    subst hn
    cases text with
    | nil =>
      rw [points_nil]
      exact .nil
    | cons c rest =>
      obtain ⟨hc, hrest⟩ := not_or.mp (mt List.mem_cons.mpr h)
      have htail := ih rest.length (Nat.lt_succ_self _) hrest rfl
      rw [points_cons]
      rcases pointPiece_cases c rest with
        ⟨hreturn, -, hpiece⟩ | ⟨tail, rfl, rfl, hpiece⟩ | ⟨rfl, hfeed, hpiece⟩ | ⟨rfl, -⟩
      · rw [hpiece]
        exact .plain hreturn htail
      · have hlt : tail.length < ('\r' :: '\n' :: tail).length := by
          rw [List.length_cons, List.length_cons]
          omega
        rw [hpiece]
        exact .pair (ih tail.length hlt (mt (List.mem_cons_of_mem _) hrest) rfl)
      · rw [hpiece]
        exact .single (by rw [List.drop_zero, sourceOf_points, hfeed]) htail
      · exact absurd rfl hc

theorem Verbatim.tail {p : Point} {ps : List Point} (h : Verbatim (p :: ps)) : Verbatim ps := by
  cases h <;> assumption

theorem Verbatim.drop {ps : List Point} (h : Verbatim ps) (n : Nat) : Verbatim (ps.drop n) := by
  induction n generalizing ps with
  | zero => exact h
  | succ n ih =>
    cases ps with
    | nil => exact h
    | cons p ps => exact ih h.tail

/-! ### Indices -/

@[simp] theorem sourceIndex_zero (ps : List Point) : sourceIndex ps 0 = 0 := rfl

@[simp] theorem sourceIndex_succ (p : Point) (ps : List Point) (n : Nat) :
    sourceIndex (p :: ps) (n + 1) = p.source.length + sourceIndex ps n := by
  rw [sourceIndex, List.take_succ_cons, sourceOf_cons, List.length_append]
  rfl

theorem sourceIndex_add (ps : List Point) (m n : Nat) :
    sourceIndex ps (m + n) = sourceIndex ps m + sourceIndex (ps.drop m) n := by
  rw [sourceIndex, List.take_add, sourceOf_append, List.length_append]
  rfl

/-- Behind some of the points stands what the others were written as. -/
theorem drop_sourceIndex (ps : List Point) (n : Nat) :
    (sourceOf ps).drop (sourceIndex ps n) = sourceOf (ps.drop n) := by
  have hparts : sourceOf ps = sourceOf (ps.take n) ++ sourceOf (ps.drop n) := by
    rw [← sourceOf_append, List.take_append_drop]
  rw [hparts]
  exact List.drop_left

/-- Each point was written as something, so what comes later was written later. -/
theorem Verbatim.le_sourceIndex (h : Verbatim ps) {n : Nat} (hn : n ≤ ps.length) : n ≤ sourceIndex ps n := by
  induction n generalizing ps with
  | zero => exact Nat.zero_le _
  | succ n ih =>
    cases ps with
    | nil => contradiction
    | cons p ps =>
      have hrest := ih h.tail (Nat.le_of_succ_le_succ hn)
      have hpos : 0 < p.source.length := by cases h <;> exact Nat.succ_pos _
      rw [sourceIndex_succ]
      omega

theorem Verbatim.isEmpty_source (h : Verbatim ps) :
    (sourceOf ps).isEmpty = (ps.map Point.char).isEmpty := by
  cases h <;> rfl

/-! ### Runs of a class -/

/-- A class that does not tell line endings apart is at the front of both or of neither. -/
theorem Verbatim.startsWith_source (h : Verbatim ps) (inClass : Char → Bool)
    (hclass : inClass '\r' = inClass '\n') :
    startsWith inClass (sourceOf ps) = startsWith inClass (ps.map Point.char) := by
  cases h with
  | nil => rfl
  | plain hc h => rfl
  | pair h => exact hclass
  | single hfeed h => exact hclass

/-- A run of such a class is as long in both. -/
theorem Verbatim.countOf_source (h : Verbatim ps) (inClass : Char → Bool)
    (hclass : inClass '\r' = inClass '\n') :
    countOf inClass (sourceOf ps) = sourceIndex ps (countOf inClass (ps.map Point.char)) := by
  have hrun (c : Char) (text : List Char) : countOf inClass (c :: text) =
      if inClass c then countOf inClass text + 1 else 0 := by
    unfold countOf
    rw [List.takeWhile_cons]
    cases inClass c <;> rfl
  induction h with
  | nil => rfl
  | @plain c ps hc h ih =>
    rw [sourceOf_plainPoint, List.map_cons, char_plainPoint, hrun, hrun, ih]
    split
    · rw [sourceIndex_succ]
      exact Nat.add_comm ..
    · rfl
  | @pair ps h ih =>
    rw [sourceOf_pairPoint, List.map_cons, char_pairPoint, hrun, hrun, hrun, ih, hclass]
    split
    · rw [sourceIndex_succ, Nat.add_assoc]
      exact Nat.add_comm ..
    · rfl
  | @single ps hfeed h ih =>
    rw [sourceOf_returnPoint, List.map_cons, char_returnPoint, hrun, hrun, ih, hclass]
    split
    · rw [sourceIndex_succ]
      exact Nat.add_comm ..
    · rfl

/-- A run of a class without line endings is the same in both. -/
theorem Verbatim.takeWhile_source (h : Verbatim ps) (inClass : Char → Bool)
    (hreturn : inClass '\r' = false) (hfeed : inClass '\n' = false) :
    (sourceOf ps).takeWhile inClass = (ps.map Point.char).takeWhile inClass ∧
      sourceIndex ps ((ps.map Point.char).takeWhile inClass).length =
        ((ps.map Point.char).takeWhile inClass).length := by
  have hsame : (sourceOf ps).takeWhile inClass = (ps.map Point.char).takeWhile inClass := by
    induction h with
    | nil => rfl
    | plain hc h ih =>
      rw [sourceOf_plainPoint, List.map_cons, char_plainPoint, List.takeWhile_cons, List.takeWhile_cons, ih]
    | pair h ih =>
      rw [sourceOf_pairPoint, List.map_cons, char_pairPoint, List.takeWhile_cons_of_neg (by simp [hreturn]),
        List.takeWhile_cons_of_neg (by simp [hfeed])]
    | single hnext h ih =>
      rw [sourceOf_returnPoint, List.map_cons, char_returnPoint,
        List.takeWhile_cons_of_neg (by simp [hreturn]), List.takeWhile_cons_of_neg (by simp [hfeed])]
  have hcount := h.countOf_source _ (hreturn.trans hfeed.symm)
  rw [countOf, hsame] at hcount
  exact ⟨hsame, hcount.symm⟩

/-- A mark without line endings is in front of both or of neither. -/
theorem Verbatim.isPrefixOf_source (h : Verbatim ps) {mark : List Char}
    (hmark : ∀ c ∈ mark, c ≠ '\r' ∧ c ≠ '\n') :
    mark.isPrefixOf (sourceOf ps) = mark.isPrefixOf (ps.map Point.char) := by
  induction mark generalizing ps with
  | nil => rfl
  | cons m mark ih =>
    obtain ⟨⟨hreturn, hfeed⟩, hmark⟩ := List.forall_mem_cons.mp hmark
    have hsource : (m == '\r') = false := beq_eq_false_iff_ne.mpr hreturn
    have hchar : (m == '\n') = false := beq_eq_false_iff_ne.mpr hfeed
    cases h with
    | nil => rfl
    | plain hc h =>
      rw [sourceOf_plainPoint, List.map_cons, char_plainPoint, List.isPrefixOf_cons_cons,
        List.isPrefixOf_cons_cons, ih h hmark]
    | pair h =>
      rw [sourceOf_pairPoint, List.map_cons, char_pairPoint, List.isPrefixOf_cons_cons,
        List.isPrefixOf_cons_cons, hsource, hchar, Bool.false_and, Bool.false_and]
    | single hnext h =>
      rw [sourceOf_returnPoint, List.map_cons, char_returnPoint, List.isPrefixOf_cons_cons,
        List.isPrefixOf_cons_cons, hsource, hchar, Bool.false_and, Bool.false_and]

/-- A mark that stands at the front was written as itself. -/
theorem Verbatim.sourceIndex_of_isPrefixOf (h : Verbatim ps) {mark : List Char}
    (hmark : ∀ c ∈ mark, c ≠ '\r' ∧ c ≠ '\n') (hfront : mark.isPrefixOf (ps.map Point.char) = true) :
    sourceIndex ps mark.length = mark.length := by
  induction mark generalizing ps with
  | nil => rfl
  | cons m mark ih =>
    obtain ⟨⟨-, hfeed⟩, hmark⟩ := List.forall_mem_cons.mp hmark
    cases h with
    | nil => contradiction
    | plain hc h =>
      rw [List.map_cons, List.isPrefixOf_cons_cons, Bool.and_eq_true] at hfront
      rw [List.length_cons, sourceIndex_succ, ih h hmark hfront.2]
      exact Nat.add_comm ..
    | pair h | single hnext h =>
      rw [List.map_cons, List.isPrefixOf_cons_cons, Bool.and_eq_true, beq_iff_eq] at hfront
      exact absurd hfront.1 hfeed

/-- So is a code point. -/
theorem Verbatim.startsWith_char_source (h : Verbatim ps) {c : Char} (hreturn : c ≠ '\r')
    (hfeed : c ≠ '\n') :
    startsWith (· == c) (sourceOf ps) = startsWith (· == c) (ps.map Point.char) := by
  refine h.startsWith_source _ ?_
  rw [beq_eq_false_iff_ne.mpr hreturn.symm, beq_eq_false_iff_ne.mpr hfeed.symm]

theorem Verbatim.sourceIndex_one (h : Verbatim ps) {c : Char} (hreturn : c ≠ '\r') (hfeed : c ≠ '\n')
    (hfront : startsWith (· == c) (ps.map Point.char) = true) : sourceIndex ps 1 = 1 := by
  have hmark : [c].isPrefixOf (ps.map Point.char) = true := by
    cases hchars : ps.map Point.char with
    | nil =>
      rw [hchars] at hfront
      contradiction
    | cons d rest =>
      rw [hchars, startsWith_cons, beq_iff_eq] at hfront
      rw [hfront, List.isPrefixOf_cons_cons, beq_self_eq_true, List.isPrefixOf_nil_left]
      rfl
  exact h.sourceIndex_of_isPrefixOf (by simpa using ⟨hreturn, hfeed⟩) hmark

/-- Among points of which the last was written as itself, the others were too. -/
theorem Verbatim.sourceIndex_eq_of_le (h : Verbatim ps) {m n : Nat} (hle : n ≤ m) (hm : m ≤ ps.length)
    (heq : sourceIndex ps m = m) : sourceIndex ps n = n := by
  have hfront := h.le_sourceIndex (Nat.le_trans hle hm)
  have hback := (h.drop n).le_sourceIndex (n := m - n) (by rw [List.length_drop]; omega)
  have hsum := sourceIndex_add ps n (m - n)
  rw [Nat.add_sub_cancel' hle, heq] at hsum
  omega

/-! ### Pieces -/

variable {α : Type}

/-- The piece at the front of a list. -/
def frontPiece {β : Type} (next : β → List β → Option (Piece α)) : List β → Option (Piece α)
  | [] => none
  | first :: rest => next first rest

/-- The same piece, found in the source of points and among them. -/
structure Piece.InSource (ps : List Point) (q p : Piece α) : Prop where
  value : q.value = p.value
  length : q.length = sourceIndex ps p.length

/-- The same pieces, one after another. -/
inductive PiecesInSource : List Point → List (Piece α) → List (Piece α) → Prop
  | nil {ps : List Point} : PiecesInSource ps [] []
  | cons {ps : List Point} {q p : Piece α} {qs rest : List (Piece α)} (hp : q.InSource ps p)
      (h : PiecesInSource (ps.drop p.length) qs rest) : PiecesInSource ps (q :: qs) (p :: rest)

/-- Pieces are found alike in the source of points and among them. -/
def FoundAlike (next : Char → List Char → Option (Piece α)) : Prop :=
  ∀ ps, Verbatim ps → Option.Rel (Piece.InSource ps) (frontPiece next (sourceOf ps))
    (frontPiece next (ps.map Point.char))

/-- **Pieces that are found alike are cut alike.** -/
theorem pieces_inSource {next : Char → List Char → Option (Piece α)} (hnext : FoundAlike next)
    (h : Verbatim ps) : PiecesInSource ps (pieces next (sourceOf ps)) (pieces next (ps.map Point.char)) := by
  generalize hn : ps.length = n
  induction n using Nat.strongRecOn generalizing ps with
  | ind n ih =>
    subst hn
    have hfront := hnext ps h
    cases hsource : sourceOf ps with
    | nil =>
      have hempty := h.isEmpty_source
      rw [hsource] at hempty
      rw [List.isEmpty_iff.mp hempty.symm, pieces_nil]
      exact .nil
    | cons c rest =>
      cases hchars : ps.map Point.char with
      | nil =>
        have hempty := h.isEmpty_source
        rw [hsource, hchars] at hempty
        contradiction
      | cons d text =>
        rw [hsource, hchars, frontPiece, frontPiece] at hfront
        cases hp : next d text with
        | none =>
          rw [hp] at hfront
          cases hq : next c rest with
          | none =>
            rw [pieces_cons_of_none hq, pieces_cons_of_none hp]
            exact .nil
          | some q =>
            rw [hq] at hfront
            cases hfront
        | some p =>
          cases hq : next c rest with
          | none =>
            rw [hp, hq] at hfront
            cases hfront
          | some q =>
            rw [hp, hq] at hfront
            cases hfront with
            | some hsame =>
              rw [pieces_cons_of_some hq, pieces_cons_of_some hp, ← drop_length_cons q c,
                ← drop_length_cons p d, ← hsource, ← hchars, hsame.length, drop_sourceIndex,
                ← List.map_drop]
              refine .cons hsame (ih _ ?_ (h.drop _) rfl)
              have hlength := congrArg List.length hchars
              rw [List.length_map, List.length_cons] at hlength
              rw [List.length_drop, Piece.length]
              omega

namespace PiecesInSource
variable {qs rest : List (Piece α)}

theorem value_eq (h : PiecesInSource ps qs rest) : qs.map Piece.value = rest.map Piece.value := by
  induction h with
  | nil => rfl
  | cons hp h ih => rw [List.map_cons, List.map_cons, hp.value, ih]

theorem covered_eq (h : PiecesInSource ps qs rest) : covered qs = sourceIndex ps (covered rest) := by
  induction h with
  | nil => rfl
  | cons hp h ih => rw [covered_cons, covered_cons, hp.length, ih, sourceIndex_add]

theorem startsWhere_eq (h : PiecesInSource ps qs rest) (property : α → Bool) :
    startsWhere property 0 qs = (startsWhere property 0 rest).map (sourceIndex ps) := by
  induction h with
  | nil => rfl
  | @cons ps q p qs rest hp h ih =>
    have hbehind : startsWhere property q.length qs =
        (startsWhere property p.length rest).map (sourceIndex ps) := by
      rw [← Nat.add_zero q.length, ← Nat.add_zero p.length, startsWhere_add, startsWhere_add, ih,
        List.map_map, List.map_map]
      refine List.map_congr_left fun n _ => ?_
      show q.length + sourceIndex (ps.drop p.length) n = sourceIndex ps (p.length + n)
      rw [hp.length, sourceIndex_add]
    rw [startsWhere, startsWhere, hp.value, Nat.zero_add, Nat.zero_add, hbehind]
    split <;> rfl

end PiecesInSource

end CssUrls.Text
