/-! Lists cut into pieces from the front.

A piece is a value and the number of items it takes, never fewer than one, so cutting
ends whatever finds the pieces. `pieces_cons` says what a nonempty list is cut into: the
piece at its front, if there is one, and then the pieces of what that piece leaves. -/
namespace CssUrls.Text

/-- A value found at the front of a list. It takes the first item and `more` items after it. -/
structure Piece (α : Type) where
  value : α
  more : Nat
  deriving DecidableEq

/-- How many items a piece takes. -/
def Piece.length {α : Type} (p : Piece α) : Nat := p.more + 1

theorem Piece.length_pos {α : Type} (p : Piece α) : 0 < p.length := Nat.succ_pos _

variable {α β : Type}

/-! ### Cutting -/

/-- The pieces of a list behind the pieces `done`, which come latest first. -/
def piecesOnto (next : β → List β → Option (Piece α)) (done : List (Piece α)) :
    List β → List (Piece α)
  | [] => done.reverse
  | first :: rest =>
    match next first rest with
    | none => done.reverse
    | some p => piecesOnto next (p :: done) (rest.drop p.more)
termination_by list => list.length
decreasing_by simp only [List.length_drop, List.length_cons]; omega

/-- The pieces of a list, for as long as `next` finds one. -/
def pieces (next : β → List β → Option (Piece α)) (list : List β) : List (Piece α) :=
  piecesOnto next [] list

theorem piecesOnto_eq (next : β → List β → Option (Piece α)) (done : List (Piece α))
    (list : List β) : piecesOnto next done list = done.reverse ++ pieces next list := by
  generalize h : list.length = n
  induction n using Nat.strongRecOn generalizing list done with
  | ind n ih =>
    subst h
    cases list with
    | nil => simp [pieces, piecesOnto]
    | cons first rest =>
      cases hp : next first rest with
      | none => simp [pieces, piecesOnto, hp]
      | some p =>
        have hlt : (rest.drop p.more).length < (first :: rest).length := by
          simp only [List.length_drop, List.length_cons]; omega
        simp only [pieces, piecesOnto, hp]
        rw [ih _ hlt _ _ rfl, ih _ hlt [p] _ rfl]
        simp

theorem pieces_nil (next : β → List β → Option (Piece α)) : pieces next [] = [] := by
  simp [pieces, piecesOnto]

theorem pieces_cons (next : β → List β → Option (Piece α)) (first : β) (rest : List β) :
    pieces next (first :: rest) =
      match next first rest with
      | none => []
      | some p => p :: pieces next (rest.drop p.more) := by
  rw [pieces, piecesOnto]
  split
  · rfl
  · rw [piecesOnto_eq]; rfl

/-! ### What pieces take -/

/-- How many items pieces take together. -/
def covered (ps : List (Piece α)) : Nat := ps.foldr (fun p n => p.length + n) 0

/-- Where the pieces with a property start, when the first piece starts at `position`. -/
def startsWhere (property : α → Bool) (position : Nat) : List (Piece α) → List Nat
  | [] => []
  | p :: ps =>
    if property p.value then position :: startsWhere property (position + p.length) ps
    else startsWhere property (position + p.length) ps

@[simp] theorem covered_nil : covered ([] : List (Piece α)) = 0 := rfl

@[simp] theorem covered_cons (p : Piece α) (ps : List (Piece α)) :
    covered (p :: ps) = p.length + covered ps := rfl

/-- Where there is a piece, pieces take something. -/
theorem covered_pieces_pos {next : β → List β → Option (Piece α)} {first : β} {rest : List β}
    (h : (next first rest).isSome) : 0 < covered (pieces next (first :: rest)) := by
  obtain ⟨p, hp⟩ := Option.isSome_iff_exists.mp h
  rw [pieces_cons, hp, covered_cons]
  exact Nat.lt_of_lt_of_le p.length_pos (Nat.le_add_right ..)

end CssUrls.Text
