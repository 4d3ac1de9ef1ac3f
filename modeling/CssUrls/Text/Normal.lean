import CssUrls.Text.Piece
import CssUrls.Text.Class

/-! Normal form of a stylesheet's text.

Before anything else is read, `\r\n` and a lone `\r` become `\n`, and NUL becomes U+FFFD.
A `Point` keeps beside each code point of the normal form the source it was written as, so
nothing is lost: the sources of the points of a text make up that text (`sourceOf_points`). -/
namespace CssUrls.Text

/-- A code point of the normal form, and the code points it was written as. -/
structure Point where
  char : Char
  source : List Char
  deriving DecidableEq

def pointPiece : Char → List Char → Piece Point
  | '\r', '\n' :: _ => ⟨⟨'\n', ['\r', '\n']⟩, 1⟩
  | '\r', _ => ⟨⟨'\n', ['\r']⟩, 0⟩
  | '\x00', _ => ⟨⟨replacement, ['\x00']⟩, 0⟩
  | c, _ => ⟨⟨c, [c]⟩, 0⟩

def points (text : List Char) : List Point :=
  (pieces (fun first rest => some (pointPiece first rest)) text).map Piece.value

/-- The text with one kind of line ending and without NUL. -/
def normalize (text : List Char) : List Char := (points text).map Point.char

/-! ### Where points stand in the source -/

/-- What points were written as. -/
def sourceOf (ps : List Point) : List Char := ps.flatMap Point.source

/-- How many bytes a text takes in UTF-8. -/
def byteLength (text : List Char) : Nat := text.foldr (fun c n => c.utf8Size + n) 0

/-- The byte offset in the source at which each point starts, and last where the source ends. -/
def offsetsFrom (start : Nat) : List Point → List Nat
  | [] => [start]
  | p :: ps => start :: offsetsFrom (start + byteLength p.source) ps

/-! ### Nothing is lost -/

theorem points_nil : points [] = [] := by simp [points, pieces_nil]

theorem points_cons (first : Char) (rest : List Char) :
    points (first :: rest) =
      (pointPiece first rest).value :: points (rest.drop (pointPiece first rest).more) := by
  simp [points, pieces_cons]

theorem pointPiece_source (first : Char) (rest : List Char) :
    (pointPiece first rest).value.source ++ rest.drop (pointPiece first rest).more = first :: rest := by
  unfold pointPiece
  split <;> rfl

theorem sourceOf_points (text : List Char) : sourceOf (points text) = text := by
  generalize h : text.length = n
  induction n using Nat.strongRecOn generalizing text with
  | ind n ih =>
    subst h
    cases text with
    | nil => rw [points_nil]; rfl
    | cons first rest =>
      have hlt : (rest.drop (pointPiece first rest).more).length < (first :: rest).length := by
        simp only [List.length_drop, List.length_cons]
        omega
      rw [points_cons, sourceOf, List.flatMap_cons, ← sourceOf, ih _ hlt _ rfl]
      exact pointPiece_source first rest

end CssUrls.Text
