import CssUrls.Lexical.Escape

/-! Names: code points that may stand in a name, and escapes. -/
namespace CssUrls.Lexical
open Text

def namePiece : Char → List Char → Option (Piece (Option Char))
  | '\\', rest => if startsWith isNewline rest then none else some (escapePiece rest)
  | c, _ => if isNamePart c then some ⟨some c, 0⟩ else none

/-- The longest name at the front of the text. -/
def readName (text : List Char) : Reading String := readRun namePiece text

/-- The text starts with an identifier: a name that does not begin with a digit, nor with a
hyphen and a digit, and is not a hyphen alone. -/
def startsIdentifier : List Char → Bool
  | '-' :: rest => startsWith (fun c => isNameStart c || c == '-') rest || startsEscape rest
  | '\\' :: rest => startsEscape ('\\' :: rest)
  | text => startsWith isNameStart text

theorem readName_length_pos {c : Char} {rest : List Char}
    (h : isNamePart c = true ∨ startsEscape (c :: rest) = true) :
    0 < (readName (c :: rest)).length := by
  refine covered_pieces_pos ?_
  unfold namePiece
  split
  · rcases h with h | h
    · exact absurd h (by decide)
    · rw [startsEscape, Bool.not_eq_true'] at h
      simp [h]
  · rename_i hc
    rcases h with h | h
    · simp [h]
    · unfold startsEscape at h
      split at h
      · rename_i e
        cases e
        exact absurd rfl hc
      · exact absurd h (by decide)

/-- An identifier is a name with something in it. -/
theorem readName_length_pos_of_startsIdentifier {text : List Char}
    (h : startsIdentifier text = true) : 0 < (readName text).length := by
  unfold startsIdentifier at h
  split at h
  · exact readName_length_pos (.inl (by decide))
  · exact readName_length_pos (.inr h)
  · cases text with
    | nil => simp at h
    | cons c rest =>
      rw [startsWith_cons] at h
      exact readName_length_pos (.inl (by simp [isNamePart, h]))

end CssUrls.Lexical
