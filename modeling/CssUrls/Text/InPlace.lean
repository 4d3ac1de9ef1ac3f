import CssUrls.Text.Normal

/-! Normal form made in place.

A text that is held in an array is brought into normal form there. Code points are read at one place and written
at another, and the two drift apart wherever a line ending was written as two; what is left over at the end is
cut off. The byte offsets of the code points, if they are kept, move along with them. -/
namespace CssUrls.Text

/-- The code points of a text and, if they are kept, the byte offset at which each starts in the source, with that
of its end behind them. -/
structure Buffer where
  chars : Array Char
  offsets : Option (Array Nat)
  deriving DecidableEq

namespace Buffer

/-- A text as it stands, without offsets. -/
def ofText (text : List Char) : Buffer := ⟨text.toArray, none⟩

/-- A text as it stands, with its offsets. -/
def withOffsets (text : List Char) : Buffer :=
  ⟨text.toArray, some (offsetsFrom 0 (text.map fun c => ⟨c, [c]⟩)).toArray⟩

/-- What the code point `c`, which is read at a place, becomes. -/
def normalAt (b : Buffer) (place : Nat) (c : Char) : Piece Char :=
  match c with
  | '\r' => ⟨'\n', if b.chars[place + 1]? = some '\n' then 1 else 0⟩
  | '\x00' => ⟨replacement, 0⟩
  | c => ⟨c, 0⟩

/-- Writes `c` at `write`, and with it the offset of what was read at `read`. -/
def move (b : Buffer) (read write : Nat) (c : Char) : Buffer :=
  { chars := b.chars.setIfInBounds write c
    offsets := b.offsets.map fun offsets => offsets.setIfInBounds write (offsets.getD read 0) }

/-- Cuts off all from `write` on, but for the offset of the end. -/
def truncate (b : Buffer) (write : Nat) : Buffer :=
  { chars := b.chars.take write
    offsets := b.offsets.map fun offsets =>
      (offsets.setIfInBounds write (offsets.getD b.chars.size 0)).take (write + 1) }

def normalizeFrom (b : Buffer) (read write : Nat) : Buffer :=
  if h : read < b.chars.size then
    let p := b.normalAt read b.chars[read]
    (b.move read write p.value).normalizeFrom (read + p.length) (write + 1)
  else b.truncate write
termination_by b.chars.size - read
decreasing_by
  simp only [move, Piece.length, Array.size_setIfInBounds]
  omega

def normalize (b : Buffer) : Buffer := b.normalizeFrom 0 0

end Buffer

end CssUrls.Text
