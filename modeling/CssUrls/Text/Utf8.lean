import CssUrls.Text.Piece
import CssUrls.Text.Class

/-! Text from bytes that may not be UTF-8.

A lead byte fixes the range of each byte that may follow it. Bytes are read for as long as
they fit; a sequence broken off is ill-formed as far as it went, and each ill-formed stretch
becomes one U+FFFD. So every maximal part of a sequence is replaced once, and bytes are kept
exactly when all of them are well-formed. -/
namespace CssUrls.Text

/-- The bits a lead byte gives, and the least and the greatest value of each byte after it. -/
def following? (lead : UInt8) : Option (Nat × List (UInt8 × UInt8)) :=
  let rest : UInt8 × UInt8 := (0x80, 0xbf)
  if lead ≤ 0x7f then some (lead.toNat, [])
  else if lead < 0xc2 then none
  else if lead ≤ 0xdf then some (lead.toNat % 0x20, [rest])
  else if lead = 0xe0 then some (0, [(0xa0, 0xbf), rest])
  else if lead = 0xed then some (0x0d, [(0x80, 0x9f), rest])
  else if lead ≤ 0xef then some (lead.toNat % 0x10, [rest, rest])
  else if lead = 0xf0 then some (0, [(0x90, 0xbf), rest, rest])
  else if lead ≤ 0xf3 then some (lead.toNat % 0x08, [rest, rest, rest])
  else if lead = 0xf4 then some (4, [(0x80, 0x8f), rest, rest])
  else none

/-- Reads the bytes after a lead byte. `bits` holds what was read before them, in `taken` of
them; `none` stands for a sequence that is broken off. -/
def continued (bits taken : Nat) : List (UInt8 × UInt8) → List UInt8 → Piece (Option Char)
  | [], _ => ⟨some (Char.ofNat bits), taken⟩
  | _ :: _, [] => ⟨none, taken⟩
  | (least, greatest) :: ranges, byte :: bytes =>
    if least ≤ byte && byte ≤ greatest then
      continued (bits * 0x40 + byte.toNat % 0x40) (taken + 1) ranges bytes
    else ⟨none, taken⟩

def utf8Piece (lead : UInt8) (rest : List UInt8) : Piece (Option Char) :=
  match following? lead with
  | none => ⟨none, 0⟩
  | some (bits, ranges) => continued bits 0 ranges rest

/-- Text read from bytes, and whether no byte had to be replaced. -/
structure Decoded where
  text : String
  intact : Bool

def decode (bytes : List UInt8) : Decoded :=
  let ps := pieces (fun lead rest => some (utf8Piece lead rest)) bytes
  { text := String.ofList (ps.map fun p => p.value.getD replacement)
    intact := ps.all fun p => p.value.isSome }

end CssUrls.Text
