import CssUrls.Segment.Classifier

/-! Looking a property up.

A name that is in lower case already is looked up as it is given. Any other is copied into a buffer and made lower case
there, byte by byte from its first capital on, or becomes a text of its own if the buffer is too short for it. -/
namespace CssUrls.Text

def isCapitalByte (b : UInt8) : Bool := 'A'.toUInt8 ≤ b && b ≤ 'Z'.toUInt8

/-- An ASCII capital made small, as a byte of UTF-8; every other byte stays. -/
def smallByte (b : UInt8) : UInt8 := if isCapitalByte b then b + 32 else b

/-- Where a text in lower case is held. -/
inductive Place
  /-- It is the text that was given. -/
  | given
  /-- It stands in the buffer. -/
  | buffer
  /-- It is a text of its own. -/
  | heap
  deriving DecidableEq

structure Lowered where
  text : String
  place : Place
  deriving DecidableEq

/-- The text in lower case, in the buffer if that is needed and long enough. Whatever the buffer held before is
overwritten as far as the text goes, and not read behind it. -/
def lowercaseIn (buffer : List UInt8) (text : String) : Lowered :=
  let bytes := text.toUTF8.data.toList
  match bytes.findIdx? isCapitalByte with
  | none => ⟨text, .given⟩
  | some first =>
    if buffer.length < bytes.length then ⟨lowercase text, .heap⟩
    else
      let copy := (bytes ++ buffer.drop bytes.length).take bytes.length
      let small := copy.take first ++ (copy.drop first).map smallByte
      match String.fromUTF8? small.toByteArray with
      | some text => ⟨text, .buffer⟩
      | none => ⟨lowercase text, .heap⟩

end CssUrls.Text

namespace CssUrls.Classifier
open Text

/-- Longer names, in bytes, do not fit into the buffer of a lookup. -/
def maxNameLength : Nat := 32

/-- The kind of the URLs in the value of a property, if it is known, looked up with a fresh buffer. -/
def lookup? (c : Classifier) (property : String) : Option SegmentKind :=
  c.kindOfName? (lowercaseIn (List.replicate maxNameLength 0) property).text

end CssUrls.Classifier
