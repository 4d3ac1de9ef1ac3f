/-! What a segment of a stylesheet is.

The names and the numbers of the kinds are stable. -/
namespace CssUrls

inductive SegmentKind
  /-- Text to be kept as it is. -/
  | bytes
  /-- The URL of an image. -/
  | imageUrl
  /-- Any other URL, in practice that of a font. -/
  | otherUrl
  deriving DecidableEq

namespace SegmentKind

def all : List SegmentKind := [bytes, imageUrl, otherUrl]

def name : SegmentKind → String
  | bytes => "Bytes"
  | imageUrl => "ImageUrl"
  | otherUrl => "OtherUrl"

def code : SegmentKind → Nat
  | bytes => 0
  | imageUrl => 1
  | otherUrl => 2

end SegmentKind

end CssUrls
