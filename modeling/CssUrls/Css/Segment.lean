import CssUrls.Css.Quoted
import CssUrls.Segment.Basic

/-! Segments as CSS.

Raw text is written as it is and a URL as `url("…")`, so the segments of a stylesheet are one
again. -/
namespace CssUrls.Css

/-- Writes data as what its kind says. -/
def writeData (kind : SegmentKind) (data : String) : Write Unit :=
  match kind with
  | .bytes => writeText data
  | .imageUrl | .otherUrl => writeUrl data.toList

def writeSegment (s : Segment) : Write Unit := writeData s.kind s.data

def writeSegments (segments : List Segment) : Write Unit := segments.forM writeSegment

end CssUrls.Css
