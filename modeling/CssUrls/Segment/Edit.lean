import CssUrls.Css.Segment

/-! Changes to the segments of a stylesheet.

A change keeps the ranges of the segments, which go on telling where in the source each came
from. -/
namespace CssUrls.Segment

/-- The URLs among segments. -/
def urls (segments : List Segment) : List String := segments.filterMap Segment.url?

/-- Puts a text in front of each URL. -/
def prependToUrls (text : String) (segments : List Segment) : List Segment :=
  segments.map fun s => if s.url?.isSome then { s with data := text ++ s.data } else s

/-- A segment after a change, and all segments with it changed. -/
def change (index : Nat) (f : Segment → Segment) (segments : List Segment) :
    Option (Segment × List Segment) :=
  segments[index]?.map fun s => (f s, segments.set index (f s))

/-- A segment, and all others. -/
def remove (index : Nat) (segments : List Segment) : Option (Segment × List Segment) :=
  segments[index]?.map fun s => (s, segments.eraseIdx index)

/-- The segments of the stylesheet that the segments make up. -/
def resegment (classifier : Classifier) (segments : List Segment) :
    Except SegmentError (List Segment) :=
  segment classifier (Css.writeSegments segments).text

end CssUrls.Segment
