import CssUrls.Text.Normal
import CssUrls.Lexical.TokenStream
import CssUrls.Segment.Context

/-! Stylesheets cut into segments.

`segment` cuts a stylesheet at its URLs. Between them is raw text, taken from the source as it
stands; a URL is decoded and keeps the byte range of the construct it was written as. The ranges
follow one another without a gap, and malformed text is raw text. -/
namespace CssUrls
open Text Lexical

structure Segment where
  kind : SegmentKind
  /-- The text itself, or the URL decoded. -/
  data : String
  /-- Where the segment starts and stops in the source, in bytes. -/
  start : Nat
  stop : Nat
  deriving DecidableEq

def Segment.url? (s : Segment) : Option String :=
  match s.kind with
  | .bytes => none
  | .imageUrl | .otherUrl => some s.data

/-- Why tokens cannot be cut into segments. -/
inductive SegmentError
  /-- There is not exactly one end of the file, at the end. -/
  | missingEndOfFile
  deriving DecidableEq

def SegmentError.message : SegmentError → String
  | missingEndOfFile => "token stream is not terminated by a single end-of-file token"

/-! ### Cutting -/

/-- Raw text as a segment, unless there is none. -/
def rawSegment (start : Nat) (source : List Char) : List Segment :=
  if source.isEmpty then [] else [⟨.bytes, String.ofList source, start, start + byteLength source⟩]

/-- The segments of a text, from the code point at `position` and the byte at `offset` on. The
findings are in order. -/
def cutFrom (position offset : Nat) (text : List Point) : List Finding → List Segment
  | [] => rawSegment offset (sourceOf text)
  | f :: rest =>
    let before := sourceOf (text.take (f.construct.start - position))
    let text := text.drop (f.construct.start - position)
    let length := f.construct.stop - f.construct.start
    let start := offset + byteLength before
    let stop := start + byteLength (sourceOf (text.take length))
    rawSegment offset before ++ ⟨f.kind, f.construct.url, start, stop⟩ ::
      cutFrom f.construct.stop stop (text.drop length) rest

/-- The end of the file comes once, and last. -/
def properlyEnded (spans : List Span) : Bool :=
  spans.getLast?.any (·.token == .endOfFile) && spans.countP (·.token == .endOfFile) == 1

/-- The segments of a text whose tokens are given. -/
def segmentTokens (classifier : Classifier) (text : List Point) (spans : List Span) :
    Except SegmentError (List Segment) :=
  if properlyEnded spans then
    .ok (cutFrom 0 0 text (findings classifier .initial (items spans)))
  else .error .missingEndOfFile

/-- The segments of a stylesheet. -/
def segment (classifier : Classifier) (css : String) : Except SegmentError (List Segment) :=
  let text := points css.toList
  segmentTokens classifier text (tokenize (text.map Point.char)).spans

end CssUrls
