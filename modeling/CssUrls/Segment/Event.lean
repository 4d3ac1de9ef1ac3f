import CssUrls.Text.Utf8
import CssUrls.Segment.Basic

/-! What cutting a stylesheet reports.

Each stylesheet gives one span of work, in it an event for each fault of its tokens, and one with
the totals at the end. A stylesheet of bytes that are no UTF-8 gives an event before all others. -/
namespace CssUrls
open Text Lexical

inductive Level
  | debug
  | trace
  deriving DecidableEq

def Level.name : Level → String
  | debug => "DEBUG"
  | trace => "TRACE"

inductive Event
  /-- Bytes were replaced, of so many. -/
  | replacedBytes (length : Nat)
  /-- Work on a stylesheet of so many bytes has begun. -/
  | started (length : Nat)
  | fault (f : Fault)
  /-- Work has ended, with so many segments and so many faults. -/
  | finished (segments faults : Nat)
  deriving DecidableEq

namespace Event

def level : Event → Level
  | replacedBytes _ | started _ | finished _ _ => .debug
  | fault _ => .trace

/-- The text of an event, or the name of a span of work. -/
def message : Event → String
  | replacedBytes _ => "stylesheet is not valid UTF-8, replaced invalid bytes"
  | started _ => "segment_css_with"
  | fault _ => "lexical error"
  | finished _ _ => "segmented stylesheet"

end Event

/-- The events of decoding a stylesheet. -/
def decodingEvents (bytes : List UInt8) : List Event :=
  if (decode bytes).intact then [] else [.replacedBytes bytes.length]

/-- The events of cutting a stylesheet. -/
def segmentEvents (classifier : Classifier) (css : String) : List Event :=
  let faults := (tokenize (normalize css.toList)).faults
  let finished := match segment classifier css with
    | .ok segments => [.finished segments.length faults.length]
    | .error _ => []
  .started css.utf8ByteSize :: faults.map .fault ++ finished

end CssUrls
