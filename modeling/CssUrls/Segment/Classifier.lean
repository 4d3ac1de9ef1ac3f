import Std.Data.ExtTreeMap
import CssUrls.Text.Class
import CssUrls.Segment.Kind

/-! Which URLs are images.

The kind of a URL follows from the property it is given to. A classifier holds kinds of its own
for some properties and knows those whose values are images; whatever it does not know is an
image. Inside `@font-face` no URL is. Property names are compared in lower case, and what a
classifier holds has no order, so two classifiers that answer alike are equal. -/
namespace CssUrls
open Text

/-- The properties whose values are images. -/
def imageProperties : List String :=
  ["background", "background-image", "border-image", "border-image-source", "content", "cursor",
    "list-style", "list-style-image", "mask", "mask-border", "mask-border-source", "mask-image",
    "shape-outside", "-webkit-border-image", "-webkit-mask", "-webkit-mask-box-image",
    "-webkit-mask-box-image-source", "-webkit-mask-image"]

/-- Kinds by the names of properties, which are in lower case. -/
structure Classifier where
  kinds : Std.ExtTreeMap String SegmentKind
  deriving DecidableEq

namespace Classifier

def empty : Classifier := ⟨∅⟩

/-- The classifier with a kind for a property, in place of one it had. -/
def insert (c : Classifier) (property : String) (kind : SegmentKind) : Classifier :=
  ⟨c.kinds.insert (lowercase property) kind⟩

def insertAll (c : Classifier) (kinds : List (String × SegmentKind)) : Classifier :=
  kinds.foldl (fun c (property, kind) => c.insert property kind) c

def ofList (kinds : List (String × SegmentKind)) : Classifier := empty.insertAll kinds

/-- The kind for a name in lower case, from what the classifier holds or else from what it knows. -/
def kindOfName? (c : Classifier) (name : String) : Option SegmentKind :=
  match c.kinds[name]? with
  | some kind => some kind
  | none => if imageProperties.contains name then some .imageUrl else none

/-- The kind of the URLs in the value of a property, if it is known. -/
def kind? (c : Classifier) (property : String) : Option SegmentKind := c.kindOfName? (lowercase property)

/-- The kind of a URL in the value of a property, or elsewhere. -/
def classify (c : Classifier) (property : Option String) (inFontFace : Bool) : SegmentKind :=
  if inFontFace then .otherUrl else (property.bind c.kind?).getD .imageUrl

end Classifier

end CssUrls
