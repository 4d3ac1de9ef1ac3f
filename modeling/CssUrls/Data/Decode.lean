import CssUrls.Data.Value
import CssUrls.Segment.Classifier
import CssUrls.Token.Kind

/-! Kinds and classifiers from configuration data.

A kind is given by its name, or by a map from its name to null. A classifier is a map from
properties to kinds; the first entry that is refused refuses the whole. -/
namespace CssUrls.Data

variable {α : Type}

/-- The member with a name. -/
def ofName (all : List α) (name : α → String) (s : String) : Except Mismatch α :=
  match all.find? (name · == s) with
  | some a => .ok a
  | none => .error (.unknownName s (all.map name))

/-- One of finitely many members, by name. -/
def decodeMember (all : List α) (name : α → String) : Value → Except Mismatch α
  | .string s => ofName all name s
  | .map [(s, value)] => do
    let a ← ofName all name s
    match value with
    | .null => .ok a
    | other => .error (.wrongShape other .null)
  | .map _ => .error .notOneKey
  | other => .error (.wrongShape other .nameOrMap)

def decodeSegmentKind : Value → Except Mismatch SegmentKind :=
  decodeMember SegmentKind.all SegmentKind.name

def decodeTokenKind : Value → Except Mismatch TokenKind := decodeMember TokenKind.all TokenKind.name

def decodeClassifier : Value → Except Mismatch Classifier
  | .map entries => do
    let kinds ← entries.mapM fun (property, value) => do
      return (property, ← decodeSegmentKind value)
    return Classifier.ofList kinds
  | other => .error (.wrongShape other .map)

end CssUrls.Data
