import CssUrls.Segment.Classifier
import CssUrls.Segment.Construct

/-! Where in a stylesheet a URL stands.

A context is what the tokens so far say about the next one: the blocks that are open, the
property whose value is being read, and what may still become of an identifier or of
`@font-face`. It answers the two questions a classifier asks: which property, and whether inside
`@font-face`. Malformed text only ever closes fewer blocks than it names. -/
namespace CssUrls
open Text

inductive Block
  | paren
  | square
  | curly (fontFace : Bool)
  deriving DecidableEq

structure Context where
  /-- The innermost block is the first. -/
  blocks : List Block
  /-- The property whose value is being read. -/
  property : Option String
  /-- An identifier that a colon would make the property. -/
  candidate : Option String
  /-- The next curly block is that of `@font-face`. -/
  pendingFontFace : Bool
  deriving DecidableEq

namespace Context

def initial : Context := ⟨[], none, none, false⟩

def inFontFace (c : Context) : Bool := c.blocks.contains (.curly true)

/-- Declarations may stand here. -/
def atDeclarations (c : Context) : Bool :=
  match c.blocks with
  | [] | .curly _ :: _ => true
  | _ => false

def opening (c : Context) (b : Block) : Context := { c with blocks := b :: c.blocks }

/-- Closes the innermost block if it is this one. -/
def closing (c : Context) (b : Block) : Context :=
  if c.blocks.head? = some b then { c with blocks := c.blocks.tail } else c

/-- No declaration is being read. -/
def fresh (c : Context) : Context := { c with property := none, pendingFontFace := false }

def closingCurly (c : Context) : Context :=
  match c.blocks with
  | .curly _ :: blocks => { c.fresh with blocks }
  | _ => c

/-- The candidate becomes the property, unless there is one. -/
def promoting (c : Context) : Context :=
  if c.property.isNone then { c with property := c.candidate } else c

def forgetting (c : Context) : Context := { c with candidate := none }

/-- The context after a token. -/
def track (c : Context) : Token → Context
  | .whitespace | .endOfFile => c
  | .ident name => if c.atDeclarations then { c with candidate := some name } else c.forgetting
  | .colon => (if c.atDeclarations then c.promoting else c).forgetting
  | .semicolon => (if c.atDeclarations then c.fresh else c).forgetting
  | .atKeyword name => { c with pendingFontFace := sameLetters name "font-face" }.forgetting
  | .openCurly => (c.fresh.opening (.curly c.pendingFontFace)).forgetting
  | .function _ | .openParen => (c.opening .paren).forgetting
  | .openSquare => (c.opening .square).forgetting
  | .closeParen => (c.closing .paren).forgetting
  | .closeSquare => (c.closing .square).forgetting
  | .closeCurly => c.closingCurly.forgetting
  | _ => c.forgetting

/-- The context after an item. A URL is one item, whatever tokens it is made of. -/
def trackItem (c : Context) : Item → Context
  | .token t => c.track t
  | .url _ => c.forgetting

def kindHere (c : Context) (classifier : Classifier) : SegmentKind :=
  classifier.classify c.property c.inFontFace

end Context

/-- A construct and what its URL is. -/
structure Finding where
  construct : Construct
  kind : SegmentKind
  deriving DecidableEq

/-- The URLs among items, in order, read in a context. -/
def findings (classifier : Classifier) (c : Context) : List Item → List Finding
  | [] => []
  | .url u :: rest => ⟨u, c.kindHere classifier⟩ :: findings classifier (c.trackItem (.url u)) rest
  | .token t :: rest => findings classifier (c.track t) rest

end CssUrls
