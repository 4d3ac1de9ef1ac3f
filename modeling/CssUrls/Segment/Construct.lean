import CssUrls.Text.Piece
import CssUrls.Text.Class
import CssUrls.Token.Basic

/-! URLs among tokens.

A URL is a `url` token, or a function of that name around a string, with white space on either
side of the string. An `Item` is either such a construct as a whole or one token that is no part
of one; the items of a token list leave nothing out. -/
namespace CssUrls
open Text

/-- A URL and the code points it is written in, from `url(` to the closing parenthesis. -/
structure Construct where
  url : String
  start : Nat
  stop : Nat
  deriving DecidableEq

inductive Item
  | token (t : Token)
  | url (c : Construct)
  deriving DecidableEq

def isBlank (s : Span) : Bool := s.token == .whitespace

/-- The construct of a function that starts at `start`, from the tokens after it: a string and the
closing parenthesis. -/
def argument? (start : Nat) (spans : List Span) : Option (Piece Construct) :=
  let before := (spans.takeWhile isBlank).length
  match spans.drop before with
  | ⟨.string url, _, _⟩ :: rest =>
    let after := (rest.takeWhile isBlank).length
    match rest.drop after with
    | ⟨.closeParen, _, stop⟩ :: _ => some ⟨⟨url, start, stop⟩, before + 1 + after + 1⟩
    | _ => none
  | _ => none

/-- The construct that starts with the first of the tokens. -/
def construct? (first : Span) (rest : List Span) : Option (Piece Construct) :=
  match first.token with
  | .url url => some ⟨⟨url, first.start, first.stop⟩, 0⟩
  | .function name => if sameLetters name "url" then argument? first.start rest else none
  | _ => none

def itemPiece (first : Span) (rest : List Span) : Piece Item :=
  match construct? first rest with
  | some p => ⟨.url p.value, p.more⟩
  | none => ⟨.token first.token, 0⟩

def items (spans : List Span) : List Item :=
  (pieces (fun first rest => some (itemPiece first rest)) spans).map Piece.value

end CssUrls
