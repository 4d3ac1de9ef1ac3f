import CssUrls.Lexical.Escape
import CssUrls.Token.Basic

/-! Strings in quotes.

A string ends at its quote, or where the text does. A newline ends it too, unless it is
escaped, and makes it malformed; the newline is left for the next token. An escaped newline,
and a backslash at the end of the text, stand for nothing. -/
namespace CssUrls.Lexical
open Text

/-- A code point of a string. A piece without a value stands for nothing. -/
def quotedPiece (quote : Char) : Char → List Char → Option (Piece (Option Char))
  | '\\', '\r' :: '\n' :: _ => some ⟨none, 2⟩
  | '\\', rest => if startsWith isNewline rest then some ⟨none, 1⟩ else some (escapePiece rest)
  | c, _ => if c == quote || isNewline c then none else some ⟨some c, 0⟩

/-- The string that a quote opens, from the text after that quote. -/
def readQuoted (quote : Char) (text : List Char) : Reading Token :=
  let ps := pieces (quotedPiece quote) text
  let value := String.ofList (ps.filterMap Piece.value)
  let length := covered ps
  match text.drop length with
  | [] => ⟨.string value, 1 + length, [⟨.unterminatedString, 0⟩]⟩
  | c :: _ =>
    if c == quote then ⟨.string value, 1 + length + 1, []⟩
    else ⟨.badString, 1 + length, [⟨.newlineInString, 1 + length⟩]⟩

end CssUrls.Lexical
