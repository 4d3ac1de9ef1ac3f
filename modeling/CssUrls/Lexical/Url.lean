import CssUrls.Lexical.Escape
import CssUrls.Token.Basic

/-! URLs without quotes.

Between the parentheses stand white space, the URL and white space. Whatever else comes
before the closing parenthesis makes the URL malformed, and all up to the first closing
parenthesis that is not escaped is taken with it. -/
namespace CssUrls.Lexical
open Text

/-- A code point of a URL, plain or escaped. -/
def urlPiece : Char → List Char → Option (Piece (Option Char))
  | '\\', rest => if startsWith isNewline rest then none else some (escapePiece rest)
  | c, _ =>
    if isWhitespace c || isQuote c || c == '(' || c == ')' || isNonPrintable c then none
    else some ⟨some c, 0⟩

/-- What is passed over in a malformed URL: a backslash hides the code point after it. -/
def remnantPiece : Char → List Char → Option (Piece Unit)
  | ')', _ => none
  | '\\', _ :: _ => some ⟨(), 1⟩
  | _, _ => some ⟨(), 0⟩

/-- How many code points there are up to the parenthesis that closes a malformed URL, and with
it. -/
def remnantLength (text : List Char) : Nat :=
  let length := covered (pieces remnantPiece text)
  if (text.drop length).isEmpty then length else length + 1

/-- The end of a URL, after its code points: white space and the closing parenthesis. Anything
else is a fault, which lies where the URL broke off; the rest of the URL is passed over. -/
def readUrlEnd (url : String) (text : List Char) : Reading Token :=
  let blank := countOf isWhitespace text
  match text.drop blank with
  | [] => ⟨.badUrl, blank, [⟨.unterminatedUrl, blank⟩]⟩
  | ')' :: _ => ⟨.url url, blank + 1, []⟩
  | rest => ⟨.badUrl, blank + remnantLength rest, [⟨.invalidUrl, 0⟩]⟩

/-- The URL after `url(` and white space, up to the closing parenthesis. -/
def readUrl (text : List Char) : Reading Token :=
  let url := readRun urlPiece text
  url.andThen (readUrlEnd url.value (text.drop url.length))

end CssUrls.Lexical
