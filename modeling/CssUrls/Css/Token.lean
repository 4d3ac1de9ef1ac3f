import CssUrls.Css.Quoted
import CssUrls.Number.Layout
import CssUrls.Token.Basic

/-! Tokens as CSS.

Each token is written so that it reads back by itself. A unit that would be taken for the
exponent of its number gets an escape for its first letter. Malformed tokens are written as
malformed text. -/
namespace CssUrls.Css

/-- Numbers have at most fifteen significant digits, and no power of ten unless the point would
stand more than five zeros before the digits or past the twenty-first. The digits are those of the
shortest decimal, rounded, which is assumed of the printer of numbers; its own way to find them may
end in another fifteenth digit, as for 43042.23734742335. -/
def decimalStyle : DecimalStyle := ⟨-5, 21, 15, false⟩

/-- A number as an integer if it was written as one. Only a sign that was written and is not in
the value is added. -/
def writeNumeric (n : Numeric) : Write Unit := do
  if n.signed && !n.value.negative then writeChar '+'
  match n.int with
  | some i => writeText (toString i)
  | none => writeText (decimalStyle.text n.value)

/-- After a number the unit starts with what would be its exponent. -/
def looksLikeExponent : List Char → Bool
  | [c] => c == 'e' || c == 'E'
  | c :: '-' :: _ => c == 'e' || c == 'E'
  | _ => false

def writeUnit (unit : List Char) : Write Unit :=
  if looksLikeExponent unit then do
    writeText "\\65 "
    writeName unit.tail
  else writeIdentifier unit

def writeToken : Token → Write Unit
  | .ident name => writeIdentifier name.toList
  | .atKeyword name => do
    writeChar '@'
    writeIdentifier name.toList
  | .hash name => do
    writeChar '#'
    writeName name.toList
  | .idHash name => do
    writeChar '#'
    writeIdentifier name.toList
  | .string text => writeQuoted text.toList
  | .url text => writeUrl text.toList
  | .delim c => writeChar c
  | .number n => writeNumeric n
  | .percentage n => do
    writeNumeric n
    writeChar '%'
  | .dimension n unit => do
    writeNumeric n
    writeUnit unit.toList
  | .function name => do
    writeIdentifier name.toList
    writeChar '('
  | .whitespace => writeText " "
  | .colon => writeText ":"
  | .semicolon => writeText ";"
  | .comma => writeText ","
  | .includeMatch => writeText "~="
  | .dashMatch => writeText "|="
  | .prefixMatch => writeText "^="
  | .suffixMatch => writeText "$="
  | .substringMatch => writeText "*="
  | .column => writeText "||"
  | .cdo => writeText "<!--"
  | .cdc => writeText "-->"
  | .openParen => writeText "("
  | .openSquare => writeText "["
  | .openCurly => writeText "\x7b"
  | .badUrl => writeText "url(<bad url>)"
  | .badString => writeText "\"<bad string>\n"
  | .closeParen => writeText ")"
  | .closeSquare => writeText "]"
  | .closeCurly => writeText "\x7d"
  | .endOfFile => pure ()

end CssUrls.Css
