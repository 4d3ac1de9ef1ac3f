import CssUrls.Lexical.Name
import CssUrls.Lexical.Numeral
import CssUrls.Lexical.Quoted
import CssUrls.Lexical.Url

/-! The token at the front of a text.

`readToken` decides by the first code point and looks at most three further ahead before it
knows what the token is. Only the empty text has the end of the file at its front. -/
namespace CssUrls.Lexical
open Text

/-- A number with what follows it directly: a unit, a percent sign or nothing. -/
def readNumber (text : List Char) : Reading Token :=
  let n := readNumeric text
  let rest := text.drop n.length
  if startsIdentifier rest then n.andThen ((readName rest).map (.dimension n.value))
  else if startsWith (· == '%') rest then n.andThen (.plain 1 (.percentage n.value))
  else n.map .number

/-- What the parenthesis after `url` opens: the argument if it is not quoted. Before a quoted
one there is only a function, which takes all white space but the last with it. -/
def readUrlFunction (name : String) (text : List Char) : Reading Token :=
  let blank := countOf isWhitespace text
  let rest := text.drop blank
  if startsWith isQuote rest then .plain (blank - 1) (.function name)
  else (readUrl rest).behind blank

/-- A name, and what it opens if a parenthesis follows. -/
def readIdentLike (text : List Char) : Reading Token :=
  let name := readName text
  match text.drop name.length with
  | '(' :: rest =>
    let opened := name.andThen (.plain 1 ())
    if sameLetters name.value "url" then opened.andThen (readUrlFunction name.value rest)
    else opened.map fun _ => .function name.value
  | _ => name.map .ident

/-- A mark that becomes a token of its own before an equals sign. -/
def readMatch (mark : Char) (token : Token) (rest : List Char) : Reading Token :=
  if startsWith (· == '=') rest then .plain 2 token else .plain 1 (.delim mark)

/-- A hash with its name, or a hash alone. -/
def readHash (rest : List Char) : Reading Token :=
  if startsWith isNamePart rest || startsEscape rest then
    let token := if startsIdentifier rest then Token.idHash else Token.hash
    ((readName rest).map token).behind 1
  else .plain 1 (.delim '#')

def readAtKeyword (rest : List Char) : Reading Token :=
  if startsIdentifier rest then ((readName rest).map .atKeyword).behind 1
  else .plain 1 (.delim '@')

def readHyphen (rest : List Char) : Reading Token :=
  if startsNumeral ('-' :: rest) then readNumber ('-' :: rest)
  else if ['-', '>'].isPrefixOf rest then .plain 3 .cdc
  else if startsIdentifier ('-' :: rest) then readIdentLike ('-' :: rest)
  else .plain 1 (.delim '-')

def readBackslash (rest : List Char) : Reading Token :=
  if startsEscape ('\\' :: rest) then readIdentLike ('\\' :: rest)
  else (Reading.plain 1 (.delim '\\')).noting .invalidEscape 0

/-- A plus sign or a point, which starts a number if digits follow it. -/
def readPointOrPlus (c : Char) (rest : List Char) : Reading Token :=
  if startsNumeral (c :: rest) then readNumber (c :: rest) else .plain 1 (.delim c)

def readLess (rest : List Char) : Reading Token :=
  if ['!', '-', '-'].isPrefixOf rest then .plain 4 .cdo else .plain 1 (.delim '<')

def readBar (rest : List Char) : Reading Token :=
  if startsWith (· == '|') rest then .plain 2 .column else readMatch '|' .dashMatch rest

/-- The tokens that are one code point, whatever follows it. -/
def punctuation? : Char → Option Token
  | '(' => some .openParen
  | ')' => some .closeParen
  | '[' => some .openSquare
  | ']' => some .closeSquare
  | '{' => some .openCurly
  | '}' => some .closeCurly
  | ',' => some .comma
  | ':' => some .colon
  | ';' => some .semicolon
  | _ => none

/-- A token that neither its first code point alone nor the class of that settles. -/
def readMark (c : Char) (rest : List Char) : Reading Token :=
  match c with
  | '#' => readHash rest
  | '$' => readMatch '$' .suffixMatch rest
  | '*' => readMatch '*' .substringMatch rest
  | '^' => readMatch '^' .prefixMatch rest
  | '~' => readMatch '~' .includeMatch rest
  | '|' => readBar rest
  | '+' => readPointOrPlus '+' rest
  | '.' => readPointOrPlus '.' rest
  | '-' => readHyphen rest
  | '<' => readLess rest
  | '@' => readAtKeyword rest
  | '\\' => readBackslash rest
  | _ => .plain 1 (.delim c)

/-- The token at the front of the text. -/
def readToken : List Char → Reading Token
  | [] => .plain 0 .endOfFile
  | c :: rest =>
    match punctuation? c with
    | some token => .plain 1 token
    | none =>
      if isWhitespace c then .plain (countOf isWhitespace (c :: rest)) .whitespace
      else if isQuote c then readQuoted c rest
      else if c.isDigit then readNumber (c :: rest)
      else if isNameStart c then readIdentLike (c :: rest)
      else readMark c rest

/-! ### Comments -/

/-- A code point of a comment, which ends before the first `*/`. -/
def commentPiece : Char → List Char → Option (Piece Unit)
  | '*', '/' :: _ => none
  | _, _ => some ⟨(), 0⟩

/-- A comment, and whether it is closed. -/
def wholeComment : Char → List Char → Option (Piece Bool)
  | '/', '*' :: rest =>
    let length := covered (pieces commentPiece rest)
    if (rest.drop length).isEmpty then some ⟨false, 1 + length⟩ else some ⟨true, 1 + length + 2⟩
  | _, _ => none

/-- The comments at the front of the text. -/
def readComments (text : List Char) : Reading Unit :=
  let ps := pieces wholeComment text
  ⟨(), covered ps, (startsWhere (!·) 0 ps).map fun n => ⟨.unterminatedComment, n⟩⟩

end CssUrls.Lexical
