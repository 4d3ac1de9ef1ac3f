import CssUrls.Token.Basic

/-! The kind of a token: what is left of it without its contents.

Kinds are numbered from one, in the order in which `all` lists them; the numbers and the
names are stable. -/
namespace CssUrls

inductive TokenKind
  | whitespace
  | cdo
  | cdc
  | colon
  | semicolon
  | comma
  | openCurly
  | closeCurly
  | openSquare
  | closeSquare
  | openParen
  | closeParen
  | includeMatch
  | dashMatch
  | prefixMatch
  | suffixMatch
  | substringMatch
  | column
  | endOfFile
  | delim
  | ident
  | function
  | atKeyword
  | hash
  | string
  | url
  | number
  | percentage
  | dimension
  | error
  deriving DecidableEq

namespace TokenKind

def all : List TokenKind :=
  [whitespace, cdo, cdc, colon, semicolon, comma, openCurly, closeCurly, openSquare, closeSquare,
    openParen, closeParen, includeMatch, dashMatch, prefixMatch, suffixMatch, substringMatch,
    column, endOfFile, delim, ident, function, atKeyword, hash, string, url, number, percentage,
    dimension, error]

def code (k : TokenKind) : Nat := all.idxOf k + 1

def name : TokenKind → String
  | whitespace => "Whitespace"
  | cdo => "Cdo"
  | cdc => "Cdc"
  | colon => "Colon"
  | semicolon => "Semicolon"
  | comma => "Comma"
  | openCurly => "OpenCurly"
  | closeCurly => "CloseCurly"
  | openSquare => "OpenSquare"
  | closeSquare => "CloseSquare"
  | openParen => "OpenParen"
  | closeParen => "CloseParen"
  | includeMatch => "IncludeMatch"
  | dashMatch => "DashMatch"
  | prefixMatch => "PrefixMatch"
  | suffixMatch => "SuffixMatch"
  | substringMatch => "SubstringMatch"
  | column => "Column"
  | endOfFile => "EofToken"
  | delim => "Delim"
  | ident => "Ident"
  | function => "FunctionToken"
  | atKeyword => "AtKeyword"
  | hash => "Hash"
  | string => "String"
  | url => "Url"
  | number => "Number"
  | percentage => "Percentage"
  | dimension => "Dimension"
  | error => "Error"

end TokenKind

def Token.kind : Token → TokenKind
  | .ident _ => .ident
  | .atKeyword _ => .atKeyword
  | .hash _ | .idHash _ => .hash
  | .string _ => .string
  | .url _ => .url
  | .delim _ => .delim
  | .number _ => .number
  | .percentage _ => .percentage
  | .dimension _ _ => .dimension
  | .whitespace => .whitespace
  | .colon => .colon
  | .semicolon => .semicolon
  | .comma => .comma
  | .includeMatch => .includeMatch
  | .dashMatch => .dashMatch
  | .prefixMatch => .prefixMatch
  | .suffixMatch => .suffixMatch
  | .substringMatch => .substringMatch
  | .column => .column
  | .cdo => .cdo
  | .cdc => .cdc
  | .function _ => .function
  | .openParen => .openParen
  | .openSquare => .openSquare
  | .openCurly => .openCurly
  | .badUrl | .badString => .error
  | .closeParen => .closeParen
  | .closeSquare => .closeSquare
  | .closeCurly => .closeCurly
  | .endOfFile => .endOfFile

end CssUrls
