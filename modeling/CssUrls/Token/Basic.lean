import CssUrls.Number.Double

/-! The tokens of CSS.

Comments are no tokens. Names, strings and URLs are held decoded, without the marks around
them. -/
namespace CssUrls

/-- The value of a numeric token: as a number, as an integer if it was written as one, and
whether a sign was written. -/
structure Numeric where
  value : Double
  int : Option Int
  signed : Bool
  deriving DecidableEq

/-- Written without fraction and exponent. -/
def Numeric.isInteger (n : Numeric) : Bool := n.int.isSome

/-- The same value, with the two zeros taken for one. -/
def Numeric.same (a b : Numeric) : Bool :=
  a.value.same b.value && a.int == b.int && a.signed == b.signed

inductive Token
  | ident (name : String)
  | atKeyword (name : String)
  /-- A name after `#` that is no identifier. -/
  | hash (name : String)
  /-- An identifier after `#`. -/
  | idHash (name : String)
  | string (text : String)
  /-- A URL written without quotes. With quotes it is a `function` and a `string`. -/
  | url (text : String)
  | delim (char : Char)
  | number (n : Numeric)
  | percentage (n : Numeric)
  | dimension (n : Numeric) (unit : String)
  | whitespace
  | colon
  | semicolon
  | comma
  | includeMatch
  | dashMatch
  | prefixMatch
  | suffixMatch
  | substringMatch
  | column
  /-- The opening `<!--`. -/
  | cdo
  /-- The closing `-->`. -/
  | cdc
  /-- A name and the parenthesis it opens. -/
  | function (name : String)
  | openParen
  | openSquare
  | openCurly
  | badUrl
  | badString
  | closeParen
  | closeSquare
  | closeCurly
  | endOfFile
  deriving DecidableEq

namespace Token

/-- The text that a token made of text stands for. -/
def text? : Token → Option String
  | ident s | atKeyword s | hash s | idHash s | string s | url s | function s => some s
  | _ => none

def numeric? : Token → Option Numeric
  | number n | percentage n | dimension n _ => some n
  | _ => none

/-- The token stands for text that is malformed. -/
def isError : Token → Bool
  | badUrl | badString => true
  | _ => false

/-- The same token, with the two zeros taken for one. -/
def same : Token → Token → Bool
  | number a, number b => a.same b
  | percentage a, percentage b => a.same b
  | dimension a u, dimension b v => a.same b && u == v
  | a, b => a == b

end Token

/-- A token and where it stands, in code points of the text it was read from. -/
structure Span where
  token : Token
  start : Nat
  stop : Nat
  deriving DecidableEq

end CssUrls
