/-! Classes of code points.

CSS tells code points apart by a few classes. Outside of ASCII there is only one: every
code point above it may stand in a name. -/
namespace CssUrls.Text

/-- What stands for a code point that cannot be given. -/
def replacement : Char := '\ufffd'

def isNewline (c : Char) : Bool := c == '\n' || c == '\r' || c == '\x0c'

def isWhitespace (c : Char) : Bool := c == ' ' || c == '\t' || isNewline c

def isQuote (c : Char) : Bool := c == '"' || c == '\''

/-- May begin a name. -/
def isNameStart (c : Char) : Bool := c.isAlpha || c == '_' || 128 ≤ c.toNat

/-- May stand in a name. -/
def isNamePart (c : Char) : Bool := isNameStart c || c.isDigit || c == '-'

/-- Control codes that are neither white space nor allowed in an unquoted URL. -/
def isNonPrintable (c : Char) : Bool :=
  c.toNat ≤ 0x08 || c.toNat = 0x0b || (0x0e ≤ c.toNat && c.toNat ≤ 0x1f) || c.toNat = 0x7f

/-- Control codes other than NUL. -/
def isControl (c : Char) : Bool := (0x01 ≤ c.toNat && c.toNat ≤ 0x1f) || c.toNat = 0x7f

/-- The value of a hexadecimal digit. -/
def hexDigit? (c : Char) : Option Nat :=
  if c.isDigit then some (c.toNat - '0'.toNat)
  else if 'a' ≤ c && c ≤ 'f' then some (c.toNat - 'a'.toNat + 10)
  else if 'A' ≤ c && c ≤ 'F' then some (c.toNat - 'A'.toNat + 10)
  else none

def isHexDigit (c : Char) : Bool := (hexDigit? c).isSome

/-! ### The front of a text -/

/-- The text is not empty and its first code point is in the class. -/
def startsWith (inClass : Char → Bool) (text : List Char) : Bool := text.head?.any inClass

/-- How many code points of the class the text starts with. -/
def countOf (inClass : Char → Bool) (text : List Char) : Nat := (text.takeWhile inClass).length

@[simp] theorem startsWith_nil (inClass : Char → Bool) : startsWith inClass [] = false := rfl

@[simp] theorem startsWith_cons (inClass : Char → Bool) (c : Char) (rest : List Char) :
    startsWith inClass (c :: rest) = inClass c := rfl

/-! ### Letter case -/

/-- The text with its ASCII capitals made small. -/
def lowercase (text : String) : String := text.map Char.toLower

/-- Equal but for the case of ASCII letters. -/
def sameLetters (a b : String) : Bool := lowercase a == lowercase b

end CssUrls.Text
