import CssUrls.Css.Sink
import CssUrls.Text.Class

/-! Names and identifiers as CSS.

What may stand in a name is written as it is. Other printable ASCII gets a backslash, control
codes a hexadecimal escape, and NUL cannot be written at all. An identifier needs an escape
more where a name of its spelling would not be one: for a digit it starts with, also after a
hyphen, and for a hyphen alone. -/
namespace CssUrls.Css
open Text

/-- The lower-case hexadecimal digits of a number. -/
def hexDigits (n : Nat) : List Char := Nat.toDigits 16 n

/-- A code point as its number. The space ends the number. -/
def hexEscape (c : Char) : List Char := '\\' :: hexDigits c.toNat ++ [' ']

/-- A code point as it is written in a name. -/
def nameChar (c : Char) : List Char :=
  if isNamePart c then [c]
  else if c = '\x00' then [replacement]
  else if isControl c then hexEscape c
  else ['\\', c]

def writeName (name : List Char) : Write Unit := name.forM fun c => writeChars (nameChar c)

/-- A name that goes on from a place where a digit needs an escape. -/
def writeUndigited : List Char → Write Unit
  | [] => pure ()
  | c :: rest => do
    if c.isDigit then
      writeChars (hexEscape c)
      writeName rest
    else writeName (c :: rest)

def writeIdentifier : List Char → Write Unit
  | [] => pure ()
  | ['-'] => writeChars ['\\', '-']
  | '-' :: '-' :: rest => do
    writeChars ['-', '-']
    writeName rest
  | '-' :: rest => do
    writeChar '-'
    writeUndigited rest
  | name => writeUndigited name

end CssUrls.Css
