import CssUrls.Css.Name

/-! Strings and URLs as CSS.

A string stands between double quotes. Inside, a double quote and a backslash get a backslash,
control codes a hexadecimal escape, and NUL becomes U+FFFD. The escaping looks at one code point
at a time, so a string may be written in parts. -/
namespace CssUrls.Css
open Text

/-- A code point as it is written in a string. -/
def quotedChar (c : Char) : List Char :=
  if c = '"' ∨ c = '\\' then ['\\', c]
  else if c = '\x00' then [replacement]
  else if isControl c then hexEscape c
  else [c]

/-- Part of a string, without quotes. -/
def writeQuotedPart (text : List Char) : Write Unit := text.forM fun c => writeChars (quotedChar c)

def writeQuoted (text : List Char) : Write Unit := do
  writeChar '"'
  writeQuotedPart text
  writeChar '"'

/-- A URL in quotes, and `url(` and `)` around it. -/
def writeUrl (url : List Char) : Write Unit := do
  writeText "url("
  writeQuoted url
  writeChar ')'

end CssUrls.Css
