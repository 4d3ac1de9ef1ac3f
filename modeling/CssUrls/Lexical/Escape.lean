import CssUrls.Text.Piece
import CssUrls.Text.Class
import CssUrls.Lexical.Fault

/-! Escapes.

A backslash makes the code point after it stand for itself, whatever it is. Before a
hexadecimal digit it starts a number of up to six digits, which names a code point and
swallows one white space behind it. Only a newline cannot be escaped so.

In a run of code points a piece without a value is a backslash at the very end of the text,
where there is nothing to escape. -/
namespace CssUrls.Lexical
open Text

/-- The code point with a number, if there is one and it is not NUL. -/
def scalar (n : Nat) : Char := if n ≠ 0 ∧ n.isValidChar then Char.ofNat n else replacement

def hexValue (digits : List Char) : Nat :=
  digits.foldl (fun n c => n * 16 + (hexDigit? c).getD 0) 0

/-- How much white space a hexadecimal escape swallows: one, with `\r\n` counted as one. -/
def swallowed : List Char → Nat
  | '\r' :: '\n' :: _ => 2
  | c :: _ => if isWhitespace c then 1 else 0
  | [] => 0

/-- A backslash and what it escapes in the text after it. -/
def escapePiece (text : List Char) : Piece (Option Char) :=
  match text with
  | [] => ⟨none, 0⟩
  | c :: _ =>
    let digits := (text.take 6).takeWhile isHexDigit
    if digits.isEmpty then ⟨some c, 1⟩
    else ⟨some (scalar (hexValue digits)), digits.length + swallowed (text.drop digits.length)⟩

/-- The text starts with a backslash that escapes something. -/
def startsEscape : List Char → Bool
  | '\\' :: rest => !startsWith isNewline rest
  | _ => false

/-! ### Runs of code points -/

/-- The text that pieces spell; a backslash with nothing to escape stands for U+FFFD. -/
def spelled (ps : List (Piece (Option Char))) : String :=
  String.ofList (ps.map fun p => p.value.getD replacement)

/-- What the front of a text spells, each backslash with nothing to escape being a fault. -/
def readRun (next : Char → List Char → Option (Piece (Option Char))) (text : List Char) :
    Reading String :=
  let ps := pieces next text
  ⟨spelled ps, covered ps, (startsWhere Option.isNone 0 ps).map fun n => ⟨.invalidEscape, n⟩⟩

end CssUrls.Lexical
