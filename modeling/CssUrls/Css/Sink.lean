import CssUrls.Text.Normal

/-! Destinations for text, and writing to them.

A sink takes code points one by one. It may have a limit in bytes; a code point that does not
fit is refused and leaves the sink as it was, so a smaller one may still fit later. Writing
stops at the first refusal. -/
namespace CssUrls.Css

structure Sink where
  /-- How many bytes there is room for, if that is limited. -/
  limit : Option Nat
  /-- How many bytes have been taken. -/
  size : Nat
  text : String

/-- A sink that holds nothing yet. -/
def Sink.empty (limit : Option Nat) : Sink := ⟨limit, 0, ""⟩

/-- The sink has room for a code point. -/
def Sink.fits (s : Sink) (c : Char) : Bool := s.limit.all (s.size + c.utf8Size ≤ ·)

def Sink.push (s : Sink) (c : Char) : Sink :=
  { s with size := s.size + c.utf8Size, text := s.text.push c }

/-- The sink had no room. -/
inductive Full
  | full
  deriving DecidableEq

/-- Something to write: what becomes of a sink, and whether it took everything. -/
abbrev Write := ExceptT Full (StateM Sink)

def writeChar (c : Char) : Write Unit := do
  if (← get).fits c then modify (·.push c) else throw .full

def writeChars (text : List Char) : Write Unit := text.forM writeChar

def writeText (text : String) : Write Unit := writeChars text.toList

/-- What becomes of a sink that something is written to, and whether it took everything. -/
def Write.onto (w : Write Unit) (s : Sink) : Bool × Sink :=
  match w.run.run s with
  | (.ok _, s') => (true, s')
  | (.error _, s') => (false, s')

/-- All that is written. -/
def Write.text (w : Write Unit) : String := (w.onto (.empty none)).2.text

end CssUrls.Css
