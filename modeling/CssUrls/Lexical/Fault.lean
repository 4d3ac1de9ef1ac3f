/-! What can be wrong in a text, and readings that say so.

A `Reading` is what a function found at the front of a text: a value, how many code points
it takes, and its faults, placed relative to where it starts. `andThen` and `behind` move the
faults of a reading along with it, so no reading depends on what stands in front of it. -/
namespace CssUrls.Lexical

/-- The ways in which text fails to be a token or a comment. -/
inductive Flaw
  | unterminatedComment
  | unterminatedString
  | newlineInString
  | unterminatedUrl
  | invalidUrl
  | invalidEscape
  | invalidNumber
  | numberOutOfRange
  deriving DecidableEq

def Flaw.phrase : Flaw → String
  | unterminatedComment => "unterminated comment"
  | unterminatedString => "unterminated string"
  | newlineInString => "newline in string"
  | unterminatedUrl => "unterminated url"
  | invalidUrl => "invalid url"
  | invalidEscape => "invalid escape"
  | invalidNumber => "invalid number"
  | numberOutOfRange => "number out of range"

/-- A flaw and where it is, in code points. -/
structure Fault where
  flaw : Flaw
  position : Nat
  deriving DecidableEq

def Fault.message (f : Fault) : String := f.flaw.phrase ++ " at position " ++ toString f.position

/-- The fault as seen from `n` code points further ahead. -/
def Fault.shift (n : Nat) (f : Fault) : Fault := { f with position := n + f.position }

theorem Fault.shift_shift (m n : Nat) (f : Fault) : (f.shift n).shift m = f.shift (m + n) := by
  rw [shift, shift, shift, Nat.add_assoc]

theorem Fault.map_shift_shift (m n : Nat) (faults : List Fault) :
    (faults.map (Fault.shift n)).map (Fault.shift m) = faults.map (Fault.shift (m + n)) := by
  rw [List.map_map]
  exact List.map_congr_left fun f _ => Fault.shift_shift m n f

theorem Fault.shift_zero (f : Fault) : f.shift 0 = f := by
  rw [shift, Nat.zero_add]

/-- What was found at the front of a text. -/
structure Reading (α : Type) where
  value : α
  length : Nat
  faults : List Fault
  deriving DecidableEq

namespace Reading
variable {α β : Type}

/-- Just a value, of `n` code points. -/
def plain (n : Nat) (value : α) : Reading α := ⟨value, n, []⟩

def map (f : α → β) (r : Reading α) : Reading β := ⟨f r.value, r.length, r.faults⟩

/-- The reading together with the `n` code points in front of it. -/
def behind (n : Nat) (r : Reading α) : Reading α :=
  ⟨r.value, n + r.length, r.faults.map (Fault.shift n)⟩

/-- The reading with a fault before its own. -/
def noting (flaw : Flaw) (position : Nat) (r : Reading α) : Reading α :=
  { r with faults := ⟨flaw, position⟩ :: r.faults }

/-- The reading of what two readings, one after the other, stand for together. -/
def andThen (r : Reading α) (next : Reading β) : Reading β :=
  ⟨next.value, r.length + next.length, r.faults ++ next.faults.map (Fault.shift r.length)⟩

@[simp] theorem andThen_length (r : Reading α) (next : Reading β) :
    (r.andThen next).length = r.length + next.length := rfl

@[simp] theorem behind_length (n : Nat) (r : Reading α) : (r.behind n).length = n + r.length := rfl

@[simp] theorem map_length (f : α → β) (r : Reading α) : (r.map f).length = r.length := rfl

@[simp] theorem plain_length (n : Nat) (value : α) : (plain n value).length = n := rfl

@[simp] theorem behind_zero (r : Reading α) : r.behind 0 = r := by
  have hfaults : r.faults.map (Fault.shift 0) = r.faults := List.map_id'' Fault.shift_zero _
  rw [behind, hfaults, Nat.zero_add]

/-- What takes code points and has no fault of its own adds just these. -/
theorem andThen_plain (r : Reading α) (n : Nat) (value : β) :
    r.andThen (.plain n value) = ⟨value, r.length + n, r.faults⟩ := by
  rw [andThen, plain, List.map_nil, List.append_nil]

theorem behind_behind (m n : Nat) (r : Reading α) : (r.behind n).behind m = r.behind (m + n) := by
  rw [behind, behind, behind, Fault.map_shift_shift, Nat.add_assoc]

end Reading

end CssUrls.Lexical
