import CssUrls.Lexical.Progress

/-! The tokens of a text, one after another.

A stream stands at a position of its text. `next?` skips the comments there, takes one token
and records the faults of both; after the end of the file there is nothing more. A stream is a
value: keeping it keeps the place. A text has as many tokens as its stream gives out before it
ends, which it does because `left` gets smaller with every token (`left_lt_of_next?`). -/
namespace CssUrls.Lexical

structure TokenStream where
  /-- What is left of the text. -/
  rest : List Char
  /-- How many code points of the text have been taken. -/
  position : Nat
  /-- The faults so far, the latest first. -/
  noted : List Fault
  /-- The end of the file has been given out. -/
  ended : Bool

namespace TokenStream

def ofText (text : List Char) : TokenStream := ⟨text, 0, [], false⟩

/-- The faults so far. -/
def faults (s : TokenStream) : List Fault := s.noted.reverse

/-- The next token, and the stream behind it. -/
def next? (s : TokenStream) : Option (Span × TokenStream) :=
  if s.ended then none
  else
    let comments := readComments s.rest
    let start := s.position + comments.length
    let text := s.rest.drop comments.length
    let token := readToken text
    let stop := start + token.length
    let faults := comments.faults.map (Fault.shift s.position) ++ token.faults.map (Fault.shift start)
    some (⟨token.value, start, stop⟩,
      { rest := text.drop token.length
        position := stop
        noted := faults.reverse ++ s.noted
        ended := token.value == .endOfFile })

/-- Bounds the number of tokens that are still to come. -/
def left (s : TokenStream) : Nat := if s.ended then 0 else s.rest.length + 1

theorem left_lt_of_next? {s s' : TokenStream} {span : Span} (h : s.next? = some (span, s')) :
    s'.left < s.left := by
  unfold next? at h
  split at h
  · contradiction
  · rename_i hs
    simp only [Option.some.injEq, Prod.mk.injEq] at h
    obtain ⟨-, rfl⟩ := h
    simp only [left, hs, if_false, Bool.false_eq_true]
    split
    · omega
    · rename_i hend
      cases htext : s.rest.drop (readComments s.rest).length with
      | nil =>
        rw [htext] at hend
        exact absurd rfl hend
      | cons c rest =>
        have hpos := readToken_length_pos c rest
        have hle : (c :: rest).length ≤ s.rest.length := by
          rw [← htext, List.length_drop]
          omega
        rw [List.length_drop]
        rw [List.length_cons] at *
        omega

/-- The stream behind up to `n` tokens, and how many there were. -/
def skip (s : TokenStream) : Nat → Nat × TokenStream
  | 0 => (0, s)
  | n + 1 =>
    match s.next? with
    | none => (0, s)
    | some (_, s') =>
      let (skipped, last) := s'.skip n
      (skipped + 1, last)

/-- All tokens to come, behind the tokens `done`, which come latest first, and the stream at its
end. -/
def spansOnto (done : List Span) (s : TokenStream) : List Span × TokenStream :=
  match _h : s.next? with
  | none => (done.reverse, s)
  | some (span, s') => spansOnto (span :: done) s'
termination_by s.left
decreasing_by exact left_lt_of_next? _h

/-- All tokens to come, and the stream at its end. -/
def drain (s : TokenStream) : List Span × TokenStream := spansOnto [] s

theorem spansOnto_eq (done : List Span) (s : TokenStream) :
    spansOnto done s = (done.reverse ++ s.drain.1, s.drain.2) := by
  generalize h : s.left = n
  induction n using Nat.strongRecOn generalizing s done with
  | ind n ih =>
    subst h
    unfold drain
    rw [spansOnto, spansOnto]
    split
    · simp
    · rename_i span s' hnext
      have hlt := left_lt_of_next? hnext
      rw [ih _ hlt _ _ rfl, ih _ hlt [span] _ rfl]
      simp

theorem drain_of_next?_eq_none {s : TokenStream} (h : s.next? = none) : s.drain = ([], s) := by
  unfold drain
  rw [spansOnto]
  split
  · rfl
  · simp_all

theorem drain_of_next?_eq_some {s s' : TokenStream} {span : Span} (h : s.next? = some (span, s')) :
    s.drain = (span :: s'.drain.1, s'.drain.2) := by
  unfold drain
  rw [spansOnto]
  split
  · simp_all
  · rename_i h'
    rw [h] at h'
    cases h'
    rw [spansOnto_eq]
    rfl

end TokenStream

/-- The tokens of a text, the end of the file last, and all that is wrong with it. -/
structure Tokens where
  spans : List Span
  faults : List Fault

def tokenize (text : List Char) : Tokens :=
  let (spans, last) := (TokenStream.ofText text).drain
  ⟨spans, last.faults⟩

end CssUrls.Lexical
