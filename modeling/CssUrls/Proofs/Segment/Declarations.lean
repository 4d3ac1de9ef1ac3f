import CssUrls.Segment.Context

/-! What the items in front of a URL say about it.

This is the meaning of a context without a context: which blocks are open, which declaration is being
read (`IsProperty`) and whether a block of `@font-face` is open (`InFontFace`), each read off all the
items so far. For each there is what one more item makes of it. -/
namespace CssUrls
open Text

/-! ### Blocks -/

inductive Bracket
  | paren
  | square
  | curly
  deriving DecidableEq

/-- The block an item opens. A URL opens none, with whatever function it is written. -/
def opens? : Item → Option Bracket
  | .token .openCurly => some .curly
  | .token .openSquare => some .square
  | .token .openParen | .token (.function _) => some .paren
  | _ => none

def closes? : Item → Option Bracket
  | .token .closeCurly => some .curly
  | .token .closeSquare => some .square
  | .token .closeParen => some .paren
  | _ => none

/-- An open block, with the items in front of what opened it. -/
structure OpenBlock where
  bracket : Bracket
  before : List Item

/-- The open blocks behind one more item: it opens one, or closes the innermost if that is of its
kind. -/
def openedBy (before : List Item) (i : Item) (blocks : List OpenBlock) : List OpenBlock :=
  match opens? i with
  | some b => ⟨b, before⟩ :: blocks
  | none =>
    if (closes? i).isSome ∧ closes? i = blocks.head?.map OpenBlock.bracket then blocks.tail else blocks

/-- The open blocks behind items that come latest first. -/
def openBlocksBehind : List Item → List OpenBlock
  | [] => []
  | i :: past => openedBy past.reverse i (openBlocksBehind past)

/-- The open blocks behind items, the innermost first. -/
def openBlocks (before : List Item) : List OpenBlock := openBlocksBehind before.reverse

theorem openBlocks_nil : openBlocks [] = [] := rfl

theorem openBlocks_concat (before : List Item) (i : Item) :
    openBlocks (before ++ [i]) = openedBy before i (openBlocks before) := by
  rw [openBlocks, List.reverse_append, List.reverse_singleton, List.singleton_append, openBlocksBehind,
    List.reverse_reverse]
  rfl

/-- Items that neither open nor close a block leave those that are open. -/
theorem openBlocks_append {more : List Item} (h : ∀ i ∈ more, opens? i = none ∧ closes? i = none)
    (before : List Item) : openBlocks (before ++ more) = openBlocks before := by
  induction more generalizing before with
  | nil => rw [List.append_nil]
  | cons i more ih =>
    obtain ⟨⟨hopens, hcloses⟩, hmore⟩ := List.forall_mem_cons.mp h
    rw [← List.singleton_append, ← List.append_assoc, ih hmore, openBlocks_concat, openedBy, hopens,
      hcloses]
    rfl

/-- The kind of the innermost block. -/
def innermost? (before : List Item) : Option Bracket := (openBlocks before).head?.map OpenBlock.bracket

/-! ### Declarations -/

/-- Declarations stand in curly blocks, and outside of all blocks. -/
def holdsDeclarations : Option Bracket → Bool
  | none | some .curly => true
  | some .paren | some .square => false

def AtDeclarations (before : List Item) : Prop := holdsDeclarations (innermost? before) = true

/-- What ends a declaration in a block of some kind: a curly block that starts or ends, or a
semicolon. -/
def resets (innermost : Option Bracket) : Item → Bool
  | .token .openCurly => true
  | .token .closeCurly => innermost == some .curly
  | .token .semicolon => holdsDeclarations innermost
  | _ => false

def IsReset (before : List Item) (i : Item) : Prop := resets (innermost? before) i = true

/-- No item of `between`, which comes behind `before`, ends a declaration. -/
def NoReset (before between : List Item) : Prop :=
  ∀ front i back, between = front ++ i :: back → ¬ IsReset (before ++ front) i

/-- An identifier behind `front`, where declarations stand, has only white space behind it. -/
def IsCandidate (before front : List Item) (name : String) : Prop :=
  ∃ blanks, before = front ++ .token (.ident name) :: blanks ∧
    (∀ b ∈ blanks, b = .token .whitespace) ∧ AtDeclarations front

/-- An identifier behind `front`, where declarations stand, has only white space between it and a
colon, and no reset behind it. -/
def Declares (before front : List Item) (name : String) : Prop :=
  ∃ blanks between, before = front ++ .token (.ident name) :: (blanks ++ .token .colon :: between) ∧
    (∀ b ∈ blanks, b = .token .whitespace) ∧ AtDeclarations front ∧
    NoReset (front ++ [.token (.ident name)]) (blanks ++ .token .colon :: between)

/-- The property whose value comes behind the items: the first that is declared since the last
reset. -/
def IsProperty (before : List Item) : Option String → Prop
  | some name => ∃ front, Declares before front name ∧
      ∀ other otherName, Declares before other otherName → front.length ≤ other.length
  | none => ∀ front name, ¬ Declares before front name

/-! ### Font faces -/

/-- The last at-keyword is `@font-face`, and there is no reset behind it. -/
def FontFaceAhead (before : List Item) : Prop :=
  ∃ front name between, before = front ++ .token (.atKeyword name) :: between ∧
    sameLetters name "font-face" = true ∧ (∀ other, .token (.atKeyword other) ∉ between) ∧
    NoReset (front ++ [.token (.atKeyword name)]) between

/-- An open curly block is that of `@font-face`. -/
def InFontFace (before : List Item) : Prop :=
  ∃ o ∈ openBlocks before, o.bracket = .curly ∧ FontFaceAhead o.before

/-! ### One more item -/

theorem concat_eq_append_cons_iff {before front between : List Item} {i x : Item} :
    before ++ [i] = front ++ x :: between ↔
      (between = [] ∧ i = x ∧ before = front) ∨
        ∃ rest, between = rest ++ [i] ∧ before = front ++ x :: rest := by
  rcases List.eq_nil_or_concat between with rfl | ⟨rest, j, rfl⟩
  · simp [and_comm]
  · rw [List.concat_eq_append]
    constructor
    · intro h
      rw [← List.cons_append, ← List.append_assoc] at h
      obtain ⟨rfl, hi⟩ := List.append_inj' h rfl
      cases hi
      exact .inr ⟨rest, rfl, rfl⟩
    · intro h
      rcases h with ⟨h, -⟩ | ⟨other, h, rfl⟩
      · exact absurd h (by simp)
      · rw [h, List.append_assoc, List.cons_append]

theorem noReset_concat {before between : List Item} {i : Item} :
    NoReset before (between ++ [i]) ↔ NoReset before between ∧ ¬ IsReset (before ++ between) i := by
  constructor
  · intro h
    refine ⟨fun front j back heq => h front j (back ++ [i]) ?_, h between i [] rfl⟩
    rw [heq, List.append_assoc, List.cons_append]
  · intro h front j back heq
    obtain ⟨hbetween, hi⟩ := h
    rcases concat_eq_append_cons_iff.mp heq with ⟨-, rfl, rfl⟩ | ⟨rest, -, hrest⟩
    · exact hi
    · exact hbetween front j rest hrest

theorem noReset_of_forall {before between : List Item}
    (h : ∀ i ∈ between, ∀ innermost, resets innermost i = false) : NoReset before between := by
  intro front i back heq hreset
  subst heq
  rw [IsReset, h i (by simp)] at hreset
  contradiction

theorem isCandidate_concat {before front : List Item} {i : Item} {name : String} :
    IsCandidate (before ++ [i]) front name ↔
      (i = .token (.ident name) ∧ before = front ∧ AtDeclarations before) ∨
        i = .token .whitespace ∧ IsCandidate before front name := by
  constructor
  · intro h
    obtain ⟨blanks, heq, hblanks, hat⟩ := h
    rcases concat_eq_append_cons_iff.mp heq with ⟨-, rfl, rfl⟩ | ⟨rest, rfl, rfl⟩
    · exact .inl ⟨rfl, rfl, hat⟩
    · refine .inr ⟨hblanks i (by simp), rest, rfl, fun b hb => hblanks b ?_, hat⟩
      exact List.mem_append_left [i] hb
  · intro h
    rcases h with ⟨rfl, rfl, hat⟩ | ⟨rfl, blanks, rfl, hblanks, hat⟩
    · exact ⟨[], rfl, by simp, hat⟩
    · refine ⟨blanks ++ [.token .whitespace], by simp, ?_, hat⟩
      intro b hb
      rcases List.mem_append.mp hb with hb | hb
      · exact hblanks b hb
      · exact List.mem_singleton.mp hb

theorem declares_concat {before front : List Item} {i : Item} {name : String} :
    Declares (before ++ [i]) front name ↔
      (¬ IsReset before i ∧ Declares before front name) ∨
        i = .token .colon ∧ IsCandidate before front name := by
  constructor
  · intro h
    obtain ⟨blanks, between, heq, hblanks, hat, hreset⟩ := h
    rw [← List.cons_append, ← List.append_assoc] at heq
    rcases concat_eq_append_cons_iff.mp heq with ⟨rfl, rfl, rfl⟩ | ⟨rest, rfl, rfl⟩
    · exact .inr ⟨rfl, blanks, rfl, hblanks, hat⟩
    · left
      rw [← List.cons_append, ← List.append_assoc, noReset_concat] at hreset
      refine ⟨?_, blanks, rest, by simp, hblanks, hat, hreset.1⟩
      simpa using hreset.2
  · intro h
    rcases h with ⟨hi, blanks, between, rfl, hblanks, hat, hreset⟩ | ⟨rfl, blanks, rfl, hblanks, hat⟩
    · refine ⟨blanks, between ++ [i], by simp, hblanks, hat, ?_⟩
      rw [← List.cons_append, ← List.append_assoc, noReset_concat]
      exact ⟨hreset, by simpa using hi⟩
    · refine ⟨blanks, [], by simp, hblanks, hat, noReset_of_forall ?_⟩
      intro i hi innermost
      rcases List.mem_append.mp hi with hi | hi
      · rw [hblanks i hi]
        rfl
      · rw [List.mem_singleton.mp hi]
        rfl

theorem fontFaceAhead_concat {before : List Item} {i : Item} :
    FontFaceAhead (before ++ [i]) ↔
      (∃ name, i = .token (.atKeyword name) ∧ sameLetters name "font-face" = true) ∨
        (∀ name, i ≠ .token (.atKeyword name)) ∧ ¬ IsReset before i ∧ FontFaceAhead before := by
  constructor
  · intro h
    obtain ⟨front, name, between, heq, hname, hlast, hreset⟩ := h
    rcases concat_eq_append_cons_iff.mp heq with ⟨-, rfl, -⟩ | ⟨rest, rfl, rfl⟩
    · exact .inl ⟨name, rfl, hname⟩
    · rw [noReset_concat] at hreset
      refine .inr ⟨?_, by simpa using hreset.2, front, name, rest, rfl, hname, ?_, hreset.1⟩
      · intro other heq
        subst heq
        exact hlast other (by simp)
      · exact fun other hmem => hlast other (List.mem_append_left [i] hmem)
  · intro h
    rcases h with ⟨name, rfl, hname⟩ | ⟨hi, hreset, front, name, between, rfl, hname, hlast, hbetween⟩
    · exact ⟨before, name, [], rfl, hname, by simp, noReset_of_forall (by simp)⟩
    · refine ⟨front, name, between ++ [i], by simp, hname, ?_, ?_⟩
      · intro other hmem
        rcases List.mem_append.mp hmem with hmem | hmem
        · exact hlast other hmem
        · exact hi other (List.mem_singleton.mp hmem).symm
      · rw [noReset_concat]
        exact ⟨hbetween, by simpa using hreset⟩

/-! ### The order of declarations -/

/-- What may still be declared comes behind what has been. -/
theorem Declares.length_lt {before front other : List Item} {name otherName : String}
    (h : Declares before front name) (hother : IsCandidate before other otherName) :
    front.length < other.length := by
  obtain ⟨blanks, between, rfl, -⟩ := h
  obtain ⟨rest, heq, hrest, -⟩ := hother
  rw [← List.cons_append, ← List.append_assoc] at heq
  rcases List.append_eq_append_iff.mp heq with ⟨a, rfl, -⟩ | ⟨a, -, ha⟩
  · simp only [List.length_append, List.length_cons]
    omega
  · cases a with
    | nil =>
      obtain ⟨hcolon, -⟩ := List.cons.inj ha
      cases hcolon
    | cons i a =>
      obtain ⟨-, rfl⟩ := List.cons.inj ha
      have hcolon := hrest (.token .colon) (by simp)
      cases hcolon

/-- Only one identifier may still become the property. -/
theorem IsCandidate.unique {before front other : List Item} {name otherName : String}
    (h : IsCandidate before front name) (hother : IsCandidate before other otherName) :
    front = other ∧ name = otherName := by
  obtain ⟨blanks, rfl, hblanks, -⟩ := h
  obtain ⟨rest, heq, hrest, -⟩ := hother
  rcases List.append_eq_append_iff.mp heq with ⟨a, rfl, ha⟩ | ⟨a, rfl, ha⟩
  all_goals
    cases a with
    | nil =>
      obtain ⟨hname, -⟩ := List.cons.inj ha
      cases hname
      simp
    | cons i a =>
      obtain ⟨-, rfl⟩ := List.cons.inj ha
      first
      | exact absurd (hblanks (.token (.ident otherName)) (by simp)) (by simp)
      | exact absurd (hrest (.token (.ident name)) (by simp)) (by simp)

theorem IsCandidate.atDeclarations {before front : List Item} {name : String}
    (h : IsCandidate before front name) : AtDeclarations before := by
  obtain ⟨blanks, rfl, hblanks, hat⟩ := h
  have hblocks : openBlocks (front ++ .token (.ident name) :: blanks) = openBlocks front := by
    refine openBlocks_append ?_ front
    rw [List.forall_mem_cons]
    refine ⟨⟨rfl, rfl⟩, fun b hb => ?_⟩
    rw [hblanks b hb]
    exact ⟨rfl, rfl⟩
  rw [AtDeclarations, innermost?, hblocks]
  exact hat

/-! ### The property -/

theorem isProperty_of_isReset {before : List Item} {i : Item} (h : IsReset before i) :
    IsProperty (before ++ [i]) none := by
  intro front name hdeclares
  rcases declares_concat.mp hdeclares with ⟨hi, -⟩ | ⟨rfl, -⟩
  · exact hi h
  · contradiction

theorem isProperty_concat {before : List Item} {i : Item} {property : Option String}
    (h : IsProperty before property) (hi : ¬ IsReset before i)
    (hcolon : i = .token .colon → property.isSome = true ∨ ∀ front name, ¬ IsCandidate before front name) :
    IsProperty (before ++ [i]) property := by
  cases property with
  | none =>
    intro front name hdeclares
    rcases declares_concat.mp hdeclares with ⟨-, hold⟩ | ⟨rfl, hcandidate⟩
    · exact h front name hold
    · rcases hcolon rfl with hsome | hnone
      · contradiction
      · exact hnone front name hcandidate
  | some name =>
    obtain ⟨front, hfront, hfirst⟩ := h
    refine ⟨front, declares_concat.mpr (.inl ⟨hi, hfront⟩), ?_⟩
    intro other otherName hdeclares
    rcases declares_concat.mp hdeclares with ⟨-, hold⟩ | ⟨-, hcandidate⟩
    · exact hfirst other otherName hold
    · exact Nat.le_of_lt (hfront.length_lt hcandidate)

/-- A colon declares the property, unless there is one. -/
theorem isProperty_colon {before front : List Item} {name : String} (h : IsProperty before none)
    (hcandidate : IsCandidate before front name) :
    IsProperty (before ++ [.token .colon]) (some name) := by
  refine ⟨front, declares_concat.mpr (.inr ⟨rfl, hcandidate⟩), ?_⟩
  intro other otherName hdeclares
  rcases declares_concat.mp hdeclares with ⟨-, hold⟩ | ⟨-, hother⟩
  · exact absurd hold (h other otherName)
  · exact Nat.le_of_eq (congrArg List.length (hcandidate.unique hother).1)

/-- There is one property at most. -/
theorem IsProperty.unique {before : List Item} {property other : Option String}
    (h : IsProperty before property) (hother : IsProperty before other) : property = other := by
  cases property with
  | none =>
    cases other with
    | none => rfl
    | some name =>
      obtain ⟨front, hfront, -⟩ := hother
      exact absurd hfront (h front name)
  | some name =>
    obtain ⟨front, hfront, hfirst⟩ := h
    cases other with
    | none => exact absurd hfront (hother front name)
    | some otherName =>
      obtain ⟨otherFront, hotherFront, hotherFirst⟩ := hother
      have hlength := Nat.le_antisymm (hfirst otherFront otherName hotherFront)
        (hotherFirst front name hfront)
      obtain ⟨blanks, between, heq, -⟩ := hfront
      obtain ⟨otherBlanks, otherBetween, hotherEq, -⟩ := hotherFront
      rw [heq] at hotherEq
      obtain ⟨-, hidents⟩ := List.append_inj hotherEq hlength
      have hident := Item.token.inj (List.cons.inj hidents).1
      exact congrArg some (Token.ident.inj hident)

end CssUrls
