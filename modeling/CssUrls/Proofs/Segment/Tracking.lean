import Mathlib.Data.List.Forall2
import CssUrls.Proofs.Segment.Parts
import CssUrls.Proofs.Segment.Declarations

/-! Contexts hold what the items say.

`Tracks` is what a context knows of the items so far; each item keeps it (`Tracks.trackItem`). So the
kind of a URL is that of its property and font face (`kind_eq_classify`). -/
namespace CssUrls
open Text Lexical

def Block.bracket : Block → Bracket
  | .paren => .paren
  | .square => .square
  | .curly _ => .curly

namespace Context

/-- The kind of the innermost block. -/
def innermost? (c : Context) : Option Bracket := c.blocks.head?.map Block.bracket

/-- The block that a bracket opens. -/
def blockOf (c : Context) : Bracket → Block
  | .paren => .paren
  | .square => .square
  | .curly => .curly c.pendingFontFace

variable (c : Context)

theorem atDeclarations_eq : c.atDeclarations = holdsDeclarations c.innermost? := by
  unfold atDeclarations innermost?
  rcases c.blocks with _ | ⟨_ | _ | _, _⟩ <;> rfl

/-! ### What an item does to each part of a context -/

theorem trackItem_blocks (i : Item) : (c.trackItem i).blocks =
    match opens? i with
    | some b => c.blockOf b :: c.blocks
    | none =>
      if (closes? i).isSome ∧ closes? i = c.innermost? then c.blocks.tail else c.blocks := by
  obtain ⟨blocks, property, candidate, pending⟩ := c
  cases i with
  | url u => rfl
  | token t =>
    cases t with
    | closeParen | closeSquare | closeCurly =>
      rcases blocks with _ | ⟨_ | _ | _, _⟩ <;> rfl
    | ident name | semicolon =>
      simp only [trackItem, track]
      split <;> rfl
    | colon =>
      cases property
      all_goals rcases blocks with _ | ⟨_ | _ | _, _⟩ <;> rfl
    | _ => rfl

theorem trackItem_property (i : Item) : (c.trackItem i).property =
    if resets c.innermost? i then none
    else if i = .token .colon ∧ c.atDeclarations = true ∧ c.property = none then c.candidate
    else c.property := by
  obtain ⟨blocks, property, candidate, pending⟩ := c
  cases i with
  | url u => rfl
  | token t =>
    cases t with
    | colon =>
      cases property
      all_goals rcases blocks with _ | ⟨_ | _ | _, _⟩ <;> rfl
    | semicolon | closeCurly | ident _ | closeParen | closeSquare =>
      rcases blocks with _ | ⟨_ | _ | _, _⟩ <;> rfl
    | _ => rfl

theorem trackItem_pendingFontFace (i : Item) : (c.trackItem i).pendingFontFace =
    match i with
    | .token (.atKeyword name) => sameLetters name "font-face"
    | i => !resets c.innermost? i && c.pendingFontFace := by
  obtain ⟨blocks, property, candidate, pending⟩ := c
  cases i with
  | url u => rfl
  | token t =>
    cases t with
    | colon =>
      cases property
      all_goals rcases blocks with _ | ⟨_ | _ | _, _⟩ <;> rfl
    | semicolon | closeCurly | ident _ | closeParen | closeSquare =>
      rcases blocks with _ | ⟨_ | _ | _, _⟩ <;> rfl
    | _ => rfl

theorem trackItem_candidate {i : Item} (h : i ≠ .token .endOfFile) (name : String) :
    (c.trackItem i).candidate = some name ↔
      (i = .token (.ident name) ∧ c.atDeclarations = true) ∨
        i = .token .whitespace ∧ c.candidate = some name := by
  cases i with
  | url u => simp [trackItem, forgetting]
  | token t =>
    cases t with
    | endOfFile => contradiction
    | whitespace => simp [trackItem, track]
    | ident other =>
      by_cases hat : c.atDeclarations = true
      · simp [trackItem, track, hat]
      · simp [trackItem, track, forgetting, hat]
    | _ => simp [trackItem, track, forgetting]

end Context

/-! ### What a context knows -/

/-- A block is of the kind of what opened it, and knows whether that was `@font-face`. -/
structure Block.Is (b : Block) (o : OpenBlock) : Prop where
  bracket : b.bracket = o.bracket
  fontFace : ∀ f, b = .curly f → (f = true ↔ FontFaceAhead o.before)

theorem head?_bracket {bs : List Block} {os : List OpenBlock} (h : List.Forall₂ Block.Is bs os) :
    bs.head?.map Block.bracket = os.head?.map OpenBlock.bracket := by
  cases h with
  | nil => rfl
  | cons hblock _ => exact congrArg some hblock.bracket

theorem tail_is {bs : List Block} {os : List OpenBlock} (h : List.Forall₂ Block.Is bs os) :
    List.Forall₂ Block.Is bs.tail os.tail := by
  cases h with
  | nil => exact .nil
  | cons _ htail => exact htail

theorem contains_curly_iff {bs : List Block} {os : List OpenBlock}
    (h : List.Forall₂ Block.Is bs os) :
    bs.contains (.curly true) = true ↔ ∃ o ∈ os, o.bracket = .curly ∧ FontFaceAhead o.before := by
  induction h with
  | nil => simp
  | @cons b o bs os hblock _ ih =>
    rw [List.contains_cons, Bool.or_eq_true, ih, List.exists_mem_cons_iff, beq_iff_eq]
    refine or_congr_left ?_
    constructor
    · intro heq
      subst heq
      exact ⟨hblock.bracket.symm, (hblock.fontFace true rfl).mp rfl⟩
    · intro h
      obtain ⟨hbracket, hahead⟩ := h
      rw [← hblock.bracket] at hbracket
      cases b with
      | curly f => rw [(hblock.fontFace f rfl).mpr hahead]
      | paren | square => cases hbracket

/-- A context knows of the items what they say. -/
structure Tracks (c : Context) (before : List Item) : Prop where
  blocks : List.Forall₂ Block.Is c.blocks (openBlocks before)
  property : IsProperty before c.property
  candidate : ∀ name, c.candidate = some name ↔ ∃ front, IsCandidate before front name
  pendingFontFace : c.pendingFontFace = true ↔ FontFaceAhead before

namespace Tracks
variable {c : Context} {before : List Item}

theorem initial : Tracks .initial [] := by
  constructor
  case blocks =>
    rw [openBlocks_nil]
    exact .nil
  case property =>
    intro front name h
    obtain ⟨blanks, between, h, -⟩ := h
    simp at h
  case candidate =>
    intro name
    constructor
    · intro h
      cases h
    · intro h
      obtain ⟨front, blanks, h, -⟩ := h
      simp at h
  case pendingFontFace =>
    constructor
    · intro h
      cases h
    · intro h
      obtain ⟨front, name, between, h, -⟩ := h
      simp at h

theorem innermost?_eq (h : Tracks c before) : c.innermost? = innermost? before :=
  head?_bracket h.blocks

theorem atDeclarations_iff (h : Tracks c before) : c.atDeclarations = true ↔ AtDeclarations before := by
  rw [c.atDeclarations_eq, h.innermost?_eq, AtDeclarations]

theorem resets_iff (h : Tracks c before) (i : Item) :
    resets c.innermost? i = true ↔ IsReset before i := by
  rw [h.innermost?_eq, IsReset]

theorem blockOf_is (h : Tracks c before) (b : Bracket) : (c.blockOf b).Is ⟨b, before⟩ := by
  constructor
  case bracket => cases b <;> rfl
  case fontFace =>
    intro f hf
    cases b with
    | curly =>
      cases hf
      exact h.pendingFontFace
    | paren | square => cases hf

/-! ### One more item -/

theorem blocks_trackItem (h : Tracks c before) (i : Item) :
    List.Forall₂ Block.Is (c.trackItem i).blocks (openBlocks (before ++ [i])) := by
  rw [c.trackItem_blocks, h.innermost?_eq, openBlocks_concat, openedBy]
  cases opens? i with
  | some b => exact .cons (h.blockOf_is b) h.blocks
  | none =>
    unfold CssUrls.innermost?
    simp only
    split
    · exact tail_is h.blocks
    · exact h.blocks

theorem property_trackItem (h : Tracks c before) (i : Item) :
    IsProperty (before ++ [i]) (c.trackItem i).property := by
  rw [c.trackItem_property]
  by_cases hreset : resets c.innermost? i = true
  · rw [if_pos hreset]
    exact isProperty_of_isReset ((h.resets_iff i).mp hreset)
  · rw [if_neg hreset]
    rw [h.resets_iff] at hreset
    split_ifs with hcolon
    · obtain ⟨rfl, -, hproperty⟩ := hcolon
      have hnone := h.property
      rw [hproperty] at hnone
      cases hcandidate : c.candidate with
      | some name =>
        obtain ⟨front, hfront⟩ := (h.candidate name).mp hcandidate
        exact isProperty_colon hnone hfront
      | none =>
        refine isProperty_concat hnone hreset fun _ => .inr fun front name hfront => ?_
        have hsome := (h.candidate name).mpr ⟨front, hfront⟩
        rw [hcandidate] at hsome
        contradiction
    · refine isProperty_concat h.property hreset fun hi => ?_
      cases hproperty : c.property with
      | some name => exact .inl rfl
      | none =>
        -- Where a colon declares nothing there is no candidate either.
        refine .inr fun front name hfront => hcolon ⟨hi, ?_, hproperty⟩
        exact h.atDeclarations_iff.mpr hfront.atDeclarations

theorem candidate_trackItem (h : Tracks c before) {i : Item} (hi : i ≠ .token .endOfFile)
    (name : String) :
    (c.trackItem i).candidate = some name ↔ ∃ front, IsCandidate (before ++ [i]) front name := by
  rw [c.trackItem_candidate hi, h.atDeclarations_iff, h.candidate name]
  simp only [isCandidate_concat, exists_or, exists_and_left, exists_eq_left']

theorem pendingFontFace_trackItem (h : Tracks c before) (i : Item) :
    (c.trackItem i).pendingFontFace = true ↔ FontFaceAhead (before ++ [i]) := by
  rw [c.trackItem_pendingFontFace, fontFaceAhead_concat, ← h.resets_iff, ← h.pendingFontFace]
  split
  · simp
  · rename_i hother
    have hname : ∀ name, i ≠ .token (.atKeyword name) := fun name heq => hother name heq
    simp [hname]

/-- **A context keeps up with the items.** -/
theorem trackItem (h : Tracks c before) {i : Item} (hi : i ≠ .token .endOfFile) :
    Tracks (c.trackItem i) (before ++ [i]) where
  blocks := h.blocks_trackItem i
  property := h.property_trackItem i
  candidate := h.candidate_trackItem hi
  pendingFontFace := h.pendingFontFace_trackItem i

/-- The context behind items knows them all. -/
theorem foldl (h : Tracks c before) {is : List Item} (his : .token .endOfFile ∉ is) :
    Tracks (is.foldl Context.trackItem c) (before ++ is) := by
  induction is generalizing c before with
  | nil =>
    rw [List.append_nil]
    exact h
  | cons i is ih =>
    obtain ⟨hi, his⟩ := List.ne_and_not_mem_of_not_mem_cons his
    have hstep := ih (h.trackItem (Ne.symm hi)) his
    rw [List.append_assoc] at hstep
    exact hstep

theorem inFontFace_iff (h : Tracks c before) : c.inFontFace = true ↔ InFontFace before :=
  contains_curly_iff h.blocks

end Tracks

/-! ### The kind of a URL -/

/-- **The kind of a URL follows from the items in front of it**: from the property they declare, and
from whether they are in `@font-face`. Its segment has the range it is written in. -/
theorem kind_eq_classify (classifier : Classifier) (text : List Point) {before after : List Item}
    {u : Construct}
    (h : items (tokenize (text.map Point.char)).spans = before ++ .url u :: after) :
    ∃ property inFontFace first last,
      IsProperty before property ∧ (inFontFace = true ↔ InFontFace before) ∧
      segmentTokens classifier text (tokenize (text.map Point.char)).spans =
        .ok (first ++ ⟨classifier.classify property inFontFace, u.url,
          byteLength (sourceOf (text.take u.start)),
          byteLength (sourceOf (text.take u.stop))⟩ :: last) := by
  obtain ⟨parts, hparts⟩ := exists_parts_of_text classifier text
  have hc := Tracks.initial.foldl (endOfFile_not_mem_of_tokenize h)
  rw [List.nil_append] at hc
  rw [tokenize_spans] at h
  obtain ⟨front, written, back, rfl, hstart, hstop⟩ := hparts.exists_url h
  have htext : text = pointsOf front ++ written ++ pointsOf back := by
    rw [← hparts.pointsOf_eq, pointsOf_append, pointsOf_cons, Part.text, List.append_assoc]
  have htakeStart : text.take u.start = pointsOf front := by
    rw [htext, List.append_assoc, hstart, Nat.zero_add, List.take_left]
  have htakeStop : text.take u.stop = pointsOf front ++ written := by
    rw [htext, hstop, hstart, Nat.zero_add, ← List.length_append, List.take_left]
  obtain ⟨first, last, hsegments⟩ := segmentsOf_url
    ((before.foldl Context.trackItem .initial).kindHere classifier) u.url written back 0 [] front
  refine ⟨_, _, first, last, hc.property, hc.inFontFace_iff, ?_⟩
  rw [hparts.segmentTokens_eq, hsegments, htakeStart, htakeStop]
  simp only [Nat.zero_add, List.nil_append]
  rfl

/-- A URL in a block of `@font-face`. -/
theorem kind_eq_classify_fontFace :
    let text := points "@font-face\x7bsrc:url(a)\x7d".toList
    let before : List Item :=
      [.token (.atKeyword "font-face"), .token .openCurly, .token (.ident "src"), .token .colon]
    items (tokenize (text.map Point.char)).spans =
        before ++ .url ⟨"a", 15, 21⟩ :: [.token .closeCurly, .token .endOfFile] ∧
      ∃ property inFontFace first last,
        IsProperty before property ∧ (inFontFace = true ↔ InFontFace before) ∧
        segmentTokens .empty text (tokenize (text.map Point.char)).spans =
          .ok (first ++ ⟨Classifier.empty.classify property inFontFace, "a", 15, 21⟩ :: last) := by
  intro text before
  have hitems : items (tokenize (text.map Point.char)).spans =
      before ++ .url ⟨"a", 15, 21⟩ :: [.token .closeCurly, .token .endOfFile] := by
    simp only [text, before]
    decide +kernel
  have hstart : byteLength (sourceOf (text.take 15)) = 15 := by
    simp only [text]
    decide +kernel
  have hstop : byteLength (sourceOf (text.take 21)) = 21 := by
    simp only [text]
    decide +kernel
  have hkind := kind_eq_classify .empty text hitems
  rw [hstart, hstop] at hkind
  exact ⟨hitems, hkind⟩

end CssUrls
