import CssUrls.Proofs.Css.NameReread

/-! Escapes by number.

Behind a backslash and a hexadecimal digit stands a number, which takes all digits up to the sixth and one white space
(`TakesNumber`), whatever stands behind that. Six digits fit into 32 bits, but not every number of six digits is that
of a code point. Main statement: `escapePiece_number`. -/
namespace CssUrls.Css
open Text Lexical

/-! ### What an escape takes -/

/-- The number of a code point other than NUL. -/
def NamesPoint (n : Nat) : Prop := n ≠ 0 ∧ (n < 0xd800 ∨ 0xdfff < n ∧ n ≤ 0x10ffff)

/-- An escape by number, read from the text behind its backslash. It takes `digits` and `blank`, and leaves `rest`;
the value that has been reached at each of the digits fits into 32 bits. -/
structure TakesNumber (text digits blank rest : List Char) (p : Piece (Option Char)) : Prop where
  text_eq : text = digits ++ (blank ++ rest)
  hex : ∀ d ∈ digits, isHexDigit d = true
  atMostSix : digits.length ≤ 6
  longest : digits.length < 6 → startsWith isHexDigit (blank ++ rest) = false
  swallows : Swallows blank rest
  more_eq : p.more = digits.length + blank.length
  fits : ∀ front, front <+: digits → hexValue front < UInt32.size
  named : NamesPoint (hexValue digits) → ∃ c, p.value = some c ∧ c.toNat = hexValue digits
  unnamed : ¬NamesPoint (hexValue digits) → p.value = some replacement

/-! ### Values -/

theorem hexDigit_lt (c : Char) : (hexDigit? c).getD 0 < 16 := by
  have hrange {first last : Char} (h : (first ≤ c && c ≤ last) = true) : c.toNat ≤ last.toNat := by
    rw [Bool.and_eq_true, decide_eq_true_eq, decide_eq_true_eq] at h
    exact h.2
  unfold hexDigit?
  split
  · rename_i h
    have hle : c.toNat ≤ '9'.toNat := (isDigit_iff.mp h).2
    exact Nat.lt_of_le_of_lt (Nat.sub_le_sub_right hle _) (by decide)
  · split
    · rename_i h
      have hle : c.toNat ≤ 'f'.toNat := hrange h
      exact Nat.lt_of_le_of_lt (Nat.add_le_add_right (Nat.sub_le_sub_right hle _) _) (by decide)
    · split
      · rename_i h
        have hle : c.toNat ≤ 'F'.toNat := hrange h
        exact Nat.lt_of_le_of_lt (Nat.add_le_add_right (Nat.sub_le_sub_right hle _) _) (by decide)
      · decide

theorem foldl_hexDigit_lt (digits : List Char) (n : Nat) :
    digits.foldl (fun n c => n * 16 + (hexDigit? c).getD 0) n < (n + 1) * Nat.pow 16 digits.length := by
  induction digits generalizing n with
  | nil => simp
  | cons c digits ih =>
    have hdigit := hexDigit_lt c
    calc (c :: digits).foldl (fun n c => n * 16 + (hexDigit? c).getD 0) n
        < (n * 16 + (hexDigit? c).getD 0 + 1) * Nat.pow 16 digits.length := ih _
      _ ≤ (n + 1) * 16 * Nat.pow 16 digits.length := Nat.mul_le_mul_right _ (by omega)
      _ = (n + 1) * (Nat.pow 16 digits.length * 16) := by rw [Nat.mul_assoc, Nat.mul_comm 16]

theorem hexValue_lt {digits : List Char} (h : digits.length ≤ 6) : hexValue digits < Nat.pow 16 6 := by
  have hlt := foldl_hexDigit_lt digits 0
  have hle : Nat.pow 16 digits.length ≤ Nat.pow 16 6 := Nat.pow_le_pow_right (by decide) h
  rw [hexValue]
  omega

theorem scalar_of_namesPoint {n : Nat} (h : NamesPoint n) : (scalar n).toNat = n := by
  have hvalid : n.isValidChar := by
    obtain ⟨-, hsmall | ⟨habove, hle⟩⟩ := h
    · exact .inl hsmall
    · exact .inr ⟨habove, Nat.lt_succ_of_le hle⟩
  rw [scalar, if_pos ⟨h.1, hvalid⟩, Char.ofNat, dif_pos hvalid]
  rfl

theorem scalar_of_not_namesPoint {n : Nat} (h : ¬NamesPoint n) : scalar n = replacement := by
  refine if_neg fun hvalid => h ⟨hvalid.1, ?_⟩
  obtain hsmall | ⟨habove, hlt⟩ := hvalid.2
  · exact .inl hsmall
  · exact .inr ⟨habove, Nat.le_of_lt_succ hlt⟩

/-! ### Escapes -/

theorem takesNumber_escapePiece {text : List Char} (h : startsWith isHexDigit text = true) :
    ∃ digits blank rest, TakesNumber text digits blank rest (escapePiece text) := by
  cases text with
  | nil => contradiction
  | cons c tail =>
    obtain ⟨digits, blank, rest, htext, hpiece, hdigits, -, hle, hend, hswallows⟩ := exists_digits h tail
    rw [hpiece]
    exact ⟨digits, blank, rest,
      { text_eq := htext
        hex := hdigits
        atMostSix := hle
        longest := hend
        swallows := hswallows
        more_eq := rfl
        -- A front of the digits is no longer than these are, and six digits are far from 32 bits.
        fits := fun front hfront => Nat.lt_trans (hexValue_lt (Nat.le_trans hfront.length_le hle)) (by decide)
        named := fun hpoint => ⟨_, rfl, scalar_of_namesPoint hpoint⟩
        unnamed := fun hpoint => congrArg some (scalar_of_not_namesPoint hpoint) }⟩

/-- **An escape by number is read exactly**: it takes its digits and one white space, and stands for the code point
with that number, or for U+FFFD if there is none or it is NUL. So what is written for a control code other than NUL
stands for that, and what follows is left. -/
theorem escapePiece_number :
    (∀ text, startsWith isHexDigit text = true →
      ∃ digits blank rest, TakesNumber text digits blank rest (escapePiece text)) ∧
    ∀ c rest, isControl c = true → ∃ more, hexEscape c = '\\' :: more ∧
      (escapePiece (more ++ rest)).value = some c ∧
      (more ++ rest).drop (escapePiece (more ++ rest)).more = rest := by
  refine ⟨fun text => takesNumber_escapePiece, fun c rest hcontrol => ?_⟩
  rw [isControl_iff] at hcontrol
  have hpiece := (escapeOf_hexDigits (c := c) (by omega) (by omega)).piece_eq rest
  refine ⟨hexDigits c.toNat ++ [' '], rfl, ?_, ?_⟩
  · rw [hpiece]
  · rw [hpiece, List.drop_left]

/-- A seventh digit is left, and so is a digit behind the last of the control codes. -/
theorem escapePiece_number_sixDigits :
    startsWith isHexDigit "0026122 \n".toList = true ∧
      (∃ digits blank rest, TakesNumber "0026122 \n".toList digits blank rest (escapePiece "0026122 \n".toList)) ∧
      isControl '\x7f' = true ∧
      ∃ more, hexEscape '\x7f' = '\\' :: more ∧ (escapePiece (more ++ "1".toList)).value = some '\x7f' ∧
        (more ++ "1".toList).drop (escapePiece (more ++ "1".toList)).more = "1".toList := by
  have hdigit : startsWith isHexDigit "0026122 \n".toList = true := by decide +kernel
  have hcontrol : isControl '\x7f' = true := by decide
  exact ⟨hdigit, escapePiece_number.1 _ hdigit, hcontrol, escapePiece_number.2 _ _ hcontrol⟩

/-- NUL is a control code as well, but no escape stands for it. -/
theorem escapePiece_number_nul :
    ¬∀ (c : Char) (rest : List Char), c.toNat ≤ 0x1f ∨ c.toNat = 0x7f →
      ∃ more, hexEscape c = '\\' :: more ∧ (escapePiece (more ++ rest)).value = some c ∧
        (more ++ rest).drop (escapePiece (more ++ rest)).more = rest := by
  intro h
  obtain ⟨more, hwritten, hvalue, -⟩ := h '\x00' ['x'] (.inl (by decide))
  have hmore : ['0', ' '] = more := (List.cons.inj hwritten).2
  rw [← hmore] at hvalue
  exact absurd hvalue (by decide)

end CssUrls.Css
