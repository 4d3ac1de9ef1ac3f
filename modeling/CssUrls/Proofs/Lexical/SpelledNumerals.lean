import CssUrls.Proofs.Lexical.Numerals

/-! Numerals that may be written.

A numeral may be written as a sign, digits, a fraction and an exponent, of which any may be missing
(`SpellsNumeral`). What is read at the front of a text is longer than any other numeral there
(`SpellsNumeral.covers`): where less is written of a part, that part goes on in the text or nothing is behind it.
So a numeral is read from its own text, and nothing that starts a number is refused (`readNumeric_eq`). -/
namespace CssUrls.Lexical
open Text

/-! ### Numerals that may be written -/

/-- An exponent, with a small or a capital letter. -/
inductive SpellsExponent : Option (Option Sign × List Char) → List Char → Prop
  | absent : SpellsExponent none []
  | present {letter : Char} (sign : Option Sign) {digits : List Char} (hletter : letter = 'e' ∨ letter = 'E')
    (hdigits : IsDigits digits) : SpellsExponent (some (sign, digits)) (letter :: (signText sign ++ digits))

/-- A numeral: `[+-]? [0-9]* ([.] [0-9]+)? ([eE] [+-]? [0-9]+)?`. -/
inductive SpellsNumeral : Numeral → List Char → Prop
  | mk (sign : Option Sign) {whole : List Char} {fraction : Option (List Char)}
    {exponent : Option (Option Sign × List Char)} {written : List Char} (hwhole : ∀ c ∈ whole, c.isDigit = true)
    (hfraction : ∀ digits ∈ fraction, IsDigits digits) (hexponent : SpellsExponent exponent written) :
    SpellsNumeral ⟨sign, whole, fraction, exponent⟩ (signText sign ++ (whole ++ (fractionText fraction ++ written)))

variable {rest written p q : List Char} {n m : Numeral} {fraction : Option (List Char)}
  {exponent : Option (Option Sign × List Char)} {e : Option Sign × List Char}

theorem SpellsExponent.length_eq (h : SpellsExponent exponent written) : written.length = exponentLength exponent := by
  cases h with
  | absent => rfl
  | present sign =>
    rw [exponentLength, List.length_cons, List.length_append, signText_length]
    omega

theorem SpellsExponent.text (h : SpellsExponent exponent written) : SpellsExponent exponent (exponentText exponent) := by
  cases h with
  | absent => exact .absent
  | present sign hletter hdigits => exact .present sign (.inl rfl) hdigits

theorem SpellsNumeral.length_eq (h : SpellsNumeral n p) : p.length = n.length := by
  cases h with
  | mk sign hwhole hfraction hexponent =>
    simp only [Numeral.length, List.length_append, signText_length, fractionText_length, hexponent.length_eq,
      Nat.add_assoc]

/-- A numeral may be written with a small letter. -/
theorem SpellsNumeral.text (h : SpellsNumeral n p) : SpellsNumeral n n.text := by
  cases h with
  | mk sign hwhole hfraction hexponent => exact .mk sign hwhole hfraction hexponent.text

/-! ### What is read is a numeral -/

theorem isDigits_takeWhile {text : List Char} (h : startsDigit text = true) :
    IsDigits (text.takeWhile Char.isDigit) where
  ne_nil := by
    cases text with
    | nil => contradiction
    | cons c rest =>
      have hdigit : c.isDigit = true := h
      rw [List.takeWhile_cons_of_pos hdigit]
      exact List.cons_ne_nil _ _
  isDigit _ hc := List.all_eq_true.mp List.all_takeWhile _ hc

theorem signText_readSign (text : List Char) : signText (readSign text).1 ++ (readSign text).2 = text := by
  unfold readSign
  split <;> rfl

theorem fractionText_readFraction (text : List Char) :
    fractionText (readFraction text) ++ text.drop (fractionLength (readFraction text)) = text ∧
      ∀ digits ∈ readFraction text, IsDigits digits := by
  unfold readFraction
  split
  · rename_i rest
    split
    · rename_i hdigit
      refine ⟨?_, ?_⟩
      · rw [fractionText, fractionLength, Nat.add_comm, List.drop_succ_cons, List.cons_append,
          List.prefix_iff_eq_append.mp (List.takeWhile_prefix _)]
      · rintro _ ⟨⟩
        exact isDigits_takeWhile hdigit
    · exact ⟨rfl, fun _ h => absurd h (Option.not_mem_none _)⟩
  · exact ⟨rfl, fun _ h => absurd h (Option.not_mem_none _)⟩

theorem exists_spellsExponent (text : List Char) :
    ∃ written rest, written ++ rest = text ∧ SpellsExponent (readExponent text) written := by
  cases text with
  | nil => exact ⟨[], [], rfl, .absent⟩
  | cons letter rest =>
    rw [readExponent_cons]
    split
    · rename_i h
      rw [Bool.and_eq_true, Bool.or_eq_true, beq_iff_eq, beq_iff_eq] at h
      refine ⟨_, (readSign rest).2.drop ((readSign rest).2.takeWhile Char.isDigit).length, ?_,
        .present (readSign rest).1 h.1 (isDigits_takeWhile h.2)⟩
      rw [List.cons_append, List.append_assoc, List.prefix_iff_eq_append.mp (List.takeWhile_prefix _),
        signText_readSign]
    · exact ⟨[], letter :: rest, rfl, .absent⟩

/-- **What is read at the front of a text is a numeral** that is written there. -/
theorem exists_spellsNumeral (text : List Char) : ∃ p, p <+: text ∧ SpellsNumeral (readNumeral text) p := by
  simp only [readNumeral]
  have hsign := signText_readSign text
  generalize readSign text = parts at *
  obtain ⟨sign, unsigned⟩ := parts
  have hwhole := List.prefix_iff_eq_append.mp (List.takeWhile_prefix Char.isDigit (l := unsigned))
  have hdigits : ∀ c ∈ unsigned.takeWhile Char.isDigit, c.isDigit = true :=
    List.all_eq_true.mp List.all_takeWhile
  simp only at *
  generalize unsigned.takeWhile Char.isDigit = whole at *
  generalize unsigned.drop whole.length = afterWhole at *
  obtain ⟨hafterWhole, hfraction⟩ := fractionText_readFraction afterWhole
  generalize readFraction afterWhole = fraction at *
  obtain ⟨written, rest, hexponent, hspells⟩ := exists_spellsExponent (afterWhole.drop (fractionLength fraction))
  refine ⟨_, ⟨rest, ?_⟩, .mk sign hdigits hfraction hspells⟩
  simp only [List.append_assoc]
  rw [hexponent, hafterWhole, hwhole, hsign]

example : readNumeral "+.5e+".toList = ⟨some .plus, [], some ['5'], none⟩ := by decide

/-! ### What is read is the longest -/

/-- What is read is no shorter than what is written, and the same if it is no longer. -/
structure Covers {α : Type} (length : α → Nat) (read written : α) : Prop where
  le : length written ≤ length read
  eq : length read ≤ length written → read = written

theorem eq_none_of_fractionLength (h : fractionLength fraction ≤ 0) : fraction = none := by
  cases fraction with
  | none => rfl
  | some digits =>
    rw [fractionLength] at h
    omega

theorem eq_none_of_exponentLength (h : exponentLength exponent ≤ 0) : exponent = none := by
  cases exponent with
  | none => rfl
  | some e =>
    rw [exponentLength] at h
    omega

/-- Digits that are all of those at the front of a text. -/
theorem takeWhile_isDigit_of_le {digits : List Char} (h : ∀ c ∈ digits, c.isDigit = true)
    (hlength : ((digits ++ rest).takeWhile Char.isDigit).length ≤ digits.length) :
    (digits ++ rest).takeWhile Char.isDigit = digits := by
  rw [List.takeWhile_append_of_pos h] at hlength ⊢
  rw [List.length_append] at hlength
  rw [List.eq_nil_of_length_eq_zero (Nat.le_zero.mp (Nat.le_of_add_le_add_left hlength)), List.append_nil]

theorem le_takeWhile_isDigit {digits : List Char} (h : ∀ c ∈ digits, c.isDigit = true) (rest : List Char) :
    digits.length ≤ ((digits ++ rest).takeWhile Char.isDigit).length := by
  rw [List.takeWhile_append_of_pos h, List.length_append]
  exact Nat.le_add_right ..

theorem SpellsExponent.covers (h : SpellsExponent exponent written) (rest : List Char) :
    Covers exponentLength (readExponent (written ++ rest)) exponent := by
  cases h with
  | absent => exact ⟨Nat.zero_le _, eq_none_of_exponentLength⟩
  | @present letter sign digits hletter hdigits =>
    have hread : readExponent (letter :: (signText sign ++ digits) ++ rest) =
        some (sign, (digits ++ rest).takeWhile Char.isDigit) := by
      rw [List.cons_append, List.append_assoc, readExponent_cons,
        readSign_signText _ (hdigits.startsDigit_append rest), hdigits.startsDigit_append, if_pos]
      rcases hletter with rfl | rfl <;> rfl
    have hle := le_takeWhile_isDigit hdigits.isDigit rest
    rw [hread]
    constructor
    · simp only [exponentLength]
      omega
    · intro hlength
      simp only [exponentLength] at hlength
      rw [takeWhile_isDigit_of_le hdigits.isDigit (by omega)]

/-- An exponent does not start with a digit. -/
theorem SpellsExponent.startsDigits_append (h : SpellsExponent (some e) written) (rest : List Char) :
    startsDigits (written ++ rest) = false := by
  cases h with
  | present sign hletter hdigits => rcases hletter with rfl | rfl <;> rfl

/-- The fraction and the exponent at the front of a text. -/
def readTail (text : List Char) : Option (List Char) × Option (Option Sign × List Char) :=
  (readFraction text, readExponent (text.drop (fractionLength (readFraction text))))

def tailLength (tail : Option (List Char) × Option (Option Sign × List Char)) : Nat :=
  fractionLength tail.1 + exponentLength tail.2

/-- Nothing is covered by anything. -/
theorem covers_none (tail : Option (List Char) × Option (Option Sign × List Char)) :
    Covers tailLength tail (none, none) := by
  refine ⟨Nat.zero_le _, fun hlength => ?_⟩
  have hzero : fractionLength tail.1 + exponentLength tail.2 ≤ 0 := hlength
  exact Prod.ext (eq_none_of_fractionLength (by omega)) (eq_none_of_exponentLength (by omega))

theorem Covers.behind_fraction {read : Option (Option Sign × List Char)} (h : Covers exponentLength read exponent)
    (fraction : Option (List Char)) : Covers tailLength (fraction, read) (fraction, exponent) := by
  refine ⟨Nat.add_le_add_left h.le _, fun hlength => ?_⟩
  rw [h.eq (Nat.le_of_add_le_add_left hlength)]

theorem tail_covers (hfraction : ∀ digits ∈ fraction, IsDigits digits) (h : SpellsExponent exponent written)
    (rest : List Char) :
    Covers tailLength (readTail (fractionText fraction ++ (written ++ rest))) (fraction, exponent) := by
  cases fraction with
  | none =>
    cases exponent with
    | none => exact covers_none _
    | some e =>
      have hnone : readFraction (written ++ rest) = none :=
        readFraction_of_startsDigits (h.startsDigits_append rest)
      rw [fractionText, List.nil_append, readTail, hnone]
      exact (h.covers rest).behind_fraction none
  | some digits =>
    have hdigits := hfraction digits rfl
    have hread : readFraction ('.' :: (digits ++ (written ++ rest))) =
        some ((digits ++ (written ++ rest)).takeWhile Char.isDigit) := by
      rw [readFraction_point, hdigits.startsDigit_append, if_pos rfl]
    have hle := le_takeWhile_isDigit hdigits.isDigit (written ++ rest)
    rw [fractionText, List.cons_append, readTail, hread]
    cases exponent with
    | none =>
      have hzero : exponentLength none = 0 := rfl
      generalize readExponent (List.drop _ _) = read
      refine ⟨?_, fun hlength => ?_⟩
      · simp only [tailLength, fractionLength, hzero]
        omega
      · simp only [tailLength, fractionLength, hzero] at hlength
        have hnone : read = none := eq_none_of_exponentLength (by omega)
        rw [takeWhile_isDigit_of_le hdigits.isDigit (by omega), hnone]
    | some e =>
      have hstop := startsDigit_of_startsDigits (h.startsDigits_append rest)
      have hbehind : ('.' :: (digits ++ (written ++ rest))).drop (fractionLength (some digits)) = written ++ rest := by
        rw [fractionLength, Nat.add_comm, List.drop_succ_cons, List.drop_left]
      rw [hdigits.takeWhile_append hstop, hbehind]
      exact (h.covers rest).behind_fraction (some digits)

/-- Where something is written of a numeral, its sign is read as it is. -/
theorem readSign_of_spells {sign : Option Sign} {whole : List Char} (hwhole : ∀ c ∈ whole, c.isDigit = true)
    (h : SpellsExponent exponent written)
    (hne : signText sign ++ (whole ++ (fractionText fraction ++ written)) ≠ []) (rest : List Char) :
    readSign (signText sign ++ (whole ++ (fractionText fraction ++ (written ++ rest)))) =
      (sign, whole ++ (fractionText fraction ++ (written ++ rest))) := by
  match sign, whole, fraction with
  | some .plus, _, _ => rfl
  | some .minus, _, _ => rfl
  | none, c :: whole, _ =>
    have hdigit := hwhole c (List.mem_cons_self ..)
    exact readSign_plain (ne_of_inClass hdigit rfl) (ne_of_inClass hdigit rfl) _
  | none, [], some digits => rfl
  | none, [], none =>
    cases h with
    | absent => exact absurd rfl hne
    | present sign hletter hdigits => rcases hletter with rfl | rfl <;> rfl

/-- Digits in front of a fraction or an exponent are all digits there are. -/
theorem startsDigit_tail (h : SpellsExponent exponent written) (hne : ¬(fraction = none ∧ exponent = none))
    (rest : List Char) : startsDigit (fractionText fraction ++ (written ++ rest)) = false := by
  cases fraction with
  | some digits => rfl
  | none =>
    cases exponent with
    | none => exact absurd ⟨rfl, rfl⟩ hne
    | some e => exact startsDigit_of_startsDigits (h.startsDigits_append rest)

/-- Behind the sign of a numeral. -/
theorem unsigned_covers (sign : Option Sign) {whole : List Char} (hwhole : ∀ c ∈ whole, c.isDigit = true)
    (hfraction : ∀ digits ∈ fraction, IsDigits digits) (h : SpellsExponent exponent written) (rest : List Char) :
    let unsigned := whole ++ (fractionText fraction ++ (written ++ rest))
    let digits := unsigned.takeWhile Char.isDigit
    let tail := readTail (unsigned.drop digits.length)
    Covers Numeral.length ⟨sign, digits, tail.1, tail.2⟩ ⟨sign, whole, fraction, exponent⟩ := by
  intro unsigned digits tail
  have hread : Numeral.length ⟨sign, digits, tail.1, tail.2⟩ =
      signLength sign + digits.length + tailLength tail := Nat.add_assoc ..
  have hwritten : Numeral.length ⟨sign, whole, fraction, exponent⟩ =
      signLength sign + whole.length + tailLength (fraction, exponent) := Nat.add_assoc ..
  -- Only where nothing is written behind the digits may they go on.
  by_cases hnone : fraction = none ∧ exponent = none
  · have hle : whole.length ≤ digits.length := le_takeWhile_isDigit hwhole _
    have hcovers := covers_none tail
    have hzero : tailLength (none, none) = 0 := rfl
    rw [hnone.1, hnone.2, hzero] at hwritten
    constructor
    · rw [hread, hnone.1, hnone.2, hwritten]
      omega
    · intro hshort
      rw [hread, hnone.1, hnone.2, hwritten] at hshort
      have htail : tail = (none, none) := hcovers.eq (by omega)
      have hdigits : digits = whole := takeWhile_isDigit_of_le hwhole (show digits.length ≤ whole.length by omega)
      rw [htail, hdigits, hnone.1, hnone.2]
  · have hdigits : digits = whole := takeWhile_isDigit_append hwhole (startsDigit_tail h hnone rest)
    have htail : tail = readTail (fractionText fraction ++ (written ++ rest)) := by
      simp only [tail, hdigits, unsigned, List.drop_left]
    have hcovers := tail_covers hfraction h rest
    rw [← htail] at hcovers
    constructor
    · rw [hread, hwritten, hdigits]
      exact Nat.add_le_add_left hcovers.le _
    · intro hshort
      rw [hread, hwritten, hdigits] at hshort
      rw [hcovers.eq (Nat.le_of_add_le_add_left hshort), hdigits]

/-- **What is read at the front of a text covers each numeral that is written there.** -/
theorem SpellsNumeral.covers (h : SpellsNumeral m q) (rest : List Char) (hstarts : startsNumeral (q ++ rest) = true) :
    Covers Numeral.length (readNumeral (q ++ rest)) m := by
  have hpos := readNumeral_length_pos hstarts
  by_cases hne : q = []
  · have hempty := h.length_eq
    rw [hne, List.length_nil] at hempty
    exact ⟨hempty ▸ Nat.zero_le _, fun hlength => by omega⟩
  · cases h with
    | @mk sign whole fraction exponent written hwhole hfraction hexponent =>
      have hcovers := unsigned_covers sign hwhole hfraction hexponent rest
      simp only [List.append_assoc, readNumeral, readSign_of_spells hwhole hexponent hne rest]
      exact hcovers

/-! ### Digits in front of the exponent -/

/-- The digits in front of the exponent. -/
def Numeral.mantissa (n : Numeral) : List Char := n.whole ++ n.fraction.getD []

/-- Where a numeral starts, there are digits in front of its exponent. -/
theorem mantissa_ne_nil {text : List Char} (hstarts : startsNumeral text = true) :
    (readNumeral text).mantissa ≠ [] := by
  obtain ⟨p, -, hspells⟩ := exists_spellsNumeral text
  rw [startsNumeral_iff] at hstarts
  generalize readNumeral text = n at *
  cases hspells with
  | @mk sign whole fraction exponent written hwhole hfraction hexponent =>
    intro hnil
    obtain ⟨hnone, hempty⟩ := List.append_eq_nil_iff.mp hnil
    cases fraction with
    | none =>
      rw [hnone] at hstarts
      contradiction
    | some digits => exact (hfraction digits rfl).ne_nil hempty

/-- Where there are, a numeral starts. -/
theorem SpellsNumeral.startsNumeral_append (h : SpellsNumeral n p) (hmantissa : n.mantissa ≠ []) (rest : List Char) :
    startsNumeral (p ++ rest) = true := by
  cases h with
  | @mk sign whole fraction exponent written hwhole hfraction hexponent =>
    have hne : signText sign ++ (whole ++ (fractionText fraction ++ written)) ≠ [] := by
      intro hnil
      simp only [List.append_eq_nil_iff] at hnil
      obtain ⟨-, hwholeNil, hfractionNil, -⟩ := hnil
      cases fraction with
      | none => exact hmantissa (by rw [Numeral.mantissa, hwholeNil]; rfl)
      | some digits => contradiction
    simp only [List.append_assoc, startsNumeral, readSign_of_spells hwhole hexponent hne rest]
    by_cases hempty : whole = []
    · cases fraction with
      | none => exact absurd (by rw [Numeral.mantissa, hempty]; rfl) hmantissa
      | some digits =>
        rw [hempty]
        exact (hfraction digits rfl).startsDigit_append _
    · exact IsDigits.startsDigits_append ⟨hempty, hwhole⟩ _

/-! ### Parsers -/

/-- A parser that takes every numeral with a digit in front of its exponent for the number nearest to it. -/
def ParsesNumerals (parse : NumberParser) : Prop :=
  ∀ n : Numeral, SpellsNumeral n n.text → n.mantissa ≠ [] → parse n.text = some n.double?

theorem parsesNumerals_parseNumeral : ParsesNumerals parseNumeral := by
  intro n hspells hmantissa
  have hstarts := hspells.startsNumeral_append hmantissa []
  have hcovers := hspells.covers [] hstarts
  rw [List.append_nil] at hstarts hcovers
  have hread : readNumeral n.text = n := by
    refine hcovers.eq ?_
    rw [← n.text_length]
    exact readNumeral_length_le n.text
  rw [parseNumeral, if_pos ⟨hstarts, by rw [hread, n.text_length]⟩, hread]

/-- Nothing that is read is refused by such a parser. -/
theorem parseNumeric_eq {parse : NumberParser} (hparse : ParsesNumerals parse) {text : List Char}
    (hstarts : startsNumeral text = true) :
    parseNumeric parse text = ⟨(readNumeral text).numeric, (readNumeral text).length, (readNumeral text).faults⟩ := by
  obtain ⟨p, -, hspells⟩ := exists_spellsNumeral text
  simp only [parseNumeric, hparse _ hspells.text (mantissa_ne_nil hstarts)]
  rfl

/-- **Where a numeral starts, its number is read**, and nothing is refused. -/
theorem readNumeric_eq {text : List Char} (hstarts : startsNumeral text = true) :
    readNumeric text = ⟨(readNumeral text).numeric, (readNumeral text).length, (readNumeral text).faults⟩ :=
  parseNumeric_eq parsesNumerals_parseNumeral hstarts

end CssUrls.Lexical
