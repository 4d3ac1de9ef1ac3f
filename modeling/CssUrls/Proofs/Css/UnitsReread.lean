import CssUrls.Proofs.Css.IntegersReread
import CssUrls.Proofs.Css.NameReread

/-! Dimensions written and read again.

A unit is written as an identifier, with an escape for the letter of an exponent that has a sign or nothing
behind it (`writtenUnit`). A letter with a digit behind it gets none, so it is read as an exponent. All other
units are read as they are written (`tokenize_unitText`). Main statement: `tokenize_dimension`. -/
namespace CssUrls.Css
open Text Lexical Lexical.Numeral

/-! ### Units as text -/

/-- A unit as it is written. -/
def unitText (unit : List Char) : List Char :=
  if looksLikeExponent unit then "\\65 ".toList ++ nameText unit.tail else identifierText unit

/-- The unit that is written. -/
def writtenUnit (unit : List Char) : List Char := if looksLikeExponent unit then 'e' :: unit.tail else unit

/-- The unit starts as an exponent does that has no sign. -/
def startsExponent : List Char → Bool
  | c :: d :: _ => (c == 'e' || c == 'E') && d.isDigit
  | _ => false

/-- The unit gets an escape for a capital letter. -/
def escapesCapital (unit : List Char) : Bool := looksLikeExponent unit && unit.head? == some 'E'

theorem writeUnit_eq (unit : List Char) : writeUnit unit = writeChars (unitText unit) := by
  unfold writeUnit unitText
  split
  · rw [writeChars_append, ← writeName_eq]
    rfl
  · exact writeIdentifier_eq unit

theorem text_writeToken_dimension (n : Numeric) (unit : String) :
    (writeToken (.dimension n unit)).text.toList = numericText n ++ unitText unit.toList := by
  have hwrite : writeToken (.dimension n unit) = writeChars (numericText n ++ unitText unit.toList) := by
    rw [writeChars_append, ← writeNumeric_eq, ← writeUnit_eq]
    rfl
  rw [hwrite, text_writeChars, String.toList_ofList]

/-- What looks like an exponent starts with its letter. -/
theorem looksLikeExponent_spec {unit : List Char} (h : looksLikeExponent unit = true) :
    ∃ c rest, unit = c :: rest ∧ (c = 'e' ∨ c = 'E') ∧ startsExponent unit = false := by
  unfold looksLikeExponent at h
  split at h
  · exact ⟨_, _, rfl, by simpa using h, rfl⟩
  · exact ⟨_, _, rfl, by simpa using h, Bool.and_false _⟩
  · contradiction

theorem writtenUnit_eq_self_iff {unit : List Char} : writtenUnit unit = unit ↔ escapesCapital unit = false := by
  cases hlooks : looksLikeExponent unit with
  | false =>
    rw [writtenUnit, escapesCapital, hlooks, if_neg Bool.false_ne_true]
    exact iff_of_true rfl rfl
  | true =>
    obtain ⟨c, rest, rfl, hletter, -⟩ := looksLikeExponent_spec hlooks
    rw [writtenUnit, escapesCapital, hlooks, if_pos rfl]
    rcases hletter with rfl | rfl
    · exact iff_of_true rfl rfl
    · exact iff_of_false (fun h => absurd (List.cons.inj h).1 (by decide)) (by simp)

variable {unit : List Char}

/-- **What is written for a unit spells one**, with a small letter where an exponent would start. -/
theorem spellsIdentifier_unitText (hne : unit ≠ []) (hnul : '\x00' ∉ unit) :
    SpellsIdentifier (writtenUnit unit) (unitText unit) := by
  unfold writtenUnit unitText
  split
  · have hescape : EscapeOf 'e' ['6', '5', ' '] := escapeOf_hexDigits (by decide) (by decide)
    exact .start (.escape hescape (spellsName_nameText fun h => hnul (List.mem_of_mem_tail h)))
  · exact spellsIdentifier_identifierText hne hnul

/-! ### Exponents -/

theorem readExponent_of_ne {c : Char} (he : c ≠ 'e') (hE : c ≠ 'E') (rest : List Char) :
    readExponent (c :: rest) = none := by
  rw [readExponent_cons, beq_eq_false_iff_ne.mpr he, beq_eq_false_iff_ne.mpr hE]
  rfl

/-- What spells an identifier has no exponent at its front, if the identifier starts with another letter. -/
theorem SpellsIdentifier.readExponent_eq_none {name text : List Char} (h : SpellsIdentifier name text)
    (he : name.head? ≠ some 'e') (hE : name.head? ≠ some 'E') : readExponent text = none := by
  cases h with
  | start h =>
    cases h with
    | plain hc h => exact readExponent_of_ne (mt (congrArg some) he) (mt (congrArg some) hE) _
    | escape hc h => exact readExponent_of_ne (by decide) (by decide) _
  | hyphen h => exact readExponent_of_ne (by decide) (by decide) _
  | hyphens h => exact readExponent_of_ne (by decide) (by decide) _

/-- A letter for an exponent is written as it is. -/
theorem identifierText_letter {c : Char} (hc : c = 'e' ∨ c = 'E') (rest : List Char) :
    identifierText (c :: rest) = c :: nameText rest := by
  rcases hc with rfl | rfl <;> rfl

/-- Behind the letter a code point other than a hyphen is written so that an exponent starts only if it is a
digit. -/
theorem isSome_readExponent_letter {c d : Char} {more : List Char} (hc : c = 'e' ∨ c = 'E') (hd : d ≠ '-')
    (hnul : d ≠ '\x00') : (readExponent (c :: nameText (d :: more))).isSome = d.isDigit := by
  have hletter : (c == 'e' || c == 'E') = true := by
    rw [Bool.or_eq_true, beq_iff_eq, beq_iff_eq]
    exact hc
  have hdigit {first : Char} {rest : List Char} (hplus : first ≠ '+') (hminus : first ≠ '-') :
      (readExponent (c :: first :: rest)).isSome = first.isDigit := by
    rw [readExponent_cons, hletter, readSign_plain hplus hminus, Bool.true_and]
    cases hfirst : startsDigit (first :: rest) with
    | true => exact hfirst.symm
    | false => exact hfirst.symm
  show (readExponent (c :: (nameChar d ++ nameText more))).isSome = _
  cases hd' : d.isDigit with
  | true =>
    rw [nameChar_of_isDigit hd', List.singleton_append, hdigit ?_ hd, hd']
    rintro rfl
    contradiction
  | false =>
    generalize hspelled : nameChar d = spelled
    have hchar := spellsChar_nameChar hnul
    rw [hspelled] at hchar
    cases hchar with
    | plain hpart =>
      rw [List.singleton_append, hdigit ?_ hd, hd']
      rintro rfl
      contradiction
    | escape h => exact hdigit (by decide) (by decide)

/-- **What is written for a unit starts an exponent** only if the unit starts as one that has no sign. -/
theorem isSome_readExponent_unitText (hne : unit ≠ []) (hnul : '\x00' ∉ unit) :
    (readExponent (unitText unit)).isSome = startsExponent unit := by
  cases hlooks : looksLikeExponent unit with
  | true =>
    obtain ⟨-, -, -, -, hstarts⟩ := looksLikeExponent_spec hlooks
    rw [unitText, if_pos hlooks, hstarts]
    exact congrArg Option.isSome (readExponent_of_ne (by decide) (by decide) _)
  | false =>
    have hspells := spellsIdentifier_identifierText hne hnul
    rw [unitText, hlooks, if_neg Bool.false_ne_true]
    obtain ⟨c, rest, rfl⟩ := List.exists_cons_of_ne_nil hne
    have hletter : (c == 'e' || c == 'E') = decide (c = 'e' ∨ c = 'E') := by
      rw [Bool.eq_iff_iff, Bool.or_eq_true, beq_iff_eq, beq_iff_eq, decide_eq_true_eq]
    -- With a hyphen behind the letter the unit would look like an exponent, so only a digit makes it one.
    by_cases hc : c = 'e' ∨ c = 'E'
    · rw [identifierText_letter hc]
      cases rest with
      | nil =>
        rw [looksLikeExponent, hletter, decide_eq_true hc] at hlooks
        contradiction
      | cons d more =>
        have hhyphen : d ≠ '-' := by
          rintro rfl
          rw [looksLikeExponent, hletter, decide_eq_true hc] at hlooks
          contradiction
        have hd : d ≠ '\x00' := by
          rintro rfl
          exact hnul (List.mem_cons_of_mem _ (List.mem_cons_self ..))
        rw [isSome_readExponent_letter hc hhyphen hd, startsExponent, hletter, decide_eq_true hc, Bool.true_and]
    · have hnone : readExponent (identifierText (c :: rest)) = none := by
        apply hspells.readExponent_eq_none
        · exact fun h => hc (.inl (Option.some.inj h))
        · exact fun h => hc (.inr (Option.some.inj h))
      rw [hnone]
      cases rest with
      | nil => rfl
      | cons d more =>
        rw [startsExponent, hletter, decide_eq_false hc]
        rfl

/-! ### Dimensions -/

/-- No number goes on with what starts an identifier. -/
theorem startsDigits_eq_false_of_startsIdentifier {text : List Char} (h : startsIdentifier text = true) :
    startsDigits text = false := by
  cases text with
  | nil => rfl
  | cons c rest =>
    by_cases hhyphen : c = '-'
    · subst hhyphen
      rfl
    · by_cases hback : c = '\\'
      · subst hback
        rfl
      · rw [startsIdentifier_plain hhyphen hback] at h
        have hpoint : c ≠ '.' := ne_of_inClass h rfl
        rw [startsDigits_plain hpoint]
        exact isDigit_eq_false_of_isNameStart h

section Dimension
variable {n : Numeral} {i : Int}

/-- **What is written for a dimension is a dimension again**, of the unit that is written, if no exponent
starts there. -/
theorem tokenize_unitText (h : n.numeric.int = some i) (hne : unit ≠ []) (hnul : '\x00' ∉ unit)
    (hexponent : startsExponent unit = false) :
    (tokenize (numericText n.numeric ++ unitText unit)).spans.map Span.token =
      [.dimension (writtenNumeral n i).numeric (String.ofList (writtenUnit unit)), .endOfFile] := by
  have hspells := spellsIdentifier_unitText hne hnul
  have hstarts := hspells.startsIdentifier_eq []
  have hname : readName (unitText unit ++ []) = .plain _ _ := hspells.spellsName.readName_eq rfl
  rw [List.append_nil] at hstarts hname
  have hnone : readExponent (unitText unit) = none := by
    rw [← Option.not_isSome_iff_eq_none, isSome_readExponent_unitText hne hnul, hexponent]
    exact Bool.false_ne_true
  have hwritten := writtenNumeral_wellFormed n i
  have hread : readNumber ((writtenNumeral n i).text ++ unitText unit) =
      ⟨.dimension (writtenNumeral n i).numeric (String.ofList (writtenUnit unit)),
        ((writtenNumeral n i).text ++ unitText unit).length, (writtenNumeral n i).faults⟩ := by
    rw [hwritten.readNumber_text (startsDigits_eq_false_of_startsIdentifier hstarts) hnone, if_pos hstarts, hname,
      List.length_append]
    exact Reading.andThen_plain ..
  rw [numericText_eq h, (tokenize_of_readNumber (hwritten.startsNumeral_append _) hread).1]
  rfl

/-- Where an exponent starts, what is written is no integer. -/
theorem int_eq_none_of_startsExponent (h : n.numeric.int = some i) (hne : unit ≠ []) (hnul : '\x00' ∉ unit)
    (hexponent : startsExponent unit = true) :
    (readNumeral (numericText n.numeric ++ unitText unit)).numeric.int = none := by
  have hstarts := (spellsIdentifier_unitText hne hnul).startsIdentifier_eq []
  rw [List.append_nil] at hstarts
  rw [← isSome_readExponent_unitText hne hnul, Option.isSome_iff_exists] at hexponent
  obtain ⟨e, he⟩ := hexponent
  rw [readNumeral_numericText h (startsDigits_eq_false_of_startsIdentifier hstarts), he]
  rfl

end Dimension

/-- **A dimension that was read in a text is read again where it is written**, with its integer and its unit,
if and only if the unit neither starts as an exponent nor gets an escape for a capital letter. -/
theorem tokenize_dimension {text : List Char} {span : Span} {n : Numeric} {unit : String} {i : Int}
    (hnul : '\x00' ∉ text) (hspan : span ∈ (tokenize text).spans) (htoken : span.token = .dimension n unit)
    (hint : n.int = some i) :
    (∃ m, m.int = some i ∧
        (tokenize (writeToken span.token).text.toList).spans.map Span.token = [.dimension m unit, .endOfFile]) ↔
      startsExponent unit.toList = false ∧ escapesCapital unit.toList = false := by
  have hnumeric : span.token.numeric? = some n := congrArg Token.numeric? htoken
  obtain ⟨source, hsource, hread, rfl, -⟩ := exists_readNumber hspan hnumeric
  obtain ⟨behind, hbehind, hstarts, hunit⟩ := readNumber_eq_dimension (hread.symm.trans htoken)
  have hne : unit.toList ≠ [] := by
    rw [hunit]
    exact readName_value_ne_nil (startsName_of_startsIdentifier hstarts)
  have hplain : '\x00' ∉ unit.toList := by
    rw [hunit]
    exact nul_not_mem_readName fun h => hnul (hsource.mem (hbehind.mem h))
  rw [htoken, text_writeToken_dimension, ← writtenUnit_eq_self_iff]
  cases hexponent : startsExponent unit.toList with
  | true =>
    refine iff_of_false ?_ (fun h => Bool.noConfusion h.1)
    rintro ⟨m, hm, htokens⟩
    rw [(tokenize_numericText hint _).1, List.cons.injEq] at htokens
    have hagain := readNumber_numeric? (startsNumeral_numericText hint (unitText unit.toList))
    rw [htokens.1] at hagain
    rw [Option.some.inj hagain, int_eq_none_of_startsExponent hint hne hplain hexponent] at hm
    contradiction
  | false =>
    have hwritten := tokenize_unitText hint hne hplain hexponent
    rw [hwritten]
    constructor
    · rintro ⟨m, -, htokens⟩
      have hsame := (Token.dimension.inj (List.cons.inj htokens).1).2
      exact ⟨rfl, String.toList_ofList.symm.trans (congrArg String.toList hsame)⟩
    · rintro ⟨-, hsame⟩
      refine ⟨_, writtenNumeral_numeric_int hint, ?_⟩
      rw [hsame, String.ofList_toList]

/-- A unit that looks like an exponent gets an escape, which its hyphen and its digit go on behind. -/
theorem tokenize_dimension_escaped :
    let text := "+07\\65-\\39".toList
    let n := (readNumeral "+07".toList).numeric
    let span : Span := ⟨.dimension n "e-9", 0, 10⟩
    '\x00' ∉ text ∧ span ∈ (tokenize text).spans ∧ n.int = some 7 ∧
      (writeToken span.token).text = "+7\\65 -9" ∧
      ∃ m, m.int = some 7 ∧ (tokenize (writeToken span.token).text.toList).spans.map Span.token =
        [.dimension m "e-9", .endOfFile] := by
  intro text n span
  have hnul : '\x00' ∉ text := by decide +kernel
  have hspan : span ∈ (tokenize text).spans := by decide +kernel
  have hint : n.int = some 7 := by decide +kernel
  exact ⟨hnul, hspan, hint, by decide +kernel, (tokenize_dimension hnul hspan rfl hint).mpr (by decide)⟩

/-- A unit of a letter and a digit is read again as an exponent, and a capital letter as a small one. -/
theorem tokenize_dimension_exponent :
    let one := (readNumeral ['1']).numeric
    let number : Span := ⟨.dimension one "e5", 0, 6⟩
    let capital : Span := ⟨.dimension one "E", 0, 2⟩
    one.int = some 1 ∧
      number ∈ (tokenize "1\\65 5".toList).spans ∧ capital ∈ (tokenize "1E".toList).spans ∧
      (writeToken number.token).text = "1e5" ∧ (writeToken capital.token).text = "1\\65 " ∧
      (tokenize "1e5".toList).spans.map Span.token = [.number (readNumeral "1e5".toList).numeric, .endOfFile] ∧
      (tokenize "1\\65 ".toList).spans.map Span.token = [.dimension one "e", .endOfFile] := by
  decide +kernel

end CssUrls.Css
