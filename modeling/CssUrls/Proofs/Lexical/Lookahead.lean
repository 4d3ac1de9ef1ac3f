import CssUrls.Proofs.Lexical.Alike

/-! Lexemes are settled by what they take.

Each reading that ends before `s` stays what it is before a `t` that is alike, so the token, the
comments and the lexeme at the front of a text do. Main statement: `Alike.frontLexeme_eq`. -/
namespace CssUrls.Lexical
open Text

variable {s t : List Char}

/-! ### Numerals -/

theorem readSign_plain {c : Char} (hplus : c ≠ '+') (hminus : c ≠ '-') (rest : List Char) :
    readSign (c :: rest) = (none, c :: rest) := by
  unfold readSign
  split
  · rename_i e
    cases e
    contradiction
  · rename_i e
    cases e
    contradiction
  · rfl

/-- A sign is read off the first code point alone. -/
theorem readSign_cons (c : Char) (p : List Char) :
    ∃ q, signLength (readSign (c :: p)).1 + q.length = p.length + 1 ∧
      ∀ x, readSign (c :: p ++ x) = ((readSign (c :: p)).1, q ++ x) := by
  by_cases hplus : c = '+'
  · subst hplus
    exact ⟨p, Nat.add_comm .., fun x => rfl⟩
  · by_cases hminus : c = '-'
    · subst hminus
      exact ⟨p, Nat.add_comm .., fun x => rfl⟩
    · refine ⟨c :: p, ?_, fun x => ?_⟩
      · rw [readSign_plain hplus hminus]
        show 0 + _ = _
        rw [Nat.zero_add, List.length_cons]
      · rw [List.cons_append, readSign_plain hplus hminus, readSign_plain hplus hminus]

theorem startsDigits_plain {c : Char} (h : c ≠ '.') (rest : List Char) :
    startsDigits (c :: rest) = c.isDigit := by
  unfold startsDigits
  split
  · rename_i e
    cases e
    contradiction
  · rfl

theorem readFraction_plain {c : Char} (h : c ≠ '.') (rest : List Char) :
    readFraction (c :: rest) = none := by
  unfold readFraction
  split
  · rename_i e
    cases e
    contradiction
  · rfl

theorem readFraction_point (rest : List Char) :
    readFraction ('.' :: rest) =
      if startsDigit rest = true then some (rest.takeWhile Char.isDigit) else none := rfl

theorem readExponent_cons (c : Char) (rest : List Char) :
    readExponent (c :: rest) =
      if ((c == 'e' || c == 'E') && startsDigit (readSign rest).2) = true then
        some ((readSign rest).1, (readSign rest).2.takeWhile Char.isDigit)
      else none := rfl

/-- Digits are there, before the point or after it, where a numeral starts and only there. -/
theorem startsDigits_iff {text : List Char} :
    startsDigits text = true ↔ 0 < (text.takeWhile Char.isDigit).length +
      fractionLength (readFraction (text.drop (text.takeWhile Char.isDigit).length)) := by
  cases text with
  | nil => simp [startsDigits, startsDigit, readFraction, fractionLength]
  | cons c rest =>
    by_cases hpoint : c = '.'
    · subst hpoint
      have hwhole : ('.' :: rest).takeWhile Char.isDigit = [] := by simp
      rw [hwhole, List.length_nil, List.drop_zero, Nat.zero_add]
      show startsDigit rest = true ↔ _
      rw [readFraction_point]
      cases hrest : startsDigit rest with
      | false => simp [fractionLength]
      | true => exact iff_of_true rfl (Nat.add_pos_left Nat.one_pos _)
    · rw [startsDigits_plain hpoint]
      cases hc : c.isDigit with
      | false => simp [hc, readFraction_plain hpoint, fractionLength]
      | true =>
        refine iff_of_true rfl (Nat.add_pos_left ?_ _)
        rw [List.takeWhile_cons, hc]
        exact Nat.succ_pos _

theorem startsNumeral_iff {text : List Char} :
    startsNumeral text = true ↔
      0 < (readNumeral text).whole.length + fractionLength (readNumeral text).fraction :=
  startsDigits_iff

/-! ### Readings made of readings -/

/-- A choice between readings stays what it is if what is chosen does. -/
theorem ite_eq_ite_of_length {α : Type} {cond : Prop} [Decidable cond] {a b a' b' : Reading α}
    {n : Nat} (hle : (if cond then a else b).length ≤ n) (ha : a.length ≤ n → a' = a)
    (hb : b.length ≤ n → b' = b) : (if cond then a' else b') = if cond then a else b := by
  by_cases hcond : cond
  · rw [if_pos hcond] at hle
    rw [if_pos hcond, if_pos hcond, ha hle]
  · rw [if_neg hcond] at hle
    rw [if_neg hcond, if_neg hcond, hb hle]

theorem readNumeral_length_le_readNumber (text : List Char) :
    (readNumeral text).length ≤ (readNumber text).length := by
  show (readNumeric text).length ≤ _
  simp only [readNumber]
  split
  · exact Nat.le_add_right ..
  · split
    · exact Nat.le_add_right ..
    · exact Nat.le_refl _

theorem readName_length_le_readIdentLike (text : List Char) :
    (readName text).length ≤ (readIdentLike text).length := by
  simp only [readIdentLike]
  split
  · split <;> simp only [Reading.andThen_length, Reading.map_length, Reading.plain_length] <;> omega
  · exact Nat.le_refl _

namespace Alike

/-- A joining code point that is taken where it stands in front of `s` stands there in front of
`t`. -/
theorem startsWith_mark (h : Alike s t) {c : Char} (hc : joins c = true) {p : List Char}
    (hp : startsWith (· == c) (p ++ s) = true → p ≠ []) :
    startsWith (· == c) (p ++ t) = startsWith (· == c) (p ++ s) := by
  cases p with
  | nil =>
    have hs : startsWith (· == c) s = false := by
      rw [← Bool.not_eq_true]
      exact fun hs => hp hs rfl
    exact (h.not_startsWith_char hc).trans hs.symm
  | cons d p => rfl

theorem not_point (h : Alike s t) : startsWith (· == '.') t = false :=
  h.not_startsWith_char (by decide)

theorem startsDigits_eq_false (h : Alike s t) : startsDigits t = false := by
  have hpoint := h.not_point
  have hdigit := h.not_digit
  cases t with
  | nil => rfl
  | cons c rest =>
    rw [startsWith_cons, beq_eq_false_iff_ne] at hpoint
    rw [startsDigits_plain hpoint]
    exact hdigit

theorem startsDigit_append (h : Alike s t) {p : List Char}
    (hle : countOf Char.isDigit (p ++ s) ≤ p.length) : startsDigit (p ++ t) = startsDigit (p ++ s) :=
  startsWith_append_eq hle h.not_digit

theorem readFraction_eq (h : Alike s t) {p : List Char}
    (hle : fractionLength (readFraction (p ++ s)) ≤ p.length) :
    readFraction (p ++ t) = readFraction (p ++ s) := by
  cases p with
  | nil =>
    have hs : readFraction s = none := by
      cases hf : readFraction s with
      | none => rfl
      | some digits =>
        rw [List.nil_append, hf, fractionLength, List.length_nil] at hle
        omega
    have ht : readFraction t = none := by
      have hpoint := h.not_point
      cases t with
      | nil => rfl
      | cons c rest =>
        rw [startsWith_cons, beq_eq_false_iff_ne] at hpoint
        exact readFraction_plain hpoint rest
    exact ht.trans hs.symm
  | cons c p =>
    by_cases hpoint : c = '.'
    · subst hpoint
      rw [List.cons_append, readFraction_point] at hle ⊢
      rw [List.cons_append, readFraction_point]
      have hrun : countOf Char.isDigit (p ++ s) ≤ p.length := by
        cases hdigit : startsDigit (p ++ s) with
        | false => exact Nat.le_trans (Nat.le_of_eq (countOf_eq_zero hdigit)) (Nat.zero_le _)
        | true =>
          rw [if_pos hdigit, fractionLength, List.length_cons] at hle
          unfold countOf
          omega
      rw [h.startsDigit_append hrun, takeWhile_append_eq hrun h.not_digit]
    · rw [List.cons_append, List.cons_append, readFraction_plain hpoint, readFraction_plain hpoint]

theorem readSign_eq (h : Alike s t) : readSign t = (none, t) := by
  have hplus := h.not_startsWith_char (show joins '+' = true by decide)
  have hminus := h.not_startsWith_char (show joins '-' = true by decide)
  cases t with
  | nil => rfl
  | cons c rest =>
    rw [startsWith_cons, beq_eq_false_iff_ne] at hplus hminus
    exact readSign_plain hplus hminus rest

theorem readExponent_eq_none (h : Alike s t) : readExponent t = none := by
  have hhex := h.not_hexDigit
  cases t with
  | nil => rfl
  | cons c rest =>
    have hletter : (c == 'e' || c == 'E') = false := by
      rw [← Bool.not_eq_true, Bool.or_eq_true, beq_iff_eq, beq_iff_eq]
      rintro (rfl | rfl) <;> exact absurd hhex (by rw [startsWith_cons]; decide)
    rw [readExponent_cons, hletter]
    rfl

theorem readExponent_eq (h : Alike s t) {p : List Char}
    (hle : exponentLength (readExponent (p ++ s)) ≤ p.length) :
    readExponent (p ++ t) = readExponent (p ++ s) := by
  match p with
  | [] =>
    have hs : readExponent s = none := by
      cases he : readExponent s with
      | none => rfl
      | some e =>
        rw [List.nil_append, he, exponentLength, List.length_nil] at hle
        omega
    exact h.readExponent_eq_none.trans hs.symm
  | [c] =>
    rw [List.singleton_append, readExponent_cons] at hle ⊢
    rw [List.singleton_append, readExponent_cons, h.readSign_eq,
      show startsDigit t = false from h.not_digit, Bool.and_false]
    by_cases hdigits : ((c == 'e' || c == 'E') && startsDigit (readSign s).2) = true
    · have hpos := countOf_pos (Bool.and_eq_true _ _ ▸ hdigits).2
      rw [if_pos hdigits, exponentLength, List.length_singleton] at hle
      unfold countOf at hpos
      omega
    · rw [if_neg hdigits]
      rfl
  | c :: d :: p =>
    obtain ⟨q, hq, hsign⟩ := readSign_cons d p
    rw [List.cons_append, readExponent_cons, hsign] at hle ⊢
    rw [List.cons_append, readExponent_cons, hsign]
    by_cases hletter : (c == 'e' || c == 'E') = true
    · rw [hletter, Bool.true_and] at hle ⊢
      rw [Bool.true_and]
      have hrun : countOf Char.isDigit (q ++ s) ≤ q.length := by
        cases hdigit : startsDigit (q ++ s) with
        | false => exact Nat.le_trans (Nat.le_of_eq (countOf_eq_zero hdigit)) (Nat.zero_le _)
        | true =>
          rw [if_pos hdigit] at hle
          simp only [exponentLength, List.length_cons] at hle
          unfold countOf
          omega
      rw [h.startsDigit_append hrun, takeWhile_append_eq hrun h.not_digit]
    · rw [Bool.not_eq_true] at hletter
      rw [hletter]
      rfl

/-- A numeral that ends before `s` stays what it is. -/
theorem readNumeral_eq (h : Alike s t) (c : Char) {p : List Char}
    (hle : (readNumeral (c :: p ++ s)).length ≤ p.length + 1) :
    readNumeral (c :: p ++ t) = readNumeral (c :: p ++ s) := by
  obtain ⟨q, hq, hsign⟩ := readSign_cons c p
  have hparts (x : List Char) : readNumeral (c :: p ++ x) =
      ⟨(readSign (c :: p)).1, (q ++ x).takeWhile Char.isDigit,
        readFraction ((q ++ x).drop ((q ++ x).takeWhile Char.isDigit).length),
        readExponent (((q ++ x).drop ((q ++ x).takeWhile Char.isDigit).length).drop
          (fractionLength (readFraction ((q ++ x).drop ((q ++ x).takeWhile Char.isDigit).length))))⟩ := by
    simp only [readNumeral, hsign]
  rw [hparts] at hle ⊢
  rw [hparts]
  simp only [Numeral.length] at hle
  have hwhole : ((q ++ s).takeWhile Char.isDigit).length ≤ q.length := by omega
  rw [List.drop_append_of_le_length hwhole] at hle ⊢
  rw [takeWhile_append_eq hwhole h.not_digit, List.drop_append_of_le_length hwhole]
  have hlength := List.length_drop (l := q) (i := ((q ++ s).takeWhile Char.isDigit).length)
  generalize q.drop ((q ++ s).takeWhile Char.isDigit).length = f at *
  have hfraction : fractionLength (readFraction (f ++ s)) ≤ f.length := by omega
  rw [List.drop_append_of_le_length hfraction] at hle ⊢
  rw [h.readFraction_eq hfraction, List.drop_append_of_le_length hfraction]
  have hexponent : exponentLength (readExponent (f.drop (fractionLength (readFraction (f ++ s))) ++ s)) ≤
      (f.drop (fractionLength (readFraction (f ++ s)))).length := by
    rw [List.length_drop]
    omega
  rw [h.readExponent_eq hexponent]

/-- What starts a numeral before `t` does so before `s`. -/
theorem startsNumeral_append (h : Alike s t) (c : Char) {p : List Char}
    (hp : startsNumeral (c :: p ++ t) = true) : startsNumeral (c :: p ++ s) = true := by
  obtain ⟨q, hq, hsign⟩ := readSign_cons c p
  unfold startsNumeral at hp ⊢
  rw [hsign] at hp ⊢
  simp only at hp ⊢
  cases q with
  | nil =>
    rw [List.nil_append, h.startsDigits_eq_false] at hp
    contradiction
  | cons d q =>
    by_cases hpoint : d = '.'
    · subst hpoint
      exact startsWith_append_of_not h.not_digit hp
    · rw [List.cons_append, startsDigits_plain hpoint] at hp ⊢
      exact hp

/-- What starts a numeral that ends before `s` does so before `t`. -/
theorem startsNumeral_append_of_le (h : Alike s t) (c : Char) {p : List Char}
    (hle : (readNumeral (c :: p ++ s)).length ≤ p.length + 1)
    (hp : startsNumeral (c :: p ++ s) = true) : startsNumeral (c :: p ++ t) = true := by
  rw [startsNumeral_iff] at hp ⊢
  rw [h.readNumeral_eq c hle]
  exact hp

theorem startsNumeral_eq (h : Alike s t) (c : Char) {p : List Char}
    (hle : startsNumeral (c :: p ++ s) = true → (readNumeral (c :: p ++ s)).length ≤ p.length + 1) :
    startsNumeral (c :: p ++ t) = startsNumeral (c :: p ++ s) := by
  cases hs : startsNumeral (c :: p ++ s) with
  | true => exact h.startsNumeral_append_of_le c (hle hs) hs
  | false =>
    rw [← Bool.not_eq_true] at hs ⊢
    exact fun ht => hs (h.startsNumeral_append c ht)

/-! ### Numbers -/

/-- A number that ends before `s` stays what it is. -/
theorem readNumber_eq (h : Alike s t) (c : Char) {p : List Char}
    (hle : (readNumber (c :: p ++ s)).length ≤ (c :: p).length) :
    readNumber (c :: p ++ t) = readNumber (c :: p ++ s) := by
  have hnumeric : (readNumeric (c :: p ++ s)).length ≤ (c :: p).length :=
    Nat.le_trans (readNumeral_length_le_readNumber _) hle
  have heq : readNumeric (c :: p ++ t) = readNumeric (c :: p ++ s) := by
    unfold readNumeric parseNumeric
    rw [h.readNumeral_eq c hnumeric]
  simp only [readNumber, heq] at hle ⊢
  generalize readNumeric (c :: p ++ s) = n at *
  rw [List.drop_append_of_le_length hnumeric] at hle ⊢
  rw [List.drop_append_of_le_length hnumeric]
  have hlength := List.length_drop (l := c :: p) (i := n.length)
  generalize (c :: p).drop n.length = q at *
  have hname : startsIdentifier (q ++ s) = true → (readName (q ++ s)).length ≤ q.length := by
    intro hs
    rw [if_pos hs, Reading.andThen_length, Reading.map_length] at hle
    omega
  rw [h.startsIdentifier_eq hname]
  split at hle
  · rename_i hs
    rw [if_pos hs, if_pos hs, h.readName_eq (hname hs)]
  · rename_i hs
    rw [if_neg hs, if_neg hs]
    have hpercent : startsWith (· == '%') (q ++ s) = true → q ≠ [] := by
      intro hs heq
      subst heq
      rw [hs, if_pos rfl, Reading.andThen_length, Reading.plain_length] at hle
      rw [List.length_nil] at hlength
      omega
    rw [h.startsWith_mark (by decide) hpercent]

/-! ### Names and what they open -/

theorem readUrlFunction_eq (h : Alike s t) (name : String) {p : List Char}
    (hle : (readUrlFunction name (p ++ s)).length ≤ p.length) :
    readUrlFunction name (p ++ t) = readUrlFunction name (p ++ s) := by
  have hblank := countOf_append_le h.whitespace p
  have hcount := countOf_append_eq hblank h.not_whitespace
  simp only [readUrlFunction, hcount] at hle ⊢
  rw [List.drop_append_of_le_length hblank] at hle ⊢
  rw [List.drop_append_of_le_length hblank, startsWith_append_of_eq h.quote]
  refine ite_eq_ite_of_length hle (fun _ => rfl) fun hle => ?_
  rw [h.readUrl_eq]
  rw [Reading.behind_length] at hle
  rw [List.length_drop]
  omega

/-- A name and what it opens stay what they are if they end before `s`. -/
theorem readIdentLike_eq (h : Alike s t) {p : List Char}
    (hle : (readIdentLike (p ++ s)).length ≤ p.length) :
    readIdentLike (p ++ t) = readIdentLike (p ++ s) := by
  have hname : (readName (p ++ s)).length ≤ p.length :=
    Nat.le_trans (readName_length_le_readIdentLike _) hle
  have hread := h.readName_eq hname
  have hdrop (x : List Char) : (p ++ x).drop (readName (p ++ s)).length =
      p.drop (readName (p ++ s)).length ++ x := List.drop_append_of_le_length hname
  have hlength := List.length_drop (l := p) (i := (readName (p ++ s)).length)
  generalize p.drop (readName (p ++ s)).length = q at *
  have hopen : startsWith (· == '(') (q ++ s) = true → q ≠ [] := by
    intro hs heq
    subst heq
    obtain ⟨c, rest, rfl⟩ := List.exists_cons_of_ne_nil h.nonempty
    rw [List.nil_append, startsWith_cons, beq_iff_eq] at hs
    rw [readIdentLike_opened ((hdrop _).trans (by rw [hs, List.nil_append]))] at hle
    rw [List.length_nil] at hlength
    split at hle <;>
      simp only [Reading.andThen_length, Reading.map_length, Reading.plain_length] at hle <;> omega
  cases hs : startsWith (· == '(') (q ++ s) with
  | false =>
    have ht := (h.startsWith_mark (by decide) hopen).trans hs
    rw [readIdentLike_plain (by rw [hread, hdrop]; exact ht),
      readIdentLike_plain (by rw [hdrop]; exact hs), hread]
  | true =>
    obtain ⟨c, q, rfl⟩ := List.exists_cons_of_ne_nil (hopen hs)
    rw [List.cons_append, startsWith_cons, beq_iff_eq] at hs
    subst hs
    have hopened (x : List Char) : (p ++ x).drop (readName (p ++ s)).length = '(' :: (q ++ x) := by
      rw [hdrop, List.cons_append]
    rw [readIdentLike_opened (hopened s)] at hle ⊢
    rw [readIdentLike_opened (by rw [hread]; exact hopened t), hread]
    split at hle
    · rename_i hurl
      rw [if_pos hurl, if_pos hurl, h.readUrlFunction_eq]
      simp only [Reading.andThen_length, Reading.plain_length] at hle
      rw [List.length_cons] at hlength
      omega
    · rename_i hurl
      rw [if_neg hurl, if_neg hurl]

/-! ### Marks -/

theorem readMatch_eq (h : Alike s t) (mark : Char) (token : Token) {p : List Char}
    (hle : (readMatch mark token (p ++ s)).length ≤ p.length + 1) :
    readMatch mark token (p ++ t) = readMatch mark token (p ++ s) := by
  have hequals : startsWith (· == '=') (p ++ s) = true → p ≠ [] := by
    intro hs heq
    subst heq
    rw [readMatch, if_pos hs] at hle
    contradiction
  rw [readMatch, readMatch, h.startsWith_mark (by decide) hequals]

theorem readBar_eq (h : Alike s t) {p : List Char}
    (hle : (readBar (p ++ s)).length ≤ p.length + 1) : readBar (p ++ t) = readBar (p ++ s) := by
  have hbar : startsWith (· == '|') (p ++ s) = true → p ≠ [] := by
    intro hs heq
    subst heq
    rw [readBar, if_pos hs] at hle
    contradiction
  rw [readBar, readBar, h.startsWith_mark (by decide) hbar]
  split
  · rfl
  · rename_i hs
    rw [readBar, if_neg hs] at hle
    exact h.readMatch_eq _ _ hle

/-- A prefix of joining code points that is taken stands in front of `t` where it does in front of
`s`. -/
theorem isPrefixOf_eq (h : Alike s t) {mark : List Char} (hmark : ∀ c ∈ mark, joins c = true)
    {p : List Char} (hp : mark.isPrefixOf (p ++ s) = true → mark.length ≤ p.length) :
    mark.isPrefixOf (p ++ t) = mark.isPrefixOf (p ++ s) := by
  cases hs : mark.isPrefixOf (p ++ s) with
  | true => exact isPrefixOf_append_of_length_le (hp hs) hs t
  | false =>
    rw [← Bool.not_eq_true] at hs ⊢
    exact fun ht => hs (h.isPrefixOf_append hmark ht)

theorem readLess_eq (h : Alike s t) {p : List Char}
    (hle : (readLess (p ++ s)).length ≤ p.length + 1) : readLess (p ++ t) = readLess (p ++ s) := by
  have hmark : ['!', '-', '-'].isPrefixOf (p ++ s) = true → ['!', '-', '-'].length ≤ p.length := by
    intro hs
    rw [readLess, if_pos hs, Reading.plain_length] at hle
    exact Nat.le_of_succ_le_succ hle
  rw [readLess, readLess, h.isPrefixOf_eq (List.all_eq_true.mp rfl) hmark]

theorem readHash_eq (h : Alike s t) {p : List Char}
    (hle : (readHash (p ++ s)).length ≤ p.length + 1) : readHash (p ++ t) = readHash (p ++ s) := by
  have hhash (rest : List Char) : readHash rest = if startsName rest = true then
      ((readName rest).map (if startsIdentifier rest then Token.idHash else Token.hash)).behind 1
    else .plain 1 (.delim '#') := rfl
  have hname : startsName (p ++ s) = true → (readName (p ++ s)).length ≤ p.length := by
    intro hs
    rw [hhash, if_pos hs, Reading.behind_length, Reading.map_length] at hle
    omega
  rw [hhash, hhash, h.startsName_eq hname]
  split
  · rename_i hs
    rw [h.readName_eq (hname hs), h.startsIdentifier_eq fun _ => hname hs]
  · rfl

theorem readAtKeyword_eq (h : Alike s t) {p : List Char}
    (hle : (readAtKeyword (p ++ s)).length ≤ p.length + 1) :
    readAtKeyword (p ++ t) = readAtKeyword (p ++ s) := by
  have hname : startsIdentifier (p ++ s) = true → (readName (p ++ s)).length ≤ p.length := by
    intro hs
    rw [readAtKeyword, if_pos hs, Reading.behind_length, Reading.map_length] at hle
    omega
  rw [readAtKeyword, readAtKeyword, h.startsIdentifier_eq hname]
  split
  · rename_i hs
    rw [h.readName_eq (hname hs)]
  · rfl

theorem readHyphen_eq (h : Alike s t) {p : List Char}
    (hle : (readHyphen (p ++ s)).length ≤ p.length + 1) :
    readHyphen (p ++ t) = readHyphen (p ++ s) := by
  have hnumeral := h.startsNumeral_eq '-' (p := p) fun hs => by
    rw [List.cons_append] at hs ⊢
    rw [readHyphen, if_pos hs] at hle
    exact Nat.le_trans (readNumeral_length_le_readNumber _) hle
  rw [List.cons_append, List.cons_append] at hnumeral
  unfold readHyphen at hle ⊢
  rw [hnumeral]
  refine ite_eq_ite_of_length hle (h.readNumber_eq '-') fun hle => ?_
  have hmark : ['-', '>'].isPrefixOf (p ++ s) = true → ['-', '>'].length ≤ p.length := by
    intro hs
    rw [if_pos hs, Reading.plain_length] at hle
    exact Nat.le_of_succ_le_succ hle
  rw [h.isPrefixOf_eq (List.all_eq_true.mp rfl) hmark]
  refine ite_eq_ite_of_length hle (fun _ => rfl) fun hle => ?_
  have hident := h.startsIdentifier_eq (p := '-' :: p) fun hs => by
    rw [List.cons_append] at hs ⊢
    rw [if_pos hs] at hle
    exact Nat.le_trans (readName_length_le_readIdentLike _) hle
  rw [List.cons_append, List.cons_append] at hident
  rw [hident]
  exact ite_eq_ite_of_length hle (fun hle => h.readIdentLike_eq (p := '-' :: p) hle) fun _ => rfl

theorem readBackslash_eq (h : Alike s t) {p : List Char}
    (hle : (readBackslash (p ++ s)).length ≤ p.length + 1) :
    readBackslash (p ++ t) = readBackslash (p ++ s) := by
  have hescape := h.startsEscape_append (List.cons_ne_nil '\\' p)
  rw [List.cons_append, List.cons_append] at hescape
  unfold readBackslash at hle ⊢
  rw [hescape]
  exact ite_eq_ite_of_length hle (fun hle => h.readIdentLike_eq (p := '\\' :: p) hle) fun _ => rfl

theorem readPointOrPlus_eq (h : Alike s t) (c : Char) {p : List Char}
    (hle : (readPointOrPlus c (p ++ s)).length ≤ p.length + 1) :
    readPointOrPlus c (p ++ t) = readPointOrPlus c (p ++ s) := by
  have hnumeral := h.startsNumeral_eq c (p := p) fun hs => by
    rw [List.cons_append] at hs ⊢
    rw [readPointOrPlus, if_pos hs] at hle
    exact Nat.le_trans (readNumeral_length_le_readNumber _) hle
  rw [List.cons_append, List.cons_append] at hnumeral
  unfold readPointOrPlus at hle ⊢
  rw [hnumeral]
  exact ite_eq_ite_of_length hle (h.readNumber_eq c) fun _ => rfl

theorem readMark_eq (h : Alike s t) (c : Char) {p : List Char}
    (hle : (readMark c (p ++ s)).length ≤ p.length + 1) :
    readMark c (p ++ t) = readMark c (p ++ s) := by
  unfold readMark at hle ⊢
  split at hle
  · exact h.readHash_eq hle
  · exact h.readMatch_eq _ _ hle
  · exact h.readMatch_eq _ _ hle
  · exact h.readMatch_eq _ _ hle
  · exact h.readMatch_eq _ _ hle
  · exact h.readBar_eq hle
  · exact h.readPointOrPlus_eq _ hle
  · exact h.readPointOrPlus_eq _ hle
  · exact h.readHyphen_eq hle
  · exact h.readLess_eq hle
  · exact h.readAtKeyword_eq hle
  · exact h.readBackslash_eq hle
  · rfl

/-- **A token that ends before `s` stays what it is.** -/
theorem readToken_eq (h : Alike s t) {p : List Char}
    (hle : (readToken (p ++ s)).length ≤ p.length) : readToken (p ++ t) = readToken (p ++ s) := by
  cases p with
  | nil =>
    obtain ⟨c, rest, rfl⟩ := List.exists_cons_of_ne_nil h.nonempty
    have hpos := readToken_length_pos c rest
    exact absurd hle (Nat.not_le.mpr hpos)
  | cons c p =>
    have hspan : countOf isWhitespace (c :: p ++ t) = countOf isWhitespace (c :: p ++ s) :=
      countOf_append_eq (countOf_append_le h.whitespace _) h.not_whitespace
    unfold readToken at hle ⊢
    simp only [List.cons_append] at hle hspan ⊢
    cases hpunctuation : punctuation? c with
    | some token => rfl
    | none =>
      rw [hpunctuation] at hle
      simp only at hle ⊢
      refine ite_eq_ite_of_length hle (fun _ => by rw [hspan]) fun hle => ?_
      refine ite_eq_ite_of_length hle (h.readQuoted_eq c) fun hle => ?_
      refine ite_eq_ite_of_length hle (h.readNumber_eq c) fun hle => ?_
      refine ite_eq_ite_of_length hle (fun hle => h.readIdentLike_eq (p := c :: p) hle) fun hle => ?_
      exact h.readMark_eq c hle

/-! ### Comments -/

theorem commentPiece_stable (h : Alike s t) : Stable commentPiece s t := by
  have heq (first : Char) (p : List Char) : commentPiece first (p ++ t) = commentPiece first (p ++ s) := by
    by_cases hstar : first = '*'
    · subst hstar
      rw [commentPiece_star, commentPiece_star, startsWith_append_of_eq h.slash p]
    · rw [commentPiece_plain hstar, commentPiece_plain hstar]
  constructor
  · intro first p q hq _
    rw [heq]
    exact hq
  · intro first p hnone
    rw [heq]
    exact hnone

theorem wholeComment_stable (h : Alike s t) : Stable wholeComment s t := by
  constructor
  · intro first p q hq hmore
    by_cases hslash : first = '/'
    · subst hslash
      cases p with
      | nil =>
        have hpos := wholeComment_more_pos hq
        exact absurd hmore (Nat.not_le.mpr hpos)
      | cons c p =>
        by_cases hstar : c = '*'
        · subst hstar
          -- The body ends inside `p`, so the comment is closed there.
          simp only [List.cons_append, wholeComment] at hq ⊢
          split at hq
          · rename_i hopen
            cases hq
            rw [List.isEmpty_iff, List.drop_eq_nil_iff, List.length_append] at hopen
            have hs := List.length_pos_iff.mpr h.nonempty
            simp only [List.length_cons] at hmore
            omega
          · cases hq
            simp only [List.length_cons] at hmore
            have hlt : covered (pieces commentPiece (p ++ s)) < p.length := by omega
            rw [pieces_eq_of_stable h.commentPiece_stable p (Nat.le_of_lt hlt)
              fun heq => absurd heq (Nat.ne_of_lt hlt), if_neg]
            rw [List.isEmpty_iff, List.drop_eq_nil_iff, List.length_append]
            omega
        · rw [List.cons_append, wholeComment_slash hstar] at hq
          contradiction
    · rw [wholeComment_plain hslash] at hq
      contradiction
  · intro first p hnone
    by_cases hslash : first = '/'
    · subst hslash
      cases p with
      | nil =>
        have hstar := h.not_startsWith_char (show joins '*' = true by decide)
        cases t with
        | nil => rfl
        | cons c t =>
          rw [startsWith_cons, beq_eq_false_iff_ne] at hstar
          exact wholeComment_slash hstar t
      | cons c p =>
        by_cases hstar : c = '*'
        · subst hstar
          simp only [List.cons_append, wholeComment] at hnone
          split at hnone <;> contradiction
        · rw [List.cons_append, wholeComment_slash hstar]
    · rw [wholeComment_plain hslash]

/-- The comments in front of a token stay what they are if they end before `s`. -/
theorem readComments_eq (h : Alike s t) {p : List Char}
    (hle : (readComments (p ++ s)).length ≤ p.length) :
    readComments (p ++ t) = readComments (p ++ s) := by
  have hpieces : pieces wholeComment (p ++ t) = pieces wholeComment (p ++ s) := by
    apply pieces_eq_of_stable h.wholeComment_stable p hle
    intro heq
    have hstop := pieces_drop_covered wholeComment (p ++ s)
    rw [heq, List.drop_left, pieces_wholeComment_eq_nil_iff] at hstop
    rw [pieces_wholeComment_eq_nil_iff]
    exact fun ht => hstop (h.comment ht)
  unfold readComments
  rw [hpieces]

/-! ### Lexemes -/

/-- **A lexeme that ends before `s` stays what it is.** -/
theorem frontLexeme_eq (h : Alike s t) {p : List Char}
    (hle : (frontLexeme (p ++ s)).text.length ≤ p.length) :
    frontLexeme (p ++ t) = frontLexeme (p ++ s) := by
  rw [frontLexeme_text_length] at hle
  have hcomments : (readComments (p ++ s)).length ≤ p.length := by omega
  have hafter (x : List Char) : (p ++ x).drop (readComments (p ++ s)).length =
      p.drop (readComments (p ++ s)).length ++ x := List.drop_append_of_le_length hcomments
  have hlength := List.length_drop (l := p) (i := (readComments (p ++ s)).length)
  unfold frontLexeme
  unfold afterComments at hle ⊢
  rw [h.readComments_eq hcomments, hafter, hafter, List.take_append_of_le_length hcomments,
    List.take_append_of_le_length hcomments]
  rw [hafter] at hle
  have htoken : (readToken (p.drop (readComments (p ++ s)).length ++ s)).length ≤
      (p.drop (readComments (p ++ s)).length).length := by omega
  rw [h.readToken_eq htoken, List.take_append_of_le_length htoken,
    List.take_append_of_le_length htoken]

end Alike

end CssUrls.Lexical
