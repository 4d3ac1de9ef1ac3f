import CssUrls.Proofs.Lexical.Alike

/-! Runs of code points as they are written.

A run is written code point by code point, each plain or behind a backslash (`SpellsRun`), where an escape
by number has one to six digits and may end with one white space. Which code points may be plain depends
on what the run is in; escapes are the same everywhere. What spells an escape is read as one
(`Escapes.escapePiece_eq`) and each escape that is read is spelled so (`exists_escapes`). Main statement:
`SpellsRun.exists_pieces`. -/
namespace CssUrls.Lexical
open Text

/-! ### Escapes -/

/-- Nothing, or one white space. -/
inductive OneBlank : List Char → Prop
  | none : OneBlank []
  | one {c : Char} (hc : isWhitespace c = true) : OneBlank [c]
  | pair : OneBlank ['\r', '\n']

/-- The white space that an escape takes from in front of a text: none if there is none, and otherwise one, for which
a carriage return is not parted from a line feed. -/
inductive Swallows : List Char → List Char → Prop
  | none {rest : List Char} (h : startsWith isWhitespace rest = false) : Swallows [] rest
  | one {c : Char} {rest : List Char} (hc : isWhitespace c = true)
      (hpair : c = '\r' → startsWith (· == '\n') rest = false) : Swallows [c] rest
  | pair {rest : List Char} : Swallows ['\r', '\n'] rest

/-- What may stand behind a backslash for a code point: itself, or its number. -/
inductive Escapes : Char → List Char → Prop
  | self {c : Char} (hhex : isHexDigit c = false) (hnewline : isNewline c = false) : Escapes c [c]
  | number {digits blank : List Char} (hdigits : ∀ d ∈ digits, isHexDigit d = true) (hne : digits ≠ [])
      (hle : digits.length ≤ 6) (hblank : OneBlank blank) :
      Escapes (scalar (hexValue digits)) (digits ++ blank)

/-- The text would be read as a further digit of the number. -/
def goesOn (more text : List Char) : Bool :=
  decide (more.length < 6) && more.all isHexDigit && startsWith isHexDigit text

/-- What stands for a run of code points. -/
inductive SpellsRun (plain : Char → Bool) : List Char → List Char → Prop
  | nil : SpellsRun plain [] []
  | plain {c : Char} {value text : List Char} (hc : plain c = true) (h : SpellsRun plain value text) :
    SpellsRun plain (c :: value) (c :: text)
  | escape {c : Char} {value more text : List Char} (hc : Escapes c more) (hmore : goesOn more text = false)
      (h : SpellsRun plain value text) : SpellsRun plain (c :: value) ('\\' :: (more ++ text))

variable {c : Char} {more rest : List Char}

theorem isWhitespace_iff : isWhitespace c = true ↔ c = ' ' ∨ c = '\t' ∨ c = '\n' ∨ c = '\r' ∨ c = '\x0c' := by
  simp only [isWhitespace, isNewline, Bool.or_eq_true, beq_iff_eq, or_assoc]

theorem isHexDigit_eq_false_of_isWhitespace (h : isWhitespace c = true) : isHexDigit c = false := by
  rw [isWhitespace_iff] at h
  rcases h with rfl | rfl | rfl | rfl | rfl <;> rfl

theorem isNewline_eq_false (h : isWhitespace c = false) : isNewline c = false := by
  rw [← Bool.not_eq_true] at h ⊢
  exact mt (isWhitespace_of_isNewline c) h

theorem isNewline_eq_false_of_isHexDigit (h : isHexDigit c = true) : isNewline c = false := by
  apply isNewline_eq_false
  rw [← Bool.not_eq_true]
  intro hwhite
  rw [isHexDigit_eq_false_of_isWhitespace hwhite] at h
  contradiction

theorem OneBlank.forall_mem {blank : List Char} (h : OneBlank blank) : ∀ c ∈ blank, isWhitespace c = true := by
  cases h with
  | none => simp
  | one hc => simpa using hc
  | pair => simp [show isWhitespace '\r' = true from rfl, show isWhitespace '\n' = true from rfl]

/-- Nothing in an escape closes a parenthesis or starts an escape, but its first code point may. -/
theorem Escapes.exists_cons (h : Escapes c more) :
    ∃ d tail, more = d :: tail ∧ isNewline d = false ∧
      ∀ e ∈ tail, isHexDigit e = true ∨ isWhitespace e = true := by
  cases h with
  | self hhex hnewline => exact ⟨c, [], rfl, hnewline, by simp⟩
  | @number digits blank hdigits hne hle hblank =>
    obtain ⟨d, tail, rfl⟩ := List.exists_cons_of_ne_nil hne
    obtain ⟨hd, htail⟩ := List.forall_mem_cons.mp hdigits
    refine ⟨d, tail ++ blank, rfl, isNewline_eq_false_of_isHexDigit hd, fun e he => ?_⟩
    rcases List.mem_append.mp he with he | he
    · exact .inl (htail e he)
    · exact .inr (hblank.forall_mem e he)

/-- Digits are read up to the sixth, or up to what is none. -/
theorem escapeDigits_append {digits : List Char} (hdigits : ∀ d ∈ digits, isHexDigit d = true)
    (hle : digits.length ≤ 6) (hend : digits.length < 6 → startsWith isHexDigit rest = false) :
    escapeDigits (digits ++ rest) = digits := by
  have hstop : (rest.take (6 - digits.length)).takeWhile isHexDigit = [] := by
    apply List.length_eq_zero_iff.mp
    by_cases hlt : digits.length < 6
    · exact countOf_eq_zero (startsWith_take (hend hlt) _)
    · rw [Nat.sub_eq_zero_of_le (Nat.not_lt.mp hlt)]
      rfl
  rw [escapeDigits, List.take_append, List.take_of_length_le hle, List.takeWhile_append_of_pos hdigits, hstop,
    List.append_nil]

theorem Swallows.oneBlank {blank : List Char} (h : Swallows blank rest) : OneBlank blank := by
  cases h with
  | none => exact .none
  | one hc => exact .one hc
  | pair => exact .pair

/-- What is swallowed is white space, of which none could be left. -/
theorem exists_swallows (text : List Char) :
    ∃ blank rest, text = blank ++ rest ∧ blank.length = swallowed text ∧ Swallows blank rest := by
  cases text with
  | nil => exact ⟨[], [], rfl, rfl, .none rfl⟩
  | cons c rest =>
    rw [swallowed_cons]
    split
    · rename_i hpair
      obtain ⟨rfl, hfeed⟩ := hpair
      cases rest with
      | nil => contradiction
      | cons d rest =>
        rw [startsWith_cons, beq_iff_eq] at hfeed
        subst hfeed
        exact ⟨['\r', '\n'], rest, rfl, rfl, .pair⟩
    · rename_i hpair
      split
      · have hfeed : c = '\r' → startsWith (· == '\n') rest = false := fun hreturn =>
          Bool.eq_false_iff.mpr fun hfeed => hpair ⟨hreturn, hfeed⟩
        exact ⟨[c], rest, rfl, rfl, .one ‹_› hfeed⟩
      · exact ⟨[], c :: rest, rfl, rfl, .none (Bool.eq_false_iff.mpr ‹_›)⟩

theorem swallowed_le_countOf (text : List Char) : swallowed text ≤ countOf isWhitespace text := by
  obtain ⟨blank, rest, rfl, hlength, hswallows⟩ := exists_swallows text
  rw [← hlength, countOf_append_of_forall hswallows.oneBlank.forall_mem]
  exact Nat.le_add_right ..

/-- Behind the white space that an escape ends with, more of it may be swallowed. -/
theorem OneBlank.exists_swallowed {blank : List Char} (h : OneBlank blank) (rest : List Char) :
    ∃ k, swallowed (blank ++ rest) = blank.length + k ∧ k ≤ countOf isWhitespace rest := by
  cases h with
  | none => exact ⟨swallowed rest, (Nat.zero_add _).symm, swallowed_le_countOf rest⟩
  | @one c hc =>
    rw [List.singleton_append, swallowed_cons]
    split
    · rename_i hpair
      have hwhite : startsWith isWhitespace rest = true := by
        cases rest with
        | nil => exact hpair.2
        | cons d rest =>
          rw [startsWith_cons, beq_iff_eq] at hpair
          rw [hpair.2]
          rfl
      exact ⟨1, rfl, countOf_pos hwhite⟩
    · exact ⟨0, rfl, Nat.zero_le _⟩
  | pair => exact ⟨0, rfl, Nat.zero_le _⟩

/-- **What spells an escape is read as one**, with the white space behind it that is swallowed. -/
theorem Escapes.escapePiece_eq (h : Escapes c more) (hrest : goesOn more rest = false) :
    ∃ k, escapePiece (more ++ rest) = ⟨some c, more.length + k⟩ ∧ k ≤ countOf isWhitespace rest := by
  cases h with
  | self hhex hnewline => exact ⟨0, escapePiece_plain hhex rest, Nat.zero_le _⟩
  | @number digits blank hdigits hne hle hblank =>
    obtain ⟨k, hswallowed, hk⟩ := hblank.exists_swallowed rest
    have hend : digits.length < 6 → startsWith isHexDigit (blank ++ rest) = false := by
      intro hlt
      cases hblank with
      | none =>
        rw [List.append_nil, goesOn, decide_eq_true hlt, List.all_eq_true.mpr hdigits] at hrest
        exact hrest
      | one hc =>
        rw [List.singleton_append, startsWith_cons]
        exact isHexDigit_eq_false_of_isWhitespace hc
      | pair => rfl
    obtain ⟨d, tail, rfl⟩ := List.exists_cons_of_ne_nil hne
    have hread := escapeDigits_append hdigits hle hend
    have hpiece := escapePiece_hex (hdigits d (List.mem_cons_self ..)) (tail ++ (blank ++ rest))
    rw [← List.cons_append, hread, List.drop_left, hswallowed, ← Nat.add_assoc] at hpiece
    exact ⟨k, by rw [List.append_assoc, hpiece, List.length_append], hk⟩

/-- A run that is shorter than it may be ends where its class does. -/
theorem startsWith_drop_takeWhile {inClass : Char → Bool} {n : Nat} {text : List Char}
    (h : ((text.take n).takeWhile inClass).length < n) :
    startsWith inClass (text.drop ((text.take n).takeWhile inClass).length) = false := by
  induction n generalizing text with
  | zero => contradiction
  | succ n ih =>
    cases text with
    | nil => rfl
    | cons c rest =>
      rw [List.take_succ_cons, List.takeWhile_cons] at h ⊢
      cases hc : inClass c with
      | false => exact hc
      | true =>
        rw [hc, if_pos rfl, List.length_cons] at h
        exact ih (Nat.lt_of_succ_lt_succ h)

/-- **An escape by number takes its digits and what is swallowed behind them.** -/
theorem exists_digits {c : Char} (hhex : isHexDigit c = true) (tail : List Char) :
    ∃ digits blank rest, c :: tail = digits ++ (blank ++ rest) ∧
      escapePiece (c :: tail) = ⟨some (scalar (hexValue digits)), digits.length + blank.length⟩ ∧
      (∀ d ∈ digits, isHexDigit d = true) ∧ digits ≠ [] ∧ digits.length ≤ 6 ∧
      (digits.length < 6 → startsWith isHexDigit (blank ++ rest) = false) ∧ Swallows blank rest := by
  have hdigits : ∀ d ∈ escapeDigits (c :: tail), isHexDigit d = true := List.all_eq_true.mp List.all_takeWhile
  have hne : escapeDigits (c :: tail) ≠ [] := by simp [escapeDigits, hhex]
  have hle : (escapeDigits (c :: tail)).length ≤ 6 :=
    Nat.le_trans (List.takeWhile_sublist _).length_le (List.length_take_le ..)
  have hend : (escapeDigits (c :: tail)).length < 6 →
      startsWith isHexDigit ((c :: tail).drop (escapeDigits (c :: tail)).length) = false :=
    startsWith_drop_takeWhile
  obtain ⟨behind, hbehind⟩ : escapeDigits (c :: tail) <+: c :: tail :=
    (List.takeWhile_prefix _).trans (List.take_prefix ..)
  rw [escapePiece_hex hhex]
  generalize escapeDigits (c :: tail) = digits at *
  rw [← hbehind, List.drop_left] at hend ⊢
  obtain ⟨blank, rest, rfl, hlength, hswallows⟩ := exists_swallows behind
  exact ⟨digits, blank, rest, rfl, by rw [hlength], hdigits, hne, hle, hend, hswallows⟩

/-- White space is no digit, and without it a number ends where no digit follows. -/
theorem goesOn_number {digits blank : List Char}
    (hend : digits.length < 6 → startsWith isHexDigit (blank ++ rest) = false) (hblank : OneBlank blank) :
    goesOn (digits ++ blank) rest = false := by
  rw [← Bool.not_eq_true, goesOn, Bool.and_eq_true, Bool.and_eq_true, decide_eq_true_eq, List.all_append,
    Bool.and_eq_true]
  intro h
  obtain ⟨⟨hlt, -, hall⟩, hhex⟩ := h
  cases blank with
  | nil =>
    rw [List.append_nil] at hlt
    exact Bool.noConfusion ((hend hlt).symm.trans hhex)
  | cons d blank =>
    have hwhite := hblank.forall_mem d (List.mem_cons_self ..)
    rw [List.all_cons, isHexDigit_eq_false_of_isWhitespace hwhite] at hall
    contradiction

/-- **Each escape that is read is spelled so**, and its number has no further digit. -/
theorem exists_escapes {text : List Char} (hne : text ≠ []) (hnewline : startsWith isNewline text = false) :
    ∃ c more rest, text = more ++ rest ∧ escapePiece text = ⟨some c, more.length⟩ ∧ Escapes c more ∧
      goesOn more rest = false := by
  obtain ⟨c, tail, rfl⟩ := List.exists_cons_of_ne_nil hne
  cases hhex : isHexDigit c with
  | false =>
    refine ⟨c, [c], tail, rfl, escapePiece_plain hhex tail, .self hhex hnewline, ?_⟩
    rw [goesOn, List.all_cons, hhex, Bool.false_and, Bool.and_false, Bool.false_and]
  | true =>
    obtain ⟨digits, blank, rest, htext, hpiece, hdigits, hpos, hle, hend, hswallows⟩ := exists_digits hhex tail
    refine ⟨_, digits ++ blank, rest, ?_, ?_, .number hdigits hpos hle hswallows.oneBlank,
      goesOn_number hend hswallows.oneBlank⟩
    · rw [htext, List.append_assoc]
    · rw [hpiece, List.length_append]

/-! ### Runs -/

theorem startsWhere_eq_nil {α : Type} {property : α → Bool} {n : Nat} {ps : List (Piece α)}
    (h : ∀ value ∈ ps.map Piece.value, property value = false) : startsWhere property n ps = [] := by
  induction ps generalizing n with
  | nil => rfl
  | cons p ps ih =>
    rw [startsWhere, h p.value (by simp), if_neg Bool.false_ne_true]
    exact ih fun value hvalue => h value (List.mem_cons_of_mem _ hvalue)

/-- A run of which each piece has a value is that, without fault. -/
theorem readRun_eq_plain {next : Char → List Char → Option (Piece (Option Char))} {value text : List Char}
    (h : (pieces next text).map Piece.value = value.map some) :
    readRun next text = .plain (covered (pieces next text)) (String.ofList value) := by
  have hfaults : startsWhere Option.isNone 0 (pieces next text) = [] := by
    apply startsWhere_eq_nil
    rw [h]
    intro v hv
    obtain ⟨c, -, rfl⟩ := List.mem_map.mp hv
    rfl
  have hspelled : spelled (pieces next text) = String.ofList value := by
    have hsplit : (fun p : Piece (Option Char) => p.value.getD replacement) =
        (fun v => v.getD replacement) ∘ Piece.value := rfl
    rw [spelled, hsplit, ← List.map_map, h, List.map_map]
    exact congrArg String.ofList (List.map_id _)
  rw [readRun, hspelled, hfaults]
  rfl

/-- Readers of runs take plain code points as they are, and escapes. -/
structure TakesRun (plain : Char → Bool) (next : Char → List Char → Option (Piece (Option Char))) : Prop where
  plain : ∀ c rest, plain c = true → next c rest = some ⟨some c, 0⟩
  escape : ∀ rest, startsWith isNewline rest = false → next '\\' rest = some (escapePiece rest)

/-- What spells something starts with a plain code point or a backslash. -/
theorem SpellsRun.startsWith_eq {plain inClass : Char → Bool} (hplain : ∀ c, plain c = true → inClass c = false)
    (hescape : inClass '\\' = false) {value text : List Char} (h : SpellsRun plain value text) (hne : text ≠ [])
    (rest : List Char) : startsWith inClass (text ++ rest) = false := by
  cases h with
  | nil => contradiction
  | plain hc h => exact hplain _ hc
  | escape hc hmore h => exact hescape

theorem goesOn_append {more text rest : List Char} (hmore : goesOn more text = false)
    (hrest : startsWith isHexDigit rest = false) : goesOn more (text ++ rest) = false := by
  cases text with
  | nil => rw [goesOn, List.nil_append, hrest, Bool.and_false]
  | cons c text => exact hmore

/-- **What spells a run is read as it**, whoever reads it, in front of what is no part of it. All that is read
beside it is white space that the last escape swallows. -/
theorem SpellsRun.exists_pieces {plain : Char → Bool} {next : Char → List Char → Option (Piece (Option Char))}
    (hnext : TakesRun plain next) (hplain : ∀ c, plain c = true → isWhitespace c = false)
    {value text : List Char} (h : SpellsRun plain value text) {rest : List Char}
    (hrest : startsWith isHexDigit rest = false) :
    ∃ ps k, pieces next (text ++ rest) = ps ++ pieces next (rest.drop k) ∧
      ps.map Piece.value = value.map some ∧ covered ps = text.length + k ∧
      k ≤ countOf isWhitespace rest := by
  induction h with
  | nil => exact ⟨[], 0, rfl, rfl, rfl, Nat.zero_le _⟩
  | @plain c value text hc h ih =>
    obtain ⟨ps, k, hpieces, hvalue, hcovered, hk⟩ := ih
    refine ⟨⟨some c, 0⟩ :: ps, k, ?_, ?_, ?_, hk⟩
    · rw [List.cons_append, pieces_cons_of_some (hnext.plain c _ hc), List.drop_zero, hpieces]
      rfl
    · rw [List.map_cons, hvalue]
      rfl
    · simp only [covered_cons, hcovered, List.length_cons, Piece.length]
      omega
  | @escape c value more text hc hmore h ih =>
    obtain ⟨d, tail, hcons, hnewline, -⟩ := hc.exists_cons
    have hfollows : startsWith isNewline (more ++ (text ++ rest)) = false := by
      rw [hcons]
      exact hnewline
    obtain ⟨j, hpiece, hj⟩ := hc.escapePiece_eq (goesOn_append hmore hrest)
    have hfound := hnext.escape _ hfollows
    rw [hpiece] at hfound
    have hdrop : (more ++ (text ++ rest)).drop (more.length + j) = (text ++ rest).drop j := by
      rw [← List.drop_drop, List.drop_left]
    rw [List.cons_append, List.append_assoc, pieces_cons_of_some hfound, hdrop]
    by_cases htext : text = []
    · -- Nothing of the run is left that could stand between the escape and white space behind it.
      subst htext
      cases h with
      | nil =>
        refine ⟨[⟨some c, more.length + j⟩], j, rfl, rfl, ?_, hj⟩
        simp only [covered_cons, covered_nil, List.append_nil, List.length_cons, Piece.length]
        omega
    · rw [countOf_eq_zero (h.startsWith_eq hplain rfl htext rest), Nat.le_zero] at hj
      subst hj
      obtain ⟨ps, k, hpieces, hvalue, hcovered, hk⟩ := ih
      refine ⟨⟨some c, more.length⟩ :: ps, k, ?_, ?_, ?_, hk⟩
      · rw [List.drop_zero, hpieces]
        rfl
      · rw [List.map_cons, hvalue]
        rfl
      · simp only [covered_cons, hcovered, List.length_cons, List.length_append, Piece.length]
        omega

end CssUrls.Lexical
