import CssUrls.Proofs.Lexical.Lexemes

/-! What a token depends on behind it.

A token is settled by the text it takes and the few code points that were looked at behind it.
`Alike s t` says that those of `t` give the same answers as those of `s` wherever a token, an escape
or a comment ends before `s`. So the lexeme at the front of a text stays the same if the text behind
it goes on with `t` in place of `s` (`Alike.frontLexeme_eq`), wherever behind it that is. -/
namespace CssUrls.Lexical
open Text

/-- Taken by some token, escape or mark that could have ended in front of it. Names apart, these are
all such code points. -/
def joins (c : Char) : Bool :=
  isWhitespace c || isHexDigit c ||
    ['-', '+', '.', '=', '|', '(', '%', '>', '!', '*', '\\'].contains c

/-- No token that ends before `s` can tell if `t` stands there instead. -/
structure Alike (s t : List Char) : Prop where
  nonempty : s ≠ []
  whitespace : startsWith isWhitespace s = false
  quote : startsWith isQuote t = startsWith isQuote s
  slash : startsWith (· == '/') t = startsWith (· == '/') s
  identifier : startsIdentifier t = true → startsIdentifier s = true
  comment : ['/', '*'] <+: t → ['/', '*'] <+: s
  settled : startsWith joins t = false

variable {s t : List Char}

/-! ### Classes of the code point behind -/

theorem startsWith_mono {a b : Char → Bool} (hab : ∀ c, a c = true → b c = true) {text : List Char}
    (h : startsWith b text = false) : startsWith a text = false := by
  cases text with
  | nil => rfl
  | cons c rest =>
    rw [startsWith_cons] at h ⊢
    rw [← Bool.not_eq_true] at h ⊢
    exact fun ha => h (hab c ha)

theorem isWhitespace_of_isNewline (c : Char) (h : isNewline c = true) : isWhitespace c = true := by
  simp [isWhitespace, h]

theorem isHexDigit_of_isDigit (c : Char) (h : c.isDigit = true) : isHexDigit c = true := by
  simp [isHexDigit, hexDigit?, h]

theorem classes_of_isQuote {quote : Char} (h : isQuote quote = true) :
    isWhitespace quote = false ∧ isHexDigit quote = false ∧ quote ≠ '\\' ∧ quote ≠ '/' := by
  rw [isQuote, Bool.or_eq_true, beq_iff_eq, beq_iff_eq] at h
  obtain rfl | rfl := h <;> decide

namespace Alike

/-- The text `t` starts with no code point of a class that tokens take. -/
theorem not_startsWith (h : Alike s t) {inClass : Char → Bool}
    (hjoins : ∀ c, inClass c = true → joins c = true) : startsWith inClass t = false :=
  startsWith_mono hjoins h.settled

theorem not_startsWith_char (h : Alike s t) {c : Char} (hc : joins c = true) :
    startsWith (· == c) t = false :=
  h.not_startsWith fun d hd => by rw [beq_iff_eq.mp hd]; exact hc

theorem not_whitespace (h : Alike s t) : startsWith isWhitespace t = false :=
  h.not_startsWith fun c hc => by simp [joins, hc]

theorem not_hexDigit (h : Alike s t) : startsWith isHexDigit t = false :=
  h.not_startsWith fun c hc => by simp [joins, hc]

theorem not_digit (h : Alike s t) : startsWith Char.isDigit t = false :=
  h.not_startsWith fun c hc => by simp [joins, isHexDigit_of_isDigit c hc]

theorem not_newline (h : Alike s t) : startsWith isNewline t = false :=
  startsWith_mono isWhitespace_of_isNewline h.not_whitespace

theorem newline (h : Alike s t) : startsWith isNewline t = startsWith isNewline s := by
  rw [h.not_newline, startsWith_mono isWhitespace_of_isNewline h.whitespace]

theorem lineFeed (h : Alike s t) : startsWith (· == '\n') t = startsWith (· == '\n') s := by
  have hclass : ∀ c, (c == '\n') = true → isWhitespace c = true := by
    intro c hc
    rw [beq_iff_eq.mp hc]
    decide
  rw [startsWith_mono hclass h.whitespace, startsWith_mono hclass h.not_whitespace]

end Alike

/-! ### Behind a text

The front of `p ++ t` is that of `p ++ s` but where `p` is empty. -/

theorem startsWith_append_of_eq {inClass : Char → Bool}
    (h : startsWith inClass t = startsWith inClass s) (p : List Char) :
    startsWith inClass (p ++ t) = startsWith inClass (p ++ s) := by
  cases p with
  | nil => exact h
  | cons c p => rfl

theorem startsWith_append_of_not {inClass : Char → Bool} (h : startsWith inClass t = false)
    {p : List Char} (hp : startsWith inClass (p ++ t) = true) :
    startsWith inClass (p ++ s) = true := by
  cases p with
  | nil =>
    rw [List.nil_append, h] at hp
    contradiction
  | cons c p => exact hp

/-- A mark of joining code points stands before `t` only where it stands before `s`. -/
theorem Alike.isPrefixOf_append (h : Alike s t) {mark : List Char}
    (hmark : ∀ c ∈ mark, joins c = true) {p : List Char} (hp : mark.isPrefixOf (p ++ t) = true) :
    mark.isPrefixOf (p ++ s) = true := by
  induction mark generalizing p with
  | nil => rfl
  | cons m mark ih =>
    cases p with
    | nil =>
      have ht := h.not_startsWith_char (hmark m (List.mem_cons_self ..))
      cases t with
      | nil => contradiction
      | cons d t =>
        rw [startsWith_cons, beq_eq_false_iff_ne] at ht
        rw [List.nil_append, List.isPrefixOf_cons_cons, Bool.and_eq_true, beq_iff_eq] at hp
        exact absurd hp.1.symm ht
    | cons c p =>
      rw [List.cons_append, List.isPrefixOf_cons_cons, Bool.and_eq_true] at hp ⊢
      exact ⟨hp.1, ih (fun c hc => hmark c (List.mem_cons_of_mem m hc)) hp.2⟩

/-- A mark that ends before `s` stands there whatever follows it. -/
theorem isPrefixOf_append_of_length_le {mark p : List Char} (hle : mark.length ≤ p.length)
    (h : mark.isPrefixOf (p ++ s) = true) (t : List Char) : mark.isPrefixOf (p ++ t) = true := by
  rw [List.isPrefixOf_iff_prefix] at h ⊢
  exact (List.prefix_of_prefix_length_le h (List.prefix_append p s) hle).trans
    (List.prefix_append p t)

theorem exists_cons_drop {n : Nat} {p : List Char} (h : n < p.length) :
    ∃ c rest, p.drop n = c :: rest := by
  apply List.exists_cons_of_ne_nil
  rw [Ne, List.drop_eq_nil_iff]
  omega

/-! ### Identifiers -/

theorem startsIdentifier_plain {c : Char} (hhyphen : c ≠ '-') (hescape : c ≠ '\\')
    (rest : List Char) : startsIdentifier (c :: rest) = isNameStart c := by
  unfold startsIdentifier
  split
  · rename_i e
    cases e
    contradiction
  · rename_i e
    cases e
    contradiction
  · rfl

theorem startsIdentifier_hyphen {text : List Char} (h : startsIdentifier text = true) :
    startsIdentifier ('-' :: text) = true := by
  show (startsWith (fun c => isNameStart c || c == '-') text || startsEscape text) = true
  unfold startsIdentifier at h
  split at h
  · rfl
  · rw [h, Bool.or_true]
  · cases text with
    | nil => contradiction
    | cons c rest =>
      rw [startsWith_cons] at h ⊢
      rw [h]
      rfl

theorem startsName_of_hyphen {text : List Char} (h : startsIdentifier ('-' :: text) = true) :
    startsName text = true := by
  have hclass : startsWith (fun c => isNameStart c || c == '-') text = true ∨
      startsEscape text = true := Bool.or_eq_true _ _ ▸ h
  rcases hclass with hpart | hescape
  · cases text with
    | nil => contradiction
    | cons c rest =>
      rw [startsWith_cons, Bool.or_eq_true] at hpart
      rcases hpart with hpart | hpart <;> simp [startsName, isNamePart, hpart]
  · rw [startsName, hescape, Bool.or_true]

/-! ### Escapes -/

theorem startsWith_take {inClass : Char → Bool} {text : List Char} (h : startsWith inClass text = false)
    (n : Nat) : startsWith inClass (text.take n) = false := by
  cases n with
  | zero => rfl
  | succ n =>
    cases text with
    | nil => rfl
    | cons c rest => exact h

namespace Alike

theorem escapeDigits_eq (h : Alike s t) {p : List Char}
    (hle : (escapeDigits (p ++ s)).length ≤ p.length) :
    escapeDigits (p ++ t) = escapeDigits (p ++ s) := by
  unfold escapeDigits at hle ⊢
  rw [List.take_append] at hle ⊢
  rw [List.take_append]
  apply takeWhile_append_eq
  · have hsix : ((p.take 6 ++ s.take (6 - p.length)).takeWhile isHexDigit).length ≤ 6 := by
      rw [← List.take_append]
      exact Nat.le_trans (List.takeWhile_sublist _).length_le (List.length_take_le ..)
    rw [List.length_take]
    omega
  · exact startsWith_take h.not_hexDigit _

theorem swallowed_append (h : Alike s t) (p : List Char) : swallowed (p ++ t) = swallowed (p ++ s) := by
  cases p with
  | nil => exact (swallowed_eq_zero h.not_whitespace).trans (swallowed_eq_zero h.whitespace).symm
  | cons c p =>
    simp only [List.cons_append, swallowed_cons, startsWith_append_of_eq h.lineFeed p]

/-- An escape that ends before `s` stays what it is. -/
theorem escapePiece_eq (h : Alike s t) {p : List Char}
    (hle : (escapePiece (p ++ s)).more ≤ p.length) : escapePiece (p ++ t) = escapePiece (p ++ s) := by
  cases p with
  | nil =>
    obtain ⟨c, rest, rfl⟩ := List.exists_cons_of_ne_nil h.nonempty
    cases hc : isHexDigit c with
    | false =>
      rw [List.nil_append, escapePiece_plain hc] at hle
      contradiction
    | true =>
      rw [List.nil_append, escapePiece_hex hc] at hle
      have hpos : 0 < (escapeDigits (c :: rest)).length := by simp [escapeDigits, hc]
      simp only [List.length_nil] at hle
      omega
  | cons c p =>
    cases hc : isHexDigit c with
    | false => rw [List.cons_append, List.cons_append, escapePiece_plain hc, escapePiece_plain hc]
    | true =>
      rw [List.cons_append, escapePiece_hex hc, ← List.cons_append] at hle
      have hdigits : (escapeDigits (c :: p ++ s)).length ≤ (c :: p).length := by
        simp only at hle
        omega
      rw [List.cons_append, List.cons_append, escapePiece_hex hc, escapePiece_hex hc,
        ← List.cons_append, ← List.cons_append, h.escapeDigits_eq hdigits,
        List.drop_append_of_le_length hdigits, List.drop_append_of_le_length hdigits,
        h.swallowed_append]

theorem startsEscape_append (h : Alike s t) {p : List Char} (hp : p ≠ []) :
    startsEscape (p ++ t) = startsEscape (p ++ s) := by
  cases p with
  | nil => contradiction
  | cons c p =>
    by_cases hc : c = '\\'
    · subst hc
      simp only [List.cons_append, startsEscape, startsWith_append_of_eq h.newline p]
    · rw [List.cons_append, List.cons_append, startsEscape_cons hc, startsEscape_cons hc]

/-! ### Names -/

/-- The text `t` goes on with a name only where it starts with an identifier. -/
theorem startsIdentifier_of_startsName (h : Alike s t) (ht : startsName t = true) :
    startsIdentifier t = true := by
  cases t with
  | nil => contradiction
  | cons c rest =>
    have hjoins : joins c = false := h.settled
    have hc : c ≠ '\\' := by
      intro heq
      subst heq
      contradiction
    rw [startsName, startsEscape_cons hc, Bool.or_false, startsWith_cons] at ht
    have hstart : isNameStart c = true := by
      rw [isNamePart, Bool.or_eq_true, Bool.or_eq_true] at ht
      rcases ht with (ht | hdigit) | hhyphen
      · exact ht
      · rw [joins, isHexDigit_of_isDigit c hdigit, Bool.or_true, Bool.true_or] at hjoins
        contradiction
      · rw [beq_iff_eq.mp hhyphen] at hjoins
        contradiction
    exact startsIdentifier_of_isNameStart hstart rest

theorem startsName_mono (h : Alike s t) (ht : startsName t = true) : startsName s = true :=
  startsName_of_startsIdentifier (h.identifier (h.startsIdentifier_of_startsName ht))

theorem namePiece_stable (h : Alike s t) : Stable namePiece s t := by
  constructor
  · intro first p q hq hmore
    by_cases hfirst : first = '\\'
    · subst hfirst
      rw [namePiece_escape] at hq ⊢
      rw [startsWith_append_of_eq h.newline p]
      split at hq
      · contradiction
      · rename_i hnewline
        cases hq
        rw [if_neg hnewline, h.escapePiece_eq hmore]
    · rw [namePiece_plain hfirst] at hq ⊢
      exact hq
  · intro first p hnone
    by_cases hfirst : first = '\\'
    · subst hfirst
      rw [namePiece_escape] at hnone ⊢
      rw [startsWith_append_of_eq h.newline p]
      split at hnone
      · rw [if_pos ‹_›]
      · contradiction
    · rw [namePiece_plain hfirst] at hnone ⊢
      exact hnone

theorem readName_eq (h : Alike s t) {p : List Char} (hle : (readName (p ++ s)).length ≤ p.length) :
    readName (p ++ t) = readName (p ++ s) := by
  have hpieces : pieces namePiece (p ++ t) = pieces namePiece (p ++ s) := by
    apply pieces_eq_of_stable h.namePiece_stable p hle
    intro heq
    have hstop := pieces_drop_covered namePiece (p ++ s)
    rw [heq, List.drop_left, pieces_namePiece_eq_nil_iff] at hstop
    rw [pieces_namePiece_eq_nil_iff, ← Bool.not_eq_true]
    intro ht
    rw [h.startsName_mono ht] at hstop
    contradiction
  unfold readName readRun
  rw [hpieces]

theorem startsIdentifier_append_eq (h : Alike s t) {p : List Char} (hne : p ≠ []) (hp : p ≠ ['-']) :
    startsIdentifier (p ++ t) = startsIdentifier (p ++ s) := by
  obtain ⟨c, p, rfl⟩ := List.exists_cons_of_ne_nil hne
  by_cases hhyphen : c = '-'
  · subst hhyphen
    obtain ⟨d, p, rfl⟩ := List.exists_cons_of_ne_nil (l := p) fun hnil => hp (by rw [hnil])
    show (_ || startsEscape (d :: p ++ t)) = (_ || startsEscape (d :: p ++ s))
    rw [h.startsEscape_append (List.cons_ne_nil d p)]
    rfl
  · by_cases hescape : c = '\\'
    · subst hescape
      show startsEscape ('\\' :: p ++ t) = startsEscape ('\\' :: p ++ s)
      exact h.startsEscape_append (List.cons_ne_nil _ p)
    · rw [List.cons_append, List.cons_append, startsIdentifier_plain hhyphen hescape,
        startsIdentifier_plain hhyphen hescape]

/-- What starts an identifier before `t` does so before `s`. -/
theorem startsIdentifier_append (h : Alike s t) {p : List Char}
    (hp : startsIdentifier (p ++ t) = true) : startsIdentifier (p ++ s) = true := by
  by_cases hne : p = []
  · subst hne
    exact h.identifier hp
  · by_cases hhyphen : p = ['-']
    · subst hhyphen
      exact startsIdentifier_hyphen
        (h.identifier (h.startsIdentifier_of_startsName (startsName_of_hyphen hp)))
    · rw [← h.startsIdentifier_append_eq hne hhyphen]
      exact hp

/-- What starts an identifier that ends before `s` does so before `t`. -/
theorem startsIdentifier_append_of_le (h : Alike s t) {p : List Char}
    (hle : (readName (p ++ s)).length ≤ p.length) (hp : startsIdentifier (p ++ s) = true) :
    startsIdentifier (p ++ t) = true := by
  by_cases hne : p = []
  · subst hne
    have hpos := readName_length_pos_of_startsIdentifier hp
    exact absurd hle (Nat.not_le.mpr hpos)
  · by_cases hhyphen : p = ['-']
    · subst hhyphen
      have hone : namePiece '-' s = some ⟨some '-', 0⟩ := rfl
      have hlength : (readName (['-'] ++ s)).length = 1 + covered (pieces namePiece s) := by
        show covered (pieces namePiece ('-' :: s)) = _
        rw [pieces_cons_of_some hone]
        rfl
      have hname : startsName s = true := startsName_of_hyphen hp
      have hs : pieces namePiece s ≠ [] := by
        rw [Ne, pieces_namePiece_eq_nil_iff, hname]
        exact Bool.noConfusion
      have hpos := covered_pos hs
      rw [hlength, List.length_singleton] at hle
      omega
    · rw [h.startsIdentifier_append_eq hne hhyphen]
      exact hp

/-- Whether a name starts, which ends before `s`, is the same before `t`. -/
theorem startsName_eq (h : Alike s t) {p : List Char}
    (hle : startsName (p ++ s) = true → (readName (p ++ s)).length ≤ p.length) :
    startsName (p ++ t) = startsName (p ++ s) := by
  cases p with
  | nil =>
    have hs : startsName s = false := by
      rw [← Bool.not_eq_true]
      intro hs
      have hpos := covered_pos (show pieces namePiece s ≠ [] by
        rw [Ne, pieces_namePiece_eq_nil_iff, hs]
        exact Bool.noConfusion)
      exact absurd (hle hs) (Nat.not_le.mpr hpos)
    have ht : startsName t = false := by
      rw [← Bool.not_eq_true] at hs ⊢
      exact fun ht => hs (h.startsName_mono ht)
    exact ht.trans hs.symm
  | cons c p =>
    show (_ || startsEscape (c :: p ++ t)) = (_ || startsEscape (c :: p ++ s))
    rw [h.startsEscape_append (List.cons_ne_nil c p)]
    rfl

/-- Whether an identifier starts, which ends before `s`, is the same before `t`. -/
theorem startsIdentifier_eq (h : Alike s t) {p : List Char}
    (hle : startsIdentifier (p ++ s) = true → (readName (p ++ s)).length ≤ p.length) :
    startsIdentifier (p ++ t) = startsIdentifier (p ++ s) := by
  cases hs : startsIdentifier (p ++ s) with
  | true => exact h.startsIdentifier_append_of_le (hle hs) hs
  | false =>
    rw [← Bool.not_eq_true] at hs ⊢
    exact fun ht => hs (h.startsIdentifier_append ht)

/-! ### Strings -/

theorem quotedPiece_stable (h : Alike s t) (quote : Char) : Stable (quotedPiece quote) s t := by
  constructor
  · intro first p q hq hmore
    by_cases hfirst : first = '\\'
    · subst hfirst
      cases hnewline : startsWith isNewline (p ++ s) with
      | false =>
        have hnewline' := (startsWith_append_of_eq h.newline p).trans hnewline
        rw [quotedPiece_escape quote hnewline] at hq
        cases hq
        rw [quotedPiece_escape quote hnewline', h.escapePiece_eq hmore]
      | true =>
        cases p with
        | nil =>
          rw [List.nil_append, ← h.newline, h.not_newline] at hnewline
          contradiction
        | cons c p =>
          rw [List.cons_append] at hq ⊢
          rw [quotedPiece_newline quote hnewline] at hq ⊢
          rw [startsWith_append_of_eq h.lineFeed p]
          exact hq
    · rw [quotedPiece_plain quote hfirst] at hq ⊢
      exact hq
  · intro first p hnone
    by_cases hfirst : first = '\\'
    · subst hfirst
      cases hnewline : startsWith isNewline (p ++ s) with
      | false =>
        rw [quotedPiece_escape quote hnewline] at hnone
        contradiction
      | true =>
        cases hrest : p ++ s with
        | nil =>
          rw [hrest] at hnewline
          contradiction
        | cons c rest =>
          rw [hrest] at hnewline hnone
          rw [quotedPiece_newline quote hnewline] at hnone
          contradiction
    · rw [quotedPiece_plain quote hfirst] at hnone ⊢
      exact hnone

/-- A string that ends before `s` stays what it is. -/
theorem readQuoted_eq (h : Alike s t) (quote : Char) {p : List Char}
    (hle : (readQuoted quote (p ++ s)).length ≤ p.length + 1) :
    readQuoted quote (p ++ t) = readQuoted quote (p ++ s) := by
  have hstop := pieces_drop_covered (quotedPiece quote) (p ++ s)
  -- The string ends inside `p`: at its quote, or at a newline, with which `s` does not start.
  have hlt : covered (pieces (quotedPiece quote) (p ++ s)) < p.length := by
    have hs := List.length_pos_iff.mpr h.nonempty
    simp only [readQuoted] at hle
    generalize covered (pieces (quotedPiece quote) (p ++ s)) = n at *
    split at hle
    · rename_i hnil
      rw [List.drop_eq_nil_iff, List.length_append] at hnil
      simp only at hle
      omega
    · rename_i c rest hrest
      split at hle
      · simp only at hle
        omega
      · rename_i hquote
        simp only at hle
        have hne : n ≠ p.length := by
          intro heq
          subst heq
          rw [hrest] at hstop
          rw [List.drop_left] at hrest
          have hwhite := h.whitespace
          rw [hrest, startsWith_cons] at hwhite
          rcases stops_of_quotedPiece_eq_none (eq_none_of_pieces_eq_nil hstop) with hc | hc
          · exact hquote (beq_iff_eq.mpr hc)
          · rw [isWhitespace_of_isNewline c hc] at hwhite
            contradiction
        omega
  have hpieces : pieces (quotedPiece quote) (p ++ t) = pieces (quotedPiece quote) (p ++ s) :=
    pieces_eq_of_stable (h.quotedPiece_stable quote) p (Nat.le_of_lt hlt)
      fun heq => absurd heq (Nat.ne_of_lt hlt)
  obtain ⟨c, rest, hrest⟩ := exists_cons_drop hlt
  simp only [readQuoted, hpieces]
  rw [List.drop_append_of_le_length (Nat.le_of_lt hlt),
    List.drop_append_of_le_length (Nat.le_of_lt hlt), hrest]
  rfl

/-! ### URLs -/

theorem urlPiece_stable (h : Alike s t) : Stable urlPiece s t := by
  constructor
  · intro first p q hq hmore
    by_cases hfirst : first = '\\'
    · subst hfirst
      rw [urlPiece_escape] at hq ⊢
      rw [startsWith_append_of_eq h.newline p]
      split at hq
      · contradiction
      · rename_i hnewline
        cases hq
        rw [if_neg hnewline, h.escapePiece_eq hmore]
    · rw [urlPiece_plain hfirst] at hq ⊢
      exact hq
  · intro first p hnone
    by_cases hfirst : first = '\\'
    · subst hfirst
      rw [urlPiece_escape] at hnone ⊢
      rw [startsWith_append_of_eq h.newline p]
      split at hnone
      · rw [if_pos ‹_›]
      · contradiction
    · rw [urlPiece_plain hfirst] at hnone ⊢
      exact hnone

theorem remnantPiece_stable (h : Alike s t) : Stable remnantPiece s t := by
  constructor
  · intro first p q hq hmore
    by_cases hescape : first = '\\'
    · subst hescape
      cases p with
      | nil =>
        obtain ⟨c, rest, rfl⟩ := List.exists_cons_of_ne_nil h.nonempty
        rw [List.nil_append, remnantPiece_escape] at hq
        cases hq
        contradiction
      | cons c p => exact hq
    · by_cases hparen : first = ')'
      · rw [remnantPiece_eq_none_iff.mpr hparen] at hq
        contradiction
      · rw [remnantPiece_plain hescape hparen] at hq ⊢
        exact hq
  · intro first p hnone
    rw [remnantPiece_eq_none_iff] at hnone ⊢
    exact hnone

/-- What is passed over of a malformed URL stays the same if that ends before `s`. -/
theorem remnantLength_eq (h : Alike s t) {p : List Char} (hle : remnantLength (p ++ s) ≤ p.length) :
    remnantLength (p ++ t) = remnantLength (p ++ s) := by
  have hlt : covered (pieces remnantPiece (p ++ s)) < p.length := by
    have hs := List.length_pos_iff.mpr h.nonempty
    simp only [remnantLength] at hle
    split at hle
    · rename_i hnil
      rw [List.isEmpty_iff, List.drop_eq_nil_iff, List.length_append] at hnil
      omega
    · omega
  have hpieces : pieces remnantPiece (p ++ t) = pieces remnantPiece (p ++ s) :=
    pieces_eq_of_stable h.remnantPiece_stable p (Nat.le_of_lt hlt)
      fun heq => absurd heq (Nat.ne_of_lt hlt)
  obtain ⟨c, rest, hrest⟩ := exists_cons_drop hlt
  simp only [remnantLength, hpieces]
  rw [List.drop_append_of_le_length (Nat.le_of_lt hlt),
    List.drop_append_of_le_length (Nat.le_of_lt hlt), hrest]
  rfl

/-- A URL whose end comes before `s` ends inside the text in front of it. -/
theorem readUrlEnd_eq (h : Alike s t) (url : String) {p : List Char}
    (hle : (readUrlEnd url (p ++ s)).length ≤ p.length) :
    readUrlEnd url (p ++ t) = readUrlEnd url (p ++ s) ∧ p ≠ [] := by
  have hs := List.length_pos_iff.mpr h.nonempty
  have hlt : countOf isWhitespace (p ++ s) < p.length := by
    cases hrest : (p ++ s).drop (countOf isWhitespace (p ++ s)) with
    | nil =>
      rw [readUrlEnd_end url hrest] at hle
      rw [List.drop_eq_nil_iff, List.length_append] at hrest
      simp only at hle
      omega
    | cons c rest =>
      by_cases hc : c = ')'
      · subst hc
        rw [readUrlEnd_closed url hrest] at hle
        exact hle
      · rw [readUrlEnd_broken url hc hrest] at hle
        have hpos := remnantLength_pos (List.cons_ne_nil c rest)
        simp only at hle
        omega
  have hblank := Nat.le_of_lt hlt
  have hcount := countOf_append_eq hblank h.not_whitespace
  obtain ⟨c, rest, hrest⟩ := exists_cons_drop hlt
  have hdrop (x : List Char) : (p ++ x).drop (countOf isWhitespace (p ++ s)) = c :: (rest ++ x) := by
    rw [List.drop_append_of_le_length hblank, hrest, List.cons_append]
  have hdrop' : (p ++ t).drop (countOf isWhitespace (p ++ t)) = c :: (rest ++ t) := by
    rw [hcount, hdrop]
  refine ⟨?_, List.ne_nil_of_length_pos (Nat.zero_lt_of_lt hlt)⟩
  by_cases hc : c = ')'
  · subst hc
    rw [readUrlEnd_closed url hdrop', readUrlEnd_closed url (hdrop s), hcount]
  · have hremnant : remnantLength (c :: rest ++ t) = remnantLength (c :: rest ++ s) := by
      apply h.remnantLength_eq
      rw [readUrlEnd_broken url hc (hdrop s)] at hle
      have hlength := congrArg List.length hrest
      rw [List.length_drop] at hlength
      simp only [List.cons_append] at hle ⊢
      omega
    rw [readUrlEnd_broken url hc hdrop', readUrlEnd_broken url hc (hdrop s), hcount,
      ← List.cons_append, hremnant, List.cons_append]

/-- A URL that ends before `s` stays what it is. -/
theorem readUrl_eq (h : Alike s t) {p : List Char} (hle : (readUrl (p ++ s)).length ≤ p.length) :
    readUrl (p ++ t) = readUrl (p ++ s) := by
  have hsum : (readRun urlPiece (p ++ s)).length + (readUrlEnd (readRun urlPiece (p ++ s)).value
      ((p ++ s).drop (readRun urlPiece (p ++ s)).length)).length ≤ p.length := hle
  have hrun : (readRun urlPiece (p ++ s)).length ≤ p.length := by omega
  rw [List.drop_append_of_le_length hrun] at hsum
  obtain ⟨hend, hne⟩ := h.readUrlEnd_eq (readRun urlPiece (p ++ s)).value
    (p := p.drop (readRun urlPiece (p ++ s)).length) (by rw [List.length_drop]; omega)
  have hlt : (readRun urlPiece (p ++ s)).length < p.length := by
    rw [Ne, List.drop_eq_nil_iff] at hne
    omega
  have hpieces : pieces urlPiece (p ++ t) = pieces urlPiece (p ++ s) :=
    pieces_eq_of_stable h.urlPiece_stable p hrun fun heq => absurd heq (Nat.ne_of_lt hlt)
  have hread : readRun urlPiece (p ++ t) = readRun urlPiece (p ++ s) := by
    unfold readRun
    rw [hpieces]
  simp only [readUrl, hread]
  rw [List.drop_append_of_le_length hrun, List.drop_append_of_le_length hrun, hend]

end Alike

/-! ### Marks -/

/-- **One mark is as good as another** for what is in front of it, if they open the same. -/
theorem alike_of_marks {c d : Char} (hwhite : isWhitespace c = false) (hquote : isQuote d = isQuote c)
    (hslash : (d == '/') = (c == '/')) (hname : isNameStart d = false) (hjoins : joins d = false)
    (hcomment : ['/', '*'] <+: d :: t → ['/', '*'] <+: c :: s) : Alike (c :: s) (d :: t) := by
  have hidentifier : startsIdentifier (d :: t) = false := by
    rw [startsIdentifier_plain, hname]
    · rintro rfl
      contradiction
    · rintro rfl
      contradiction
  constructor
  case nonempty => exact List.cons_ne_nil c s
  case whitespace => exact hwhite
  case quote => exact hquote
  case slash => exact hslash
  case identifier =>
    intro h
    rw [hidentifier] at h
    contradiction
  case comment => exact hcomment
  case settled => exact hjoins

end CssUrls.Lexical
