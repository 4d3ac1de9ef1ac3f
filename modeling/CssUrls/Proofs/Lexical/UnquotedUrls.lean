import CssUrls.Proofs.Lexical.Numbers
import CssUrls.Proofs.Lexical.Runs

/-! URLs without quotes, as they are written.

Where `url(` is read and no quote follows, the token goes on to the first closing parenthesis that no
backslash hides. It is a URL if a run of plain code points and escapes stands in front of that, with white
space on either side, and malformed if not. What reads a URL takes more behind a backslash than what passes
over a malformed one, but neither goes past a parenthesis that the other stops at (`beforeParen?_of_urlPiece`,
`remnantLength_eq_throughParen`). Main statement: `tokenize_unquotedUrl`. -/
namespace CssUrls.Lexical
open Text

/-! ### The closing parenthesis -/

/-- How many code points there are before the first closing parenthesis that is not hidden. A backslash hides
the code point behind it. -/
def beforeParen? : List Char → Option Nat
  | [] => none
  | '\\' :: _ :: rest => (beforeParen? rest).map (2 + ·)
  | c :: rest => if c = ')' then some 0 else (beforeParen? rest).map (1 + ·)

/-- How many code points there are up to that parenthesis and with it, or to the end of the text. -/
def throughParen (text : List Char) : Nat :=
  match beforeParen? text with
  | some n => n + 1
  | none => text.length

/-- Nothing in the text closes the parenthesis or hides what is behind it. -/
def Passed (front : List Char) : Prop :=
  ∀ rest, beforeParen? (front ++ rest) = (beforeParen? rest).map (front.length + ·)

variable {first c : Char} {text front body value more rest : List Char}

theorem beforeParen?_plain (hescape : c ≠ '\\') (hparen : c ≠ ')') (rest : List Char) :
    beforeParen? (c :: rest) = (beforeParen? rest).map (1 + ·) := by
  rw [beforeParen?, if_neg hparen]
  intro d tail h
  subst h
  contradiction

theorem map_add_map_add (m n : Nat) (o : Option Nat) : (o.map (n + ·)).map (m + ·) = o.map (m + n + ·) := by
  cases o with
  | none => rfl
  | some k => exact congrArg some (Nat.add_assoc ..).symm

theorem Passed.append {a b : List Char} (ha : Passed a) (hb : Passed b) : Passed (a ++ b) := by
  intro rest
  rw [List.append_assoc, ha, hb, map_add_map_add, List.length_append]

theorem passed_nil : Passed [] := by
  intro rest
  cases h : beforeParen? rest with
  | none => exact h
  | some n => exact h.trans (congrArg some (Nat.zero_add n).symm)

theorem passed_escape (c : Char) : Passed ['\\', c] := fun _ => rfl

theorem passed_of_forall (h : ∀ c ∈ front, c ≠ '\\' ∧ c ≠ ')') : Passed front := by
  induction front with
  | nil => exact passed_nil
  | cons c front ih =>
    obtain ⟨⟨hescape, hparen⟩, hfront⟩ := List.forall_mem_cons.mp h
    have hc : Passed [c] := beforeParen?_plain hescape hparen
    exact hc.append (ih hfront)

theorem passed_of_isWhitespace (h : ∀ c ∈ front, isWhitespace c = true) : Passed front := by
  apply passed_of_forall
  intro c hc
  exact ⟨ne_of_inClass (h c hc) rfl, ne_of_inClass (h c hc) rfl⟩

theorem Escapes.passed (h : Escapes c more) : Passed ('\\' :: more) := by
  obtain ⟨d, tail, rfl, -, htail⟩ := h.exists_cons
  apply (passed_escape d).append
  apply passed_of_forall
  intro e he
  rcases htail e he with hhex | hwhite
  · exact ⟨ne_of_inClass hhex rfl, ne_of_inClass hhex rfl⟩
  · exact ⟨ne_of_inClass hwhite rfl, ne_of_inClass hwhite rfl⟩

theorem throughParen_of_drop {n : Nat} (hle : n ≤ text.length)
    (h : beforeParen? text = (beforeParen? (text.drop n)).map (n + ·)) :
    throughParen text = n + throughParen (text.drop n) := by
  rw [throughParen, throughParen, h]
  cases beforeParen? (text.drop n) with
  | none =>
    show text.length = n + (text.drop n).length
    rw [List.length_drop, Nat.add_sub_cancel' hle]
  | some k => rfl

theorem Passed.throughParen_append (h : Passed front) (rest : List Char) :
    throughParen (front ++ rest) = front.length + throughParen rest := by
  have hle : front.length ≤ (front ++ rest).length := (List.prefix_append front rest).length_le
  have hfront : beforeParen? (front ++ rest) =
      (beforeParen? ((front ++ rest).drop front.length)).map (front.length + ·) := by
    rw [List.drop_left]
    exact h rest
  have hthrough := throughParen_of_drop hle hfront
  rwa [List.drop_left] at hthrough

theorem drop_of_beforeParen? {n : Nat} (h : beforeParen? text = some n) : ∃ rest, text.drop n = ')' :: rest := by
  induction text using beforeParen?.induct generalizing n with
  | case1 => contradiction
  | case2 c rest ih =>
    obtain ⟨k, hk, rfl⟩ := Option.map_eq_some_iff.mp h
    rw [Nat.add_comm]
    exact ih hk
  | case3 rest =>
    cases h
    exact ⟨rest, rfl⟩
  | case4 c rest hnot hparen ih =>
    rw [beforeParen?, if_neg hparen] at h
    · obtain ⟨k, hk, rfl⟩ := Option.map_eq_some_iff.mp h
      rw [Nat.add_comm]
      exact ih hk
    · exact hnot

/-! ### How far the readers go -/

/-- **A code point of a URL ends in front of the parenthesis or is none of what hides it.** -/
theorem beforeParen?_of_urlPiece {p : Piece (Option Char)} (h : urlPiece first rest = some p) :
    beforeParen? (first :: rest) = (beforeParen? (rest.drop p.more)).map (p.length + ·) := by
  by_cases hescape : first = '\\'
  · subst hescape
    rw [urlPiece_escape] at h
    split at h
    · contradiction
    · rename_i hnewline
      cases h
      by_cases hrest : rest = []
      · subst hrest
        rfl
      · obtain ⟨c, more, behind, rfl, hpiece, hc, -⟩ := exists_escapes hrest (Bool.eq_false_iff.mpr hnewline)
        rw [hpiece, List.drop_left]
        exact hc.passed behind
  · rw [urlPiece_plain hescape] at h
    split at h
    · contradiction
    · rename_i hplain
      cases h
      apply beforeParen?_plain hescape
      intro hparen
      subst hparen
      exact hplain rfl

theorem beforeParen?_urlPieces (text : List Char) :
    beforeParen? text = (beforeParen? (text.drop (covered (pieces urlPiece text)))).map
      (covered (pieces urlPiece text) + ·) := by
  induction text using pieces_induction urlPiece with
  | nil =>
    rw [pieces_nil]
    rfl
  | stop first rest hnone =>
    rw [pieces_cons_of_none hnone]
    exact passed_nil (first :: rest)
  | step first rest p hp ih =>
    rw [beforeParen?_of_urlPiece hp, pieces_cons_of_some hp, covered_cons, ← List.drop_drop, drop_length_cons,
      ← map_add_map_add, ← ih]

/-- **What passes over a malformed URL stops at that parenthesis.** -/
theorem remnantLength_eq_throughParen (text : List Char) : remnantLength text = throughParen text := by
  have hnil : remnantLength [] = 0 := by
    rw [remnantLength, pieces_nil]
    rfl
  induction text using beforeParen?.induct with
  | case1 => exact hnil
  | case2 c rest ih =>
    rw [remnantLength_of_some (remnantPiece_escape c rest)]
    exact (congrArg (2 + ·) ih).trans ((passed_escape c).throughParen_append rest).symm
  | case3 rest => exact remnantLength_closed rest
  | case4 c rest hnot hparen ih =>
    by_cases hescape : c = '\\'
    · -- A backslash that is the last of the text hides nothing.
      subst hescape
      cases rest with
      | nil => exact (remnantLength_of_some rfl).trans (congrArg (1 + ·) hnil)
      | cons d rest => exact absurd rfl (hnot d rest rfl)
    · have hc : Passed [c] := beforeParen?_plain hescape hparen
      rw [remnantLength_of_some (remnantPiece_plain hescape hparen rest)]
      exact (congrArg (1 + ·) ih).trans (hc.throughParen_append rest).symm

/-- The blanks at the front of a text are passed. -/
theorem throughParen_dropWhile (text : List Char) :
    throughParen text = countOf isWhitespace text + throughParen (text.dropWhile isWhitespace) := by
  have hblank : Passed (text.takeWhile isWhitespace) :=
    passed_of_isWhitespace (List.all_eq_true.mp List.all_takeWhile)
  have hthrough := hblank.throughParen_append (text.dropWhile isWhitespace)
  rwa [List.takeWhile_append_dropWhile] at hthrough

theorem readUrlEnd_length (url : String) (text : List Char) :
    (readUrlEnd url text).length = throughParen text := by
  rw [throughParen_dropWhile]
  cases hdrop : text.dropWhile isWhitespace with
  | nil =>
    rw [← drop_countOf] at hdrop
    rw [readUrlEnd_end url hdrop]
    rfl
  | cons c rest =>
    rw [← drop_countOf] at hdrop
    by_cases hc : c = ')'
    · subst hc
      rw [readUrlEnd_closed url hdrop]
      rfl
    · rw [readUrlEnd_broken url hc hdrop, remnantLength_eq_throughParen]

theorem readUrl_length (text : List Char) : (readUrl text).length = throughParen text := by
  have hle : covered (pieces urlPiece text) ≤ text.length := readRun_length_le urlPiece_bounded text
  rw [throughParen_of_drop hle (beforeParen?_urlPieces text)]
  exact congrArg (_ + ·) (readUrlEnd_length ..)

/-! ### What they read -/

/-- May stand for itself in a URL without quotes. -/
def isUrlPart (c : Char) : Bool :=
  c != '\\' && !(isWhitespace c || isQuote c || c == '(' || c == ')' || isNonPrintable c)

theorem SpellsRun.passed {url : List Char} (h : SpellsRun isUrlPart url body) : Passed body := by
  induction h with
  | nil => exact passed_nil
  | @plain c value text hc h ih =>
    have hpart : Passed [c] := by
      apply passed_of_forall
      intro d hd
      rw [List.mem_singleton] at hd
      subst hd
      exact ⟨ne_of_inClass hc rfl, ne_of_inClass hc rfl⟩
    exact hpart.append ih
  | escape hc hmore h ih => exact hc.passed.append ih

/-- What stands between the parentheses for a URL: a run of plain code points and escapes, with white space on
either side. -/
def SpellsArgument (url text : List Char) : Prop :=
  ∃ before body after, text = before ++ (body ++ after) ∧ (∀ c ∈ before, isWhitespace c = true) ∧
    SpellsRun isUrlPart url body ∧ ∀ c ∈ after, isWhitespace c = true

theorem urlPiece_of_ne (hescape : c ≠ '\\') (rest : List Char) :
    urlPiece c rest = if isUrlPart c then some ⟨some c, 0⟩ else none := by
  rw [urlPiece_plain hescape, isUrlPart, bne_iff_ne.mpr hescape, Bool.true_and]
  cases isWhitespace c || isQuote c || c == '(' || c == ')' || isNonPrintable c <;> rfl

theorem isWhitespace_of_isUrlPart (h : isUrlPart c = true) : isWhitespace c = false := by
  rw [← Bool.not_eq_true, isWhitespace_iff]
  rintro (rfl | rfl | rfl | rfl | rfl) <;> contradiction

theorem takesRun_urlPiece : TakesRun isUrlPart urlPiece where
  plain c rest hc := by
    rw [urlPiece_of_ne (ne_of_inClass hc rfl), if_pos hc]
  escape rest hnewline := by
    rw [urlPiece_escape, if_neg (Bool.eq_false_iff.mp hnewline)]

/-- A URL breaks off at white space and at a closing parenthesis. -/
theorem pieces_urlPiece_blank {blank : List Char} (hblank : ∀ c ∈ blank, isWhitespace c = true)
    (rest : List Char) : pieces urlPiece (blank ++ ')' :: rest) = [] := by
  cases blank with
  | nil => exact pieces_cons_of_none rfl
  | cons c blank =>
    have hc := hblank c (List.mem_cons_self ..)
    refine pieces_cons_of_none ?_
    rw [urlPiece_plain, hc]
    · rfl
    · exact ne_of_inClass hc rfl

/-- **What stands for a URL is read as it.** -/
theorem SpellsRun.readUrl_eq {url : List Char} (h : SpellsRun isUrlPart url body) {after : List Char}
    (hafter : ∀ c ∈ after, isWhitespace c = true) (rest : List Char) :
    readUrl (body ++ (after ++ ')' :: rest)) =
      .plain (body.length + (after.length + 1)) (.url (String.ofList url)) := by
  have hend : startsWith isHexDigit (after ++ ')' :: rest) = false := by
    cases after with
    | nil => rfl
    | cons c after =>
      rw [List.cons_append, startsWith_cons]
      exact isHexDigit_eq_false_of_isWhitespace (hafter c (List.mem_cons_self ..))
  have hcount (blank : List Char) (hblank : ∀ c ∈ blank, isWhitespace c = true) :
      countOf isWhitespace (blank ++ ')' :: rest) = blank.length := countOf_append_of_forall hblank _
  obtain ⟨ps, k, hpieces, hvalue, hcovered, hk⟩ :=
    h.exists_pieces takesRun_urlPiece (fun c => isWhitespace_of_isUrlPart) hend
  rw [hcount after hafter] at hk
  have hdrop : ∀ c ∈ after.drop k, isWhitespace c = true := fun c hc => hafter c (List.mem_of_mem_drop hc)
  rw [List.drop_append_of_le_length hk, pieces_urlPiece_blank hdrop, List.append_nil] at hpieces
  have hrun : readRun urlPiece (body ++ (after ++ ')' :: rest)) =
      .plain (body.length + k) (String.ofList url) := by
    rw [readRun_eq_plain (by rw [hpieces, hvalue]), hpieces, hcovered]
  have hbehind : (body ++ (after ++ ')' :: rest)).drop (body.length + k) = after.drop k ++ ')' :: rest := by
    rw [← List.drop_drop, List.drop_left, List.drop_append_of_le_length hk]
  have hclosed : (after.drop k ++ ')' :: rest).drop (countOf isWhitespace (after.drop k ++ ')' :: rest)) =
      ')' :: rest := by
    rw [hcount _ hdrop, List.drop_left]
  have hlength : body.length + k + (after.length - k + 1) = body.length + (after.length + 1) := by omega
  simp only [readUrl, hrun, Reading.plain, hbehind, readUrlEnd_closed _ hclosed, hcount _ hdrop,
    Reading.andThen, List.length_drop, hlength]
  rfl

/-- **What is read as a URL stands for it**, if more of the text follows. -/
theorem spellsRun_of_urlPieces (h : text.drop (covered (pieces urlPiece text)) ≠ []) :
    ∃ url, (pieces urlPiece text).map Piece.value = url.map some ∧
      SpellsRun isUrlPart url (text.take (covered (pieces urlPiece text))) := by
  induction text using pieces_induction urlPiece with
  | nil => exact absurd List.drop_nil h
  | stop first rest hnone =>
    rw [pieces_cons_of_none hnone]
    exact ⟨[], rfl, .nil⟩
  | step first rest p hp ih =>
    rw [pieces_cons_of_some hp, covered_cons] at h ⊢
    rw [← List.drop_drop, drop_length_cons] at h
    rw [List.take_add, drop_length_cons, Piece.length, List.take_succ_cons, List.cons_append]
    obtain ⟨url, hvalue, hurl⟩ := ih h
    by_cases hescape : first = '\\'
    · subst hescape
      rw [urlPiece_escape] at hp
      split at hp
      · contradiction
      · rename_i hnewline
        cases hp
        have hrest : rest ≠ [] := by
          intro hnil
          apply h
          rw [hnil, List.drop_nil, List.drop_nil]
        obtain ⟨c, more, behind, rfl, hpiece, hc, hmore⟩ := exists_escapes hrest (Bool.eq_false_iff.mpr hnewline)
        rw [hpiece, List.drop_left] at hvalue hurl ⊢
        rw [List.take_left]
        refine ⟨c :: url, by rw [List.map_cons, hvalue]; rfl, .escape hc ?_ hurl⟩
        rw [goesOn, Bool.and_eq_false_iff] at hmore ⊢
        exact hmore.imp_right fun hhex => startsWith_take hhex _
    · rw [urlPiece_of_ne hescape] at hp
      split at hp
      · cases hp
        exact ⟨first :: url, by rw [List.map_cons, hvalue]; rfl, .plain ‹_› hurl⟩
      · contradiction

theorem isQuote_of_isUrlPart (h : isUrlPart c = true) : isQuote c = false := by
  rw [← Bool.not_eq_true, isQuote, Bool.or_eq_true, beq_iff_eq, beq_iff_eq]
  rintro (rfl | rfl) <;> contradiction

theorem readUrlFunction_of_unquoted (name : String)
    (h : startsWith isQuote (text.dropWhile isWhitespace) = false) :
    readUrlFunction name text = (readUrl (text.dropWhile isWhitespace)).behind (countOf isWhitespace text) := by
  rw [← drop_countOf] at h ⊢
  exact if_neg (Bool.eq_false_iff.mp h)

/-- White space in front of a URL is skipped, and with it that behind an empty one. -/
theorem SpellsRun.exists_skipped {url : List Char} (h : SpellsRun isUrlPart url body) {after : List Char}
    (hafter : ∀ c ∈ after, isWhitespace c = true) (rest : List Char) :
    ∃ skipped kept, after = skipped ++ kept ∧
      countOf isWhitespace (body ++ (after ++ ')' :: rest)) = skipped.length ∧
      (body ++ (after ++ ')' :: rest)).dropWhile isWhitespace = body ++ (kept ++ ')' :: rest) ∧
      startsWith isQuote (body ++ (kept ++ ')' :: rest)) = false := by
  by_cases hne : body = []
  · subst hne
    refine ⟨after, [], (List.append_nil after).symm, ?_, ?_, rfl⟩
    · exact countOf_append_of_forall hafter (')' :: rest)
    · exact List.dropWhile_append_of_pos hafter
  · have hcount : countOf isWhitespace (body ++ (after ++ ')' :: rest)) = 0 :=
      countOf_eq_zero (h.startsWith_eq (fun c => isWhitespace_of_isUrlPart) rfl hne _)
    refine ⟨[], after, rfl, hcount, ?_, ?_⟩
    · rw [← drop_countOf, hcount, List.drop_zero]
    · exact h.startsWith_eq (fun c => isQuote_of_isUrlPart) rfl hne _

/-- **What stands between the parentheses for a URL is read as it.** -/
theorem SpellsArgument.readUrlFunction_eq {url argument : List Char} (h : SpellsArgument url argument)
    (name : String) (rest : List Char) :
    readUrlFunction name (argument ++ ')' :: rest) = .plain (argument.length + 1) (.url (String.ofList url)) := by
  obtain ⟨before, body, after, rfl, hbefore, hbody, hafter⟩ := h
  obtain ⟨skipped, kept, rfl, hcount, hdrop, hquote⟩ := hbody.exists_skipped hafter rest
  have hkept : ∀ c ∈ kept, isWhitespace c = true := fun c hc => hafter c (List.mem_append_right _ hc)
  rw [← hdrop, ← List.dropWhile_append_of_pos hbefore] at hquote
  rw [List.append_assoc, List.append_assoc body, readUrlFunction_of_unquoted name hquote,
    List.dropWhile_append_of_pos hbefore, hdrop, hbody.readUrl_eq hkept, countOf_append_of_forall hbefore, hcount]
  have hlength : before.length + skipped.length + (body.length + (kept.length + 1)) =
      (before ++ (body ++ (skipped ++ kept))).length + 1 := by
    simp only [List.length_append]
    omega
  rw [Reading.behind, Reading.plain, hlength]
  rfl

theorem SpellsArgument.passed {url argument : List Char} (h : SpellsArgument url argument) : Passed argument := by
  obtain ⟨before, body, after, rfl, hbefore, hbody, hafter⟩ := h
  exact (passed_of_isWhitespace hbefore).append (hbody.passed.append (passed_of_isWhitespace hafter))

/-- The text behind `url(` is that of a URL up to the parenthesis that closes it. -/
def SpellsUnquoted (url : String) (text : List Char) : Prop :=
  ∃ n, beforeParen? text = some n ∧ SpellsArgument url.toList (text.take n)

theorem spellsUnquoted_iff {url : String} : SpellsUnquoted url text ↔
    ∃ argument rest, text = argument ++ ')' :: rest ∧ SpellsArgument url.toList argument := by
  constructor
  · rintro ⟨n, hn, hargument⟩
    obtain ⟨rest, hrest⟩ := drop_of_beforeParen? hn
    exact ⟨text.take n, rest, by rw [← hrest, List.take_append_drop], hargument⟩
  · rintro ⟨argument, rest, rfl, hargument⟩
    refine ⟨argument.length, hargument.passed (')' :: rest), ?_⟩
    rwa [List.take_left]

theorem readUrlEnd_eq_url {url name : String} (h : (readUrlEnd name text).value = .url url) :
    url = name ∧ ∃ rest, text.dropWhile isWhitespace = ')' :: rest := by
  rw [← drop_countOf]
  cases hdrop : text.drop (countOf isWhitespace text) with
  | nil =>
    rw [readUrlEnd_end name hdrop] at h
    contradiction
  | cons c rest =>
    by_cases hc : c = ')'
    · subst hc
      rw [readUrlEnd_closed name hdrop] at h
      exact ⟨(Token.url.inj h).symm, rest, rfl⟩
    · rw [readUrlEnd_broken name hc hdrop] at h
      contradiction

/-- **Only what stands for a URL is read as one.** -/
theorem exists_of_readUrl {url : String} (h : (readUrl text).value = .url url) :
    ∃ body after rest, text = body ++ (after ++ ')' :: rest) ∧ SpellsRun isUrlPart url.toList body ∧
      ∀ c ∈ after, isWhitespace c = true := by
  obtain ⟨hurl, rest, hclose⟩ := readUrlEnd_eq_url h
  have hne : text.drop (covered (pieces urlPiece text)) ≠ [] := by
    intro hnil
    have hend : ([] : List Char).dropWhile isWhitespace = ')' :: rest := hnil ▸ hclose
    contradiction
  obtain ⟨run, hvalue, hrun⟩ := spellsRun_of_urlPieces hne
  rw [readRun_eq_plain hvalue] at hurl hclose
  subst hurl
  refine ⟨text.take (covered (pieces urlPiece text)),
    (text.drop (covered (pieces urlPiece text))).takeWhile isWhitespace, rest, ?_, ?_, ?_⟩
  · rw [← hclose, Reading.plain_length, List.takeWhile_append_dropWhile, List.take_append_drop]
  · show SpellsRun isUrlPart (String.ofList run).toList _
    rwa [String.toList_ofList]
  · exact List.all_eq_true.mp List.all_takeWhile

/-- A name that is `url` but for its letter case, the parenthesis that it opens, and what is behind that. -/
structure OpensArgument (text rest : List Char) : Prop where
  name : sameLetters (readName text).value "url" = true
  paren : text.drop (readName text).length = '(' :: rest

theorem isAlpha_of_toLower (h : c.toLower.isAlpha = true) : c.isAlpha = true := by
  unfold Char.toLower at h
  split at h
  · rename_i hupper
    have hisUpper : c.isUpper = true := decide_eq_true hupper
    show (c.isUpper || c.isLower) = true
    rw [hisUpper, Bool.true_or]
  · exact h

/-- A letter in front of a name, escaped or not, is where an identifier starts. -/
theorem startsIdentifier_of_namePiece {p : Piece (Option Char)} (h : namePiece first rest = some p)
    (hletter : (p.value.getD replacement).isAlpha = true) :
    first ≠ '-' ∧ startsIdentifier (first :: rest) = true := by
  by_cases hescape : first = '\\'
  · subst hescape
    refine ⟨by decide, ?_⟩
    rw [namePiece_escape] at h
    split at h
    · contradiction
    · rename_i hnewline
      rw [startsIdentifier, startsEscape, Bool.eq_false_iff.mpr hnewline]
      rfl
  · rw [namePiece_plain hescape] at h
    split at h
    · cases h
      have hhyphen : first ≠ '-' := ne_of_inClass hletter rfl
      refine ⟨hhyphen, ?_⟩
      rw [startsIdentifier_plain hhyphen hescape, isNameStart, show first.isAlpha = true from hletter]
      rfl
    · contradiction

/-- No number starts with such a name, and no mark. -/
theorem OpensArgument.startsIdentifier (h : OpensArgument text rest) :
    startsIdentifier text = true ∧ ['-', '-', '>'].isPrefixOf text = false := by
  have hletters : (readName text).value.toList.map Char.toLower = ['u', 'r', 'l'] := by
    have hlist := congrArg String.toList (beq_iff_eq.mp h.name)
    rw [lowercase, lowercase, String.toList_map, String.toList_map] at hlist
    exact hlist
  change (String.ofList _).toList.map _ = _ at hletters
  rw [String.toList_ofList] at hletters
  cases text with
  | nil =>
    rw [pieces_nil] at hletters
    contradiction
  | cons c behind =>
    cases hp : namePiece c behind with
    | none =>
      rw [pieces_cons_of_none hp] at hletters
      contradiction
    | some p =>
      rw [pieces_cons_of_some hp, List.map_cons, List.map_cons, List.cons.injEq] at hletters
      have hletter : (p.value.getD replacement).isAlpha = true := by
        apply isAlpha_of_toLower
        rw [hletters.1]
        rfl
      obtain ⟨hhyphen, hstarts⟩ := startsIdentifier_of_namePiece hp hletter
      refine ⟨hstarts, ?_⟩
      rw [List.isPrefixOf_cons_cons, beq_eq_false_iff_ne.mpr hhyphen.symm, Bool.false_and]

theorem readUrlFunction_eq_url_iff (name url : String)
    (hquote : startsWith isQuote (text.dropWhile isWhitespace) = false) :
    (readUrlFunction name text).value = .url url ↔ SpellsUnquoted url text := by
  rw [spellsUnquoted_iff]
  constructor
  · intro h
    rw [readUrlFunction_of_unquoted name hquote] at h
    obtain ⟨body, after, rest, hrest, hbody, hafter⟩ := exists_of_readUrl h
    refine ⟨text.takeWhile isWhitespace ++ (body ++ after), rest, ?_, _, body, after, rfl, ?_, hbody, hafter⟩
    · rw [List.append_assoc, List.append_assoc, ← hrest, List.takeWhile_append_dropWhile]
    · exact List.all_eq_true.mp List.all_takeWhile
  · rintro ⟨argument, rest, rfl, hargument⟩
    rw [hargument.readUrlFunction_eq]
    exact congrArg Token.url String.ofList_toList

theorem readUrlFunction_length (name : String)
    (hquote : startsWith isQuote (text.dropWhile isWhitespace) = false) :
    (readUrlFunction name text).length = throughParen text := by
  rw [readUrlFunction_of_unquoted name hquote, Reading.behind_length, readUrl_length, ← throughParen_dropWhile]

theorem readUrlFunction_eq_badUrl (name : String)
    (hquote : startsWith isQuote (text.dropWhile isWhitespace) = false)
    (h : ∀ url, (readUrlFunction name text).value ≠ .url url) : (readUrlFunction name text).value = .badUrl := by
  rw [readUrlFunction_of_unquoted name hquote] at h ⊢
  rcases readUrl_cases (text.dropWhile isWhitespace) with ⟨length, url, hread⟩ | ⟨length, position, hread, -⟩ |
    ⟨escapes, hread, -⟩
  · exact absurd (by rw [hread]; rfl) (h url)
  · rw [hread]
    rfl
  · rw [hread]
    rfl

/-- **Where `url(` is read without a quote behind it**, the token goes on through the first closing parenthesis
that is not hidden. It is a URL just where it is spelled as one up to that parenthesis, and malformed
elsewhere. -/
theorem tokenize_unquotedUrl {text rest : List Char} {span : Span} (h : span ∈ (tokenize text).spans)
    (hopens : OpensArgument (text.drop span.start) rest)
    (hquote : startsWith isQuote (rest.dropWhile isWhitespace) = false) :
    span.stop = span.start + (readName (text.drop span.start)).length + 1 + throughParen rest ∧
      (∀ url, span.token = .url url ↔ SpellsUnquoted url rest) ∧
      ((∀ url, ¬SpellsUnquoted url rest) → span.token = .badUrl) := by
  obtain ⟨htoken, hstop, -⟩ := readToken_of_mem_spans h
  obtain ⟨hstarts, hcdc⟩ := hopens.startsIdentifier
  rw [readToken_of_startsIdentifier hstarts hcdc, readIdentLike_opened hopens.paren, if_pos hopens.name]
    at htoken hstop
  have hvalue : span.token = (readUrlFunction (readName (text.drop span.start)).value rest).value := htoken
  refine ⟨?_, fun url => ?_, fun hnone => ?_⟩
  · rw [hstop, Reading.andThen_length, Reading.andThen_length, Reading.plain_length,
      readUrlFunction_length _ hquote]
    omega
  · rw [hvalue, readUrlFunction_eq_url_iff _ url hquote]
  · rw [hvalue]
    refine readUrlFunction_eq_badUrl _ hquote fun url hurl => hnone url ?_
    exact (readUrlFunction_eq_url_iff _ url hquote).mp hurl

/-- An escape that hides a parenthesis and one that is a number, between white space. -/
theorem tokenize_unquotedUrl_escapes :
    (tokenize "a url( a\\)\\62 c ) d".toList).spans = [⟨.ident "a", 0, 1⟩, ⟨.whitespace, 1, 2⟩,
        ⟨.url "a)bc", 2, 17⟩, ⟨.whitespace, 17, 18⟩, ⟨.ident "d", 18, 19⟩, ⟨.endOfFile, 19, 19⟩] ∧
      OpensArgument ("a url( a\\)\\62 c ) d".toList.drop 2) " a\\)\\62 c ) d".toList ∧
      startsWith isQuote (" a\\)\\62 c ) d".toList.dropWhile isWhitespace) = false ∧
      throughParen " a\\)\\62 c ) d".toList = 11 ∧ SpellsUnquoted "a)bc" " a\\)\\62 c ) d".toList := by
  have hspans : (tokenize "a url( a\\)\\62 c ) d".toList).spans = [⟨.ident "a", 0, 1⟩, ⟨.whitespace, 1, 2⟩,
      ⟨.url "a)bc", 2, 17⟩, ⟨.whitespace, 17, 18⟩, ⟨.ident "d", 18, 19⟩, ⟨.endOfFile, 19, 19⟩] := by
    decide +kernel
  have hspan : (⟨.url "a)bc", 2, 17⟩ : Span) ∈ (tokenize "a url( a\\)\\62 c ) d".toList).spans := by
    rw [hspans]
    exact List.mem_cons_of_mem _ (List.mem_cons_of_mem _ (List.mem_cons_self ..))
  have hopens : OpensArgument ("a url( a\\)\\62 c ) d".toList.drop 2) " a\\)\\62 c ) d".toList :=
    ⟨by decide +kernel, by decide +kernel⟩
  have hquote : startsWith isQuote (" a\\)\\62 c ) d".toList.dropWhile isWhitespace) = false := by decide +kernel
  obtain ⟨hstop, hurl, -⟩ := tokenize_unquotedUrl hspan hopens hquote
  have hname : (readName ("a url( a\\)\\62 c ) d".toList.drop 2)).length = 3 := by decide +kernel
  refine ⟨hspans, hopens, hquote, ?_, (hurl "a)bc").mp rfl⟩
  dsimp only at hstop
  rw [hname] at hstop
  omega

end CssUrls.Lexical
