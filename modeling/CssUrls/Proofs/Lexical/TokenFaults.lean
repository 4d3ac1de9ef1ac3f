import CssUrls.Proofs.Lexical.SpelledNumerals

/-! What can be wrong with a token.

A malformed token has the one fault that says so, and a lone backslash another. Apart from these a token
may hold a number out of range, and it may end with the text: inside of a string, or with a backslash
that has nothing to escape. Main statement: `readToken_reading`. -/
namespace CssUrls.Lexical
open Text

variable {α β : Type}

/-- Neither malformed nor a lone backslash. -/
def isSound : Token → Bool
  | .badString | .badUrl => false
  | .delim c => c != '\\'
  | _ => true

/-- The faults of a run of code points at the front of a text of `n`: none, or that of a backslash which
ends the text, and the run with it. -/
def StrayEscape (n length : Nat) (faults : List Fault) : Prop :=
  faults = [] ∨ 0 < n ∧ length = n ∧ faults = [⟨.invalidEscape, n - 1⟩]

/-- What the token at the front of a text of `n` code points can be read as, with its faults. -/
inductive TokenReading (n : Nat) : Reading Token → Prop
  | sound {token : Token} {length : Nat} {numbers escapes : List Fault} (htoken : isSound token = true)
      (hnumbers : ∀ f ∈ numbers, f = ⟨.numberOutOfRange, 0⟩) (hescapes : StrayEscape n length escapes) :
      TokenReading n ⟨token, length, numbers ++ escapes⟩
  | openString {value : String} : TokenReading n ⟨.string value, n, [⟨.unterminatedString, 0⟩]⟩
  | badString {length : Nat} : TokenReading n ⟨.badString, length, [⟨.newlineInString, length⟩]⟩
  | openUrl {escapes : List Fault} (hpos : 0 < n) (hescapes : StrayEscape n n escapes) :
      TokenReading n ⟨.badUrl, n, escapes ++ [⟨.unterminatedUrl, n⟩]⟩
  | badUrl {length position : Nat} (hpos : 0 < position) (hle : position ≤ length) :
      TokenReading n ⟨.badUrl, length, [⟨.invalidUrl, position⟩]⟩
  | backslash : TokenReading n ⟨.delim '\\', 1, [⟨.invalidEscape, 0⟩]⟩

variable {n : Nat} {token : Token}

theorem TokenReading.named (h : isSound token = true) {length : Nat} {faults : List Fault}
    (hfaults : StrayEscape n length faults) : TokenReading n ⟨token, length, faults⟩ := by
  rw [← List.nil_append faults]
  exact .sound h nofun hfaults

theorem TokenReading.plain (h : isSound token = true) (length : Nat) : TokenReading n (.plain length token) :=
  .named h (.inl rfl)

/-! ### Runs of code points -/

/-- Only a backslash that ends its list stands for nothing. -/
def EscapesLast (next : Char → List Char → Option (Piece (Option Char))) : Prop :=
  ∀ first rest p, next first rest = some p → p.value.isNone = true → rest = []

theorem eq_nil_of_escapePiece {text : List Char} (h : (escapePiece text).value.isNone = true) : text = [] := by
  cases text with
  | nil => rfl
  | cons c rest =>
    cases hc : isHexDigit c with
    | true =>
      rw [escapePiece_hex hc] at h
      contradiction
    | false =>
      rw [escapePiece_plain hc] at h
      contradiction

theorem namePiece_escapesLast : EscapesLast namePiece := by
  intro first rest p hp hnone
  by_cases hfirst : first = '\\'
  · subst hfirst
    rw [namePiece_escape] at hp
    split at hp
    · contradiction
    · cases hp
      exact eq_nil_of_escapePiece hnone
  · rw [namePiece_plain hfirst] at hp
    split at hp
    · cases hp
      contradiction
    · contradiction

theorem urlPiece_escapesLast : EscapesLast urlPiece := by
  intro first rest p hp hnone
  by_cases hfirst : first = '\\'
  · subst hfirst
    rw [urlPiece_escape] at hp
    split at hp
    · contradiction
    · cases hp
      exact eq_nil_of_escapePiece hnone
  · rw [urlPiece_plain hfirst] at hp
    split at hp
    · contradiction
    · cases hp
      contradiction

theorem startsWhere_isNone {next : Char → List Char → Option (Piece (Option Char))} (hbounded : Bounded next)
    (hlast : EscapesLast next) (text : List Char) :
    startsWhere Option.isNone 0 (pieces next text) = [] ∨
      0 < text.length ∧ covered (pieces next text) = text.length ∧
        startsWhere Option.isNone 0 (pieces next text) = [text.length - 1] := by
  induction text using pieces_induction next with
  | nil =>
    rw [pieces_nil]
    exact .inl rfl
  | stop first rest h =>
    rw [pieces_cons_of_none h]
    exact .inl rfl
  | step first rest p h ih =>
    have hmore := hbounded first rest p h
    rw [pieces_cons_of_some h, startsWhere, covered_cons]
    split
    · -- The backslash is the last code point, so there is no piece behind it.
      have hrest := hlast first rest p h ‹_›
      subst hrest
      have hnone : p.more = 0 := Nat.le_zero.mp hmore
      rw [List.drop_nil, pieces_nil]
      exact .inr ⟨Nat.one_pos, by rw [Piece.length, hnone]; rfl, rfl⟩
    · rw [Nat.add_comm 0, startsWhere_add]
      rcases ih with ih | ⟨hpos, hcovered, ih⟩
      · rw [ih]
        exact .inl rfl
      · right
        rw [List.length_drop] at hpos hcovered ih
        rw [ih, hcovered, Piece.length, List.length_cons]
        refine ⟨by omega, by omega, ?_⟩
        rw [List.map_cons, List.map_nil, List.cons.injEq]
        exact ⟨by omega, rfl⟩

/-- A run has no fault but that of a backslash which ends the text. -/
theorem readRun_strayEscape {next : Char → List Char → Option (Piece (Option Char))} (hbounded : Bounded next)
    (hlast : EscapesLast next) (text : List Char) :
    StrayEscape text.length (readRun next text).length (readRun next text).faults := by
  rcases startsWhere_isNone hbounded hlast text with hnone | ⟨hpos, hlength, hstray⟩
  · exact .inl (by rw [readRun, hnone]; rfl)
  · exact .inr ⟨hpos, hlength, by rw [readRun, hstray]; rfl⟩

theorem readName_strayEscape (text : List Char) :
    StrayEscape text.length (readName text).length (readName text).faults :=
  readRun_strayEscape namePiece_bounded namePiece_escapesLast text

theorem StrayEscape.behind {length : Nat} {faults : List Fault} (h : StrayEscape n length faults) (k : Nat) :
    StrayEscape (k + n) (k + length) (faults.map (Fault.shift k)) := by
  rcases h with rfl | ⟨hpos, rfl, rfl⟩
  · exact .inl rfl
  · refine .inr ⟨by omega, rfl, ?_⟩
    rw [Nat.add_sub_assoc hpos]
    rfl

/-- In front of other text a run has none. -/
theorem StrayEscape.eq_nil {length : Nat} {faults : List Fault} (h : StrayEscape n length faults)
    (hlt : length < n) : faults = [] := by
  rcases h with hnil | ⟨-, heq, -⟩
  · exact hnil
  · omega

/-! ### Numbers and strings -/

theorem Numeral.eq_of_mem_faults {n : Numeral} {f : Fault} (hf : f ∈ n.faults) : f = ⟨.numberOutOfRange, 0⟩ := by
  rw [faults_eq_append] at hf
  rcases List.mem_append.mp hf with hf | hf
  all_goals
    split at hf
    · exact List.mem_singleton.mp hf
    · contradiction

theorem readNumber_reading {text : List Char} (h : startsNumeral text = true) : TokenReading text.length (readNumber text) := by
  have hnumbers : ∀ f ∈ (readNumeric text).faults, f = ⟨.numberOutOfRange, 0⟩ := by
    rw [readNumeric_eq h]
    exact fun f => Numeral.eq_of_mem_faults
  have hle := readNumeric_length_le text
  simp only [readNumber]
  split
  · have hname := (readName_strayEscape (text.drop (readNumeric text).length)).behind (readNumeric text).length
    rw [List.length_drop, Nat.add_sub_cancel' hle] at hname
    exact .sound rfl hnumbers hname
  · split
    · exact .sound rfl hnumbers (.inl rfl)
    · rw [Reading.map, ← List.append_nil (readNumeric text).faults]
      exact .sound rfl hnumbers (.inl rfl)

theorem readQuoted_reading (quote : Char) (text : List Char) :
    TokenReading (text.length + 1) (readQuoted quote text) := by
  have hle := covered_pieces_le (quotedPiece_bounded quote) text
  simp only [readQuoted]
  split
  · rename_i hend
    rw [List.drop_eq_nil_iff] at hend
    rw [Nat.le_antisymm hle hend, Nat.add_comm 1]
    exact .openString
  · split
    · exact .plain rfl _
    · exact .badString

/-! ### URLs and names -/

/-- A URL that is not malformed has no faults, and one that is has its own last. -/
theorem readUrl_cases (text : List Char) :
    (∃ length url, readUrl text = .plain length (.url url)) ∨
      (∃ length position, readUrl text = ⟨.badUrl, length, [⟨.invalidUrl, position⟩]⟩ ∧ position ≤ length) ∨
      ∃ escapes, readUrl text = ⟨.badUrl, text.length, escapes ++ [⟨.unterminatedUrl, text.length⟩]⟩ ∧
        StrayEscape text.length text.length escapes := by
  have hrun := readRun_strayEscape urlPiece_bounded urlPiece_escapesLast text
  have hle := readRun_length_le urlPiece_bounded text
  have hblank := countOf_le isWhitespace (text.drop (readRun urlPiece text).length)
  rw [List.length_drop] at hblank
  cases hrest : (text.drop (readRun urlPiece text).length).drop
      (countOf isWhitespace (text.drop (readRun urlPiece text).length)) with
  | nil =>
    right; right
    have hend := hrest
    rw [List.drop_eq_nil_iff, List.length_drop] at hend
    have hlength : (readRun urlPiece text).length +
        countOf isWhitespace (text.drop (readRun urlPiece text).length) = text.length := by omega
    refine ⟨(readRun urlPiece text).faults, ?_, ?_⟩
    · rw [readUrl, readUrlEnd_end _ hrest, Reading.andThen, hlength]
      simp only [List.map_cons, List.map_nil, Fault.shift, hlength]
    · rcases hrun with hnil | ⟨hpos, -, hstray⟩
      · exact .inl hnil
      · exact .inr ⟨hpos, rfl, hstray⟩
  | cons c rest =>
    have hlt := congrArg List.length hrest
    rw [List.length_drop, List.length_drop, List.length_cons] at hlt
    have hnone := hrun.eq_nil (by omega)
    by_cases hc : c = ')'
    · subst hc
      refine .inl ⟨(readUrl text).length, (readRun urlPiece text).value, ?_⟩
      rw [readUrl, readUrlEnd_closed _ hrest, Reading.andThen, hnone]
      rfl
    · right; left
      rw [readUrl, readUrlEnd_broken _ hc hrest, Reading.andThen, hnone]
      exact ⟨_, _, rfl, Nat.le_add_right ..⟩

/-- Behind a name a URL is a token. -/
theorem readUrl_reading (text : List Char) {k : Nat} (hk : 0 < k) :
    TokenReading (k + text.length) ((readUrl text).behind k) := by
  rcases readUrl_cases text with ⟨length, url, heq⟩ | ⟨length, position, heq, hle⟩ | ⟨escapes, heq, hescapes⟩
  · rw [heq]
    exact .plain rfl _
  · rw [heq]
    exact .badUrl (Nat.add_pos_left hk _) (Nat.add_le_add_left hle k)
  · rw [heq, Reading.behind, List.map_append]
    exact .openUrl (Nat.add_pos_left hk _) (hescapes.behind k)

theorem readUrlFunction_reading (name : String) (text : List Char) {k : Nat} (hk : 0 < k) :
    TokenReading (k + text.length) ((readUrlFunction name text).behind k) := by
  have hle := countOf_le isWhitespace text
  simp only [readUrlFunction]
  split
  · exact .plain rfl _
  · have hurl := readUrl_reading (text.drop (countOf isWhitespace text)) (k := k + countOf isWhitespace text)
      (Nat.add_pos_left hk _)
    rw [List.length_drop, Nat.add_assoc, Nat.add_sub_cancel' hle] at hurl
    rw [Reading.behind_behind]
    exact hurl

theorem readIdentLike_reading (text : List Char) : TokenReading text.length (readIdentLike text) := by
  have hname := readName_strayEscape text
  cases hopen : text.drop (readName text).length with
  | nil =>
    rw [readIdentLike_plain (by rw [hopen]; rfl)]
    exact .named rfl hname
  | cons c rest =>
    by_cases hc : c = '('
    · subst hc
      have hlength := congrArg List.length hopen
      rw [List.length_drop, List.length_cons] at hlength
      have hnone := hname.eq_nil (by omega)
      have hopened : (readName text).andThen (.plain 1 ()) = .plain ((readName text).length + 1) () := by
        rw [Reading.andThen, hnone]
        rfl
      rw [readIdentLike_opened hopen, hopened]
      split
      · have hfunction := readUrlFunction_reading (readName text).value rest
          (k := (readName text).length + 1) (Nat.succ_pos _)
        have htotal : (readName text).length + 1 + rest.length = text.length := by omega
        rw [htotal] at hfunction
        exact hfunction
      · exact .plain rfl _
    · rw [readIdentLike_plain (by rw [hopen, startsWith_cons, beq_eq_false_iff_ne]; exact hc)]
      exact .named rfl hname

/-! ### Tokens -/

theorem readMatch_reading {mark : Char} (hmark : isSound (.delim mark) = true) (h : isSound token = true)
    (rest : List Char) : TokenReading n (readMatch mark token rest) := by
  unfold readMatch
  split
  · exact .plain h _
  · exact .plain hmark _

theorem readMark_reading (c : Char) (rest : List Char) : TokenReading (rest.length + 1) (readMark c rest) := by
  have hname {token : String → Token} (h : ∀ name, isSound (token name) = true) :
      TokenReading (rest.length + 1) (((readName rest).map token).behind 1) := by
    have hbehind := (readName_strayEscape rest).behind 1
    rw [Nat.add_comm 1 rest.length] at hbehind
    exact .named (h _) hbehind
  unfold readMark
  split
  · unfold readHash
    split
    · exact hname fun name => by split <;> rfl
    · exact .plain rfl _
  · exact readMatch_reading rfl rfl rest
  · exact readMatch_reading rfl rfl rest
  · exact readMatch_reading rfl rfl rest
  · exact readMatch_reading rfl rfl rest
  · unfold readBar
    split
    · exact .plain rfl _
    · exact readMatch_reading rfl rfl rest
  · unfold readPointOrPlus
    split
    · exact readNumber_reading ‹_›
    · exact .plain rfl _
  · unfold readPointOrPlus
    split
    · exact readNumber_reading ‹_›
    · exact .plain rfl _
  · unfold readHyphen
    split
    · exact readNumber_reading ‹_›
    · split
      · exact .plain rfl _
      · split
        · exact readIdentLike_reading ('-' :: rest)
        · exact .plain rfl _
  · unfold readLess
    split <;> exact .plain rfl _
  · unfold readAtKeyword
    split
    · exact hname fun name => rfl
    · exact .plain rfl _
  · unfold readBackslash
    split
    · exact readIdentLike_reading ('\\' :: rest)
    · exact .backslash
  · have hmark : isSound (.delim c) = true := bne_iff_ne.mpr ‹c = '\\' → False›
    exact .plain hmark 1

theorem punctuation?_isSound {c : Char} (h : punctuation? c = some token) : isSound token = true := by
  unfold punctuation? at h
  split at h <;> cases h <;> rfl

/-- **What can be wrong with the token at the front of a text.** -/
theorem readToken_reading (text : List Char) : TokenReading text.length (readToken text) := by
  unfold readToken
  split
  · exact .plain rfl _
  · split
    · exact .plain (punctuation?_isSound ‹_›) _
    · split
      · exact .plain rfl _
      · split
        · exact readQuoted_reading ..
        · split
          · exact readNumber_reading (startsNumeral_of_isDigit ‹_› _)
          · split
            · exact readIdentLike_reading _
            · exact readMark_reading ..

end CssUrls.Lexical
