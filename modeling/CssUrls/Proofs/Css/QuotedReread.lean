import CssUrls.Proofs.Css.Spelling
import CssUrls.Proofs.Lexical.Lookahead
import CssUrls.Proofs.Lexical.Restart
import CssUrls.Proofs.Lexical.Runs
import CssUrls.Proofs.Segment.Constructs

/-! A written string or URL, read again.

What stands between the quotes reads as the text that was written, whatever that holds, with U+FFFD
for NUL. Main statements: `tokenize_inParts`, `lexemes_urlText`. -/
namespace CssUrls.Css
open Text Lexical

/-- What is read where a code point was written. -/
def withoutNul (c : Char) : Char := if c = '\x00' then replacement else c

/-! ### Hexadecimal escapes -/

/-- The numbers of ASCII, written and read. -/
theorem hexDigits_spec : ∀ n < 128, (hexDigits n).all isHexDigit = true ∧
    (hexDigits n).length ≤ 2 ∧ hexDigits n ≠ [] ∧ hexValue (hexDigits n) = n := by
  decide +kernel

theorem exists_hexDigit {n : Nat} (h : n < 128) :
    ∃ d ds, hexDigits n = d :: ds ∧ isHexDigit d = true := by
  obtain ⟨hhex, -, hne, -⟩ := hexDigits_spec n h
  obtain ⟨d, ds, hd⟩ := List.exists_cons_of_ne_nil hne
  exact ⟨d, ds, hd, List.all_eq_true.mp hhex d (by rw [hd]; exact List.mem_cons_self ..)⟩

theorem isControl_iff {c : Char} :
    isControl c = true ↔ 1 ≤ c.toNat ∧ c.toNat ≤ 31 ∨ c.toNat = 127 := by
  simp [isControl]

theorem isControl_of_isNewline {c : Char} (h : isNewline c = true) : isControl c = true := by
  rw [isNewline, Bool.or_eq_true, Bool.or_eq_true, beq_iff_eq, beq_iff_eq, beq_iff_eq] at h
  rcases h with (rfl | rfl) | rfl <;> decide

theorem scalar_toNat {c : Char} (h : 1 ≤ c.toNat) : scalar c.toNat = c := by
  rw [scalar, if_pos ⟨Nat.ne_of_gt h, c.valid⟩, Char.ofNat_toNat]

/-- A hexadecimal escape ends with the white space that is written behind it. -/
theorem escapePiece_hexEscape {c : Char} (hpos : 1 ≤ c.toNat) (hascii : c.toNat < 128) (rest : List Char) :
    escapePiece (hexDigits c.toNat ++ ' ' :: rest) = ⟨some c, (hexDigits c.toNat).length + 1⟩ := by
  obtain ⟨hhex, hlength, -, hvalue⟩ := hexDigits_spec c.toNat hascii
  have hdigits : escapeDigits (hexDigits c.toNat ++ ' ' :: rest) = hexDigits c.toNat :=
    escapeDigits_append (List.all_eq_true.mp hhex) (by omega) fun _ => rfl
  obtain ⟨d, ds, hd, hfirst⟩ := exists_hexDigit hascii
  have hpiece := escapePiece_hex hfirst (ds ++ ' ' :: rest)
  rw [← List.cons_append, ← hd, hdigits, hvalue, List.drop_left, scalar_toNat hpos] at hpiece
  rw [hpiece, swallowed_cons]
  rfl

/-! ### One code point -/

/-- A written code point is one piece of a string, which stands for it. -/
theorem exists_quotedPiece (c : Char) :
    ∃ first more, quotedChar c = first :: more ∧
      ∀ rest, quotedPiece '"' first (more ++ rest) = some ⟨some (withoutNul c), more.length⟩ := by
  by_cases hmark : c = '"' ∨ c = '\\'
  · refine ⟨'\\', [c], by rw [quotedChar, if_pos hmark], fun rest => ?_⟩
    have hplain : isHexDigit c = false ∧ isNewline c = false ∧ withoutNul c = c := by
      obtain rfl | rfl := hmark <;> decide
    obtain ⟨hhex, hnewline, hnul⟩ := hplain
    rw [List.singleton_append, quotedPiece_escape _ (by rw [startsWith_cons, hnewline]),
      escapePiece_plain hhex, hnul]
    rfl
  · by_cases hnul : c = '\x00'
    · subst hnul
      refine ⟨replacement, [], by decide, fun rest => ?_⟩
      rw [quotedPiece_plain _ (by decide)]
      rfl
    · have hsame : withoutNul c = c := if_neg hnul
      rw [hsame]
      by_cases hcontrol : isControl c = true
      · obtain ⟨hpos, hascii⟩ : 1 ≤ c.toNat ∧ c.toNat < 128 := by
          rw [isControl_iff] at hcontrol
          omega
        refine ⟨'\\', hexDigits c.toNat ++ [' '], ?_, fun rest => ?_⟩
        · rw [quotedChar, if_neg hmark, if_neg hnul, if_pos hcontrol]
          rfl
        · rw [List.append_assoc, List.singleton_append, quotedPiece_escape,
            escapePiece_hexEscape hpos hascii, List.length_append]
          · rfl
          · obtain ⟨d, ds, hd, hhex⟩ := exists_hexDigit hascii
            rw [hd, List.cons_append, startsWith_cons, isNewline_eq_false_of_isHexDigit hhex]
      · refine ⟨c, [], ?_, fun rest => ?_⟩
        · rw [quotedChar, if_neg hmark, if_neg hnul, if_neg hcontrol]
        · rw [quotedPiece_plain _ fun h => hmark (.inr h), if_neg]
          · rfl
          · rw [Bool.or_eq_true, beq_iff_eq]
            intro h
            rcases h with hquote | hnewline
            · exact hmark (.inl hquote)
            · exact hcontrol (isControl_of_isNewline hnewline)

/-- Nothing that changes in normal form is written. -/
theorem quotedChar_plain (c : Char) : ∀ d ∈ quotedChar c, d ≠ '\r' ∧ d ≠ '\x00' := by
  intro d hd
  unfold quotedChar at hd
  split at hd
  · rename_i hmark
    simp only [List.mem_cons, List.not_mem_nil, or_false] at hd
    obtain rfl | rfl := hmark <;> rcases hd with rfl | rfl <;> decide
  · split at hd
    · rw [List.mem_singleton] at hd
      subst hd
      decide
    · rename_i hnul
      split at hd
      · rename_i hcontrol
        rw [isControl_iff] at hcontrol
        obtain ⟨hhex, -⟩ := hexDigits_spec c.toNat (by omega)
        rw [hexEscape, List.mem_append, List.mem_cons, List.mem_singleton] at hd
        rcases hd with (rfl | hd) | rfl
        · decide
        · have hd := List.all_eq_true.mp hhex d hd
          constructor <;> rintro rfl <;> exact absurd hd (by decide)
        · decide
      · rename_i hcontrol
        rw [List.mem_singleton] at hd
        subst hd
        refine ⟨?_, hnul⟩
        intro heq
        subst heq
        exact hcontrol (by decide)

/-! ### Strings -/

theorem readQuoted_quoted (text rest : List Char) :
    readQuoted '"' (text.flatMap quotedChar ++ '"' :: rest) =
      ⟨.string (String.ofList (text.map withoutNul)), (quoted text).length, []⟩ := by
  have hpieces : ((pieces (quotedPiece '"') (text.flatMap quotedChar ++ '"' :: rest)).filterMap
        Piece.value = text.map withoutNul) ∧
      covered (pieces (quotedPiece '"') (text.flatMap quotedChar ++ '"' :: rest)) =
        (text.flatMap quotedChar).length := by
    induction text with
    | nil =>
      have hstop : pieces (quotedPiece '"') ('"' :: rest) = [] := pieces_cons_of_none (by
        rw [quotedPiece_plain _ (by decide)]
        rfl)
      exact ⟨by rw [List.flatMap_nil, List.nil_append, hstop]; rfl,
        by rw [List.flatMap_nil, List.nil_append, hstop]; rfl⟩
    | cons c text ih =>
      obtain ⟨first, more, hc, hpiece⟩ := exists_quotedPiece c
      rw [List.flatMap_cons, hc, List.append_assoc, List.cons_append,
        pieces_cons_of_some (hpiece _), List.drop_left]
      refine ⟨?_, ?_⟩
      · rw [List.filterMap_cons, ih.1]
        rfl
      · rw [covered_cons, ih.2, Piece.length, List.length_append, List.length_cons]
  simp only [readQuoted, hpieces.1, hpieces.2, List.drop_left]
  have hlength : (quoted text).length = 1 + (text.flatMap quotedChar).length + 1 := by
    simp only [quoted, List.length_cons, List.length_append, List.length_nil]
    omega
  rw [hlength]
  rfl

theorem readToken_quoted (text rest : List Char) :
    readToken (quoted text ++ rest) =
      ⟨.string (String.ofList (text.map withoutNul)), (quoted text).length, []⟩ := by
  rw [← readQuoted_quoted text rest, quoted, List.cons_append, List.append_assoc]
  rfl

/-- A string that is written part by part. -/
def writeInParts (parts : List (List Char)) : Write Unit := do
  writeChar '"'
  parts.forM writeQuotedPart
  writeChar '"'

/-- Where a string is cut makes no difference to what is written, wherever it is written to. -/
theorem writeInParts_eq (parts : List (List Char)) : writeInParts parts = writeQuoted parts.flatten := by
  have hpart (part : List Char) : writeQuotedPart part = writeChars (part.flatMap quotedChar) :=
    forM_writeChars part quotedChar
  have hflat : parts.flatMap (fun part => part.flatMap quotedChar) = parts.flatten.flatMap quotedChar := by
    rw [List.flatten_eq_flatMap, List.flatMap_assoc]
    rfl
  have hparts : parts.forM writeQuotedPart = writeQuotedPart parts.flatten := by
    rw [hpart, ← hflat, ← forM_writeChars, ← funext hpart]
  rw [writeInParts, hparts]
  rfl

/-- **A string that is written part by part is one token**, whatever its parts are and whatever is behind it. -/
theorem tokenize_inParts (parts : List (List Char)) (rest : List Char) :
    writeInParts parts = writeQuoted parts.flatten ∧
      let written := (writeInParts parts).text.toList
      (tokenize (written ++ rest)).spans =
          ⟨.string (String.ofList (parts.flatten.map withoutNul)), 0, written.length⟩ ::
            (tokenize rest).spans.map (Span.shift written.length) ∧
        (tokenize (written ++ rest)).faults = (tokenize rest).faults.map (Fault.shift written.length) := by
  have hwritten : (writeInParts parts).text.toList = quoted parts.flatten := by
    rw [writeInParts_eq, writeQuoted_eq, text_writeChars, String.toList_ofList]
  refine ⟨writeInParts_eq parts, ?_⟩
  rw [hwritten]
  exact tokenize_append (readComments_of_ne_slash (show '"' ≠ '/' by decide) _) (readToken_quoted _ rest)
    Token.noConfusion

/-! ### URLs -/

theorem sameLetters_self (name : String) : sameLetters name name = true := beq_self_eq_true _

theorem readName_url (rest : List Char) :
    readName ("url".toList ++ '(' :: rest) = ⟨"url", 3, []⟩ := by
  have hpieces : pieces namePiece ('u' :: 'r' :: 'l' :: '(' :: rest) =
      [⟨some 'u', 0⟩, ⟨some 'r', 0⟩, ⟨some 'l', 0⟩] := by
    rw [pieces_cons_of_some (show namePiece 'u' _ = some ⟨some 'u', 0⟩ from rfl), List.drop_zero,
      pieces_cons_of_some (show namePiece 'r' _ = some ⟨some 'r', 0⟩ from rfl), List.drop_zero,
      pieces_cons_of_some (show namePiece 'l' _ = some ⟨some 'l', 0⟩ from rfl), List.drop_zero,
      pieces_cons_of_none (show namePiece '(' _ = none from rfl)]
  show readRun namePiece ('u' :: 'r' :: 'l' :: '(' :: rest) = _
  rw [readRun, hpieces]
  rfl

/-- Where `url(` is read, the token is what it opens. -/
theorem readToken_urlFunction {rest : List Char} {n : Nat} {t : Token}
    (h : readUrlFunction "url" rest = .plain n t) : readToken ("url(".toList ++ rest) = .plain (4 + n) t := by
  have hname := readName_url rest
  have hread : readToken ("url(".toList ++ rest) = readIdentLike ("url".toList ++ '(' :: rest) := rfl
  rw [hread, readIdentLike_opened (by rw [hname]; rfl), hname, if_pos (sameLetters_self _), h]
  rfl

/-- The function that opens a written URL. -/
theorem readToken_url (text rest : List Char) :
    readToken ("url(".toList ++ (quoted text ++ rest)) = .plain 4 (.function "url") :=
  readToken_urlFunction (n := 0) rfl

/-! ### Lexemes -/

/-- **A written string is one lexeme**, wherever comments end before it. -/
theorem lexemes_quoted {gap : List Char} {text rest : List Char}
    (hgap : (readComments (gap ++ (quoted text ++ rest))).length = gap.length) :
    lexemes (gap ++ (quoted text ++ rest)) =
      ⟨gap, quoted text, .string (String.ofList (text.map withoutNul))⟩ :: lexemes rest :=
  lexemes_eq_cons_mk gap hgap (congrArg Reading.value (readToken_quoted text rest))
    (congrArg Reading.length (readToken_quoted text rest)) Token.noConfusion

/-- The lexemes of a written URL, behind comments. -/
def urlLexemes (gap : List Char) (url : List Char) : List Lexeme :=
  [⟨gap, "url(".toList, .function "url"⟩,
    ⟨[], quoted url, .string (String.ofList (url.map withoutNul))⟩, ⟨[], [')'], .closeParen⟩]

theorem textOf_urlLexemes (gap url : List Char) : textOf (urlLexemes gap url) = gap ++ urlText url := by
  simp [urlLexemes, urlText, Lexeme.text]

theorem spellsUrl_urlLexemes (gap url : List Char) :
    SpellsUrl (tokensOf (urlLexemes gap url)) (String.ofList (url.map withoutNul)) :=
  .quoted "url" _ 0 0 (sameLetters_self _)

/-- **A written URL has just these lexemes**, wherever comments end before it. -/
theorem lexemes_urlText {gap : List Char} {url rest : List Char}
    (hgap : (readComments (gap ++ (urlText url ++ rest))).length = gap.length) :
    lexemes (gap ++ (urlText url ++ rest)) = urlLexemes gap url ++ lexemes rest := by
  have htext : urlText url ++ rest = "url(".toList ++ (quoted url ++ ([')'] ++ rest)) := by
    simp [urlText]
  rw [htext] at hgap ⊢
  have hfunction : lexemes (gap ++ ("url(".toList ++ (quoted url ++ ([')'] ++ rest)))) =
      ⟨gap, "url(".toList, .function "url"⟩ :: lexemes (quoted url ++ ([')'] ++ rest)) :=
    lexemes_eq_cons_mk gap hgap (congrArg Reading.value (readToken_url url _))
      (congrArg Reading.length (readToken_url url _)) Token.noConfusion
  have hstring : lexemes (quoted url ++ ([')'] ++ rest)) =
      ⟨[], quoted url, .string (String.ofList (url.map withoutNul))⟩ :: lexemes ([')'] ++ rest) :=
    @lexemes_quoted [] url _ (congrArg Reading.length (readComments_of_ne_slash (show '"' ≠ '/' by decide) _))
  have hparen : readToken ([')'] ++ rest) = .plain 1 .closeParen := rfl
  have hclose : lexemes ([] ++ ([')'] ++ rest)) = ⟨[], [')'], .closeParen⟩ :: lexemes rest :=
    lexemes_eq_cons_mk [] (congrArg Reading.length (readComments_of_ne_slash (show ')' ≠ '/' by decide) _))
      (congrArg Reading.value hparen) (congrArg Reading.length hparen) Token.noConfusion
  rw [hfunction, hstring, ← List.nil_append ([')'] ++ rest), hclose]
  rfl

end CssUrls.Css
