import CssUrls.Proofs.Lexical.Lexemes

/-! What tokens decode holds no NUL.

In normal form a text has none, and no escape stands for it. Main statement: `nul_not_mem_decoded`. -/
namespace CssUrls.Lexical
open Text

/-- What a string or a URL is, decoded. -/
def decoded : Token → List Char
  | .string text | .url text => text.toList
  | _ => []

theorem scalar_ne_nul (n : Nat) : scalar n ≠ '\x00' := by
  unfold scalar
  split
  · rename_i h
    intro hnul
    have hvalue : (Char.ofNat n).toNat = n := by
      rw [Char.ofNat, dif_pos h.2]
      rfl
    rw [hnul] at hvalue
    exact h.1 hvalue.symm
  · decide

/-- No escape stands for NUL. -/
theorem escapePiece_value_ne_nul {text : List Char} (h : '\x00' ∉ text) :
    (escapePiece text).value ≠ some '\x00' := by
  cases text with
  | nil => exact (Option.some_ne_none _).symm
  | cons c rest =>
    cases hc : isHexDigit c with
    | true =>
      rw [escapePiece_hex hc]
      exact fun hnul => scalar_ne_nul _ (Option.some.inj hnul)
    | false =>
      rw [escapePiece_plain hc]
      intro hnul
      rw [Option.some.inj hnul] at h
      exact h (List.mem_cons_self ..)

theorem quotedPiece_value_ne_nul {quote first : Char} {rest : List Char} {p : Piece (Option Char)}
    (h : '\x00' ∉ first :: rest) (hp : quotedPiece quote first rest = some p) :
    p.value ≠ some '\x00' := by
  rw [List.mem_cons, not_or] at h
  unfold quotedPiece at hp
  split at hp
  · cases hp
    exact (Option.some_ne_none _).symm
  · split at hp
    · cases hp
      exact (Option.some_ne_none _).symm
    · cases hp
      exact escapePiece_value_ne_nul h.2
  · split at hp
    · contradiction
    · cases hp
      exact fun hnul => h.1 (Option.some.inj hnul).symm

theorem urlPiece_value_ne_nul {first : Char} {rest : List Char} {p : Piece (Option Char)}
    (h : '\x00' ∉ first :: rest) (hp : urlPiece first rest = some p) : p.value ≠ some '\x00' := by
  rw [List.mem_cons, not_or] at h
  unfold urlPiece at hp
  split at hp
  · split at hp
    · contradiction
    · cases hp
      exact escapePiece_value_ne_nul h.2
  · split at hp
    · contradiction
    · cases hp
      exact fun hnul => h.1 (Option.some.inj hnul).symm

/-- What holds of each piece that may be found in a text without NUL holds of all it is cut into. -/
theorem value_ne_nul_of_mem_pieces {next : Char → List Char → Option (Piece (Option Char))}
    (hnext : ∀ first rest p, '\x00' ∉ first :: rest → next first rest = some p →
      p.value ≠ some '\x00') {text : List Char} (h : '\x00' ∉ text) :
    ∀ p ∈ pieces next text, p.value ≠ some '\x00' := by
  induction text using pieces_induction next with
  | nil => simp [pieces_nil]
  | stop first rest hnone => simp [pieces_cons_of_none hnone]
  | step first rest p hp ih =>
    rw [pieces_cons_of_some hp, List.forall_mem_cons]
    refine ⟨hnext first rest p h hp, ih fun hmem => h ?_⟩
    exact List.mem_cons_of_mem first (List.mem_of_mem_drop hmem)

/-- What pieces spell holds no NUL if no piece stands for it. -/
theorem nul_not_mem_spelled {ps : List (Piece (Option Char))} (h : ∀ p ∈ ps, p.value ≠ some '\x00') :
    '\x00' ∉ (spelled ps).toList := by
  rw [spelled, String.toList_ofList, List.mem_map]
  rintro ⟨p, hp, hnul⟩
  cases hv : p.value with
  | none =>
    rw [hv] at hnul
    exact absurd hnul (by decide)
  | some c =>
    rw [hv] at hnul
    exact h p hp (hv.trans (congrArg some hnul))

/-! ### Names -/

theorem namePiece_value_ne_nul {first : Char} {rest : List Char} {p : Piece (Option Char)}
    (h : '\x00' ∉ first :: rest) (hp : namePiece first rest = some p) : p.value ≠ some '\x00' := by
  rw [List.mem_cons, not_or] at h
  unfold namePiece at hp
  split at hp
  · split at hp
    · contradiction
    · cases hp
      exact escapePiece_value_ne_nul h.2
  · split at hp
    · cases hp
      exact fun hnul => h.1 (Option.some.inj hnul).symm
    · contradiction

theorem nul_not_mem_readName {text : List Char} (h : '\x00' ∉ text) : '\x00' ∉ (readName text).value.toList :=
  nul_not_mem_spelled (value_ne_nul_of_mem_pieces (fun _ _ _ => namePiece_value_ne_nul) h)

/-! ### Tokens -/

theorem decoded_of_standsAlone {t : Token} (h : standsAlone t = true) : decoded t = [] := by
  cases t <;> first | rfl | contradiction

theorem nul_not_mem_decoded_readQuoted (quote : Char) {text : List Char} (h : '\x00' ∉ text) :
    '\x00' ∉ decoded (readQuoted quote text).value := by
  rcases readQuoted_value quote text with hvalue | hvalue
  · rw [hvalue]
    exact List.not_mem_nil
  · rw [hvalue, decoded, String.toList_ofList, List.mem_filterMap]
    intro h
    obtain ⟨p, hp, hnul⟩ := h
    exact value_ne_nul_of_mem_pieces (fun _ _ _ => quotedPiece_value_ne_nul) h p hp hnul

theorem nul_not_mem_decoded_readUrl {text : List Char} (h : '\x00' ∉ text) :
    '\x00' ∉ decoded (readUrl text).value := by
  show '\x00' ∉ decoded (readUrlEnd (readRun urlPiece text).value _).value
  simp only [readUrlEnd]
  split
  · exact List.not_mem_nil
  · exact nul_not_mem_spelled (value_ne_nul_of_mem_pieces (fun _ _ _ => urlPiece_value_ne_nul) h)
  · exact List.not_mem_nil

theorem nul_not_mem_decoded_readIdentLike {text : List Char} (h : '\x00' ∉ text) :
    '\x00' ∉ decoded (readIdentLike text).value := by
  simp only [readIdentLike]
  split
  · rename_i rest hrest
    split
    · show '\x00' ∉ decoded (readUrlFunction _ rest).value
      simp only [readUrlFunction]
      split
      · exact List.not_mem_nil
      · refine nul_not_mem_decoded_readUrl fun hmem => h ?_
        have hmem' : '\x00' ∈ text.drop (readName text).length := by
          rw [hrest]
          exact List.mem_cons_of_mem _ (List.mem_of_mem_drop hmem)
        exact List.mem_of_mem_drop hmem'
    · exact List.not_mem_nil
  · exact List.not_mem_nil

theorem nul_not_mem_decoded_readToken {text : List Char} (h : '\x00' ∉ text) :
    '\x00' ∉ decoded (readToken text).value := by
  cases text with
  | nil => exact List.not_mem_nil
  | cons c rest =>
    rcases readToken_cases c rest with ⟨-, hident⟩ | ⟨-, hquoted⟩ | halone
    · rw [hident]
      exact nul_not_mem_decoded_readIdentLike h
    · rw [hquoted]
      exact nul_not_mem_decoded_readQuoted c fun hmem => h (List.mem_cons_of_mem c hmem)
    · rw [decoded_of_standsAlone halone]
      exact List.not_mem_nil

/-- **No token of a text without NUL decodes one.** -/
theorem nul_not_mem_decoded {text : List Char} (h : '\x00' ∉ text) :
    ∀ l ∈ lexemes text, '\x00' ∉ decoded l.token := by
  have hfront {text : List Char} (h : '\x00' ∉ text) : '\x00' ∉ decoded (frontLexeme text).token :=
    nul_not_mem_decoded_readToken fun hmem => h (List.mem_of_mem_drop hmem)
  induction text using lexemes.induct with
  | case1 text hend =>
    rw [lexemes_of_endOfFile hend, List.forall_mem_singleton]
    exact List.not_mem_nil
  | case2 text hne ih =>
    rw [lexemes_of_ne_endOfFile hne, List.forall_mem_cons]
    exact ⟨hfront h, ih fun hmem => h (List.mem_of_mem_drop hmem)⟩

end CssUrls.Lexical
