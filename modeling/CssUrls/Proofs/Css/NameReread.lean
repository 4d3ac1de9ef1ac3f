import CssUrls.Proofs.Css.QuotedReread
import CssUrls.Proofs.Lexical.Identifiers

/-! A written name, read again.

A name is written as itself, code point by code point, each plain or behind a backslash (`SpellsName`).
What is written for an identifier starts as an identifier does (`SpellsIdentifier`), whatever the name
starts with, so that it reads as that name in front of anything that cannot be a part of it. Main
statement: `SpellsIdentifier.readToken_eq`. -/
namespace CssUrls.Css
open Text Lexical

/-! ### Names as text -/

/-- A name as it is written. -/
def nameText (name : List Char) : List Char := name.flatMap nameChar

/-- A name as it is written where a digit needs an escape. -/
def undigitedText : List Char → List Char
  | [] => []
  | c :: rest => if c.isDigit then hexEscape c ++ nameText rest else nameText (c :: rest)

/-- An identifier as it is written. -/
def identifierText : List Char → List Char
  | [] => []
  | ['-'] => ['\\', '-']
  | '-' :: '-' :: rest => '-' :: '-' :: nameText rest
  | '-' :: rest => '-' :: undigitedText rest
  | name => undigitedText name

theorem writeName_eq (name : List Char) : writeName name = writeChars (nameText name) :=
  forM_writeChars name nameChar

theorem writeUndigited_eq (name : List Char) : writeUndigited name = writeChars (undigitedText name) := by
  cases name with
  | nil => rfl
  | cons c rest =>
    rw [writeUndigited, undigitedText]
    split
    · rw [writeName_eq, writeChars_append]
    · exact writeName_eq _

theorem writeIdentifier_eq (name : List Char) : writeIdentifier name = writeChars (identifierText name) := by
  unfold writeIdentifier
  split
  · rfl
  · rfl
  · rw [writeName_eq, ← writeChars_append]
    rfl
  · rename_i rest hlone htwo
    rw [writeUndigited_eq, ← writeChars_cons, identifierText]
    · exact hlone
    · exact htwo
  · rename_i hnil hlone htwo hhyphen
    rw [writeUndigited_eq, identifierText]
    · exact hnil
    · exact hlone
    · exact htwo
    · exact hhyphen

/-! ### Code points -/

/-- What stands behind a backslash for a code point. -/
structure EscapeOf (c : Char) (more : List Char) : Prop where
  startsEscape_eq : ∀ rest, startsEscape ('\\' :: (more ++ rest)) = true
  piece_eq : ∀ rest, escapePiece (more ++ rest) = ⟨some c, more.length⟩

theorem escapeOf_hexDigits {c : Char} (hpos : 1 ≤ c.toNat) (hascii : c.toNat < 128) :
    EscapeOf c (hexDigits c.toNat ++ [' ']) where
  startsEscape_eq rest := by
    obtain ⟨d, ds, hd, hhex⟩ := exists_hexDigit hascii
    rw [hd, List.cons_append, List.cons_append, startsEscape, startsWith_cons,
      isNewline_eq_false_of_isHexDigit hhex]
    rfl
  piece_eq rest := by
    rw [List.append_assoc, List.singleton_append, escapePiece_hexEscape hpos hascii, List.length_append]
    rfl

theorem escapeOf_self {c : Char} (hhex : isHexDigit c = false) (hnewline : isNewline c = false) :
    EscapeOf c [c] where
  startsEscape_eq rest := by
    rw [List.singleton_append, startsEscape, startsWith_cons, hnewline]
    rfl
  piece_eq rest := escapePiece_plain hhex rest

theorem escapeOf_digit {c : Char} (h : c.isDigit = true) : EscapeOf c (hexDigits c.toNat ++ [' ']) := by
  rw [isDigit_iff] at h
  exact escapeOf_hexDigits (by omega) (by omega)

/-- What stands for a code point in a name. -/
inductive SpellsChar (c : Char) : List Char → Prop
  | plain (h : isNamePart c = true) : SpellsChar c [c]
  | escape {more : List Char} (h : EscapeOf c more) : SpellsChar c ('\\' :: more)

theorem isNamePart_of_isHexDigit {c : Char} (h : isHexDigit c = true) : isNamePart c = true := by
  have hcode : 48 ≤ c.toNat ∧ c.toNat ≤ 57 ∨ 97 ≤ c.toNat ∧ c.toNat ≤ 102 ∨
      65 ≤ c.toNat ∧ c.toNat ≤ 70 := by
    simp only [isHexDigit, hexDigit?] at h
    split at h
    · exact .inl (isDigit_iff.mp ‹_›)
    · split at h
      · rename_i hsmall
        simp only [Bool.and_eq_true, decide_eq_true_eq, Char.le_def, UInt32.le_iff_toNat_le] at hsmall
        exact .inr (.inl hsmall)
      · split at h
        · rename_i hcapital
          simp only [Bool.and_eq_true, decide_eq_true_eq, Char.le_def, UInt32.le_iff_toNat_le] at hcapital
          exact .inr (.inr hcapital)
        · contradiction
  have hparts : ∀ n < 103, 48 ≤ n ∧ n ≤ 57 ∨ 97 ≤ n ∧ n ≤ 102 ∨ 65 ≤ n ∧ n ≤ 70 →
      isNamePart (Char.ofNat n) = true := by decide
  rw [← Char.ofNat_toNat c]
  exact hparts c.toNat (by omega) hcode

theorem nameChar_of_isDigit {c : Char} (h : c.isDigit = true) : nameChar c = [c] := by
  rw [nameChar, if_pos (isNamePart_of_isDigit h)]

/-- **A code point other than NUL is written so that it is read.** -/
theorem spellsChar_nameChar {c : Char} (hnul : c ≠ '\x00') : SpellsChar c (nameChar c) := by
  unfold nameChar
  split
  · exact .plain ‹_›
  · rename_i hpart
    split
    · rename_i hcontrol
      rw [isControl_iff] at hcontrol
      exact .escape (escapeOf_hexDigits (by omega) (by omega))
    · rename_i hcontrol
      refine .escape (escapeOf_self ?_ ?_)
      · exact Bool.eq_false_iff.mpr fun hhex => hpart (isNamePart_of_isHexDigit hhex)
      · exact Bool.eq_false_iff.mpr fun hnewline => hcontrol (isControl_of_isNewline hnewline)

/-- It is one piece of a name, which stands for it. -/
theorem SpellsChar.exists_piece {c : Char} {text : List Char} (h : SpellsChar c text) :
    ∃ first more, text = first :: more ∧
      ∀ rest, namePiece first (more ++ rest) = some ⟨some c, more.length⟩ := by
  cases h with
  | plain hpart =>
    refine ⟨c, [], rfl, fun rest => ?_⟩
    have hback : c ≠ '\\' := ne_of_inClass hpart rfl
    rw [List.nil_append, namePiece_plain hback, if_pos hpart]
    rfl
  | @escape more h =>
    refine ⟨'\\', more, rfl, fun rest => ?_⟩
    have hstarts := h.startsEscape_eq rest
    rw [startsEscape, Bool.not_eq_true'] at hstarts
    rw [namePiece_escape, hstarts, if_neg Bool.false_ne_true, h.piece_eq]

/-! ### Names -/

/-- What stands for a name, code point by code point. -/
inductive SpellsName : List Char → List Char → Prop
  | nil : SpellsName [] []
  | cons {c : Char} {name text more : List Char} (hc : SpellsChar c text) (h : SpellsName name more) :
    SpellsName (c :: name) (text ++ more)

theorem spellsName_nameText {name : List Char} (hnul : '\x00' ∉ name) : SpellsName name (nameText name) := by
  induction name with
  | nil => exact .nil
  | cons c name ih =>
    obtain ⟨hc, hname⟩ := not_or.mp (mt List.mem_cons.mpr hnul)
    exact .cons (spellsChar_nameChar (Ne.symm hc)) (ih hname)

theorem SpellsName.pieces_eq {name text rest : List Char} (h : SpellsName name text)
    (hrest : startsName rest = false) :
    (pieces namePiece (text ++ rest)).map Piece.value = name.map some ∧
      covered (pieces namePiece (text ++ rest)) = text.length := by
  induction h with
  | nil =>
    rw [List.nil_append, pieces_namePiece_eq_nil_iff.mpr hrest]
    exact ⟨rfl, rfl⟩
  | cons hc h ih =>
    obtain ⟨first, more, rfl, hpiece⟩ := hc.exists_piece
    rw [List.append_assoc, List.cons_append, pieces_cons_of_some (hpiece _), List.drop_left]
    refine ⟨?_, ?_⟩
    · rw [List.map_cons, ih.1]
      rfl
    · rw [covered_cons, ih.2, Piece.length, List.length_append, List.length_cons]

/-- **What stands for a name reads as it**, in front of what is no part of a name. -/
theorem SpellsName.readName_eq {name text rest : List Char} (h : SpellsName name text)
    (hrest : startsName rest = false) : readName (text ++ rest) = .plain text.length (String.ofList name) := by
  obtain ⟨hvalues, hcovered⟩ := h.pieces_eq hrest
  rw [readName, readRun_eq_plain hvalues, hcovered]

/-! ### Identifiers -/

/-- What stands for a name from its start on, or behind one hyphen. -/
inductive SpellsStart : List Char → List Char → Prop
  | plain {c : Char} {name text : List Char} (hc : isNameStart c = true) (h : SpellsName name text) :
    SpellsStart (c :: name) (c :: text)
  | escape {c : Char} {name more text : List Char} (hc : EscapeOf c more) (h : SpellsName name text) :
    SpellsStart (c :: name) ('\\' :: (more ++ text))

/-- What stands for an identifier. -/
inductive SpellsIdentifier : List Char → List Char → Prop
  | start {name text : List Char} (h : SpellsStart name text) : SpellsIdentifier name text
  | hyphen {name text : List Char} (h : SpellsStart name text) : SpellsIdentifier ('-' :: name) ('-' :: text)
  | hyphens {name text : List Char} (h : SpellsName name text) :
    SpellsIdentifier ('-' :: '-' :: name) ('-' :: '-' :: text)

theorem SpellsStart.spellsName {name text : List Char} (h : SpellsStart name text) : SpellsName name text := by
  cases h with
  | plain hc h => exact .cons (.plain (isNamePart_of_isNameStart hc)) h
  | escape hc h => exact .cons (.escape hc) h

theorem SpellsIdentifier.spellsName {name text : List Char} (h : SpellsIdentifier name text) :
    SpellsName name text := by
  have hhyphen : SpellsChar '-' ['-'] := .plain rfl
  cases h with
  | start h => exact h.spellsName
  | hyphen h => exact .cons hhyphen h.spellsName
  | hyphens h => exact .cons hhyphen (.cons hhyphen h)

theorem spellsStart_undigitedText {c : Char} {name : List Char} (hc : c ≠ '-') (hnul : '\x00' ∉ c :: name) :
    SpellsStart (c :: name) (undigitedText (c :: name)) := by
  obtain ⟨hfirst, hname⟩ := not_or.mp (mt List.mem_cons.mpr hnul)
  have htext := spellsName_nameText hname
  rw [undigitedText]
  split
  · rename_i hdigit
    rw [hexEscape, List.cons_append]
    exact .escape (escapeOf_digit hdigit) htext
  · rename_i hdigit
    show SpellsStart _ (nameChar c ++ nameText name)
    generalize hspelled : nameChar c = spelled
    have hchar := spellsChar_nameChar (Ne.symm hfirst)
    rw [hspelled] at hchar
    cases hchar with
    | plain hpart =>
      refine .plain ?_ htext
      simpa [isNamePart, hdigit, hc] using hpart
    | escape h => exact .escape h htext

/-- **A name is written as an identifier**, whatever it starts with. -/
theorem spellsIdentifier_identifierText {name : List Char} (hne : name ≠ []) (hnul : '\x00' ∉ name) :
    SpellsIdentifier name (identifierText name) := by
  unfold identifierText
  split
  · contradiction
  · exact .start (.escape (escapeOf_self (by decide) (by decide)) .nil)
  · rename_i rest
    exact .hyphens (spellsName_nameText (fun h => hnul (by simp [h])))
  · rename_i rest hlone htwo
    cases rest with
    | nil => exact absurd rfl hlone
    | cons c rest =>
      refine .hyphen (spellsStart_undigitedText ?_ (mt (List.mem_cons_of_mem _) hnul))
      rintro rfl
      exact htwo rest rfl
  · rename_i hlone htwo hhyphen
    obtain ⟨c, rest, rfl⟩ := List.exists_cons_of_ne_nil hne
    refine .start (spellsStart_undigitedText ?_ hnul)
    rintro rfl
    exact hhyphen rest rfl

theorem SpellsIdentifier.startsIdentifier_eq {name text : List Char} (h : SpellsIdentifier name text)
    (rest : List Char) : startsIdentifier (text ++ rest) = true := by
  cases h with
  | start h =>
    cases h with
    | plain hc h => exact startsIdentifier_of_isNameStart hc _
    | escape hc h =>
      rw [List.cons_append, List.append_assoc]
      exact hc.startsEscape_eq _
  | hyphen h =>
    show (startsWith _ (_ ++ rest) || startsEscape (_ ++ rest)) = true
    cases h with
    | plain hc h => rw [List.cons_append, startsWith_cons, hc]; rfl
    | escape hc h => rw [List.cons_append, List.append_assoc, hc.startsEscape_eq, Bool.or_true]
  | hyphens h => rfl

/-! ### Tokens -/

/-- What stands for an identifier does not start as a closing mark, whatever the name starts with. -/
theorem SpellsIdentifier.not_cdc {name text rest : List Char} (h : SpellsIdentifier name text)
    (hrest : startsWith (· == '>') rest = false) : ['-', '-', '>'].isPrefixOf (text ++ rest) = false := by
  have hstart {name text : List Char} (h : SpellsStart name text) :
      startsWith (· == '-') (text ++ rest) = false := by
    cases h with
    | plain hc h =>
      rw [List.cons_append, startsWith_cons, beq_eq_false_iff_ne]
      rintro rfl
      contradiction
    | escape hc h => rfl
  have hcons {c : Char} (mark : List Char) {text : List Char} (h : startsWith (· == c) text = false) :
      (c :: mark).isPrefixOf text = false := by
    cases text with
    | nil => rfl
    | cons d text =>
      rw [startsWith_cons, beq_eq_false_iff_ne] at h
      rw [List.isPrefixOf, beq_eq_false_iff_ne.mpr (Ne.symm h), Bool.false_and]
  cases h with
  | start h => exact hcons ['-', '>'] (hstart h)
  | hyphen h => exact hcons ['>'] (hstart h)
  | hyphens h =>
    show ['>'].isPrefixOf (_ ++ rest) = false
    apply hcons []
    cases h with
    | nil => exact hrest
    | cons hc h =>
      cases hc with
      | plain hc =>
        rw [List.append_assoc, List.singleton_append, startsWith_cons, beq_eq_false_iff_ne]
        rintro rfl
        contradiction
      | escape hc => rfl

/-- **What stands for an identifier reads as the name**, and as what that opens. -/
theorem SpellsIdentifier.readToken_eq {name text rest : List Char} (h : SpellsIdentifier name text)
    (hrest : startsWith (· == '>') rest = false) : readToken (text ++ rest) = readIdentLike (text ++ rest) :=
  readToken_of_startsIdentifier (h.startsIdentifier_eq rest) (h.not_cdc hrest)

end CssUrls.Css
