import CssUrls.Text.Normal
import CssUrls.Proofs.Text.Pieces

/-! Points read again.

What points were written as gives them again when it is read, also in front of another text, as long
as that does not make one line ending of two (`points_sourceOf_append`). -/
namespace CssUrls.Text

/-! ### Sizes -/

@[simp] theorem sourceOf_nil : sourceOf [] = [] := rfl

@[simp] theorem sourceOf_cons (p : Point) (ps : List Point) :
    sourceOf (p :: ps) = p.source ++ sourceOf ps := rfl

@[simp] theorem sourceOf_append (a b : List Point) : sourceOf (a ++ b) = sourceOf a ++ sourceOf b :=
  List.flatMap_append

theorem byteLength_cons (c : Char) (text : List Char) :
    byteLength (c :: text) = c.utf8Size + byteLength text := rfl

@[simp] theorem byteLength_append (a b : List Char) :
    byteLength (a ++ b) = byteLength a + byteLength b := by
  induction a with
  | nil => exact (Nat.zero_add _).symm
  | cons c a ih => rw [List.cons_append, byteLength_cons, byteLength_cons, ih, Nat.add_assoc]

theorem byteLength_pos {text : List Char} (h : text ≠ []) : 0 < byteLength text := by
  obtain ⟨c, rest, rfl⟩ := List.exists_cons_of_ne_nil h
  rw [byteLength_cons]
  exact Nat.add_pos_left c.utf8Size_pos _

theorem eq_nil_of_byteLength {text : List Char} (h : byteLength text = 0) : text = [] := by
  cases text with
  | nil => rfl
  | cons c rest => exact absurd h (Nat.ne_of_gt (byteLength_pos (List.cons_ne_nil c rest)))

/-- Where a text is cut is told by the bytes in front of the cut. -/
theorem append_inj_of_byteLength {a b c d : List Char} (h : a ++ b = c ++ d)
    (hlength : byteLength a = byteLength c) : a = c ∧ b = d := by
  rcases List.append_eq_append_iff.mp h with ⟨middle, rfl, rfl⟩ | ⟨middle, rfl, rfl⟩
  all_goals
    rw [byteLength_append] at hlength
    have hnil : middle = [] := eq_nil_of_byteLength (by omega)
    rw [hnil, List.append_nil, List.nil_append]
    exact ⟨rfl, rfl⟩

theorem utf8ByteSize_ofList (text : List Char) : (String.ofList text).utf8ByteSize = byteLength text := by
  induction text with
  | nil => rfl
  | cons c rest ih =>
    rw [byteLength_cons, ← ih, ← List.singleton_append, String.ofList_append, String.utf8ByteSize_append]
    simp

/-! ### Reading points -/

theorem pointPiece_return {rest : List Char} (h : startsWith (· == '\n') rest = false) :
    pointPiece '\r' rest = ⟨⟨'\n', ['\r']⟩, 0⟩ := by
  cases rest with
  | nil => rfl
  | cons c rest =>
    rw [startsWith_cons, beq_eq_false_iff_ne] at h
    unfold pointPiece
    split
    · rename_i e
      cases e
      contradiction
    · rfl
    · contradiction
    · contradiction

theorem pointPiece_plain {c : Char} (hreturn : c ≠ '\r') (hnul : c ≠ '\x00') (rest : List Char) :
    pointPiece c rest = ⟨⟨c, [c]⟩, 0⟩ := by
  unfold pointPiece
  split
  · contradiction
  · contradiction
  · contradiction
  · rfl

theorem points_plain {c : Char} (hreturn : c ≠ '\r') (hnul : c ≠ '\x00') (rest : List Char) :
    points (c :: rest) = ⟨c, [c]⟩ :: points rest := by
  rw [points_cons, pointPiece_plain hreturn hnul]
  rfl

/-- What the point at the front of a text stands for: a code point, a line ending of two or of one, or NUL. -/
theorem pointPiece_cases (first : Char) (rest : List Char) :
    (first ≠ '\r' ∧ first ≠ '\x00' ∧ pointPiece first rest = ⟨⟨first, [first]⟩, 0⟩) ∨
    (∃ tail, first = '\r' ∧ rest = '\n' :: tail ∧ pointPiece first rest = ⟨⟨'\n', ['\r', '\n']⟩, 1⟩) ∨
    (first = '\r' ∧ startsWith (· == '\n') rest = false ∧ pointPiece first rest = ⟨⟨'\n', ['\r']⟩, 0⟩) ∨
    (first = '\x00' ∧ pointPiece first rest = ⟨⟨replacement, ['\x00']⟩, 0⟩) := by
  by_cases hreturn : first = '\r'
  · subst hreturn
    cases hfeed : startsWith (· == '\n') rest with
    | true =>
      cases rest with
      | nil => contradiction
      | cons c rest =>
        rw [startsWith_cons, beq_iff_eq] at hfeed
        subst hfeed
        exact .inr (.inl ⟨rest, rfl, rfl, rfl⟩)
    | false => exact .inr (.inr (.inl ⟨rfl, rfl, pointPiece_return hfeed⟩))
  · by_cases hnul : first = '\x00'
    · subst hnul
      exact .inr (.inr (.inr ⟨rfl, rfl⟩))
    · exact .inl ⟨hreturn, hnul, pointPiece_plain hreturn hnul rest⟩

/-- The point at the front of a text is read off what it is written as, and one code point behind
that: a line feed. -/
theorem exists_point (first : Char) (rest : List Char) :
    ∃ p tail, first :: rest = p.source ++ tail ∧ p.source ≠ [] ∧
      ∀ t, (startsWith (· == '\n') t = true → startsWith (· == '\n') tail = true) →
        points (p.source ++ t) = p :: points t := by
  rcases pointPiece_cases first rest with
    ⟨hreturn, hnul, -⟩ | ⟨tail, rfl, rfl, -⟩ | ⟨rfl, hfeed, -⟩ | ⟨rfl, -⟩
  · exact ⟨⟨first, [first]⟩, rest, rfl, List.cons_ne_nil _ _, fun t _ => points_plain hreturn hnul t⟩
  · refine ⟨⟨'\n', ['\r', '\n']⟩, tail, rfl, List.cons_ne_nil _ _, fun t _ => ?_⟩
    rw [List.cons_append, points_cons]
    rfl
  · refine ⟨⟨'\n', ['\r']⟩, rest, rfl, List.cons_ne_nil _ _, fun t ht => ?_⟩
    have htail : startsWith (· == '\n') t = false := by
      rw [← Bool.not_eq_true]
      exact fun h => Bool.false_ne_true (hfeed.symm.trans (ht h))
    rw [List.cons_append, points_cons, List.nil_append, pointPiece_return htail]
    rfl
  · refine ⟨⟨replacement, ['\x00']⟩, rest, rfl, List.cons_ne_nil _ _, fun t _ => ?_⟩
    rw [List.cons_append, points_cons]
    rfl

/-- Induction on a text, one point at a time. -/
theorem pointwise {motive : List Char → Prop} (nil : motive [])
    (point : ∀ p tail, p.source ≠ [] →
      (∀ t, (startsWith (· == '\n') t = true → startsWith (· == '\n') tail = true) →
        points (p.source ++ t) = p :: points t) → motive tail → motive (p.source ++ tail))
    (text : List Char) : motive text := by
  generalize hn : text.length = n
  induction n using Nat.strongRecOn generalizing text with
  | ind n ih =>
    subst hn
    cases text with
    | nil => exact nil
    | cons first rest =>
      obtain ⟨p, tail, heq, hne, hread⟩ := exists_point first rest
      rw [heq] at ih ⊢
      refine point p tail hne hread (ih tail.length ?_ tail rfl)
      have hpos := List.length_pos_iff.mpr hne
      rw [List.length_append]
      omega

/-- Every point of a text was written as something. -/
theorem source_ne_nil {text : List Char} {p : Point} (h : p ∈ points text) : p.source ≠ [] := by
  induction text using pointwise with
  | nil =>
    rw [points_nil] at h
    contradiction
  | point q tail hne hread ih =>
    rw [hread tail id, List.mem_cons] at h
    rcases h with rfl | h
    · exact hne
    · exact ih h

/-- The points that are not written as themselves stand for a line ending or for NUL. -/
theorem mem_points_cases {text : List Char} {p : Point} (h : p ∈ points text) :
    p.char = '\n' ∨ p.char = replacement ∨ p.source = [p.char] ∧ p.char ≠ '\r' ∧ p.char ≠ '\x00' := by
  obtain ⟨piece, hpiece, rfl⟩ := List.mem_map.mp h
  obtain ⟨first, rest, heq⟩ := exists_of_mem_pieces hpiece
  rw [Option.some.injEq] at heq
  unfold pointPiece at heq
  split at heq <;> subst heq
  · exact .inl rfl
  · exact .inl rfl
  · exact .inr (.inl rfl)
  · rename_i hreturn hnul _
    exact .inr (.inr ⟨rfl, hreturn, hnul⟩)

/-- A point that is neither a line feed nor U+FFFD was written as itself. -/
theorem source_of_mem_points {text : List Char} {p : Point} (h : p ∈ points text) (hfeed : p.char ≠ '\n')
    (hnul : p.char ≠ replacement) : p.source = [p.char] := by
  rcases mem_points_cases h with heq | heq | ⟨hsource, -⟩
  · exact absurd heq hfeed
  · exact absurd heq hnul
  · exact hsource

/-- The normal form is its own. -/
theorem normalize_plain (text : List Char) : ∀ c ∈ normalize text, c ≠ '\r' ∧ c ≠ '\x00' := by
  intro c hc
  obtain ⟨p, hp, rfl⟩ := List.mem_map.mp hc
  rcases mem_points_cases hp with heq | heq | ⟨-, hplain⟩
  · rw [heq]
    decide
  · rw [heq]
    decide
  · exact hplain

theorem nul_not_mem_normalize (text : List Char) : '\x00' ∉ normalize text :=
  fun h => (normalize_plain text _ h).2 rfl

/-- **What points were written as gives them again**, whatever follows, unless a line feed does that
did not follow before. -/
theorem points_sourceOf_append {ps : List Point} {s t : List Char}
    (h : points (sourceOf ps ++ s) = ps ++ points s)
    (hfeed : startsWith (· == '\n') t = true → startsWith (· == '\n') s = true) :
    points (sourceOf ps ++ t) = ps ++ points t := by
  generalize htext : sourceOf ps ++ s = text at h
  induction text using pointwise generalizing ps with
  | nil =>
    rw [points_nil] at h
    rw [(List.append_eq_nil_iff.mp h.symm).1]
    rfl
  | point p tail _ hread ih =>
    cases ps with
    | nil => rfl
    | cons q ps =>
      rw [hread tail id, List.cons_append, List.cons.injEq] at h
      obtain ⟨rfl, h⟩ := h
      rw [sourceOf_cons, List.append_assoc, List.append_cancel_left_eq] at htext
      rw [sourceOf_cons, List.append_assoc, hread, ih htext h, List.cons_append]
      intro ht
      rw [← htext]
      cases hps : sourceOf ps with
      | nil =>
        rw [hps] at ht
        exact hfeed ht
      | cons c rest =>
        rw [hps] at ht
        exact ht

/-- Text in front of one that starts with no line feed has the same points as by itself. -/
theorem points_append {text rest : List Char} (h : startsWith (· == '\n') rest = false) :
    points (text ++ rest) = points text ++ points rest := by
  have hread : points (sourceOf (points text) ++ []) = points text ++ points [] := by
    rw [sourceOf_points, List.append_nil, points_nil, List.append_nil]
  have happend := points_sourceOf_append (t := rest) hread fun hfeed => by
    rw [h] at hfeed
    contradiction
  rwa [sourceOf_points] at happend

/-- What the last points of a text were written as gives them again. -/
theorem points_sourceOf_of_append {text : List Char} {ps qs : List Point}
    (h : points text = ps ++ qs) : points (sourceOf qs) = qs := by
  induction ps generalizing text with
  | nil =>
    rw [List.nil_append] at h
    rw [← h, sourceOf_points]
  | cons p ps ih =>
    cases text with
    | nil =>
      rw [points_nil] at h
      contradiction
    | cons first rest =>
      rw [points_cons, List.cons_append, List.cons.injEq] at h
      exact ih h.2

/-- What some points of a text were written as gives them again. -/
theorem points_sourceOf_of_infix {text : List Char} {before ps after : List Point}
    (h : points text = before ++ (ps ++ after)) : points (sourceOf ps) = ps := by
  have hback := points_sourceOf_of_append h
  have hafter := points_sourceOf_of_append hback
  rw [sourceOf_append] at hback
  have hread := points_sourceOf_append (t := []) (hback.trans (congrArg (ps ++ ·) hafter.symm)) Bool.noConfusion
  rwa [List.append_nil, points_nil, List.append_nil] at hread

/-- So has text behind one that ends with a code point that is its own normal form, and no line feed. -/
theorem points_append_of_last {last : Char} (hreturn : last ≠ '\r') (hfeed : last ≠ '\n')
    (hnul : last ≠ '\x00') (text rest : List Char) :
    points (text ++ [last] ++ rest) = points (text ++ [last]) ++ points rest := by
  have hback (rest : List Char) : points (text ++ last :: rest) = points text ++ ⟨last, [last]⟩ :: points rest := by
    rw [points_append (by rw [startsWith_cons, beq_eq_false_iff_ne]; exact hfeed), points_plain hreturn hnul]
  rw [List.append_assoc, List.singleton_append, hback, hback, points_nil, List.append_assoc]
  rfl

/-- A text with no line ending at its edges has the same points wherever it stands. -/
theorem points_append_of_edges {first last : Char} (hfirst : first ≠ '\n') (hreturn : last ≠ '\r')
    (hfeed : last ≠ '\n') (hnul : last ≠ '\x00') (text before after : List Char) :
    points (before ++ (first :: text ++ [last] ++ after)) =
      points before ++ (points (first :: text ++ [last]) ++ points after) := by
  have hfront : startsWith (· == '\n') (first :: text ++ [last] ++ after) = false := beq_eq_false_iff_ne.mpr hfirst
  rw [points_append hfront, points_append_of_last hreturn hfeed hnul]

/-- Text that holds no code point with another normal form. -/
theorem points_append_of_plain {plain : List Char} (h : ∀ c ∈ plain, c ≠ '\r' ∧ c ≠ '\x00')
    (rest : List Char) :
    points (plain ++ rest) = plain.map (fun c => ⟨c, [c]⟩) ++ points rest := by
  induction plain with
  | nil => rfl
  | cons c plain ih =>
    obtain ⟨⟨hreturn, hnul⟩, hplain⟩ := List.forall_mem_cons.mp h
    rw [List.cons_append, points_plain hreturn hnul, ih hplain]
    rfl

theorem normalize_of_plain {plain : List Char} (h : ∀ c ∈ plain, c ≠ '\r' ∧ c ≠ '\x00') :
    normalize plain = plain := by
  have hpoints := points_append_of_plain h []
  rw [points_nil, List.append_nil, List.append_nil] at hpoints
  rw [normalize, hpoints, List.map_map]
  exact List.map_id' plain

end CssUrls.Text
