import Mathlib.Data.List.Forall2
import CssUrls.Proofs.Segment.Exchange
import CssUrls.Proofs.Segment.Partition

/-! A stylesheet and its normal form.

Tokens are read off the normal form, which is its own (`points_normalized`). So a stylesheet and its
normal form have the same parts, each written in its own way, and no segment starts or stops inside of a
line ending. Main statement: `segment_normalized`. -/
namespace CssUrls
open Text Lexical

/-- The stylesheet in normal form. -/
def normalized (css : String) : String := String.ofList (normalize css.toList)

/-- A segment of a stylesheet and the one of its normal form that stands for the same text. -/
structure Segment.SameInNormal (css : String) (s plain : Segment) : Prop where
  kind : plain.kind = s.kind
  url? : plain.url? = s.url?
  slice : ∃ slice, IsSlice css s.start s.stop slice ∧
    IsSlice (normalized css) plain.start plain.stop (normalized slice)

/-! ### Points -/

/-- Points as they are when their normal form is what was written. -/
def normalPoints (ps : List Point) : List Point := plainPoints (ps.map Point.char)

theorem normalPoints_append (a b : List Point) : normalPoints (a ++ b) = normalPoints a ++ normalPoints b := by
  rw [normalPoints, normalPoints, normalPoints, plainPoints, List.map_append, List.map_append]
  rfl

theorem map_char_normalPoints (ps : List Point) : (normalPoints ps).map Point.char = ps.map Point.char :=
  map_char_plainPoints _

theorem sourceOf_normalPoints (ps : List Point) : sourceOf (normalPoints ps) = ps.map Point.char :=
  sourceOf_plainPoints _

/-- **The normal form is its own.** -/
theorem points_normalized (css : String) : points (normalized css).toList = normalPoints (points css.toList) := by
  rw [normalized, String.toList_ofList, ← List.append_nil (normalize css.toList),
    points_append_of_plain (normalize_plain _), points_nil, List.append_nil]
  rfl

/-- The normal form of a slice is a slice of the normal form. -/
theorem exists_isSlice_normalized {css : String} {before written after : List Point}
    (h : points css.toList = before ++ (written ++ after)) :
    ∃ slice, IsSlice css (byteLength (sourceOf before)) (byteLength (sourceOf (before ++ written))) slice ∧
      IsSlice (normalized css) (byteLength (sourceOf (normalPoints before)))
        (byteLength (sourceOf (normalPoints (before ++ written)))) (normalized slice) := by
  refine ⟨_, isSlice_sourceOf h, ?_⟩
  have hnormal : points (normalized css).toList =
      normalPoints before ++ (normalPoints written ++ normalPoints after) := by
    rw [points_normalized, h, normalPoints_append, normalPoints_append]
  have hslice := isSlice_sourceOf hnormal
  have hwritten : normalized (String.ofList (sourceOf written)) = String.ofList (sourceOf (normalPoints written)) := by
    rw [normalized, String.toList_ofList, Text.normalize, points_sourceOf_of_infix h, sourceOf_normalPoints]
  rw [← normalPoints_append, ← hwritten] at hslice
  exact hslice

/-! ### Parts -/

def Part.normalized : Part → Part
  | .raw text => .raw (normalPoints text)
  | .url kind u text => .url kind u (normalPoints text)

/-- The parts of a text are those of its normal form, written in that. -/
theorem Parts.normalized {classifier : Classifier} {c : Context} {text : List Point} {ls : List Lexeme}
    {parts : List Part} (h : Parts classifier c text ls parts) :
    Parts classifier c (normalPoints text) ls (parts.map Part.normalized) := by
  induction h with
  | nil c => exact .nil c
  | token htext hurl _ ih =>
    rw [normalPoints_append]
    exact .token (by rw [map_char_normalPoints, htext]) hurl ih
  | url hgap htext hbody hurl _ ih =>
    rw [normalPoints_append, normalPoints_append]
    exact .url (by rw [map_char_normalPoints, hgap]) (by rw [map_char_normalPoints, htext]) hbody hurl ih

theorem sameInNormal_rawSegment {css : String} {done raw after : List Point}
    (hcss : points css.toList = done ++ (raw ++ after)) :
    List.Forall₂ (Segment.SameInNormal css) (rawSegment (byteLength (sourceOf done)) (sourceOf raw))
      (rawSegment (byteLength (sourceOf (normalPoints done))) (sourceOf (normalPoints raw))) := by
  by_cases hnil : raw = []
  · subst hnil
    exact .nil
  · have hne : (sourceOf raw).isEmpty = false := by
      rw [List.isEmpty_eq_false_iff]
      intro hempty
      have hpos := byteLength_sourceOf_pos hcss hnil
      rw [hempty] at hpos
      contradiction
    have hne' : (sourceOf (normalPoints raw)).isEmpty = false := by
      rw [sourceOf_normalPoints, List.isEmpty_eq_false_iff, Ne, List.map_eq_nil_iff]
      exact hnil
    have hslice := exists_isSlice_normalized hcss
    rw [normalPoints_append, sourceOf_append, byteLength_append, sourceOf_append, byteLength_append] at hslice
    rw [rawSegment, rawSegment, hne, hne']
    exact .cons ⟨rfl, rfl, hslice⟩ .nil

/-- **The segments of parts are those of the parts in normal form.** -/
theorem sameInNormal_segmentsOf {css : String} {parts : List Part} (done before : List Point)
    (hcss : points css.toList = done ++ (before ++ pointsOf parts)) :
    List.Forall₂ (Segment.SameInNormal css) (segmentsOf (byteLength (sourceOf done)) before parts)
      (segmentsOf (byteLength (sourceOf (normalPoints done))) (normalPoints before)
        (parts.map Part.normalized)) := by
  induction parts generalizing done before with
  | nil => exact sameInNormal_rawSegment hcss
  | cons part parts ih =>
    cases part with
    | raw text =>
      have hrest := ih done (before ++ text) (by rw [hcss, List.append_assoc]; rfl)
      rw [normalPoints_append] at hrest
      exact hrest
    | url kind url text =>
      have hwritten : points css.toList = done ++ before ++ (text ++ pointsOf parts) := by
        rw [hcss, List.append_assoc]
        rfl
      have hslice := exists_isSlice_normalized hwritten
      have hrest := ih (done ++ before ++ text) []
        (by rw [hwritten, List.append_assoc (done ++ before)]; rfl)
      simp only [normalPoints_append, sourceOf_append, byteLength_append] at hslice hrest
      rw [segmentsOf, List.map_cons, Part.normalized, segmentsOf]
      refine List.rel_append (sameInNormal_rawSegment hcss) (.cons ?_ hrest)
      exact ⟨rfl, rfl, hslice⟩

/-! ### Stylesheets -/

/-- **Line endings and NUL shift no segment.** A stylesheet and its normal form have as many segments, of
the same kinds and with the same URLs, and each is written in the normal form of what the other is
written in. -/
theorem segment_normalized (classifier : Classifier) (css : String) :
    ∃ segments plain, segment classifier css = .ok segments ∧
      segment classifier (normalized css) = .ok plain ∧
      List.Forall₂ (Segment.SameInNormal css) segments plain := by
  obtain ⟨parts, hparts⟩ := exists_parts_of_text classifier (points css.toList)
  have hsegments : segment classifier css = .ok (segmentsOf 0 [] parts) := hparts.segmentTokens_eq
  have hplain : segment classifier (normalized css) =
      .ok (segmentsOf 0 [] (parts.map Part.normalized)) := by
    have hnormal := hparts.normalized
    rw [← map_char_normalPoints] at hnormal
    rw [segment, points_normalized]
    exact hnormal.segmentTokens_eq
  refine ⟨_, _, hsegments, hplain, ?_⟩
  exact sameInNormal_segmentsOf [] [] (by rw [hparts.pointsOf_eq]; rfl)

end CssUrls
