import CssUrls.Proofs.Text.Source

/-! Slices of a stylesheet.

A slice is given by bytes and holds whole code points. What some points of a stylesheet were written as is one,
from the byte at which the first of them starts (`isSlice_sourceOf`). -/
namespace CssUrls
open Text

/-- The text written from the byte `start` up to the byte `stop`, neither inside of a code point. -/
def IsSlice (css : String) (start stop : Nat) (written : String) : Prop :=
  ∃ before after, css = before ++ written ++ after ∧ before.utf8ByteSize = start ∧
    (before ++ written).utf8ByteSize = stop

/-- The offset of a point is where the points in front of it end. -/
theorem getElem?_offsetsFrom (start : Nat) (before after : List Point) :
    (offsetsFrom start (before ++ after))[before.length]? = some (start + byteLength (sourceOf before)) := by
  induction before generalizing start with
  | nil => cases after <;> rfl
  | cons p before ih =>
    rw [List.cons_append, offsetsFrom, List.length_cons, List.getElem?_cons_succ, ih, sourceOf_cons,
      byteLength_append, Nat.add_assoc]

theorem isSlice_sourceOf {css : String} {before written after : List Point}
    (h : points css.toList = before ++ (written ++ after)) :
    IsSlice css (byteLength (sourceOf before)) (byteLength (sourceOf (before ++ written)))
      (String.ofList (sourceOf written)) := by
  have hcss := sourceOf_points css.toList
  rw [h, sourceOf_append, sourceOf_append, ← List.append_assoc] at hcss
  refine ⟨String.ofList (sourceOf before), String.ofList (sourceOf after), ?_, ?_, ?_⟩
  · rw [← String.ofList_append, ← String.ofList_append, hcss, String.ofList_toList]
  · exact utf8ByteSize_ofList _
  · rw [← String.ofList_append, utf8ByteSize_ofList, sourceOf_append]

theorem byteLength_sourceOf_pos {css : String} {before written after : List Point}
    (h : points css.toList = before ++ (written ++ after)) (hne : written ≠ []) :
    0 < byteLength (sourceOf written) := by
  obtain ⟨p, ps, rfl⟩ := List.exists_cons_of_ne_nil hne
  apply byteLength_pos
  rw [sourceOf_cons, Ne, List.append_eq_nil_iff]
  have hp : p ∈ points css.toList := by
    rw [h]
    simp
  exact fun hnil => source_ne_nil hp hnil.1

end CssUrls
