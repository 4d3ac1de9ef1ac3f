import CssUrls.Css.Segment
import CssUrls.Css.Token

/-! What is written, as a text.

Everything is written code point by code point, so each thing to write is `writeChars` of one text,
and a sink without limit takes it whole (`text_writeChars`). -/
namespace CssUrls.Css
open Text

theorem writeChars_nil : writeChars [] = pure () := rfl

theorem writeChars_cons (c : Char) (text : List Char) :
    writeChars (c :: text) = (do writeChar c; writeChars text) := rfl

theorem writeChars_append (a b : List Char) :
    writeChars (a ++ b) = (do writeChars a; writeChars b) := by
  induction a with
  | nil => rw [List.nil_append, writeChars_nil, pure_bind]
  | cons c a ih => rw [List.cons_append, writeChars_cons, writeChars_cons, ih, bind_assoc]

theorem writeChar_eq (c : Char) : writeChar c = writeChars [c] := by
  rw [writeChars_cons, writeChars_nil]
  exact (bind_pure (writeChar c)).symm

theorem forM_writeChars {α : Type} (xs : List α) (f : α → List Char) :
    xs.forM (fun x => writeChars (f x)) = writeChars (xs.flatMap f) := by
  induction xs with
  | nil => rfl
  | cons x xs ih =>
    rw [List.flatMap_cons, writeChars_append, ← ih]
    rfl

/-! ### Sinks -/

theorem run_writeChar (c : Char) (s : Sink) :
    (writeChar c).run.run s = if s.fits c then (.ok (), s.push c) else (.error .full, s) := by
  show (if s.fits c = true then modify (·.push c) else throw .full : Write Unit).run.run s = _
  split <;> rfl

/-- Writing goes on behind a code point for which there was room. -/
theorem onto_writeChars_cons (c : Char) (text : List Char) (s : Sink) :
    (writeChars (c :: text)).onto s =
      if s.fits c then (writeChars text).onto (s.push c) else (false, s) := by
  rw [writeChars_cons, Write.onto, ExceptT.run_bind, StateT.run_bind, run_writeChar]
  by_cases hfits : s.fits c = true
  · rw [if_pos hfits, if_pos hfits]
    rfl
  · rw [if_neg hfits, if_neg hfits]
    rfl

theorem writeChars_onto {s : Sink} (h : s.limit = none) (text : List Char) :
    ((writeChars text).onto s).2.text = s.text ++ String.ofList text := by
  induction text generalizing s with
  | nil => exact String.append_empty.symm
  | cons c text ih =>
    have hfits : s.fits c = true := by rw [Sink.fits, h]; rfl
    have hpush : (s.push c).limit = none := h
    rw [onto_writeChars_cons, if_pos hfits, ih hpush, String.ofList_cons, ← String.append_assoc,
      ← String.push_eq_append]
    rfl

/-- A sink without limit takes all of a text. -/
theorem text_writeChars (text : List Char) : (writeChars text).text = String.ofList text := by
  rw [Write.text, writeChars_onto rfl]
  exact String.empty_append

/-! ### Numbers, strings, URLs and segments -/

/-- The sign that is written in front of a number, beside that of its value. -/
def plusText (n : Numeric) : List Char := if n.signed && !n.value.negative then ['+'] else []

/-- A number as it is written. -/
def numericText (n : Numeric) : List Char :=
  plusText n ++
    match n.int with
    | some i => (toString i).toList
    | none => (decimalStyle.text n.value).toList

/-- A string as it is written. -/
def quoted (text : List Char) : List Char := '"' :: (text.flatMap quotedChar ++ ['"'])

/-- A URL as it is written. -/
def urlText (url : List Char) : List Char := "url(".toList ++ (quoted url ++ [')'])

/-- A segment as it is written. -/
def segmentText (s : Segment) : List Char :=
  match s.kind with
  | .bytes => s.data.toList
  | .imageUrl | .otherUrl => urlText s.data.toList

theorem writeNumeric_eq (n : Numeric) : writeNumeric n = writeChars (numericText n) := by
  have hvalue : (match n.int with
      | some i => writeText (toString i)
      | none => writeText (decimalStyle.text n.value)) =
      writeChars (match n.int with
        | some i => (toString i).toList
        | none => (decimalStyle.text n.value).toList) := by
    cases n.int <;> rfl
  rw [writeNumeric, numericText, writeChars_append, ← hvalue, plusText]
  by_cases hplus : (n.signed && !n.value.negative) = true
  · rw [if_pos hplus, if_pos hplus]
    exact congrArg (· >>= fun _ => _) (writeChar_eq '+')
  · rw [if_neg hplus, if_neg hplus]
    rfl

theorem writeQuoted_eq (text : List Char) : writeQuoted text = writeChars (quoted text) := by
  rw [quoted, writeChars_cons, writeChars_append, ← forM_writeChars, ← writeChar_eq]
  rfl

theorem writeUrl_eq (url : List Char) : writeUrl url = writeChars (urlText url) := by
  rw [urlText, writeChars_append, writeChars_append, ← writeQuoted_eq, ← writeChar_eq]
  rfl

theorem writeSegment_eq (s : Segment) : writeSegment s = writeChars (segmentText s) := by
  obtain ⟨kind, data, start, stop⟩ := s
  cases kind with
  | bytes => rfl
  | imageUrl => exact writeUrl_eq _
  | otherUrl => exact writeUrl_eq _

/-- **Segments are written one after another.** -/
theorem text_writeSegments (segments : List Segment) :
    (writeSegments segments).text = String.ofList (segments.flatMap segmentText) := by
  have hwrite : writeSegments segments = segments.forM (fun s => writeChars (segmentText s)) := by
    rw [← funext writeSegment_eq]
    rfl
  rw [hwrite, forM_writeChars, text_writeChars]

end CssUrls.Css
