import CssUrls.Text.InPlace
import CssUrls.Proofs.Text.LineEndings
import CssUrls.Proofs.Text.Slices
import Mathlib.Data.List.Chain

/-! Normal form made in place, with offsets.

`normalize_withOffsets`: the loop over the array leaves the normal form of the text, and offsets that cut the
text into what each code point of the normal form was written as. Writing never catches up with reading, so what
is unread still stands as it did (`normalizeFrom_ofPlaced`), and it makes no difference to the code points whether
offsets are kept (`normalizeFrom_forget`). -/
namespace CssUrls.Text

/-! ### Code points and where they start -/

/-- The code points of the normal form, each with the byte offset at which it starts. -/
def placed (start : Nat) : List Point → List (Char × Nat)
  | [] => []
  | p :: ps => (p.char, start) :: placed (start + byteLength p.source) ps

theorem map_fst_placed (start : Nat) (ps : List Point) :
    (placed start ps).map Prod.fst = ps.map Point.char := by
  induction ps generalizing start with
  | nil => rfl
  | cons p ps ih => rw [placed, List.map_cons, List.map_cons, ih]

theorem offsetsFrom_eq_placed (start : Nat) (ps : List Point) :
    offsetsFrom start ps = (placed start ps).map Prod.snd ++ [start + byteLength (sourceOf ps)] := by
  induction ps generalizing start with
  | nil => rfl
  | cons p ps ih =>
    rw [offsetsFrom, placed, ih, List.map_cons, List.cons_append, sourceOf_cons, byteLength_append,
      Nat.add_assoc]

theorem placed_append (start : Nat) (a b : List Point) :
    placed start (a ++ b) = placed start a ++ placed (start + byteLength (sourceOf a)) b := by
  induction a generalizing start with
  | nil => rfl
  | cons p a ih =>
    rw [List.cons_append, placed, placed, ih, sourceOf_cons, byteLength_append, Nat.add_assoc, List.cons_append]

theorem length_placed (start : Nat) (ps : List Point) : (placed start ps).length = ps.length := by
  rw [← List.length_map Prod.fst, map_fst_placed, List.length_map]

/-- Code points as they stand in the source, before any of it is in normal form. -/
def unread (text : List Char) : List Point := text.map plainPoint

theorem sourceOf_unread (text : List Char) : sourceOf (unread text) = text := by
  induction text with
  | nil => rfl
  | cons c rest ih => exact congrArg (c :: ·) ih

theorem map_char_unread (text : List Char) : (unread text).map Point.char = text := by
  rw [unread, List.map_map]
  exact List.map_id' text

theorem length_source_pointPiece (c : Char) (rest : List Char) :
    (pointPiece c rest).value.source.length = (pointPiece c rest).length := by
  unfold pointPiece
  split <;> rfl

/-- Behind the piece at the front of a text stands the text that it leaves. -/
theorem drop_placed_unread (start : Nat) (c : Char) (rest : List Char) :
    (placed start (unread (c :: rest))).drop (pointPiece c rest).length =
      placed (start + byteLength (pointPiece c rest).value.source)
        (unread (rest.drop (pointPiece c rest).more)) := by
  rw [← pointPiece_source, unread, List.map_append, ← unread, ← unread, placed_append, sourceOf_unread,
    List.drop_left']
  rw [length_placed, unread, List.length_map, length_source_pointPiece]

theorem length_pointPiece_le (c : Char) (rest : List Char) :
    (pointPiece c rest).length ≤ (c :: rest).length := by
  have hsource := congrArg List.length (pointPiece_source c rest)
  rw [List.length_append, length_source_pointPiece] at hsource
  omega

/-! ### One step of the loop -/

namespace Buffer
variable {list : List (Char × Nat)} {stop read write : Nat}

/-- A buffer that holds code points with their offsets, and the offset of the end. -/
def ofPlaced (list : List (Char × Nat)) (stop : Nat) : Buffer :=
  ⟨(list.map Prod.fst).toArray, some (list.map Prod.snd ++ [stop]).toArray⟩

theorem withOffsets_eq_ofPlaced (text : List Char) :
    withOffsets text = ofPlaced (placed 0 (unread text)) (byteLength text) := by
  have hoffsets : offsetsFrom 0 (text.map fun c => ⟨c, [c]⟩) = offsetsFrom 0 (unread text) := rfl
  rw [ofPlaced, map_fst_placed, map_char_unread, withOffsets, hoffsets, offsetsFrom_eq_placed, sourceOf_unread,
    Nat.zero_add]

theorem move_ofPlaced {c : Char} {start : Nat} (hread : list[read]? = some (c, start))
    (hwrite : write < list.length) (d : Char) :
    (ofPlaced list stop).move read write d = ofPlaced (list.set write (d, start)) stop := by
  obtain ⟨hlt, hread⟩ := List.getElem?_eq_some_iff.mp hread
  have hoffset : (list.map Prod.snd ++ [stop]).toArray.getD read 0 = start := by
    rw [Array.getD_eq_getD_getElem?, List.getElem?_toArray, List.getElem?_append_left (by simpa using hlt),
      List.getElem?_map, List.getElem?_eq_getElem hlt, hread]
    rfl
  rw [move, ofPlaced, ofPlaced, Option.map_some, hoffset, List.setIfInBounds_toArray, List.setIfInBounds_toArray,
    List.map_set, List.map_set, List.set_append_left _ _ (by simpa using hwrite)]

theorem truncate_ofPlaced (hwrite : write ≤ list.length) :
    (ofPlaced list stop).truncate write = ofPlaced (list.take write) stop := by
  have hstop : (list.map Prod.snd ++ [stop]).toArray.getD list.length 0 = stop := by
    rw [Array.getD_eq_getD_getElem?, List.getElem?_toArray, List.getElem?_append_right (by simp)]
    simp
  have hcut : ((list.map Prod.snd ++ [stop]).set write stop).take (write + 1) =
      (list.take write).map Prod.snd ++ [stop] := by
    have hlt : write < ((list.map Prod.snd ++ [stop]).set write stop).length := by
      simpa using Nat.lt_succ_of_le hwrite
    rw [List.take_succ_eq_append_getElem hlt, List.getElem_set_self, List.take_set_of_le (Nat.le_refl write),
      List.take_append_of_le_length (by simpa using hwrite), List.map_take]
  simp only [truncate, ofPlaced, Option.map_some, List.size_toArray, List.length_map, hstop,
    List.setIfInBounds_toArray, List.take_toArray, hcut, List.map_take]

/-- What the code point at a place becomes depends on the one behind it. -/
theorem normalAt_eq {b : Buffer} {place : Nat} {c : Char} {rest : List Char}
    (h : b.chars.toList.drop place = c :: rest) :
    b.normalAt place c = ⟨(pointPiece c rest).value.char, (pointPiece c rest).more⟩ := by
  have hnext : b.chars[place + 1]? = rest.head? := by
    rw [← Array.getElem?_toList, ← List.getElem?_drop, h]
    cases rest <;> rfl
  unfold normalAt
  rw [hnext]
  rcases pointPiece_cases c rest with
    ⟨hreturn, hnul, hpiece⟩ | ⟨tail, rfl, rfl, hpiece⟩ | ⟨rfl, hfeed, hpiece⟩ | ⟨rfl, hpiece⟩
  · rw [hpiece]
    split
    · contradiction
    · contradiction
    · rfl
  · rfl
  · rw [hpiece]
    simp only
    rw [if_neg]
    intro hhead
    obtain ⟨tail, rfl⟩ := List.head?_eq_some_iff.mp hhead
    contradiction
  · rfl

/-- One step writes what the piece at the front of the unread text stands for, and takes that piece. -/
theorem normalizeFrom_step {start : Nat} {c : Char} {rest : List Char} (hle : write ≤ read)
    (hrest : list.drop read = placed start (unread (c :: rest))) :
    (ofPlaced list stop).normalizeFrom read write =
      (ofPlaced (list.set write ((pointPiece c rest).value.char, start)) stop).normalizeFrom
        (read + (pointPiece c rest).length) (write + 1) := by
  have hread : list[read]? = some (c, start) := by
    rw [← Nat.add_zero read, ← List.getElem?_drop, hrest]
    rfl
  obtain ⟨hlt, hentry⟩ := List.getElem?_eq_some_iff.mp hread
  have hsize : read < (ofPlaced list stop).chars.size := by simpa [ofPlaced] using hlt
  have hchar : (ofPlaced list stop).chars[read] = c := by simp [ofPlaced, hentry]
  have hplace : (ofPlaced list stop).chars.toList.drop read = c :: rest := by
    rw [ofPlaced, ← List.map_drop, hrest, map_fst_placed, map_char_unread]
  rw [normalizeFrom, dif_pos hsize]
  simp only [hchar, normalAt_eq hplace, move_ofPlaced hread (Nat.lt_of_le_of_lt hle hlt)]
  rfl

/-! ### The loop -/

/-- **What is unread is brought into normal form** behind what is written, as long as writing is not ahead. -/
theorem normalizeFrom_ofPlaced {start : Nat} {rest : List Char} (hle : write ≤ read)
    (hlength : read ≤ list.length) (hrest : list.drop read = placed start (unread rest)) :
    (ofPlaced list stop).normalizeFrom read write =
      ofPlaced (list.take write ++ placed start (points rest)) stop := by
  generalize hn : rest.length = n
  induction n using Nat.strongRecOn generalizing list read write start rest with
  | ind n ih =>
    subst hn
    have hunread := congrArg List.length hrest
    rw [List.length_drop, length_placed, unread, List.length_map] at hunread
    cases rest with
    | nil =>
      rw [normalizeFrom, dif_neg (by simpa [ofPlaced] using Nat.le_of_sub_eq_zero hunread),
        truncate_ofPlaced (Nat.le_trans hle hlength), points_nil, placed, List.append_nil]
    | cons c rest =>
      have hpiece := length_pointPiece_le c rest
      have hpos := (pointPiece c rest).length_pos
      rw [List.length_cons] at hunread hpiece
      have hwrite : write < list.length := by omega
      -- What is written lies in front of `read`, so all that is still to be read stays as it is.
      have hdrop : (list.set write ((pointPiece c rest).value.char, start)).drop
          (read + (pointPiece c rest).length) =
          placed (start + byteLength (pointPiece c rest).value.source)
            (unread (rest.drop (pointPiece c rest).more)) := by
        rw [List.drop_set_of_lt (by omega), ← List.drop_drop, hrest, drop_placed_unread]
      have hshort : (rest.drop (pointPiece c rest).more).length < (c :: rest).length := by
        rw [List.length_drop, List.length_cons]
        omega
      rw [normalizeFrom_step hle hrest,
        ih _ hshort (by omega) (by rw [List.length_set]; omega) hdrop rfl,
        List.take_succ_eq_append_getElem (by rwa [List.length_set]), List.getElem_set_self,
        List.take_set_of_le (Nat.le_refl write), List.append_assoc, List.singleton_append, points_cons, placed]

/-- Without its offsets. -/
def forget (b : Buffer) : Buffer := { b with offsets := none }

theorem normalizeFrom_forget (b : Buffer) (read write : Nat) :
    b.forget.normalizeFrom read write = (b.normalizeFrom read write).forget := by
  induction b, read, write using normalizeFrom.induct with
  | case1 b read write h p ih =>
    rw [normalizeFrom.eq_1 b, dif_pos h, ← ih, normalizeFrom,
      dif_pos (show read < b.forget.chars.size from h)]
    rfl
  | case2 b read write h =>
    rw [normalizeFrom.eq_1 b, dif_neg h, normalizeFrom, dif_neg (show ¬ read < b.forget.chars.size from h)]
    rfl

/-- The loop leaves the normal form of the text with the offsets of its points. -/
theorem normalize_withOffsets_eq (text : List Char) :
    (withOffsets text).normalize = ⟨(Text.normalize text).toArray, some (offsetsFrom 0 (points text)).toArray⟩ := by
  rw [withOffsets_eq_ofPlaced, normalize, normalizeFrom_ofPlaced (Nat.le_refl 0) (Nat.zero_le _) rfl, List.take_zero,
    List.nil_append, ofPlaced, map_fst_placed, offsetsFrom_eq_placed, sourceOf_points, Nat.zero_add]
  rfl

theorem normalize_ofText (text : List Char) : (ofText text).normalize = ofText (Text.normalize text) := by
  have hforget := normalizeFrom_forget (withOffsets text) 0 0
  rw [← normalize, ← normalize, normalize_withOffsets_eq] at hforget
  exact hforget

end Buffer

/-! ### Offsets -/

theorem pairwise_offsetsFrom {ps : List Point} (h : ∀ p ∈ ps, p.source ≠ []) (start : Nat) :
    (offsetsFrom start ps).Pairwise (· < ·) := by
  refine List.isChain_iff_pairwise.mp ?_
  induction ps generalizing start with
  | nil => exact .singleton start
  | cons p ps ih =>
    obtain ⟨hp, hps⟩ := List.forall_mem_cons.mp h
    rw [offsetsFrom, List.isChain_cons]
    refine ⟨fun next hnext => ?_, ih hps _⟩
    have hhead := getElem?_offsetsFrom (start + byteLength p.source) [] ps
    rw [List.nil_append, List.length_nil, ← List.head?_eq_getElem?, hnext] at hhead
    rw [Option.some.inj hhead]
    exact Nat.lt_add_of_pos_right (byteLength_pos hp)

/-! ### What a code point was written as -/

/-- A code point of the normal form is written from the byte `start` up to the byte `stop` of a stylesheet. -/
inductive WrittenAs (css : String) (start stop : Nat) : Char → Prop
  | plain {c : Char} (hreturn : c ≠ '\r') (hnul : c ≠ '\x00') (h : IsSlice css start stop (String.singleton c)) :
    WrittenAs css start stop c
  | pair (h : IsSlice css start stop "\r\n") : WrittenAs css start stop '\n'
  | single (h : IsSlice css start stop "\r") (hfeed : ¬ IsSlice css stop (stop + 1) "\n") :
    WrittenAs css start stop '\n'
  | nul (h : IsSlice css start stop "\x00") : WrittenAs css start stop replacement

/-- The point at the front of some, by what it stands for. -/
theorem cons_points_cases {text : List Char} {p : Point} {after : List Point} (h : points text = p :: after) :
    (∃ c, p = plainPoint c ∧ c ≠ '\r' ∧ c ≠ '\x00') ∨ p = pairPoint ∨
      p = returnPoint ∧ startsWith (· == '\n') (sourceOf after) = false ∨ p = ⟨replacement, ['\x00']⟩ := by
  cases text with
  | nil =>
    rw [points_nil] at h
    contradiction
  | cons c rest =>
    rw [points_cons, List.cons.injEq] at h
    obtain ⟨rfl, rfl⟩ := h
    rcases pointPiece_cases c rest with
      ⟨hreturn, hnul, hpiece⟩ | ⟨tail, rfl, rfl, hpiece⟩ | ⟨rfl, hfeed, hpiece⟩ | ⟨rfl, hpiece⟩
    · rw [hpiece]
      exact .inl ⟨c, rfl, hreturn, hnul⟩
    · exact .inr (.inl rfl)
    · rw [hpiece, List.drop_zero, sourceOf_points]
      exact .inr (.inr (.inl ⟨rfl, hfeed⟩))
    · exact .inr (.inr (.inr rfl))

theorem not_isSlice_feed {css : String} {before after : List Point} (h : points css.toList = before ++ after)
    (hfeed : startsWith (· == '\n') (sourceOf after) = false) (stop : Nat) :
    ¬ IsSlice css (byteLength (sourceOf before)) stop "\n" := by
  rintro ⟨front, back, rfl, hstart, -⟩
  have htext := sourceOf_points (front ++ "\n" ++ back).toList
  rw [h, sourceOf_append, String.append_assoc, String.toList_append, String.toList_append] at htext
  rw [← String.ofList_toList (s := front), utf8ByteSize_ofList] at hstart
  rw [(append_inj_of_byteLength htext hstart.symm).2] at hfeed
  contradiction

theorem writtenAs_of_points {css : String} {before after : List Point} {p : Point}
    (h : points css.toList = before ++ p :: after) :
    WrittenAs css (byteLength (sourceOf before)) (byteLength (sourceOf (before ++ [p]))) p.char := by
  have hslice : IsSlice css (byteLength (sourceOf before)) (byteLength (sourceOf (before ++ [p])))
      (String.ofList (sourceOf [p])) := isSlice_sourceOf h
  rcases cons_points_cases (points_sourceOf_of_append h) with ⟨c, rfl, hreturn, hnul⟩ | rfl | ⟨rfl, hfeed⟩ | rfl
  · exact .plain hreturn hnul hslice
  · exact .pair hslice
  · refine .single hslice ?_
    rw [← List.singleton_append, ← List.append_assoc] at h
    exact not_isSlice_feed h hfeed _
  · exact .nul hslice

/-- **Normal form made in place is exact.** With or without offsets the loop leaves the same code points, which
hold neither carriage returns nor NUL and stay as they are when it runs again. The offsets run strictly upwards from
the start of the stylesheet to its end, and cut out for each code point what it was written as. -/
theorem normalize_withOffsets (css : String) :
    ∃ chars offsets, (Buffer.withOffsets css.toList).normalize = ⟨chars, some offsets⟩ ∧
      (Buffer.ofText css.toList).normalize = ⟨chars, none⟩ ∧
      chars.toList = normalize css.toList ∧
      (∀ c ∈ chars, c ≠ '\r' ∧ c ≠ '\x00') ∧
      (⟨chars, none⟩ : Buffer).normalize = ⟨chars, none⟩ ∧
      offsets.size = chars.size + 1 ∧
      offsets.toList.Pairwise (· < ·) ∧
      offsets[0]? = some 0 ∧ offsets.back? = some css.utf8ByteSize ∧
      ∀ i c, chars[i]? = some c → ∃ start stop, offsets[i]? = some start ∧ offsets[i + 1]? = some stop ∧
        WrittenAs css start stop c := by
  have hplain := normalize_plain css.toList
  refine ⟨_, _, Buffer.normalize_withOffsets_eq css.toList, Buffer.normalize_ofText css.toList, rfl, ?_, ?_, ?_,
    ?_, ?_, ?_, ?_⟩
  · intro c hc
    exact hplain c (List.mem_toArray.mp hc)
  · have hagain := Buffer.normalize_ofText (normalize css.toList)
    rwa [normalize_of_plain hplain] at hagain
  · rw [List.size_toArray, List.size_toArray, offsetsFrom_eq_placed, List.length_append, List.length_map,
      length_placed, normalize, List.length_map]
    rfl
  · exact pairwise_offsetsFrom (fun p hp => source_ne_nil hp) 0
  · rw [List.getElem?_toArray]
    exact getElem?_offsetsFrom 0 [] (points css.toList)
  · rw [List.back?_toArray, offsetsFrom_eq_placed, List.getLast?_concat, sourceOf_points, Nat.zero_add,
      ← utf8ByteSize_ofList, String.ofList_toList]
  · intro i c hc
    rw [List.getElem?_toArray, normalize, List.getElem?_map, Option.map_eq_some_iff] at hc
    obtain ⟨p, hp, rfl⟩ := hc
    obtain ⟨before, after, hpoints, rfl⟩ : ∃ before after, points css.toList = before ++ p :: after ∧
        before.length = i := by
      obtain ⟨hlt, rfl⟩ := List.getElem?_eq_some_iff.mp hp
      refine ⟨(points css.toList).take i, (points css.toList).drop (i + 1), ?_, ?_⟩
      · rw [← List.drop_eq_getElem_cons hlt, List.take_append_drop]
      · rw [List.length_take, Nat.min_eq_left (Nat.le_of_lt hlt)]
    have hstart := getElem?_offsetsFrom 0 before (p :: after)
    have hstop := getElem?_offsetsFrom 0 (before ++ [p]) after
    rw [List.append_assoc, List.singleton_append, List.length_append, List.length_singleton] at hstop
    rw [← hpoints, Nat.zero_add] at hstart hstop
    rw [List.getElem?_toArray, List.getElem?_toArray]
    exact ⟨_, _, hstart, hstop, writtenAs_of_points hpoints⟩

end CssUrls.Text
