import CssUrls.Proofs.Segment.Parts
import CssUrls.Proofs.Text.Slices
import Mathlib.Data.List.Chain

/-! Segments partition their stylesheet.

`segments_partition`: the ranges of the segments follow one another over the whole stylesheet, and
each segment is the source of its range or else made from one of the URLs, in order. -/
namespace CssUrls
open Text Lexical

/-- The segments follow one another from `start` to `stop`, and none is empty. -/
def Contiguous : Nat → List Segment → Nat → Prop
  | start, [], stop => start = stop
  | start, s :: rest, stop => s.start = start ∧ s.start < s.stop ∧ Contiguous s.stop rest stop

/-- What a segment is made from: the source of its range, or a URL that is written there. -/
def MadeFrom (css : String) (s : Segment) : Option Finding → Prop
  | none => s.kind = .bytes ∧ IsSlice css s.start s.stop s.data
  | some f => s.kind = f.kind ∧ s.data = f.construct.url ∧
      IsSlice css s.start s.stop (String.ofList
        (sourceOf ((points css.toList).extract f.construct.start f.construct.stop)))

/-- The range of a segment that is made from a URL lies between the offsets of where the URL starts and stops. -/
def PlacedAs (css : String) (s : Segment) (origin : Option Finding) : Prop :=
  ∀ f, origin = some f → (offsetsFrom 0 (points css.toList))[f.construct.start]? = some s.start ∧
    (offsetsFrom 0 (points css.toList))[f.construct.stop]? = some s.stop

/-- Not both are raw text. -/
def Apart (a b : Segment × Option Finding) : Prop := ¬ (a.2 = none ∧ b.2 = none)

/-! ### Ranges -/

theorem Contiguous.append {a b : List Segment} {start middle stop : Nat} (ha : Contiguous start a middle)
    (hb : Contiguous middle b stop) : Contiguous start (a ++ b) stop := by
  induction a generalizing start with
  | nil =>
    have heq : start = middle := ha
    rw [heq]
    exact hb
  | cons s rest ih =>
    obtain ⟨hstart, hlt, hrest⟩ := ha
    exact ⟨hstart, hlt, ih hrest⟩

/-! ### Cuts -/

/-- What a stretch of a stylesheet is cut into, with what each segment is made from. -/
structure Cut (css : String) (done text : List Point) (cut : List (Segment × Option Finding)) :
    Prop where
  contiguous : Contiguous (byteLength (sourceOf done)) (cut.map Prod.fst)
    (byteLength (sourceOf (done ++ text)))
  made : ∀ p ∈ cut, MadeFrom css p.1 p.2
  placed : ∀ p ∈ cut, PlacedAs css p.1 p.2
  apart : cut.IsChain Apart

theorem Cut.append {css : String} {done a b : List Point} {cut rest : List (Segment × Option Finding)}
    (ha : Cut css done a cut) (hb : Cut css (done ++ a) b rest)
    (hapart : ∀ p ∈ cut.getLast?, ∀ q ∈ rest.head?, Apart p q) :
    Cut css done (a ++ b) (cut ++ rest) := by
  constructor
  · rw [List.map_append, ← List.append_assoc]
    exact ha.contiguous.append hb.contiguous
  · intro p hp
    rcases List.mem_append.mp hp with hp | hp
    · exact ha.made p hp
    · exact hb.made p hp
  · intro p hp
    rcases List.mem_append.mp hp with hp | hp
    · exact ha.placed p hp
    · exact hb.placed p hp
  · exact List.isChain_append.mpr ⟨ha.apart, hb.apart, hapart⟩

/-- One segment is a cut of the text it stands for. -/
theorem Cut.single {css : String} {done text after : List Point} {s : Segment} {origin : Option Finding}
    (hcss : points css.toList = done ++ (text ++ after)) (hne : text ≠ [])
    (hstart : s.start = byteLength (sourceOf done))
    (hstop : s.stop = byteLength (sourceOf (done ++ text))) (hmade : MadeFrom css s origin)
    (hplaced : PlacedAs css s origin) : Cut css done text [(s, origin)] := by
  have hpos := byteLength_sourceOf_pos hcss hne
  refine ⟨⟨hstart, ?_, hstop⟩, ?_, ?_, List.isChain_singleton _⟩
  · rw [hstart, hstop, sourceOf_append, byteLength_append]
    omega
  · intro p hp
    rw [List.mem_singleton.mp hp]
    exact hmade
  · intro p hp
    rw [List.mem_singleton.mp hp]
    exact hplaced

/-- The points of a construct make one segment. -/
theorem Cut.finding {css : String} {done text after : List Point} {f : Finding}
    (hcss : points css.toList = done ++ (text ++ after)) (hne : text ≠ [])
    (hstart : f.construct.start = done.length)
    (hstop : f.construct.stop = done.length + text.length) :
    Cut css done text [(⟨f.kind, f.construct.url, byteLength (sourceOf done),
      byteLength (sourceOf (done ++ text))⟩, some f)] := by
  have htext : (points css.toList).extract f.construct.start f.construct.stop = text := by
    rw [hcss, hstart, hstop, List.extract_eq_take_drop, List.drop_left, Nat.add_sub_cancel_left,
      List.take_left]
  have hfirst := getElem?_offsetsFrom 0 done (text ++ after)
  have hlast := getElem?_offsetsFrom 0 (done ++ text) after
  rw [List.append_assoc, List.length_append] at hlast
  rw [← hcss, Nat.zero_add] at hfirst hlast
  refine .single hcss hne rfl rfl ⟨rfl, rfl, ?_⟩ ?_
  · rw [htext]
    exact isSlice_sourceOf hcss
  · rintro _ ⟨⟩
    rw [hstart, hstop]
    exact ⟨hfirst, hlast⟩

/-- Raw text makes one segment, or none if it is empty. -/
theorem exists_cut_rawSegment {css : String} {done raw after : List Point}
    (hcss : points css.toList = done ++ (raw ++ after)) :
    ∃ cut, rawSegment (byteLength (sourceOf done)) (sourceOf raw) = cut.map Prod.fst ∧
      Cut css done raw cut ∧ cut.filterMap Prod.snd = [] := by
  by_cases hnil : raw = []
  · subst hnil
    refine ⟨[], rfl, ⟨?_, by simp, by simp, .nil⟩, rfl⟩
    rw [List.append_nil]
    rfl
  · have hne : (sourceOf raw).isEmpty = false := by
      rw [← Bool.not_eq_true, List.isEmpty_iff]
      intro hempty
      have hpos := byteLength_sourceOf_pos hcss hnil
      rw [hempty] at hpos
      contradiction
    refine ⟨[(⟨.bytes, String.ofList (sourceOf raw), byteLength (sourceOf done),
      byteLength (sourceOf done) + byteLength (sourceOf raw)⟩, none)], ?_, ?_, rfl⟩
    · rw [rawSegment, hne]
      rfl
    · have hstop : byteLength (sourceOf done) + byteLength (sourceOf raw) =
          byteLength (sourceOf (done ++ raw)) := by rw [sourceOf_append, byteLength_append]
      refine .single hcss hnil rfl hstop ⟨rfl, ?_⟩ nofun
      simp only [hstop]
      exact isSlice_sourceOf hcss

/-- Raw text, a URL and a cut of what is behind it are a cut. -/
theorem exists_cut_url {css : String} {done raw written rest : List Point} {f : Finding}
    {cut : List (Segment × Option Finding)}
    (hcss : points css.toList = done ++ (raw ++ (written ++ rest))) (hne : written ≠ [])
    (hstart : f.construct.start = (done ++ raw).length)
    (hstop : f.construct.stop = (done ++ raw).length + written.length)
    (hrest : Cut css (done ++ raw ++ written) rest cut) :
    ∃ whole,
      rawSegment (byteLength (sourceOf done)) (sourceOf raw) ++
          ⟨f.kind, f.construct.url, byteLength (sourceOf (done ++ raw)),
            byteLength (sourceOf (done ++ raw ++ written))⟩ :: cut.map Prod.fst =
        whole.map Prod.fst ∧
      Cut css done (raw ++ (written ++ rest)) whole ∧
      whole.filterMap Prod.snd = f :: cut.filterMap Prod.snd := by
  obtain ⟨rawCut, hraw, hrawCut, hrawOrigins⟩ := exists_cut_rawSegment hcss
  have hcss' : points css.toList = done ++ raw ++ (written ++ rest) := by
    rw [hcss, List.append_assoc]
  have hbehind := (Cut.finding hcss' hne hstart hstop).append hrest (by
    intro p hp q _ hpq
    cases hp
    exact Option.some_ne_none _ hpq.1)
  have hwhole := hrawCut.append hbehind (by
    intro p _ q hq hpq
    cases hq
    exact Option.some_ne_none _ hpq.2)
  refine ⟨_, ?_, hwhole, ?_⟩
  · rw [hraw, List.map_append]
    rfl
  · rw [List.filterMap_append, hrawOrigins]
    rfl

variable {classifier : Classifier}

/-- **The segments of parts are a cut of what the parts are written as.** -/
theorem Parts.exists_cut {css : String} {c : Context} {text : List Point} {ls : List Lexeme}
    {parts : List Part} (h : Parts classifier c text ls parts) {done before : List Point}
    (hcss : points css.toList = done ++ (before ++ text)) :
    ∃ cut, segmentsOf (byteLength (sourceOf done)) before parts = cut.map Prod.fst ∧
      Cut css done (before ++ text) cut ∧
      cut.filterMap Prod.snd =
        findings classifier c (items (spansFrom (done ++ before).length ls)) := by
  induction h generalizing done before with
  | nil c =>
    obtain ⟨cut, hcut, hraw, horigins⟩ := exists_cut_rawSegment hcss
    refine ⟨cut, hcut, ?_, ?_⟩
    · rw [List.append_nil]
      exact hraw
    · rw [horigins, spansFrom, items_nil, findings]
  | @token c text rest l ls parts htext hurl hrest ih =>
    have hcss' : points css.toList = done ++ (before ++ text ++ rest) := by
      rw [hcss, List.append_assoc before]
    obtain ⟨cut, hcut, hpartition, horigins⟩ := ih hcss'
    refine ⟨cut, hcut, ?_, ?_⟩
    · rw [← List.append_assoc]
      exact hpartition
    · rw [horigins, items_spansFrom_token hurl, findings, ← htext]
      simp only [List.length_append, List.length_map, Nat.add_assoc]
  | @url c gap text rest l more ls parts url hgap htext hbody hurl hrest ih =>
    have hne : text ≠ [] := by
      intro heq
      subst heq
      rw [List.map_nil] at htext
      exact hbody (List.append_eq_nil_iff.mp htext.symm).1
    have hcss' : points css.toList = done ++ ((before ++ gap) ++ (text ++ rest)) := by
      rw [hcss, List.append_assoc before]
    have hrest' : points css.toList = done ++ (before ++ gap) ++ text ++ ([] ++ rest) := by
      rw [hcss', List.nil_append]
      simp only [List.append_assoc]
    obtain ⟨cut, hcut, hrestCut, horigins⟩ := ih hrest'
    let f : Finding := ⟨⟨url, (done ++ (before ++ gap)).length,
      (done ++ (before ++ gap)).length + text.length⟩, c.kindHere classifier⟩
    obtain ⟨whole, hsegments, hwhole, hfindings⟩ := exists_cut_url (f := f) hcss' hne rfl rfl hrestCut
    refine ⟨whole, ?_, ?_, ?_⟩
    · rw [← hsegments, ← hcut, segmentsOf, segmentsOf]
      simp only [f, sourceOf_append, byteLength_append, Nat.add_assoc]
    · rw [← List.append_assoc before]
      exact hwhole
    · rw [hfindings, horigins, items_of_written hgap htext hurl, findings]
      simp only [f, List.length_append, List.append_nil, Nat.add_assoc]
      rfl

/-! ### The segments of a stylesheet -/

/-- **Segments partition their stylesheet.** Each stylesheet has segments. Their ranges lie between
code points, are not empty, and follow one another from its start to its end. Each segment is raw text
and holds the source of its range, or is made from one of the URLs, which all come in order. If the
classifier holds no kind of raw text, the segments of that kind are those that hold source, and no two
of them are next to each other. -/
theorem segments_partition (classifier : Classifier) (css : String) :
    ∃ cut : List (Segment × Option Finding),
      segment classifier css = .ok (cut.map Prod.fst) ∧
      cut.filterMap Prod.snd =
        findings classifier .initial (items (tokenize (normalize css.toList)).spans) ∧
      Contiguous 0 (cut.map Prod.fst) css.utf8ByteSize ∧
      (∀ p ∈ cut, MadeFrom css p.1 p.2) ∧
      (classifier.WithoutBytes →
        (∀ p ∈ cut, p.1.kind = .bytes ↔ p.2 = none) ∧
        (cut.map Prod.fst).IsChain fun a b => ¬(a.kind = .bytes ∧ b.kind = .bytes)) := by
  obtain ⟨parts, hparts⟩ := exists_parts_of_text classifier (points css.toList)
  have hcss : points css.toList = [] ++ ([] ++ points css.toList) := rfl
  obtain ⟨cut, hcut, hpartition, horigins⟩ := hparts.exists_cut hcss
  have hsize : css.utf8ByteSize = byteLength (sourceOf (points css.toList)) := by
    rw [sourceOf_points, ← utf8ByteSize_ofList, String.ofList_toList]
  refine ⟨cut, ?_, ?_, ?_, hpartition.made, ?_⟩
  · rw [← hcut]
    exact hparts.segmentTokens_eq
  · rw [horigins, Text.normalize, tokenize_spans]
    rfl
  · rw [hsize]
    exact hpartition.contiguous
  · intro hkinds
    have hkind : ∀ p ∈ cut, p.1.kind = .bytes ↔ p.2 = none := by
      intro p hp
      obtain ⟨s, origin⟩ := p
      have hmade := hpartition.made _ hp
      cases origin with
      | none => exact ⟨fun _ => rfl, fun _ => hmade.1⟩
      | some f =>
        have hf : f ∈ cut.filterMap Prod.snd := List.mem_filterMap.mpr ⟨_, hp, rfl⟩
        rw [horigins] at hf
        refine ⟨fun h => ?_, fun h => absurd h (Option.some_ne_none f)⟩
        rw [hmade.1] at h
        exact absurd h (hkinds.finding_ne _ _ f hf)
    refine ⟨hkind, (List.isChain_map Prod.fst).mpr (hpartition.apart.imp_of_mem_imp ?_)⟩
    intro p q hp hq hapart h
    obtain ⟨hpKind, hqKind⟩ := h
    exact hapart ⟨(hkind p hp).mp hpKind, (hkind q hq).mp hqKind⟩

end CssUrls
