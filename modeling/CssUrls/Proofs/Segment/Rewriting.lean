import Mathlib.Control.Monad.Basic
import CssUrls.Segment.Edit
import CssUrls.Proofs.Segment.Exchange

/-! URLs of a stylesheet changed.

Segments are written, with other URLs in place of theirs, and cut again: the new segments are the old
ones with the new URLs, whatever those hold. Main statement: `resegment_setUrls`. -/
namespace CssUrls
open Text Lexical Css

/-- Puts URLs in place of those of segments, in order. -/
def Segment.setUrls : List String → List Segment → List Segment
  | _, [] => []
  | [], segments => segments
  | u :: us, s :: rest =>
    if s.url?.isSome then { s with data := u } :: setUrls us rest else s :: setUrls (u :: us) rest

/-- Raw text, if the segment is that. -/
def Segment.raw? (s : Segment) : Option String :=
  match s.kind with
  | .bytes => some s.data
  | .imageUrl | .otherUrl => none

/-- The same kinds in the same order, with the same raw texts and with these URLs. -/
structure SameBut (segments again : List Segment) (us : List String) : Prop where
  kinds : again.map Segment.kind = segments.map Segment.kind
  texts : again.filterMap Segment.raw? = segments.filterMap Segment.raw?
  urls : Segment.urls again = us

theorem SameBut.append {a a' b b' : List Segment} {us vs : List String} (ha : SameBut a a' us)
    (hb : SameBut b b' vs) : SameBut (a ++ b) (a' ++ b') (us ++ vs) := by
  constructor
  case kinds => rw [List.map_append, List.map_append, ha.kinds, hb.kinds]
  case texts => rw [List.filterMap_append, List.filterMap_append, ha.texts, hb.texts]
  case urls =>
    rw [← ha.urls, ← hb.urls]
    exact List.filterMap_append

theorem url?_eq_some {s : Segment} (h : s.kind ≠ .bytes) : s.url? = some s.data := by
  obtain ⟨kind, data, start, stop⟩ := s
  cases kind with
  | bytes => contradiction
  | imageUrl => rfl
  | otherUrl => rfl

theorem raw?_eq_none {s : Segment} (h : s.kind ≠ .bytes) : s.raw? = none := by
  obtain ⟨kind, data, start, stop⟩ := s
  cases kind with
  | bytes => contradiction
  | imageUrl => rfl
  | otherUrl => rfl

theorem segmentText_eq {s : Segment} (h : s.kind ≠ .bytes) : segmentText s = urlText s.data.toList := by
  obtain ⟨kind, data, start, stop⟩ := s
  cases kind with
  | bytes => contradiction
  | imageUrl => rfl
  | otherUrl => rfl

theorem SameBut.single {s t : Segment} (hs : s.kind ≠ .bytes) (h : t.kind = s.kind) :
    SameBut [s] [t] [t.data] := by
  have ht : t.kind ≠ .bytes := by rw [h]; exact hs
  constructor
  case kinds => simp [h]
  case texts => simp [raw?_eq_none hs, raw?_eq_none ht]
  case urls => simp [Segment.urls, url?_eq_some ht]

/-! ### Raw text -/

theorem sameBut_rawSegment (offset offset' : Nat) (source : List Char) :
    SameBut (rawSegment offset source) (rawSegment offset' source) [] := by
  cases source with
  | nil => exact ⟨rfl, rfl, rfl⟩
  | cons c source => exact ⟨rfl, rfl, rfl⟩

theorem setUrls_nil (segments : List Segment) : Segment.setUrls [] segments = segments := by
  cases segments <;> rfl

theorem setUrls_rawSegment (us : List String) (offset : Nat) (source : List Char)
    (rest : List Segment) : Segment.setUrls us (rawSegment offset source ++ rest) =
      rawSegment offset source ++ Segment.setUrls us rest := by
  cases source with
  | nil => rfl
  | cons c source =>
    cases us with
    | nil => rw [setUrls_nil, setUrls_nil]
    | cons u us => rfl

theorem flatMap_segmentText_rawSegment (offset : Nat) (source : List Char) :
    (rawSegment offset source).flatMap segmentText = source := by
  cases source with
  | nil => rfl
  | cons c source =>
    show String.toList (String.ofList (c :: source)) ++ [] = _
    rw [String.toList_ofList, List.append_nil]

/-! ### Segments of parts -/

variable {classifier : Classifier} {c : Context} {text : List Point} {ls : List Lexeme}
  {parts : List Part}

/-- No URL has the kind of raw text. -/
def KindsOfUrls (parts : List Part) : Prop := ∀ kind u text, Part.url kind u text ∈ parts → kind ≠ .bytes

theorem Parts.kindsOfUrls (h : Parts classifier c text ls parts) (hkinds : classifier.WithoutBytes) :
    KindsOfUrls parts := by
  intro kind u text hmem
  induction h with
  | nil => contradiction
  | token _ _ _ ih =>
    rcases List.mem_cons.mp hmem with hmem | hmem
    · contradiction
    · exact ih hmem
  | url _ _ _ _ _ ih =>
    rcases List.mem_cons.mp hmem with hmem | hmem
    · contradiction
    · rcases List.mem_cons.mp hmem with hmem | hmem
      · cases hmem
        exact hkinds.classify_ne _ _
      · exact ih hmem

theorem KindsOfUrls.tail {part : Part} (h : KindsOfUrls (part :: parts)) : KindsOfUrls parts :=
  fun kind u text hmem => h kind u text (List.mem_cons_of_mem part hmem)

/-- The URLs of segments are those of the parts. -/
theorem urls_segmentsOf (h : KindsOfUrls parts) (offset : Nat) (before : List Point) :
    Segment.urls (segmentsOf offset before parts) = parts.filterMap Part.url? := by
  have hraw (offset : Nat) (before : List Point) :
      Segment.urls (rawSegment offset (sourceOf before)) = [] :=
    (sameBut_rawSegment offset offset _).urls
  induction parts generalizing offset before with
  | nil => exact hraw offset before
  | cons part parts ih =>
    cases part with
    | raw text => exact ih h.tail offset (before ++ text)
    | url kind u text =>
      have hkind : kind ≠ .bytes := h kind u text (List.mem_cons_self ..)
      have hurl (start stop : Nat) : Segment.url? ⟨kind, u, start, stop⟩ = some u := url?_eq_some hkind
      rw [segmentsOf, Segment.urls, List.filterMap_append, List.filterMap_cons_some (hurl _ _)]
      show Segment.urls _ ++ u :: Segment.urls _ = u :: parts.filterMap Part.url?
      rw [hraw, ih h.tail]
      rfl

/-- Segments with other URLs are written as the parts with those URLs. -/
theorem writeSegments_setUrls (h : KindsOfUrls parts) {us : List String}
    (hus : us.length = (parts.filterMap Part.url?).length) (offset : Nat) (before : List Point) :
    (Segment.setUrls us (segmentsOf offset before parts)).flatMap segmentText =
      sourceOf (before ++ pointsOf (exchange us parts)) := by
  induction parts generalizing us offset before with
  | nil =>
    rw [List.length_eq_zero_iff.mp hus, exchange, pointsOf_nil, List.append_nil, segmentsOf,
      setUrls_nil, flatMap_segmentText_rawSegment]
  | cons part parts ih =>
    cases part with
    | raw text =>
      have hrest := ih h.tail hus offset (before ++ text)
      rw [List.append_assoc] at hrest
      exact hrest
    | url kind url text =>
      cases us with
      | nil => contradiction
      | cons u us =>
        have hkind : kind ≠ .bytes := h kind url text (List.mem_cons_self ..)
        have hsome (start stop : Nat) : (Segment.url? ⟨kind, url, start, stop⟩).isSome = true := by
          rw [url?_eq_some hkind]
          rfl
        have htext (start stop : Nat) : segmentText ⟨kind, u, start, stop⟩ = urlText u.toList :=
          segmentText_eq hkind
        rw [segmentsOf, setUrls_rawSegment, Segment.setUrls, if_pos (hsome _ _), exchange, pointsOf_cons,
          List.flatMap_append, flatMap_segmentText_rawSegment, List.flatMap_cons, htext,
          ih h.tail (Nat.succ.inj hus), Part.text]
        simp only [sourceOf_append, sourceOf_plainPoints, List.nil_append]

/-- Parts with other URLs make the same segments but for those. -/
theorem sameBut_segmentsOf (h : KindsOfUrls parts) {us : List String}
    (hus : us.length = (parts.filterMap Part.url?).length) (offset offset' : Nat) (before : List Point) :
    SameBut (segmentsOf offset before parts) (segmentsOf offset' before (exchange us parts))
      (us.map (String.map withoutNul)) := by
  induction parts generalizing us offset offset' before with
  | nil =>
    rw [List.length_eq_zero_iff.mp hus]
    exact sameBut_rawSegment ..
  | cons part parts ih =>
    cases part with
    | raw text => exact ih h.tail hus offset offset' (before ++ text)
    | url kind url text =>
      cases us with
      | nil => contradiction
      | cons u us =>
        have hkind : kind ≠ .bytes := h kind url text (List.mem_cons_self ..)
        have hrest := ih h.tail (Nat.succ.inj hus)
        rw [exchange, segmentsOf, segmentsOf]
        have hraw := sameBut_rawSegment offset offset' (sourceOf before)
        have hurl (start stop start' stop' : Nat) :
            SameBut [⟨kind, url, start, stop⟩] [⟨kind, u.map withoutNul, start', stop'⟩] [u.map withoutNul] :=
          .single hkind rfl
        exact hraw.append ((hurl _ _ _ _).append (hrest _ _ []))

/-! ### The URLs a stylesheet has -/

theorem setUrls_urls (segments : List Segment) :
    Segment.setUrls (Segment.urls segments) segments = segments := by
  induction segments with
  | nil => rfl
  | cons s rest ih =>
    cases hs : s.url? with
    | none =>
      have hurls : Segment.urls (s :: rest) = Segment.urls rest := List.filterMap_cons_none hs
      rw [hurls]
      cases hrest : Segment.urls rest with
      | nil => exact setUrls_nil _
      | cons u us => rw [Segment.setUrls, hs, if_neg (by simp), ← hrest, ih]
    | some u =>
      have hurls : Segment.urls (s :: rest) = u :: Segment.urls rest := List.filterMap_cons_some hs
      have hdata : s.data = u := by
        unfold Segment.url? at hs
        split at hs
        · contradiction
        · exact Option.some.inj hs
        · exact Option.some.inj hs
      have hsome : (some u).isSome = true := rfl
      rw [hurls, Segment.setUrls, hs, if_pos hsome, ih, ← hdata]

theorem SpellsUrl.exists_decoded {run : List Token} {url : String} (h : SpellsUrl run url) :
    ∃ t ∈ run, decoded t = url.toList := by
  cases h with
  | bare => exact ⟨.url url, List.mem_singleton_self _, rfl⟩
  | quoted name _ before after => exact ⟨.string url, by simp, rfl⟩

/-- A URL of a stylesheet holds no NUL. -/
theorem Parts.nul_not_mem (h : Parts classifier c text ls parts)
    (hls : ∀ l ∈ ls, '\x00' ∉ decoded l.token) : ∀ u ∈ parts.filterMap Part.url?, '\x00' ∉ u.toList := by
  induction h with
  | nil => simp
  | token _ _ _ ih => exact ih fun l hl => hls l (List.mem_cons_of_mem _ hl)
  | @url c gap front rest l more ls parts url _ _ _ hurl _ ih =>
    show ∀ u ∈ url :: parts.filterMap Part.url?, _
    rw [List.forall_mem_cons]
    refine ⟨?_, ih fun m hm => hls m (by simp [hm])⟩
    obtain ⟨t, ht, hdecoded⟩ := hurl.exists_decoded
    obtain ⟨m, hm, rfl⟩ := List.mem_map.mp ht
    rw [← hdecoded]
    exact hls m (List.mem_append_left ls hm)

theorem map_withoutNul {u : String} (h : '\x00' ∉ u.toList) : u.map withoutNul = u := by
  have hsame : u.toList.map withoutNul = u.toList := by
    conv => rhs; rw [← List.map_id u.toList]
    refine List.map_congr_left fun c hc => if_neg ?_
    intro heq
    subst heq
    exact h hc
  rw [← String.ofList_toList (s := u.map withoutNul), String.toList_map, hsame, String.ofList_toList]

theorem map_withoutNul_eq {us : List String} (h : ∀ u ∈ us, '\x00' ∉ u.toList) :
    us.map (String.map withoutNul) = us := by
  conv => rhs; rw [← List.map_id us]
  exact List.map_congr_left fun u hu => map_withoutNul (h u hu)

/-- The parts of a stylesheet, with other URLs, are written as a stylesheet of those parts. -/
theorem Parts.exists_resegment {css : String} (hkinds : KindsOfUrls parts)
    (h : Parts classifier .initial (points css.toList) (lexemes ((points css.toList).map Point.char))
      parts) {us : List String} (hus : us.length = (parts.filterMap Part.url?).length) :
    ∃ again, Segment.resegment classifier (Segment.setUrls us (segmentsOf 0 [] parts)) = .ok again ∧
      SameBut (segmentsOf 0 [] parts) again (us.map (String.map withoutNul)) := by
  obtain ⟨text', ls', hnew⟩ := h.exchange (by rw [textOf_lexemes]) (by rw [sourceOf_points]) hus
  have hwritten : (writeSegments (Segment.setUrls us (segmentsOf 0 [] parts))).text.toList =
      sourceOf text' := by
    rw [text_writeSegments, String.toList_ofList, writeSegments_setUrls hkinds hus, List.nil_append,
      hnew.parts.pointsOf_eq]
  have hlexemes : ls' = lexemes (text'.map Point.char) := by
    rw [hnew.parts.map_char_eq, hnew.lexemes]
  refine ⟨segmentsOf 0 [] (CssUrls.exchange us parts), ?_, sameBut_segmentsOf hkinds hus 0 0 []⟩
  rw [Segment.resegment, segment, hwritten, hnew.points]
  exact (hlexemes ▸ hnew.parts).segmentTokens_eq

/-- **URLs can be changed without changing anything else.** The segments of any stylesheet, with any
other URLs, are written as a stylesheet that has the same segments but for those URLs, each of which is
read as it is but for NUL, which becomes U+FFFD. With the URLs it has it keeps them. -/
theorem resegment_setUrls (classifier : Classifier) (hkinds : classifier.WithoutBytes) (css : String) :
    ∃ segments, segment classifier css = .ok segments ∧
      (∀ us : List String, us.length = (Segment.urls segments).length →
        ∃ again, Segment.resegment classifier (Segment.setUrls us segments) = .ok again ∧
          SameBut segments again (us.map (String.map withoutNul))) ∧
      ∃ again, Segment.resegment classifier segments = .ok again ∧
        SameBut segments again (Segment.urls segments) := by
  obtain ⟨parts, hparts⟩ := exists_parts_of_text classifier (points css.toList)
  have hurlKinds := hparts.kindsOfUrls hkinds
  have hurls := urls_segmentsOf hurlKinds 0 []
  refine ⟨segmentsOf 0 [] parts, hparts.segmentTokens_eq, ?_, ?_⟩
  · intro us hus
    rw [hurls] at hus
    exact hparts.exists_resegment hurlKinds hus
  · obtain ⟨again, hagain, hsame⟩ := hparts.exists_resegment hurlKinds (congrArg List.length hurls)
    have hnul := hparts.nul_not_mem (nul_not_mem_decoded (nul_not_mem_normalize css.toList))
    rw [← hurls] at hnul
    rw [setUrls_urls] at hagain
    rw [map_withoutNul_eq hnul] at hsame
    exact ⟨again, hagain, hsame⟩

theorem withoutBytes_empty : Classifier.empty.WithoutBytes := by
  intro name h
  have hnone : Classifier.empty.kinds[name]? = none := Std.ExtTreeMap.getElem?_empty
  rw [hnone] at h
  contradiction

/-- A quote and a NUL in place of a URL. -/
theorem resegment_setUrls_mask : Classifier.empty.WithoutBytes ∧
    ∃ again, Segment.resegment .empty (Segment.setUrls ["\"\x00"]
        [⟨.bytes, "mask:", 0, 5⟩, ⟨.imageUrl, "b", 5, 11⟩, ⟨.bytes, ";", 11, 12⟩]) = .ok again ∧
      SameBut [⟨.bytes, "mask:", 0, 5⟩, ⟨.imageUrl, "b", 5, 11⟩, ⟨.bytes, ";", 11, 12⟩] again
        ["\"\ufffd"] := by
  refine ⟨withoutBytes_empty, ?_⟩
  obtain ⟨segments, hsegments, hchanged, -⟩ := resegment_setUrls .empty withoutBytes_empty "mask:url(b);"
  have heq : segment .empty "mask:url(b);" =
      .ok [⟨.bytes, "mask:", 0, 5⟩, ⟨.imageUrl, "b", 5, 11⟩, ⟨.bytes, ";", 11, 12⟩] := by decide +kernel
  rw [heq] at hsegments
  cases hsegments
  have hread : ["\"\x00"].map (String.map withoutNul) = ["\"\ufffd"] := by decide +kernel
  rw [← hread]
  exact hchanged ["\"\x00"] rfl

end CssUrls
