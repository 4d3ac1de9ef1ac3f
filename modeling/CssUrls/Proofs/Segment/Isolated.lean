import CssUrls.Proofs.Segment.Appending
import CssUrls.Proofs.Segment.Partition

/-! Segments by themselves.

What a segment is written as is a stylesheet of its own. The tokens of raw text are the same where the
text ends in place of the URL behind it (`alike_nil`), and at none of them a URL starts. A URL ends with
its parenthesis, so it is the same whatever stood around it. Main statement: `segment_slice`. -/
namespace CssUrls
open Text Lexical

variable {classifier : Classifier} {c : Context} {text : List Point} {front ls : List Lexeme}
  {parts : List Part}

/-- The kind of a segment by itself, where a URL is given to no property. -/
def SegmentKind.alone : SegmentKind → SegmentKind
  | .bytes => .bytes
  | .imageUrl | .otherUrl => .imageUrl

/-- What the segment is written as is one segment by itself, with the same data. -/
def Segment.StandsAlone (classifier : Classifier) (css : String) (s : Segment) : Prop :=
  ∃ slice, IsSlice css s.start s.stop slice ∧
    segment classifier slice = .ok [⟨s.kind.alone, s.data, 0, slice.utf8ByteSize⟩]

/-! ### Tokens of raw text -/

/-- At none of the first lexemes a URL starts. -/
def Quiet (front ls : List Lexeme) : Prop :=
  ∀ l rest, l :: rest <:+ front → ¬ StartsUrl (tokensOf (l :: (rest ++ ls)))

theorem quiet_nil (ls : List Lexeme) : Quiet [] ls := by
  intro l rest hsuffix
  have hlength := hsuffix.length_le
  contradiction

theorem Quiet.concat {l : Lexeme} (h : Quiet front (l :: ls)) (hl : ¬ StartsUrl (tokensOf (l :: ls))) :
    Quiet (front ++ [l]) ls := by
  intro m rest hsuffix
  obtain hnil | ⟨before, heq, hbefore⟩ := List.suffix_concat_iff.mp hsuffix
  · contradiction
  · cases before with
    | nil =>
      obtain ⟨rfl, rfl⟩ := List.cons.inj heq
      exact hl
    | cons first before =>
      rw [List.cons_append, List.cons.injEq] at heq
      obtain ⟨rfl, rfl⟩ := heq
      rw [List.append_assoc]
      exact h m before hbefore

/-- No URL reaches to the end of the file, so one that starts in front of that starts there in front of
anything. -/
theorem StartsUrl.of_endOfFile {ts : List Token} (h : StartsUrl (ts ++ [.endOfFile])) (more : List Token) :
    StartsUrl (ts ++ more) := by
  obtain ⟨run, after, url, heq, hurl⟩ := h
  rcases List.append_eq_append_iff.mp heq with ⟨back, rfl, hback⟩ | ⟨back, rfl, -⟩
  · cases back with
    | nil => exact ⟨_, more, url, by rw [List.append_nil], hurl⟩
    | cons t back =>
      obtain ⟨rfl, -⟩ := List.cons.inj hback
      exact absurd rfl (hurl.ne_endOfFile .endOfFile (by simp))
  · exact ⟨run, back ++ more, url, List.append_assoc .., hurl⟩

/-- Where the text ends after them, no URL starts at them either. -/
theorem Quiet.endOfFile (h : Quiet front ls) (gap : List Char) :
    Quiet (front ++ [⟨gap, [], .endOfFile⟩]) [] := by
  have hend : Quiet front [⟨gap, [], .endOfFile⟩] := by
    intro l rest hsuffix hstarts
    have hsplit (ls : List Lexeme) : tokensOf (l :: (rest ++ ls)) = tokensOf (l :: rest) ++ tokensOf ls := by
      simp [tokensOf]
    rw [hsplit] at hstarts
    refine h l rest hsuffix ?_
    rw [hsplit]
    exact hstarts.of_endOfFile _
  refine hend.concat ?_
  rintro ⟨run, after, url, heq, hurl⟩
  obtain ⟨first, more, rfl, hfirst, -⟩ := hurl.eq_cons
  obtain ⟨rfl, -⟩ := List.cons.inj heq
  contradiction

/-- All parts of such a text are raw text. -/
theorem Quiet.exists_parts (h : Quiet ls []) (classifier : Classifier) (c : Context)
    (htext : text.map Point.char = textOf ls) :
    ∃ parts, Parts classifier c text ls parts ∧ ∀ part ∈ parts, part.url? = none := by
  induction ls generalizing c text with
  | nil =>
    rw [textOf_nil, List.map_eq_nil_iff] at htext
    subst htext
    exact ⟨[], .nil c, by simp⟩
  | cons l ls ih =>
    obtain ⟨first, rest, rfl, hfirst, hrest⟩ := List.map_eq_append_iff.mp htext
    have htail : Quiet ls [] := fun m more hsuffix => h m more (hsuffix.trans (List.suffix_cons l ls))
    obtain ⟨parts, hparts, hraw⟩ := ih htail (c.track l.token) hrest
    have hurl := h l ls (List.suffix_refl _)
    rw [List.append_nil] at hurl
    exact ⟨.raw first :: parts, .token hfirst hurl hparts, List.forall_mem_cons.mpr ⟨rfl, hraw⟩⟩

/-! ### Texts cut off -/

/-- Nothing in front of a URL can tell if the text ends there. -/
theorem alike_nil {s : List Char} (h : opensUrl (readToken s).value = true) : Alike s [] :=
  alike_of_startsIdentifier (startsIdentifier_of_opensUrl h) rfl rfl rfl

/-- **A text that ends in front of a URL** has the lexemes that are there. -/
theorem lexemes_before_url {l : Lexeme} (hls : lexemes (textOf (front ++ l :: ls)) = front ++ l :: ls)
    (hopens : opensUrl l.token = true) :
    lexemes (textOf front ++ l.gap) = front ++ [⟨l.gap, [], .endOfFile⟩] := by
  have hne := ne_endOfFile_of_lexemes hls (List.cons_ne_nil l ls)
  have hl := (lexemes_eq_cons (lexemes_textOf_of_append hls hne)).1
  rw [textOf_cons, Lexeme.text, List.append_assoc] at hl
  rw [← readToken_of_frontLexeme hl] at hopens
  have halike := alike_nil hopens
  have hcomments := readComments_of_frontLexeme hl
  have hgap : lexemes l.gap = [⟨l.gap, [], .endOfFile⟩] := by
    apply lexemes_of_endOfFile
    rw [frontLexeme_token_eq_endOfFile_iff, afterComments, List.drop_eq_nil_iff, ← List.append_nil l.gap,
      halike.readComments_eq (Nat.le_of_eq hcomments), hcomments, List.append_nil]
  have hagree : AgreeText (textOf (l :: ls)) l.gap := by
    refine .inr ⟨l.gap, _, [], ?_, (List.append_nil _).symm, halike⟩
    rw [textOf_cons, Lexeme.text, List.append_assoc]
  rw [textOf_append] at hls
  rw [hagree.lexemes_textOf hls hne, hgap]

/-- **A URL with nothing around it** has the lexemes that it has there, but for the comments in front. -/
theorem lexemes_url {l : Lexeme} {more : List Lexeme} {url : String}
    (hls : lexemes (textOf (l :: (more ++ ls))) = l :: (more ++ ls))
    (hurl : SpellsUrl (tokensOf (l :: more)) url) :
    lexemes (l.body ++ textOf more) = ⟨[], l.body, l.token⟩ :: (more ++ [⟨[], [], .endOfFile⟩]) := by
  obtain ⟨hl, ⟨hend, -⟩ | ⟨hne, htail⟩⟩ := lexemes_eq_cons hls
  · exact absurd (congrArg Lexeme.token hend) (hurl.ne_endOfFile _ (List.mem_cons_self ..))
  · rw [← hl] at hne
    have hbody := lexemes_afterComments hne
    have hafter : afterComments (textOf (l :: (more ++ ls))) = l.body ++ (textOf more ++ textOf ls) := by
      have hgap : (readComments (textOf (l :: (more ++ ls)))).length = l.gap.length := by
        rw [← frontLexeme_gap_length, hl]
      rw [afterComments, hgap, textOf_cons, Lexeme.text, List.append_assoc, List.drop_left, textOf_append]
    rw [hafter, hl, ← htail] at hbody
    -- From the body of its first token on, the URL ends with its parenthesis.
    have hends : EndsInUrl (⟨[], l.body, l.token⟩ :: more) := ⟨[], _, more, url, rfl, hurl⟩
    obtain ⟨run, last, hrun, hcloses⟩ := hends.exists_last
    have htext : l.body ++ textOf more = textOf (run ++ [last]) := by
      rw [← hrun]
      rfl
    rw [← List.append_assoc, htext, ← List.cons_append, hrun] at hbody
    have halone := (lexemes_textOf_append hbody hcloses).2 []
    rw [List.append_nil, ← htext, ← hrun] at halone
    rw [halone, lexemes_nil]
    rfl

/-! ### Segments of slices -/

/-- What some points of a stylesheet are written as has the segments of their parts. -/
theorem segment_sourceOf {css : String} {before written after : List Point}
    (hcss : points css.toList = before ++ (written ++ after))
    (hparts : Parts classifier .initial written (lexemes (written.map Point.char)) parts) :
    segment classifier (String.ofList (sourceOf written)) = .ok (segmentsOf 0 [] parts) := by
  rw [segment, String.toList_ofList, points_sourceOf_of_infix hcss]
  exact hparts.segmentTokens_eq

/-- Parts without a URL make one segment at most. -/
theorem segmentsOf_of_url?_eq_none (h : ∀ part ∈ parts, part.url? = none) (offset : Nat)
    (before : List Point) :
    segmentsOf offset before parts = rawSegment offset (sourceOf (before ++ pointsOf parts)) := by
  induction parts generalizing before with
  | nil => rw [pointsOf_nil, List.append_nil, segmentsOf]
  | cons part parts ih =>
    obtain ⟨hpart, hparts⟩ := List.forall_mem_cons.mp h
    cases part with
    | raw text => rw [segmentsOf, ih hparts, pointsOf_cons, List.append_assoc, Part.text]
    | url kind url text => contradiction

theorem standsAlone_rawSegment (classifier : Classifier) {css : String} {done raw after : List Point}
    (hcss : points css.toList = done ++ (raw ++ after)) (hquiet : Quiet (lexemes (raw.map Point.char)) []) :
    ∀ s ∈ rawSegment (byteLength (sourceOf done)) (sourceOf raw), s.StandsAlone classifier css := by
  intro s hs
  unfold rawSegment at hs
  split at hs
  · contradiction
  · rename_i hne
    rw [List.mem_singleton] at hs
    subst hs
    obtain ⟨parts, hparts, hraw⟩ := hquiet.exists_parts classifier .initial (textOf_lexemes _).symm
    have hslice := isSlice_sourceOf hcss
    rw [sourceOf_append, byteLength_append] at hslice
    refine ⟨_, hslice, ?_⟩
    rw [segment_sourceOf hcss hparts, segmentsOf_of_url?_eq_none hraw, hparts.pointsOf_eq, List.nil_append,
      rawSegment, if_neg hne, Nat.zero_add, utf8ByteSize_ofList]
    rfl

theorem standsAlone_url (classifier : Classifier) {css : String} {done written after : List Point} {l : Lexeme} {more : List Lexeme}
    {kind : SegmentKind} {url : String} (hcss : points css.toList = done ++ (written ++ after))
    (hwritten : written.map Point.char = l.body ++ textOf more) (hbody : l.body ≠ [])
    (hlexemes : lexemes (l.body ++ textOf more) = ⟨[], l.body, l.token⟩ :: (more ++ [⟨[], [], .endOfFile⟩]))
    (hurl : SpellsUrl (tokensOf (l :: more)) url) (hkind : kind ≠ .bytes) :
    Segment.StandsAlone classifier css
      ⟨kind, url, byteLength (sourceOf done), byteLength (sourceOf (done ++ written))⟩ := by
  refine ⟨_, isSlice_sourceOf hcss, ?_⟩
  have hparts : Parts classifier .initial ([] ++ (written ++ []))
      (⟨[], l.body, l.token⟩ :: (more ++ [⟨[], [], .endOfFile⟩]))
      [.raw [], .url (Context.initial.kindHere classifier) url written, .raw []] := by
    have hend : Parts classifier Context.initial.forgetting ([] ++ []) [⟨[], [], .endOfFile⟩] [.raw []] :=
      .token rfl ((quiet_nil []).endOfFile [] _ [] (List.suffix_refl _)) (.nil _)
    exact .url rfl hwritten hbody hurl hend
  rw [← hlexemes, ← hwritten, List.nil_append, List.append_nil] at hparts
  have halone : kind.alone = .imageUrl := by
    cases kind with
    | bytes => contradiction
    | imageUrl => rfl
    | otherUrl => rfl
  have hoffset : 0 + byteLength (sourceOf ([] ++ [])) = 0 := rfl
  rw [segment_sourceOf hcss hparts, utf8ByteSize_ofList, halone]
  simp only [segmentsOf, hoffset, Nat.zero_add]
  rfl

/-- **The segments of parts stand alone**: raw text up to a URL or the end of the text, and each URL. -/
theorem Parts.standsAlone {css : String} (h : Parts classifier c text ls parts) (hkinds : KindsOfUrls parts)
    (done before : List Point) (front : List Lexeme) (hcss : points css.toList = done ++ (before ++ text))
    (hbefore : before.map Point.char = textOf front)
    (hls : lexemes (textOf (front ++ ls)) = front ++ ls) (hquiet : Quiet front ls) :
    ∀ s ∈ segmentsOf (byteLength (sourceOf done)) before parts, s.StandsAlone classifier css := by
  induction h generalizing done before front with
  | nil c =>
    refine standsAlone_rawSegment classifier hcss ?_
    rw [List.append_nil] at hls
    rw [hbefore, hls]
    exact hquiet
  | @token c text rest l ls parts htext hurl hrest ih =>
    refine ih hkinds.tail done (before ++ text) (front ++ [l]) ?_ ?_ ?_ (hquiet.concat hurl)
    · rw [hcss, List.append_assoc]
    · rw [List.map_append, hbefore, htext, textOf_append, textOf_cons, textOf_nil, List.append_nil]
    · rw [List.append_assoc]
      exact hls
  | @url c gap text rest l more ls parts url hgap htext hbody hurl hrest ih =>
    have hkind := hkinds (c.kindHere classifier) url text (by simp)
    have hne := ne_endOfFile_of_lexemes hls (List.cons_ne_nil _ _)
    have hls' := lexemes_textOf_of_append hls hne
    have hrun : ∀ m ∈ l :: more, m.token ≠ .endOfFile :=
      fun m hm => hurl.ne_endOfFile _ (List.mem_map_of_mem hm)
    have hraw : points css.toList = done ++ ((before ++ gap) ++ (text ++ rest)) := by
      rw [hcss, List.append_assoc before]
    have hquiet' : Quiet (lexemes ((before ++ gap).map Point.char)) [] := by
      rw [List.map_append, hbefore, hgap, lexemes_before_url hls hurl.opensUrl]
      exact hquiet.endOfFile l.gap
    have hwritten : points css.toList = done ++ (before ++ gap) ++ (text ++ rest) := by
      rw [hraw, ← List.append_assoc done]
    have hback : points css.toList = done ++ (before ++ gap) ++ text ++ ([] ++ rest) := by
      rw [hwritten, List.append_assoc (done ++ (before ++ gap))]
      rfl
    have halone := standsAlone_rawSegment classifier hraw hquiet'
    have halone' := standsAlone_url classifier hwritten htext hbody (lexemes_url hls' hurl) hurl hkind
    have hrest' := ih hkinds.tail.tail (done ++ (before ++ gap) ++ text) [] [] hback rfl
      (lexemes_textOf_of_append (a := l :: more) hls' hrun) (quiet_nil ls)
    intro s hs
    rw [segmentsOf, segmentsOf, List.mem_append, List.mem_cons] at hs
    simp only [sourceOf_append, byteLength_append, Nat.add_assoc] at hs halone halone' hrest'
    rcases hs with hs | rfl | hs
    · exact halone s hs
    · exact halone'
    · exact hrest' s hs

/-! ### Stylesheets -/

/-- **Segments stand alone.** What a segment of a stylesheet is written as has one segment, which covers
it and has the same data: raw text is raw text again, and a URL is the same URL, though perhaps of
another kind, since nothing is around it. -/
theorem segment_slice (hkinds : classifier.WithoutBytes) (css : String) :
    ∃ segments, segment classifier css = .ok segments ∧
      ∀ s ∈ segments, s.StandsAlone classifier css := by
  obtain ⟨parts, hparts⟩ := exists_parts_of_text classifier (points css.toList)
  refine ⟨_, hparts.segment_eq, ?_⟩
  exact hparts.standsAlone (hparts.kindsOfUrls hkinds) [] [] [] rfl rfl
    (by rw [List.nil_append, textOf_lexemes]) (quiet_nil _)

/-- A URL of a font, with a comment in it, and the line ending behind it. -/
theorem segment_slice_font : Classifier.empty.WithoutBytes ∧
    segment .empty "@font-face\x7bsrc:url('a'/**/)\r" =
      .ok [⟨.bytes, "@font-face\x7bsrc:", 0, 15⟩, ⟨.otherUrl, "a", 15, 27⟩, ⟨.bytes, "\r", 27, 28⟩] ∧
    ∀ s ∈ [⟨.bytes, "@font-face\x7bsrc:", 0, 15⟩, ⟨.otherUrl, "a", 15, 27⟩, ⟨.bytes, "\r", 27, 28⟩],
      Segment.StandsAlone .empty "@font-face\x7bsrc:url('a'/**/)\r" s := by
  obtain ⟨segments, hsegments, halone⟩ := segment_slice withoutBytes_empty "@font-face\x7bsrc:url('a'/**/)\r"
  have heq : segment .empty "@font-face\x7bsrc:url('a'/**/)\r" =
      .ok [⟨.bytes, "@font-face\x7bsrc:", 0, 15⟩, ⟨.otherUrl, "a", 15, 27⟩, ⟨.bytes, "\r", 27, 28⟩] := by
    decide +kernel
  rw [heq] at hsegments
  cases hsegments
  exact ⟨withoutBytes_empty, heq, halone⟩

end CssUrls
