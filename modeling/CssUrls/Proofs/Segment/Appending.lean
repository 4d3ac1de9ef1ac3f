import CssUrls.Proofs.Segment.Rewriting

/-! Text appended to a stylesheet.

Its last URL ends with a closing parenthesis, and so do the tokens up to there, whatever is behind. The
parts up to the last URL are therefore parts of every longer stylesheet (`Parts.exists_upTo`), and so
are their segments. Main statement: `urlSegments_prefix`. -/
namespace CssUrls
open Text Lexical

variable {classifier : Classifier} {c : Context} {text : List Point} {ls : List Lexeme}
  {parts : List Part}

/-! ### Parts up to a URL -/

/-- The tokens end with those of a URL. -/
def EndsInUrl (ls : List Lexeme) : Prop :=
  ∃ front l more url, ls = front ++ l :: more ∧ SpellsUrl (tokensOf (l :: more)) url

theorem EndsInUrl.cons (h : EndsInUrl ls) (l : Lexeme) : EndsInUrl (l :: ls) := by
  obtain ⟨front, first, more, url, rfl, hurl⟩ := h
  exact ⟨l :: front, first, more, url, rfl, hurl⟩

theorem EndsInUrl.append (h : EndsInUrl ls) (before : List Lexeme) : EndsInUrl (before ++ ls) := by
  induction before with
  | nil => exact h
  | cons l before ih => exact ih.cons l

/-- They end with the parenthesis that closes the URL. -/
theorem EndsInUrl.exists_last (h : EndsInUrl ls) : ∃ front l, ls = front ++ [l] ∧ closes l.token = true := by
  obtain ⟨front, l, more, url, rfl, hurl⟩ := h
  obtain ⟨run, t, heq, ht⟩ := hurl.exists_last
  obtain ⟨before, last, hrun, -, hlast⟩ := List.map_eq_append_iff.mp heq
  obtain ⟨m, rest, rfl, rfl, hrest⟩ := List.map_eq_cons_iff.mp hlast
  rw [List.map_eq_nil_iff] at hrest
  subst hrest
  exact ⟨front ++ before, m, by rw [hrun, List.append_assoc], ht⟩

/-- Whether a URL starts with the token in front of them does not depend on what is behind them. -/
theorem EndsInUrl.agreeTokens (h : EndsInUrl ls) (a b : List Lexeme) :
    AgreeTokens (tokensOf (ls ++ a)) (tokensOf (ls ++ b)) := by
  obtain ⟨front, l, more, url, rfl, hurl⟩ := h
  have ht := hurl.opensUrl
  refine .inr ⟨tokensOf front, l.token, tokensOf (more ++ a), l.token, tokensOf (more ++ b), ?_, ?_, ht, ht⟩
  · simp [tokensOf]
  · simp [tokensOf]

/-- Parts that end with a URL, and the context behind them: there they go on with any parts. -/
structure UpTo (classifier : Classifier) (c last : Context) (text : List Point) (ls : List Lexeme)
    (parts : List Part) : Prop where
  endsInUrl : EndsInUrl ls
  append : ∀ {text' ls' parts'}, Parts classifier last text' ls' parts' →
    Parts classifier c (text ++ text') (ls ++ ls') (parts ++ parts')

/-- **The parts of a text end with a URL, but for those of no URL.** -/
theorem Parts.exists_upTo (h : Parts classifier c text ls parts) :
    (∀ part ∈ parts, part.url? = none) ∨
      ∃ last text₁ text₂ ls₁ ls₂ parts₁ parts₂, text = text₁ ++ text₂ ∧ ls = ls₁ ++ ls₂ ∧
        parts = parts₁ ++ parts₂ ∧ UpTo classifier c last text₁ ls₁ parts₁ ∧
        ∀ part ∈ parts₂, part.url? = none := by
  induction h with
  | nil c => exact .inl (by simp)
  | @token c text rest l ls parts htext hurl hrest ih =>
    rcases ih with hnone | ⟨last, text₁, text₂, ls₁, ls₂, parts₁, parts₂, rfl, rfl, rfl, hupTo, hnone⟩
    · exact .inl (List.forall_mem_cons.mpr ⟨rfl, hnone⟩)
    · refine .inr ⟨last, text ++ text₁, text₂, l :: ls₁, ls₂, .raw text :: parts₁, parts₂,
        (List.append_assoc ..).symm, rfl, rfl, ⟨hupTo.endsInUrl.cons l, fun hparts => ?_⟩, hnone⟩
      rw [List.append_assoc]
      refine .token htext (fun hstarts => hurl ?_) (hupTo.append hparts)
      exact (hupTo.endsInUrl.agreeTokens _ _).startsUrl_cons hstarts
  | @url c gap text rest l more ls parts url hgap htext hbody hurl hrest ih =>
    rcases ih with hnone | ⟨last, text₁, text₂, ls₁, ls₂, parts₁, parts₂, rfl, rfl, rfl, hupTo, hnone⟩
    · refine .inr ⟨c.forgetting, gap ++ text, rest, l :: more, ls, [.raw gap, .url _ url text], parts,
        (List.append_assoc ..).symm, rfl, rfl, ⟨⟨[], l, more, url, rfl, hurl⟩, fun hparts => ?_⟩, hnone⟩
      rw [List.append_assoc]
      exact .url hgap htext hbody hurl hparts
    · refine .inr ⟨last, gap ++ (text ++ text₁), text₂, l :: (more ++ ls₁), ls₂,
        .raw gap :: .url _ url text :: parts₁, parts₂, ?_, ?_, rfl,
        ⟨(hupTo.endsInUrl.append more).cons l, fun hparts => ?_⟩, hnone⟩
      · simp only [List.append_assoc]
      · simp only [List.append_assoc, List.cons_append]
      · simp only [List.append_assoc, List.cons_append]
        exact .url hgap htext hbody hurl (hupTo.append hparts)

/-! ### Segments of URLs -/

/-- The segments of the URLs of parts. -/
def urlSegments (offset : Nat) : List Part → List Segment
  | [] => []
  | .raw text :: parts => urlSegments (offset + byteLength (sourceOf text)) parts
  | .url kind url text :: parts =>
    ⟨kind, url, offset, offset + byteLength (sourceOf text)⟩ ::
      urlSegments (offset + byteLength (sourceOf text)) parts

theorem filter_rawSegment (offset : Nat) (source : List Char) :
    (rawSegment offset source).filter (·.url?.isSome) = [] := by
  cases source <;> rfl

theorem filter_segmentsOf (h : KindsOfUrls parts) (offset : Nat) (before : List Point) :
    (segmentsOf offset before parts).filter (·.url?.isSome) =
      urlSegments (offset + byteLength (sourceOf before)) parts := by
  induction parts generalizing offset before with
  | nil => exact filter_rawSegment ..
  | cons part parts ih =>
    cases part with
    | raw text =>
      rw [segmentsOf, ih h.tail, urlSegments, sourceOf_append, byteLength_append, Nat.add_assoc]
    | url kind url text =>
      have hkind : kind ≠ .bytes := h kind url text (List.mem_cons_self ..)
      have hsome (start stop : Nat) : (Segment.url? ⟨kind, url, start, stop⟩).isSome = true := by
        rw [url?_eq_some hkind]
        rfl
      rw [segmentsOf, List.filter_append, filter_rawSegment, List.filter_cons, if_pos (hsome _ _), ih h.tail]
      rfl

theorem urlSegments_append (offset : Nat) (a b : List Part) :
    urlSegments offset (a ++ b) =
      urlSegments offset a ++ urlSegments (offset + byteLength (sourceOf (pointsOf a))) b := by
  induction a generalizing offset with
  | nil => rfl
  | cons part a ih =>
    cases part with
    | raw text =>
      rw [List.cons_append, urlSegments, urlSegments, ih, pointsOf_cons, sourceOf_append, byteLength_append,
        Nat.add_assoc]
      rfl
    | url kind url text =>
      rw [List.cons_append, urlSegments, urlSegments, ih, pointsOf_cons, sourceOf_append, byteLength_append,
        Nat.add_assoc]
      rfl

theorem urlSegments_eq_nil (h : ∀ part ∈ parts, part.url? = none) (offset : Nat) :
    urlSegments offset parts = [] := by
  induction parts generalizing offset with
  | nil => rfl
  | cons part parts ih =>
    obtain ⟨hpart, hparts⟩ := List.forall_mem_cons.mp h
    cases part with
    | raw text => exact ih hparts _
    | url kind url text => contradiction

/-! ### Stylesheets -/

theorem Parts.segment_eq {css : String}
    (h : Parts classifier .initial (points css.toList) (lexemes ((points css.toList).map Point.char)) parts) :
    segment classifier css = .ok (segmentsOf 0 [] parts) :=
  h.segmentTokens_eq

/-- Points up to a closing parenthesis are read whatever is behind it. -/
theorem points_append_of_paren {source : List Char} {ps qs : List Point} {p : Point}
    (h : points source = ps ++ [p] ++ qs) (hp : p.char = ')') (rest : List Char) :
    points (sourceOf (ps ++ [p]) ++ rest) = ps ++ [p] ++ points rest := by
  have hmem : p ∈ points source := by rw [h]; simp
  have hplain : p = ⟨')', [')']⟩ := by
    have hsource := source_of_mem_points hmem (by rw [hp]; decide) (by rw [hp]; decide)
    rw [hp] at hsource
    show Point.mk p.char p.source = _
    rw [hp, hsource]
  have hsource : sourceOf (ps ++ [p]) = sourceOf ps ++ [')'] := by
    rw [sourceOf_append, hplain]
    rfl
  have hread : points (sourceOf ps ++ [')']) = ps ++ [p] := by
    rw [← hsource]
    exact points_sourceOf_of_infix (show points source = [] ++ (ps ++ [p] ++ qs) from h)
  rw [hsource, points_append_of_last (by decide) (by decide) (by decide), hread]

/-- The parts of a longer stylesheet up to a URL of a stylesheet. -/
theorem UpTo.exists_parts {last : Context} {text₂ : List Point} {ls₂ : List Lexeme}
    (h : UpTo classifier c last text ls parts) {source : List Char} (hsource : points source = text ++ text₂)
    (hlexemes : lexemes ((points source).map Point.char) = ls ++ ls₂) (suffix : List Char) :
    ∃ more, Parts classifier c (points (source ++ suffix))
      (lexemes ((points (source ++ suffix)).map Point.char)) (parts ++ more) := by
  have hchars : text.map Point.char = textOf ls := by
    have hwhole := (h.append (.nil last)).map_char_eq
    rwa [List.append_nil, List.append_nil] at hwhole
  obtain ⟨front, l, rfl, hcloses⟩ := h.endsInUrl.exists_last
  rw [hsource, List.map_append, hchars] at hlexemes
  obtain ⟨⟨q, hq⟩, hread⟩ := lexemes_textOf_append hlexemes hcloses
  obtain ⟨ps, tail, rfl, -, htail⟩ := List.map_eq_append_iff.mp (hchars.trans hq)
  obtain ⟨p, rest, rfl, hp, hrest⟩ := List.map_eq_cons_iff.mp htail
  rw [List.map_eq_nil_iff] at hrest
  subst hrest
  have hpoints : points (source ++ suffix) = ps ++ [p] ++ points (sourceOf text₂ ++ suffix) := by
    rw [← points_append_of_paren hsource hp, ← List.append_assoc, ← sourceOf_append, ← hsource, sourceOf_points]
  obtain ⟨more, hmore⟩ := exists_parts_in classifier last (points (sourceOf text₂ ++ suffix))
  refine ⟨more, ?_⟩
  rw [hpoints, List.map_append, hchars, hread]
  exact h.append hmore

/-- **Text behind a stylesheet leaves its URLs alone.** Whatever is appended, the segments of its URLs are
the first segments of URLs there are, with the same kinds, data and ranges. -/
theorem urlSegments_prefix (hkinds : classifier.WithoutBytes) (css suffix : String) :
    ∃ segments longer, segment classifier css = .ok segments ∧
      segment classifier (css ++ suffix) = .ok longer ∧
      segments.filter (·.url?.isSome) <+: longer.filter (·.url?.isSome) := by
  obtain ⟨parts, hparts⟩ := exists_parts_of_text classifier (points css.toList)
  have hurls {parts : List Part} (h : KindsOfUrls parts) :
      (segmentsOf 0 [] parts).filter (·.url?.isSome) = urlSegments 0 parts := filter_segmentsOf h 0 []
  rcases hparts.exists_upTo with
    hnone | ⟨last, text₁, text₂, ls₁, ls₂, parts₁, parts₂, htext, hls, rfl, hupTo, hnone⟩
  · obtain ⟨longer, hlonger⟩ := exists_parts_of_text classifier (points (css ++ suffix).toList)
    refine ⟨_, _, hparts.segment_eq, hlonger.segment_eq, ?_⟩
    rw [hurls (hparts.kindsOfUrls hkinds), urlSegments_eq_nil hnone]
    exact List.nil_prefix
  · obtain ⟨more, hmore⟩ := hupTo.exists_parts htext hls suffix.toList
    rw [← String.toList_append] at hmore
    refine ⟨_, _, hparts.segment_eq, hmore.segment_eq, ?_⟩
    rw [hurls (hparts.kindsOfUrls hkinds), hurls (hmore.kindsOfUrls hkinds), urlSegments_append,
      urlSegments_append, urlSegments_eq_nil hnone, List.append_nil]
    exact List.prefix_append ..

/-- A URL that is not closed is one only with what is appended. -/
theorem urlSegments_prefix_unclosed : Classifier.empty.WithoutBytes ∧
    segment .empty "a:url(b)\rurl( c" = .ok [⟨.bytes, "a:", 0, 2⟩, ⟨.imageUrl, "b", 2, 8⟩, ⟨.bytes, "\rurl( c", 8, 15⟩] ∧
      ∃ longer, segment .empty ("a:url(b)\rurl( c" ++ "\n)") = .ok longer ∧
        [⟨.imageUrl, "b", 2, 8⟩] <+: longer.filter (·.url?.isSome) := by
  obtain ⟨segments, longer, hsegments, hlonger, hprefix⟩ :=
    urlSegments_prefix withoutBytes_empty "a:url(b)\rurl( c" "\n)"
  have heq : segment .empty "a:url(b)\rurl( c" =
      .ok [⟨.bytes, "a:", 0, 2⟩, ⟨.imageUrl, "b", 2, 8⟩, ⟨.bytes, "\rurl( c", 8, 15⟩] := by decide +kernel
  rw [heq] at hsegments
  cases hsegments
  exact ⟨withoutBytes_empty, heq, longer, hlonger, hprefix⟩

end CssUrls
