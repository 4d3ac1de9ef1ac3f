import CssUrls.Proofs.Lexical.Numbers
import CssUrls.Proofs.Segment.Partition

/-! Each URL is found once.

A search at an index of a token list finds the URL that starts there, if one does (`constructAt?`). The segments
skip what they have found and search behind it, and yet `segment_occurrences`: they hold, in order, just the URLs
that searches at all the indices would find. No token of a URL but the first may open another, so nothing that is
skipped is found elsewhere. -/
namespace CssUrls
open Text Lexical

/-- The URL that starts with the token at an index. -/
def constructAt? (spans : List Span) (i : Nat) : Option (Piece Construct) :=
  match spans.drop i with
  | [] => none
  | first :: rest => construct? first rest

/-- The indices at which a URL starts. -/
def constructIndices (spans : List Span) : List Nat :=
  (List.range spans.length).filter fun i => (constructAt? spans i).isSome

/-- A segment holds the URL that starts with the token at an index. Its range is that of the tokens of the URL, from
where the first starts up to where the last stops, and ends with a closing parenthesis. -/
def HoldsUrlAt (css : String) (spans : List Span) (s : Segment) (i : Nat) : Prop :=
  ∃ p first last, constructAt? spans i = some p ∧ p.value.url = s.data ∧
    spans[i]? = some first ∧ spans[i + p.more]? = some last ∧
    SpellsUrl ((spans.extract i (i + p.length)).map Span.token) s.data ∧
    (offsetsFrom 0 (points css.toList))[first.start]? = some s.start ∧
    (offsetsFrom 0 (points css.toList))[last.stop]? = some s.stop ∧
    ∃ body, IsSlice css s.start s.stop (body ++ ")")

/-- A segment is raw text. -/
def HoldsSource (css : String) (s : Segment) : Prop :=
  s.kind = .bytes ∧ IsSlice css s.start s.stop s.data

variable {spans : List Span} {i j n : Nat} {p q : Piece Construct}

/-! ### Searches -/

theorem constructAt?_of_drop {first : Span} {rest : List Span} (h : spans.drop i = first :: rest) :
    constructAt? spans i = construct? first rest := by
  rw [constructAt?, h]

/-- What a search finds are the tokens of a URL. -/
theorem constructAt?_spec (h : constructAt? spans i = some p) :
    ∃ first more after, spans.drop i = first :: (more ++ after) ∧
      SpellsUrl (first.token :: more.map Span.token) p.value.url ∧
      p = ⟨⟨p.value.url, first.start, reach first.stop more⟩, more.length⟩ := by
  cases hdrop : spans.drop i with
  | nil =>
    rw [constructAt?, hdrop] at h
    contradiction
  | cons first rest =>
    rw [constructAt?_of_drop hdrop] at h
    obtain ⟨more, after, rfl, hurl, hp⟩ := construct?_spec h
    exact ⟨first, more, after, rfl, hurl, hp⟩

/-- **A search finds something where a URL starts.** -/
theorem isSome_constructAt?_iff :
    (constructAt? spans i).isSome = true ↔ StartsUrl ((spans.drop i).map Span.token) := by
  cases hdrop : spans.drop i with
  | nil =>
    rw [constructAt?, hdrop]
    refine iff_of_false Bool.false_ne_true ?_
    rintro ⟨run, after, url, heq, hurl⟩
    obtain ⟨first, more, rfl, -, -⟩ := hurl.eq_cons
    contradiction
  | cons first rest =>
    rw [constructAt?_of_drop hdrop, List.map_cons, ← not_iff_not, ← construct?_eq_none_iff, Bool.not_eq_true,
      Option.isSome_eq_false_iff, Option.isNone_iff_eq_none]

theorem mem_constructIndices_iff : i ∈ constructIndices spans ↔ StartsUrl ((spans.drop i).map Span.token) := by
  rw [constructIndices, List.mem_filter, List.mem_range, isSome_constructAt?_iff, and_iff_right_iff_imp]
  rintro ⟨run, after, url, heq, hurl⟩
  obtain ⟨first, more, rfl, -, -⟩ := hurl.eq_cons
  refine Nat.lt_of_not_le fun hle => ?_
  rw [List.drop_eq_nil_of_le hle] at heq
  contradiction

/-- Where a URL starts, a token stands that opens one. -/
theorem opensUrl_of_constructAt? (h : constructAt? spans i = some p) :
    ∃ first, spans[i]? = some first ∧ opensUrl first.token = true := by
  obtain ⟨first, more, after, hdrop, hurl, -⟩ := constructAt?_spec h
  refine ⟨first, ?_, hurl.opensUrl⟩
  rw [← Nat.add_zero i, ← List.getElem?_drop, hdrop]
  rfl

/-- A token behind the first of a URL opens no other. -/
theorem opensUrl_eq_false {first : Span} {more after : List Span} {url : String}
    (hdrop : spans.drop i = first :: (more ++ after)) (hurl : SpellsUrl (first.token :: more.map Span.token) url)
    (hlt : i < j) (hle : j ≤ i + more.length) {span : Span} (hspan : spans[j]? = some span) :
    opensUrl span.token = false := by
  obtain ⟨_, _, heq, -, hmore⟩ := hurl.eq_cons
  obtain ⟨rfl, rfl⟩ := List.cons.inj heq
  obtain ⟨k, rfl⟩ : ∃ k, j = i + (k + 1) := ⟨j - i - 1, by omega⟩
  rw [← List.getElem?_drop, hdrop, List.getElem?_cons_succ, List.getElem?_append_left (by omega)] at hspan
  exact hmore _ (List.mem_map_of_mem (List.mem_of_getElem? hspan))

/-- **What is found does not overlap.** -/
theorem constructAt?_apart (hi : constructAt? spans i = some p) (hj : constructAt? spans j = some q)
    (hlt : i < j) : i + p.length ≤ j := by
  obtain ⟨first, more, after, hdrop, hurl, hp⟩ := constructAt?_spec hi
  obtain ⟨span, hspan, hopens⟩ := opensUrl_of_constructAt? hj
  rw [hp]
  refine Nat.lt_of_not_le fun hle => ?_
  rw [opensUrl_eq_false hdrop hurl hlt hle hspan] at hopens
  contradiction

/-! ### Items -/

/-- A search at an index finds what a finding is about. -/
def FoundAt (spans : List Span) (f : Finding) (i : Nat) : Prop :=
  ∃ more, constructAt? spans i = some ⟨f.construct, more⟩

/-- **The findings are what searches at all the indices find**, from any index on. -/
theorem findings_foundAt (classifier : Classifier) (c : Context) (rest : List Span)
    (hrest : spans.drop n = rest) :
    List.Forall₂ (FoundAt spans) (findings classifier c (items rest))
      ((List.range' n rest.length).filter fun i => (constructAt? spans i).isSome) := by
  induction rest using itemwise_of Span.token generalizing c n with
  | nil =>
    rw [items_nil]
    exact .nil
  | token first rest hurl ih =>
    have hnone : (constructAt? spans n).isSome = false := by
      rwa [← Bool.not_eq_true, isSome_constructAt?_iff, hrest]
    have hbehind : spans.drop (n + 1) = rest := by rw [← List.drop_drop, hrest, List.drop_one, List.tail_cons]
    rw [items_token hurl, findings, List.length_cons, List.range'_succ, List.filter_cons, hnone]
    exact ih _ hbehind
  | url first more url rest hurl ih =>
    have hfound : constructAt? spans n = some ⟨⟨url, first.start, reach first.stop more⟩, more.length⟩ := by
      rw [constructAt?_of_drop hrest, construct?_eq_some hurl]
    -- The findings go on behind the URL, and searches inside of it find nothing.
    have hinside : (List.range' (n + 1) more.length).filter (fun i => (constructAt? spans i).isSome) = [] := by
      refine List.filter_eq_nil_iff.mpr fun j hj hsome => ?_
      rw [List.mem_range'_1] at hj
      obtain ⟨p, hp⟩ := Option.isSome_iff_exists.mp hsome
      have hapart : n + (more.length + 1) ≤ j := constructAt?_apart hfound hp (by omega)
      omega
    have hbehind : spans.drop (n + 1 + more.length) = rest := by
      rw [← List.drop_drop, ← List.drop_drop, hrest, List.drop_one, List.tail_cons, List.drop_left]
    rw [items_url hurl, findings, List.length_cons, List.length_append, List.range'_succ,
      List.filter_cons_of_pos (by rw [hfound]; rfl), ← List.range'_append_1, List.filter_append, hinside,
      List.nil_append]
    exact .cons ⟨_, hfound⟩ (ih _ hbehind)

/-! ### Segments -/

/-- Labels may be exchanged for what belongs to them. -/
theorem exists_relabelled {α β γ : Type} {R : β → γ → Prop} {cut : List (α × Option β)} {labels : List γ}
    (h : List.Forall₂ R (cut.filterMap Prod.snd) labels) :
    ∃ other : List (α × Option γ), other.map Prod.fst = cut.map Prod.fst ∧ other.filterMap Prod.snd = labels ∧
      ∀ q ∈ other, ∃ p ∈ cut, p.1 = q.1 ∧ Option.Rel R p.2 q.2 := by
  induction cut generalizing labels with
  | nil =>
    cases h
    exact ⟨[], rfl, rfl, nofun⟩
  | cons pair cut ih =>
    obtain ⟨a, label⟩ := pair
    cases label with
    | none =>
      obtain ⟨other, hfst, hsnd, hother⟩ := ih h
      refine ⟨(a, none) :: other, congrArg (a :: ·) hfst, hsnd, List.forall_mem_cons.mpr ⟨?_, fun q hq => ?_⟩⟩
      · exact ⟨(a, none), List.mem_cons_self .., rfl, .none⟩
      · obtain ⟨p, hp, hrel⟩ := hother q hq
        exact ⟨p, List.mem_cons_of_mem _ hp, hrel⟩
    | some b =>
      obtain ⟨c, labels, hbc, hrest, rfl⟩ := List.forall₂_cons_left_iff.mp h
      obtain ⟨other, hfst, hsnd, hother⟩ := ih hrest
      refine ⟨(a, some c) :: other, congrArg (a :: ·) hfst, congrArg (c :: ·) hsnd,
        List.forall_mem_cons.mpr ⟨?_, fun q hq => ?_⟩⟩
      · exact ⟨(a, some b), List.mem_cons_self .., rfl, .some hbc⟩
      · obtain ⟨p, hp, hrel⟩ := hother q hq
        exact ⟨p, List.mem_cons_of_mem _ hp, hrel⟩

theorem Contiguous.lt_of_mem {start stop : Nat} {segments : List Segment} (h : Contiguous start segments stop) :
    ∀ s ∈ segments, s.start < s.stop := by
  induction segments generalizing start with
  | nil => nofun
  | cons s rest ih =>
    obtain ⟨-, hlt, hrest⟩ := h
    exact List.forall_mem_cons.mpr ⟨hlt, ih hrest⟩

/-- A token that a parenthesis closes stops behind one. -/
theorem exists_paren {text : List Char} {span : Span} (hspan : span ∈ (tokenize text).spans)
    (hcloses : closes span.token = true) :
    ∃ before after, text = before ++ ')' :: after ∧ span.stop = before.length + 1 := by
  obtain ⟨hvalue, hstop, -⟩ := readToken_of_mem_spans hspan
  rw [hvalue] at hcloses
  obtain ⟨q, s, hdrop, hlength, -⟩ := readToken_isClosed hcloses
  have hle : span.start ≤ text.length := by
    refine Nat.le_of_not_lt fun hlt => ?_
    rw [List.drop_eq_nil_of_le (Nat.le_of_lt hlt)] at hdrop
    simp at hdrop
  obtain ⟨p, htext, hp, -⟩ := exists_append_of_drop hle hdrop
  refine ⟨p, s, htext, ?_⟩
  rw [hstop, hlength, hp, Nat.add_assoc]

/-- Text that is not empty and stops behind a parenthesis ends with it. -/
theorem exists_slice_paren {css : String} {start stop first : Nat} {before after : List Char}
    (hslice : IsSlice css start stop (String.ofList
      (sourceOf ((points css.toList).extract first (before.length + 1)))))
    (hlt : start < stop) (htext : normalize css.toList = before ++ ')' :: after) :
    ∃ body, IsSlice css start stop (body ++ ")") := by
  obtain ⟨front, tail, hpoints, hfront, htail⟩ := List.map_eq_append_iff.mp htext
  obtain ⟨paren, back, rfl, hparen, -⟩ := List.map_eq_cons_iff.mp htail
  have hlength : before.length = front.length := by rw [← hfront, List.length_map]
  have hsource : paren.source = [')'] := by
    have hmem : paren ∈ points css.toList := by simp [hpoints]
    rw [source_of_mem_points hmem (by rw [hparen]; decide) (by rw [hparen]; decide), hparen]
  have hle : first ≤ front.length := by
    refine Nat.le_of_not_lt fun hgt => ?_
    obtain ⟨_, _, -, hstart, hstop⟩ := hslice
    rw [List.extract_eq_take_drop, hlength, Nat.sub_eq_zero_of_le hgt, List.take_zero, sourceOf_nil,
      String.utf8ByteSize_append, hstart] at hstop
    exact Nat.ne_of_lt hlt hstop
  have hextract : (points css.toList).extract first (before.length + 1) = front.drop first ++ [paren] := by
    rw [List.extract_eq_take_drop, hpoints, List.drop_append_of_le_length hle, hlength, ← List.singleton_append,
      ← List.append_assoc]
    refine List.take_left' ?_
    rw [List.length_append, List.length_drop, List.length_singleton]
    omega
  rw [hextract, sourceOf_append, sourceOf_cons, sourceOf_nil, List.append_nil, hsource, String.ofList_append] at hslice
  exact ⟨_, hslice⟩

/-- The tokens at which a search finds something, from the first to the last. -/
theorem exists_run (h : constructAt? spans i = some p) :
    ∃ first last, spans[i]? = some first ∧ spans[i + p.more]? = some last ∧
      first.start = p.value.start ∧ last.stop = p.value.stop ∧ closes last.token = true ∧
      SpellsUrl ((spans.extract i (i + p.length)).map Span.token) p.value.url := by
  obtain ⟨first, more, after, hdrop, hurl, hp⟩ := constructAt?_spec h
  have hmore : p.more = more.length := by rw [hp]
  have hextract : spans.extract i (i + p.length) = first :: more := by
    rw [List.extract_eq_take_drop, hdrop, Nat.add_sub_cancel_left, ← List.cons_append]
    exact List.take_left' (by rw [List.length_cons, Piece.length, hmore])
  obtain ⟨front, last, hrun⟩ : ∃ front last, first :: more = front ++ [last] :=
    (List.eq_nil_or_concat' (first :: more)).resolve_left (List.cons_ne_nil _ _)
  have hlength : more.length = front.length := by
    have hlength := congrArg List.length hrun
    rw [List.length_cons, List.length_append, List.length_singleton] at hlength
    exact Nat.succ.inj hlength
  have hreach : reach first.stop more = last.stop := by
    rw [← reach_cons 0, hrun, reach_concat]
  have hat (k : Nat) : spans[i + k]? = (first :: more ++ after)[k]? := by
    rw [← List.getElem?_drop, hdrop, List.cons_append]
  refine ⟨first, last, hat 0, ?_, by rw [hp], by rw [hp, hreach], ?_, ?_⟩
  · rw [hat, hrun, hmore, hlength, List.append_assoc, List.getElem?_append_right (Nat.le_refl _), Nat.sub_self]
    rfl
  · obtain ⟨tokens, t, heq, hcloses⟩ := hurl.exists_last
    rw [← List.map_cons, hrun, List.map_append] at heq
    obtain ⟨-, hlast⟩ := List.append_inj' heq rfl
    rw [List.map_singleton, List.singleton_inj] at hlast
    rw [hlast, hcloses]
  · rw [hextract]
    exact hurl

/-- The segment of a finding is that of the tokens at which it is found. -/
theorem holdsUrlAt_of_made {css : String} {s : Segment} {f : Finding}
    (hfound : FoundAt (tokenize (normalize css.toList)).spans f i) (hmade : MadeFrom css s (some f))
    (hplaced : PlacedAs css s (some f)) (hlt : s.start < s.stop) :
    HoldsUrlAt css (tokenize (normalize css.toList)).spans s i := by
  obtain ⟨more, hfound⟩ := hfound
  obtain ⟨-, hdata, hslice⟩ := hmade
  obtain ⟨hstart, hstop⟩ := hplaced f rfl
  obtain ⟨first, last, hfirst, hlast, hfirstStart, hlastStop, hcloses, hurl⟩ := exists_run hfound
  obtain ⟨before, after, htext, hparen⟩ := exists_paren (List.mem_of_getElem? hlast) hcloses
  rw [← hlastStop] at hstop hslice
  rw [hparen] at hslice
  refine ⟨_, first, last, hfound, hdata.symm, hfirst, hlast, ?_, ?_, hstop, exists_slice_paren hslice hlt htext⟩
  · rw [hdata]
    exact hurl
  · rw [hfirstStart]
    exact hstart

/-- **Each URL is found once.** Every stylesheet has segments. Those that are not raw text hold one URL each: in
order, just those that a search finds at one of the indices of the token list, and a search finds one wherever the
tokens are a URL. The tokens of no two overlap. -/
theorem segment_occurrences (classifier : Classifier) (css : String) :
    let spans := (tokenize (normalize css.toList)).spans
    (∃ cut : List (Segment × Option Nat),
      segment classifier css = .ok (cut.map Prod.fst) ∧
      cut.filterMap Prod.snd = constructIndices spans ∧
      ∀ q ∈ cut, (q.2 = none → HoldsSource css q.1) ∧ ∀ i, q.2 = some i → HoldsUrlAt css spans q.1 i) ∧
    (∀ i, i ∈ constructIndices spans ↔ StartsUrl ((spans.drop i).map Span.token)) ∧
    ∀ i j p q, constructAt? spans i = some p → constructAt? spans j = some q → i < j → i + p.length ≤ j := by
  intro spans
  refine ⟨?_, fun i => mem_constructIndices_iff, fun i j p q => constructAt?_apart⟩
  obtain ⟨parts, hparts⟩ := exists_parts_of_text classifier (points css.toList)
  have hpoints : points css.toList = [] ++ ([] ++ points css.toList) := rfl
  obtain ⟨cut, hcut, hmade, horigins⟩ := hparts.exists_cut hpoints
  have hall : spans.drop 0 = spans := List.drop_zero
  have hfound := findings_foundAt classifier .initial spans hall
  rw [← List.range_eq_range'] at hfound
  have hspans : spans = spansFrom ([] ++ [] : List Point).length (lexemes ((points css.toList).map Point.char)) :=
    tokenize_spans _
  rw [hspans, ← horigins, ← hspans] at hfound
  obtain ⟨other, hfst, hsnd, hother⟩ := exists_relabelled hfound
  refine ⟨other, ?_, hsnd, fun q hq => ?_⟩
  · rw [hfst, ← hcut]
    exact hparts.segmentTokens_eq
  · obtain ⟨⟨s, origin⟩, hp, hsegment, hlabels⟩ := hother q hq
    obtain ⟨_, index⟩ := q
    cases hsegment
    have hlt := hmade.contiguous.lt_of_mem s (List.mem_map_of_mem hp)
    have hmadeFrom := hmade.made _ hp
    have hplaced := hmade.placed _ hp
    cases hlabels with
    | none => exact ⟨fun _ => hmadeFrom, nofun⟩
    | some hfoundAt =>
      refine ⟨nofun, ?_⟩
      rintro _ ⟨⟩
      exact holdsUrlAt_of_made hfoundAt hmadeFrom hplaced hlt

end CssUrls
