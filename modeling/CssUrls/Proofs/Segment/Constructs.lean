import CssUrls.Segment.Construct
import CssUrls.Proofs.Lexical.Closed

/-! The spellings of a URL among tokens.

`SpellsUrl` says which tokens are a URL. The items of a token list are its URLs, each spelled so,
and the tokens between them, at which none starts (`items_url`, `items_token`). -/
namespace CssUrls
open Text Lexical

/-- The tokens that a URL is: a `url` token, or a function of that name around a string. -/
inductive SpellsUrl : List Token → String → Prop
  | bare (url : String) : SpellsUrl [.url url] url
  | quoted (name url : String) (before after : Nat) (h : sameLetters name "url" = true) :
      SpellsUrl (.function name :: (List.replicate before .whitespace ++ .string url ::
        (List.replicate after .whitespace ++ [.closeParen]))) url

/-- A URL may start with the token. No other token of it is one of these. -/
def opensUrl : Token → Bool
  | .url _ | .function _ => true
  | _ => false

/-- There is a URL at the front of the tokens. -/
def StartsUrl (tokens : List Token) : Prop :=
  ∃ run after url, tokens = run ++ after ∧ SpellsUrl run url

theorem SpellsUrl.eq_cons {run : List Token} {url : String} (h : SpellsUrl run url) :
    ∃ first more, run = first :: more ∧ opensUrl first = true ∧ ∀ t ∈ more, opensUrl t = false := by
  cases h with
  | bare => exact ⟨_, _, rfl, rfl, by simp⟩
  | quoted name _ before after =>
    refine ⟨_, _, rfl, rfl, ?_⟩
    intro t ht
    simp only [List.mem_append, List.mem_cons, List.mem_replicate, List.not_mem_nil, or_false] at ht
    obtain ⟨-, rfl⟩ | rfl | ⟨-, rfl⟩ | rfl := ht <;> rfl

theorem SpellsUrl.opensUrl {first : Token} {more : List Token} {url : String}
    (h : SpellsUrl (first :: more) url) : opensUrl first = true := by
  obtain ⟨t, ts, heq, ht, -⟩ := h.eq_cons
  rw [(List.cons.inj heq).1]
  exact ht

/-- The last token of a URL is one that a parenthesis closes. -/
theorem SpellsUrl.exists_last {run : List Token} {url : String} (h : SpellsUrl run url) :
    ∃ front t, run = front ++ [t] ∧ closes t = true := by
  cases h with
  | bare => exact ⟨[], _, rfl, rfl⟩
  | quoted name _ before after =>
    refine ⟨.function name :: (List.replicate before .whitespace ++ .string url ::
      List.replicate after .whitespace), .closeParen, ?_, rfl⟩
    simp only [List.cons_append, List.append_assoc]

theorem SpellsUrl.ne_endOfFile {run : List Token} {url : String} (h : SpellsUrl run url) :
    ∀ t ∈ run, t ≠ .endOfFile := by
  cases h with
  | bare => simp
  | quoted name _ before after =>
    intro t ht
    simp only [List.mem_append, List.mem_cons, List.mem_replicate, List.not_mem_nil, or_false] at ht
    obtain rfl | ⟨-, rfl⟩ | rfl | ⟨-, rfl⟩ | rfl := ht <;> exact Token.noConfusion

/-! ### Constructs -/

theorem map_token_eq_replicate_iff {spans : List Span} {n : Nat} :
    spans.map Span.token = List.replicate n .whitespace ↔
      spans.length = n ∧ ∀ s ∈ spans, isBlank s = true := by
  simp [List.eq_replicate_iff, isBlank]

theorem takeWhile_isBlank {blanks rest : List Span} {s : Span}
    (h : ∀ b ∈ blanks, isBlank b = true) (hs : isBlank s = false) :
    (blanks ++ s :: rest).takeWhile isBlank = blanks := by
  rw [List.takeWhile_append_of_pos h, List.takeWhile_cons, hs]
  simp

/-- Behind the white space at the front of spans. -/
theorem drop_takeWhile_isBlank (spans : List Span) :
    ∃ blanks rest, spans = blanks ++ rest ∧ (∀ b ∈ blanks, isBlank b = true) ∧
      (spans.takeWhile isBlank).length = blanks.length ∧
      spans.drop (spans.takeWhile isBlank).length = rest := by
  have happend : spans = spans.takeWhile isBlank ++ spans.dropWhile isBlank :=
    List.takeWhile_append_dropWhile.symm
  refine ⟨spans.takeWhile isBlank, spans.dropWhile isBlank, happend, ?_, rfl, ?_⟩
  · exact fun b hb => List.all_eq_true.mp List.all_takeWhile b hb
  · exact (congrArg (List.drop (spans.takeWhile isBlank).length) happend).trans List.drop_left

/-- What is found as the argument of `url(` is one. -/
theorem argument?_spec {start : Nat} {spans : List Span} {p : Piece Construct}
    (h : argument? start spans = some p) :
    ∃ before s after t rest, spans = before ++ s :: (after ++ t :: rest) ∧
      (∀ b ∈ before, isBlank b = true) ∧ s.token = .string p.value.url ∧
      (∀ b ∈ after, isBlank b = true) ∧ t.token = .closeParen ∧
      p = ⟨⟨p.value.url, start, t.stop⟩, before.length + 1 + after.length + 1⟩ := by
  obtain ⟨before, tail, rfl, hbefore, hlength, hdrop⟩ := drop_takeWhile_isBlank spans
  simp only [argument?] at h
  rw [hdrop, hlength] at h
  split at h
  · rename_i url start' stop' rest
    obtain ⟨after, tail, rfl, hafter, hlength, hdrop⟩ := drop_takeWhile_isBlank rest
    rw [hdrop, hlength] at h
    split at h
    · cases h
      exact ⟨before, _, after, _, _, rfl, hbefore, rfl, hafter, rfl, rfl⟩
    · contradiction
  · contradiction

/-- A string and a closing parenthesis are found as the argument of `url(`. -/
theorem argument?_eq_some (start : Nat) {before after : List Span} {s t : Span} {url : String}
    (hbefore : ∀ b ∈ before, isBlank b = true) (hs : s.token = .string url)
    (hafter : ∀ b ∈ after, isBlank b = true) (ht : t.token = .closeParen) (rest : List Span) :
    argument? start (before ++ s :: (after ++ t :: rest)) =
      some ⟨⟨url, start, t.stop⟩, before.length + 1 + after.length + 1⟩ := by
  have hstring : isBlank s = false := by simp [isBlank, hs]
  have hclose : isBlank t = false := by simp [isBlank, ht]
  simp only [argument?, takeWhile_isBlank hbefore hstring, List.drop_left]
  obtain ⟨token, sstart, sstop⟩ := s
  cases hs
  simp only [takeWhile_isBlank hafter hclose, List.drop_left]
  obtain ⟨token, tstart, tstop⟩ := t
  cases ht
  rfl

/-- **What is found as a construct is a URL**, from the start of its first token on, to where its last
stops. -/
theorem construct?_spec {first : Span} {rest : List Span} {p : Piece Construct}
    (h : construct? first rest = some p) :
    ∃ more after, rest = more ++ after ∧
      SpellsUrl (first.token :: more.map Span.token) p.value.url ∧
      p = ⟨⟨p.value.url, first.start, reach first.stop more⟩, more.length⟩ := by
  unfold construct? at h
  split at h
  · rename_i url htoken
    cases h
    refine ⟨[], rest, rfl, ?_, rfl⟩
    rw [htoken]
    exact .bare url
  · rename_i name htoken
    split at h
    · rename_i hname
      obtain ⟨before, s, after, t, rest, rfl, hbefore, hs, hafter, ht, hp⟩ := argument?_spec h
      refine ⟨before ++ s :: (after ++ [t]), rest, ?_, ?_, ?_⟩
      · simp
      · have hblanks := SpellsUrl.quoted name p.value.url before.length after.length hname
        rw [← map_token_eq_replicate_iff.mpr ⟨rfl, hbefore⟩,
          ← map_token_eq_replicate_iff.mpr ⟨rfl, hafter⟩, ← hs, ← ht, ← htoken] at hblanks
        simpa using hblanks
      · rw [hp, ← List.cons_append, ← List.append_assoc, reach_concat]
        simp
        omega
    · contradiction
  · contradiction

/-- **A URL is found as a construct.** -/
theorem construct?_eq_some {first : Span} {more : List Span} {url : String}
    (h : SpellsUrl (first.token :: more.map Span.token) url) (after : List Span) :
    construct? first (more ++ after) =
      some ⟨⟨url, first.start, reach first.stop more⟩, more.length⟩ := by
  generalize hrun : first.token :: more.map Span.token = run at h
  cases h with
  | bare =>
    obtain ⟨htoken, hmore⟩ := List.cons.inj hrun
    rw [List.map_eq_nil_iff] at hmore
    subst hmore
    rw [construct?, htoken]
    rfl
  | quoted name _ m n hname =>
    obtain ⟨htoken, hmore⟩ := List.cons.inj hrun
    obtain ⟨before, tail, rfl, hbefore, htail⟩ := List.map_eq_append_iff.mp hmore
    obtain ⟨s, tail, rfl, hs, htail⟩ := List.map_eq_cons_iff.mp htail
    obtain ⟨blanks, tail, rfl, hblanks, htail⟩ := List.map_eq_append_iff.mp htail
    obtain ⟨t, tail, rfl, ht, htail⟩ := List.map_eq_cons_iff.mp htail
    rw [List.map_eq_nil_iff] at htail
    subst htail
    have hfound := argument?_eq_some first.start (map_token_eq_replicate_iff.mp hbefore).2 hs
      (map_token_eq_replicate_iff.mp hblanks).2 ht after
    rw [construct?, htoken]
    simp only [hname, if_true]
    simp only [List.append_assoc, List.cons_append, List.nil_append]
    rw [hfound, ← List.cons_append, ← List.append_assoc, reach_concat]
    simp
    omega

theorem construct?_eq_none_iff {first : Span} {rest : List Span} :
    construct? first rest = none ↔ ¬ StartsUrl (first.token :: rest.map Span.token) := by
  constructor
  · intro h hstarts
    obtain ⟨run, after, url, heq, hurl⟩ := hstarts
    obtain ⟨t, ts, rfl, -, -⟩ := hurl.eq_cons
    obtain ⟨rfl, hrest⟩ := List.cons.inj heq
    obtain ⟨more, behind, rfl, rfl, rfl⟩ := List.map_eq_append_iff.mp hrest
    rw [construct?_eq_some hurl] at h
    contradiction
  · intro h
    cases hp : construct? first rest with
    | none => rfl
    | some p =>
      obtain ⟨more, after, rfl, hurl, -⟩ := construct?_spec hp
      refine absurd ⟨_, after.map Span.token, p.value.url, ?_, hurl⟩ h
      rw [List.map_append, List.cons_append]

/-! ### Items -/

theorem items_nil : items [] = [] := by
  rw [items, pieces_nil]
  rfl

theorem items_cons (first : Span) (rest : List Span) :
    items (first :: rest) = (itemPiece first rest).value :: items (rest.drop (itemPiece first rest).more) := by
  rw [items, pieces_cons]
  rfl

/-- A token at which no URL starts is an item. -/
theorem items_token {first : Span} {rest : List Span}
    (h : ¬ StartsUrl (first.token :: rest.map Span.token)) :
    items (first :: rest) = .token first.token :: items rest := by
  rw [items_cons, itemPiece, construct?_eq_none_iff.mpr h]
  rfl

/-- The tokens of a URL are one item. -/
theorem items_url {first : Span} {more : List Span} {url : String}
    (h : SpellsUrl (first.token :: more.map Span.token) url) (after : List Span) :
    items (first :: (more ++ after)) =
      .url ⟨url, first.start, reach first.stop more⟩ :: items after := by
  rw [items_cons, itemPiece, construct?_eq_some h]
  simp only [List.drop_left]

/-! ### Lexemes as items -/

theorem items_spansFrom_token {l : Lexeme} {ls : List Lexeme} (h : ¬ StartsUrl (tokensOf (l :: ls)))
    (position : Nat) :
    items (spansFrom position (l :: ls)) =
      .token l.token :: items (spansFrom (position + l.text.length) ls) := by
  rw [spansFrom, items_token]
  rw [spansFrom_token]
  exact h

theorem items_spansFrom_url {l : Lexeme} {more : List Lexeme} {url : String}
    (h : SpellsUrl (tokensOf (l :: more)) url) (position : Nat) (ls : List Lexeme) :
    items (spansFrom position (l :: (more ++ ls))) =
      .url ⟨url, position + l.gap.length, position + (textOf (l :: more)).length⟩ ::
        items (spansFrom (position + (textOf (l :: more)).length) ls) := by
  rw [spansFrom, spansFrom_append, items_url]
  · rw [reach_spansFrom, textOf_cons, List.length_append, Nat.add_assoc]
  · rw [spansFrom_token]
    exact h

/-- Induction on what holds tokens, one item at a time. -/
theorem itemwise_of {α : Type} (tokenOf : α → Token) {motive : List α → Prop} (nil : motive [])
    (token : ∀ x xs, ¬ StartsUrl ((x :: xs).map tokenOf) → motive xs → motive (x :: xs))
    (url : ∀ x more url xs, SpellsUrl ((x :: more).map tokenOf) url → motive xs →
      motive (x :: (more ++ xs))) (xs : List α) : motive xs := by
  generalize hn : xs.length = n
  induction n using Nat.strongRecOn generalizing xs with
  | ind n ih =>
    subst hn
    cases xs with
    | nil => exact nil
    | cons x xs =>
      by_cases h : StartsUrl ((x :: xs).map tokenOf)
      · obtain ⟨run, after, u, heq, hurl⟩ := h
        obtain ⟨t, ts, rfl, -, -⟩ := hurl.eq_cons
        obtain ⟨rfl, hxs⟩ := List.cons.inj heq
        obtain ⟨more, rest, rfl, rfl, rfl⟩ := List.map_eq_append_iff.mp hxs
        refine url x more u rest hurl (ih rest.length ?_ rest rfl)
        rw [List.length_cons, List.length_append]
        omega
      · exact token x xs h (ih xs.length (Nat.lt_succ_self _) xs rfl)

/-- Induction on lexemes, one item at a time. -/
theorem itemwise {motive : List Lexeme → Prop} (nil : motive [])
    (token : ∀ l ls, ¬ StartsUrl (tokensOf (l :: ls)) → motive ls → motive (l :: ls))
    (url : ∀ l more url ls, SpellsUrl (tokensOf (l :: more)) url → motive ls →
      motive (l :: (more ++ ls))) (ls : List Lexeme) : motive ls :=
  itemwise_of Lexeme.token nil token url ls

/-- The end of the file is behind all URLs. -/
theorem endOfFile_not_mem {ls : List Lexeme}
    (hlast : ∀ l rest, l :: rest <:+ ls → l.token = .endOfFile → rest = []) {position : Nat}
    {before after : List Item} {u : Construct}
    (h : items (spansFrom position ls) = before ++ .url u :: after) : .token .endOfFile ∉ before := by
  induction ls using itemwise generalizing position before with
  | nil =>
    rw [spansFrom, items_nil] at h
    simp at h
  | token l ls hurl ih =>
    rw [items_spansFrom_token hurl] at h
    cases before with
    | nil => simp
    | cons i before =>
      obtain ⟨rfl, hrest⟩ := List.cons.inj h
      have hbefore := ih (fun m rest hm => hlast m rest (hm.trans (List.suffix_cons l ls))) hrest
      rw [List.mem_cons, not_or]
      refine ⟨fun heq => ?_, hbefore⟩
      have hls := hlast l ls (List.suffix_refl _) (Item.token.inj heq).symm
      rw [hls, spansFrom, items_nil] at hrest
      simp at hrest
  | url l more url ls hurl ih =>
    rw [items_spansFrom_url hurl] at h
    cases before with
    | nil => simp
    | cons i before =>
      obtain ⟨rfl, hrest⟩ := List.cons.inj h
      have hsuffix : ls <:+ l :: (more ++ ls) := ⟨l :: more, rfl⟩
      have hbefore := ih (fun m rest hm => hlast m rest (hm.trans hsuffix)) hrest
      simp [hbefore]

theorem endOfFile_not_mem_of_tokenize {text : List Char} {before after : List Item} {u : Construct}
    (h : items (tokenize text).spans = before ++ .url u :: after) :
    .token .endOfFile ∉ before := by
  rw [tokenize_spans] at h
  refine endOfFile_not_mem ?_ h
  intro l rest hsuffix hl
  obtain ⟨past, hpast⟩ := hsuffix
  refine Classical.byContradiction fun hrest => ?_
  exact ne_endOfFile_of_lexemes (hpast.symm.trans (List.append_cons ..)) hrest l (by simp) hl

end CssUrls
