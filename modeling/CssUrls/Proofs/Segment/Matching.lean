import Mathlib.Data.List.Forall2
import CssUrls.Proofs.Segment.Parts

/-! Stylesheets with the same URLs.

Where a URL starts among tokens, and what a context makes of them, does not depend on the text of a string
(`startsUrl_shape`, `track_shape`). So lexemes with the same URLs among tokens that are otherwise of the
same shape, which are `Matched`, make segments of the same kinds. One lexeme can be written in another way
and they are still matched (`matched_of_lexeme`). -/
namespace CssUrls
open Text Lexical

/-- The token without the text of a string. -/
def Token.shape : Token → Token
  | .string _ => .string ""
  | t => t

/-- Segments of the same kind, and with the same URL if they are one. -/
structure Segment.SameUrl (s again : Segment) : Prop where
  kind : again.kind = s.kind
  url? : again.url? = s.url?

/-! ### Shapes -/

theorem Token.eq_of_shape {t u : Token} (h : t.shape = u) (hu : ∀ text, u ≠ .string text) : t = u := by
  cases t with
  | string text => exact absurd h.symm (hu "")
  | _ => exact h

theorem Token.exists_string_of_shape {t : Token} {text : String} (h : t.shape = .string text) :
    ∃ text, t = .string text := by
  cases t with
  | string text => exact ⟨text, rfl⟩
  | _ => contradiction

/-- No context depends on the text of a string. -/
theorem track_shape (c : Context) (t : Token) : c.track t.shape = c.track t := by
  cases t <;> rfl

theorem SpellsUrl.shape {run : List Token} {url : String} (h : SpellsUrl run url) :
    ∃ url, SpellsUrl (run.map Token.shape) url := by
  cases h with
  | bare => exact ⟨url, .bare url⟩
  | quoted name _ before after hname =>
    have hquoted := SpellsUrl.quoted name "" before after hname
    exact ⟨"", by simpa [Token.shape] using hquoted⟩

theorem exists_spellsUrl_of_shape {run : List Token} {url : String} (h : SpellsUrl (run.map Token.shape) url) :
    ∃ url, SpellsUrl run url := by
  have hblanks {ts : List Token} {n : Nat} (h : ts.map Token.shape = List.replicate n .whitespace) :
      ts = List.replicate n .whitespace := by
    rw [List.eq_replicate_iff, List.length_map, List.forall_mem_map] at h
    exact List.eq_replicate_iff.mpr ⟨h.1, fun t ht => Token.eq_of_shape (h.2 t ht) nofun⟩
  generalize hrun : run.map Token.shape = tokens at h
  cases h with
  | bare =>
    obtain ⟨t, rest, rfl, ht, hrest⟩ := List.map_eq_cons_iff.mp hrun
    rw [List.map_eq_nil_iff.mp hrest, Token.eq_of_shape ht nofun]
    exact ⟨url, .bare url⟩
  | quoted name _ before after hname =>
    obtain ⟨t, rest, rfl, ht, hrest⟩ := List.map_eq_cons_iff.mp hrun
    obtain ⟨blanks, rest, rfl, hbefore, hrest⟩ := List.map_eq_append_iff.mp hrest
    obtain ⟨s, rest, rfl, hs, hrest⟩ := List.map_eq_cons_iff.mp hrest
    obtain ⟨more, rest, rfl, hafter, hrest⟩ := List.map_eq_append_iff.mp hrest
    obtain ⟨p, rest, rfl, hp, hrest⟩ := List.map_eq_cons_iff.mp hrest
    cases List.map_eq_nil_iff.mp hrest
    obtain ⟨text, rfl⟩ := Token.exists_string_of_shape hs
    rw [Token.eq_of_shape ht nofun, Token.eq_of_shape hp nofun, hblanks hbefore, hblanks hafter]
    exact ⟨text, .quoted name text before after hname⟩

/-- Where a URL starts, it does so whatever the strings hold. -/
theorem startsUrl_shape {tokens : List Token} : StartsUrl (tokens.map Token.shape) ↔ StartsUrl tokens := by
  constructor
  · rintro ⟨run, after, url, heq, hurl⟩
    obtain ⟨front, back, rfl, rfl, -⟩ := List.map_eq_append_iff.mp heq
    obtain ⟨url, hurl⟩ := exists_spellsUrl_of_shape hurl
    exact ⟨front, back, url, rfl, hurl⟩
  · rintro ⟨run, after, url, rfl, hurl⟩
    obtain ⟨url, hurl⟩ := hurl.shape
    exact ⟨_, after.map Token.shape, url, List.map_append, hurl⟩

theorem startsUrl_iff_of_shape {a b : List Token} (h : b.map Token.shape = a.map Token.shape) :
    StartsUrl b ↔ StartsUrl a := by
  rw [← startsUrl_shape, h, startsUrl_shape]

/-! ### Matched lexemes -/

/-- Lexemes with the same URLs, and with tokens of the same shapes between them. Nothing is written in the
one where nothing is in the other. -/
inductive Matched : List Lexeme → List Lexeme → Prop
  | nil : Matched [] []
  | token {l m : Lexeme} {ls ms : List Lexeme} (hl : ¬ StartsUrl (tokensOf (l :: ls)))
      (hm : ¬ StartsUrl (tokensOf (m :: ms))) (hshape : m.token.shape = l.token.shape)
      (htext : m.text = [] ↔ l.text = []) (hrest : Matched ls ms) : Matched (l :: ls) (m :: ms)
  | url {l m : Lexeme} {more run ls ms : List Lexeme} {url : String}
      (hl : SpellsUrl (tokensOf (l :: more)) url) (hm : SpellsUrl (tokensOf (m :: run)) url)
      (hgap : m.gap = [] ↔ l.gap = []) (hrest : Matched ls ms) :
      Matched (l :: (more ++ ls)) (m :: (run ++ ms))

theorem Matched.refl (ls : List Lexeme) : Matched ls ls := by
  induction ls using itemwise with
  | nil => exact .nil
  | token l ls hurl ih => exact .token hurl hurl rfl Iff.rfl ih
  | url l more url ls hurl ih => exact .url hurl hurl Iff.rfl ih

/-- A lexeme and another one to be written in its place. -/
structure Replaces (m l : Lexeme) : Prop where
  shape : m.token.shape = l.token.shape
  gap : m.gap = [] ↔ l.gap = []
  body : m.body = [] ↔ l.body = []

theorem Replaces.text {l m : Lexeme} (h : Replaces m l) : m.text = [] ↔ l.text = [] := by
  rw [Lexeme.text, Lexeme.text, List.append_eq_nil_iff, List.append_eq_nil_iff, h.gap, h.body]

/-- The URL covers what stands from `start` to `stop`. -/
def Construct.Covers (u : Construct) (start stop : Nat) : Prop := u.start ≤ start ∧ stop ≤ u.stop

/-- No URL does. -/
def Uncovered (is : List Item) (start stop : Nat) : Prop := ∀ u, .url u ∈ is → ¬ u.Covers start stop

theorem Uncovered.tail {i : Item} {is : List Item} {start stop : Nat} (h : Uncovered (i :: is) start stop) :
    Uncovered is start stop :=
  fun u hu => h u (List.mem_cons_of_mem i hu)

/-- A URL covers each of its tokens. -/
theorem covers_of_mem {l m : Lexeme} {more before after : List Lexeme} (h : l :: more = before ++ m :: after)
    (url : String) (position : Nat) :
    Construct.Covers ⟨url, position + l.gap.length, position + (textOf (l :: more)).length⟩
      (position + (textOf before).length + m.gap.length)
      (position + (textOf before).length + m.text.length) := by
  constructor
  · cases before with
    | nil =>
      obtain ⟨rfl, -⟩ := List.cons.inj h
      exact Nat.le_refl _
    | cons first before =>
      obtain ⟨rfl, -⟩ := List.cons.inj h
      simp only [textOf_cons, Lexeme.text, List.length_append]
      omega
  · simp only [h, textOf_append, textOf_cons, List.length_append]
    omega

/-- What stands in a text of two parts stands in the first of them or in the other. -/
theorem append_cons_cases {before after front back : List Lexeme} {l : Lexeme}
    (h : before ++ l :: after = front ++ back) :
    (∃ rest, front = before ++ l :: rest ∧ after = rest ++ back) ∨
      ∃ rest, before = front ++ rest ∧ back = rest ++ l :: after := by
  rcases List.append_eq_append_iff.mp h with ⟨rest, rfl, hrest⟩ | ⟨rest, rfl, rfl⟩
  · cases rest with
    | nil => exact .inr ⟨[], by rw [List.append_nil, List.append_nil], hrest.symm⟩
    | cons m rest =>
      obtain ⟨rfl, rfl⟩ := List.cons.inj hrest
      exact .inl ⟨rest, rfl, rfl⟩
  · exact .inr ⟨rest, rfl, rfl⟩

/-- A lexeme with the same token in the place of one of a URL. -/
theorem matched_of_url {l m : Lexeme} {first : Lexeme} {more before after : List Lexeme} {url : String}
    (hspells : SpellsUrl (tokensOf (first :: more)) url) (hrun : first :: more = before ++ l :: after)
    (htoken : m.token = l.token) (hgap : m.gap = [] ↔ l.gap = []) (rest : List Lexeme) :
    Matched (first :: (more ++ rest)) (before ++ m :: (after ++ rest)) := by
  cases before with
  | nil =>
    obtain ⟨rfl, rfl⟩ := List.cons.inj hrun
    exact .url hspells (by rw [tokensOf_cons, htoken]; exact hspells) hgap (.refl rest)
  | cons b before =>
    obtain ⟨rfl, hmore⟩ := List.cons.inj hrun
    have hagain : SpellsUrl (tokensOf (first :: (before ++ m :: after))) url := by
      simpa [hmore, tokensOf, htoken] using hspells
    have hmatched := Matched.url hspells hagain Iff.rfl (.refl rest)
    rw [List.append_assoc] at hmatched
    exact hmatched

/-- **One lexeme can be replaced** by one with the same token, or by one with another string if that is not
that of a URL. -/
theorem matched_of_lexeme {before after : List Lexeme} {l m : Lexeme} (h : Replaces m l) (position : Nat)
    (hurl : m.token = l.token ∨ Uncovered (items (spansFrom position (before ++ l :: after)))
      (position + (textOf before).length + l.gap.length)
      (position + (textOf before).length + l.text.length)) :
    Matched (before ++ l :: after) (before ++ m :: after) := by
  generalize hls : before ++ l :: after = ls at hurl ⊢
  induction ls using itemwise generalizing before position with
  | nil => simp at hls
  | token first rest hstarts ih =>
    have hstarts' : ¬ StartsUrl (tokensOf (before ++ m :: after)) := by
      rw [startsUrl_iff_of_shape (a := tokensOf (first :: rest))]
      · exact hstarts
      · rw [← hls]
        simp [tokensOf, h.shape]
    rw [items_spansFrom_token hstarts] at hurl
    cases before with
    | nil =>
      obtain ⟨rfl, rfl⟩ := List.cons.inj hls
      exact .token hstarts hstarts' h.shape h.text (.refl _)
    | cons b before =>
      obtain ⟨rfl, hrest⟩ := List.cons.inj hls
      rw [textOf_cons, List.length_append, ← Nat.add_assoc] at hurl
      exact .token hstarts hstarts' rfl Iff.rfl (ih _ hrest (hurl.imp_right Uncovered.tail))
  | url first more url rest hspells ih =>
    rw [items_spansFrom_url hspells] at hurl
    rcases append_cons_cases (hls.trans (List.cons_append ..).symm) with
      ⟨back, hrun, rfl⟩ | ⟨back, rfl, rfl⟩
    · have htoken := hurl.resolve_right fun hurl =>
        hurl _ (List.mem_cons_self ..) (covers_of_mem hrun url position)
      exact matched_of_url hspells hrun htoken h.gap rest
    · rw [textOf_append, List.length_append, ← Nat.add_assoc] at hurl
      rw [List.append_assoc]
      exact .url hspells hspells Iff.rfl (ih _ rfl (hurl.imp_right Uncovered.tail))

/-! ### Matched parts -/

/-- The same URL of the same kind, or raw text, which is written as nothing in both or in neither. -/
inductive Part.Similar : Part → Part → Prop
  | raw {a b : List Point} (h : b = [] ↔ a = []) : Similar (.raw a) (.raw b)
  | url (kind : SegmentKind) (url : String) (a b : List Point) : Similar (.url kind url a) (.url kind url b)

theorem raw_similar {a b : List Point} {s t : List Char} (ha : a.map Point.char = s) (hb : b.map Point.char = t)
    (h : t = [] ↔ s = []) : Part.Similar (.raw a) (.raw b) := by
  refine .raw ?_
  rw [← List.map_eq_nil_iff (f := Point.char), hb, h, ← ha, List.map_eq_nil_iff]

/-- **Texts with matched lexemes have similar parts.** -/
theorem Matched.exists_parts (classifier : Classifier) {ls ms : List Lexeme} (h : Matched ls ms)
    (hls : ∀ l ∈ ls, opensUrl l.token = true → l.body ≠ [])
    (hms : ∀ m ∈ ms, opensUrl m.token = true → m.body ≠ []) (c : Context) {text again : List Point}
    (htext : text.map Point.char = textOf ls) (hagain : again.map Point.char = textOf ms) :
    ∃ parts parts', Parts classifier c text ls parts ∧ Parts classifier c again ms parts' ∧
      List.Forall₂ Part.Similar parts parts' := by
  induction h generalizing c text again with
  | nil =>
    rw [textOf_nil, List.map_eq_nil_iff] at htext hagain
    subst htext hagain
    exact ⟨[], [], .nil c, .nil c, .nil⟩
  | @token l m ls ms hl hm hshape hempty _ ih =>
    obtain ⟨front, rest, rfl, hfront, hrest⟩ := List.map_eq_append_iff.mp htext
    obtain ⟨front', rest', rfl, hfront', hrest'⟩ := List.map_eq_append_iff.mp hagain
    have hcontext : c.track m.token = c.track l.token := by rw [← track_shape, hshape, track_shape]
    obtain ⟨parts, parts', hparts, hparts', hsimilar⟩ :=
      ih (List.forall_mem_cons.mp hls).2 (List.forall_mem_cons.mp hms).2 (c.track l.token) hrest hrest'
    refine ⟨_, _, .token hfront hl hparts, .token hfront' hm ?_, .cons ?_ hsimilar⟩
    · rw [hcontext]
      exact hparts'
    · exact raw_similar hfront hfront' hempty
  | @url l m more run ls ms url hl hm hgap _ ih =>
    rw [textOf_cons, textOf_append, Lexeme.text, List.append_assoc, ← List.append_assoc (Lexeme.body _)]
      at htext hagain
    obtain ⟨gap, tail, rfl, hgapText, htail⟩ := List.map_eq_append_iff.mp htext
    obtain ⟨front, rest, rfl, hfront, hrest⟩ := List.map_eq_append_iff.mp htail
    obtain ⟨gap', tail', rfl, hgapText', htail'⟩ := List.map_eq_append_iff.mp hagain
    obtain ⟨front', rest', rfl, hfront', hrest'⟩ := List.map_eq_append_iff.mp htail'
    obtain ⟨parts, parts', hparts, hparts', hsimilar⟩ :=
      ih (fun n hn => hls n (by simp [hn])) (fun n hn => hms n (by simp [hn])) c.forgetting hrest hrest'
    have hbody := hls l (List.mem_cons_self ..) hl.opensUrl
    have hbody' := hms m (List.mem_cons_self ..) hm.opensUrl
    exact ⟨_, _, .url hgapText hfront hbody hl hparts, .url hgapText' hfront' hbody' hm hparts',
      .cons (raw_similar hgapText hgapText' hgap) (.cons (.url ..) hsimilar)⟩

/-! ### Their segments -/

theorem sourceOf_eq_nil_iff {ps : List Point} (h : ∀ p ∈ ps, p.source ≠ []) : sourceOf ps = [] ↔ ps = [] := by
  cases ps with
  | nil => exact ⟨fun _ => rfl, fun _ => rfl⟩
  | cons p ps =>
    have hp := h p (List.mem_cons_self ..)
    simp [hp]

theorem sameUrl_rawSegment {a b : List Char} (h : b = [] ↔ a = []) (offset offset' : Nat) :
    List.Forall₂ Segment.SameUrl (rawSegment offset a) (rawSegment offset' b) := by
  cases a with
  | nil =>
    rw [h.mpr rfl]
    exact .nil
  | cons c a =>
    cases b with
    | nil => exact absurd (h.mp rfl) (List.cons_ne_nil c a)
    | cons d b => exact .cons ⟨rfl, rfl⟩ .nil

/-- Similar parts make segments of the same kinds and with the same URLs. -/
theorem sameUrl_segmentsOf {parts parts' : List Part} (h : List.Forall₂ Part.Similar parts parts')
    {before before' : List Point} (hbefore : before' = [] ↔ before = [])
    (hsource : ∀ p ∈ before ++ pointsOf parts, p.source ≠ [])
    (hsource' : ∀ p ∈ before' ++ pointsOf parts', p.source ≠ []) (offset offset' : Nat) :
    List.Forall₂ Segment.SameUrl (segmentsOf offset before parts) (segmentsOf offset' before' parts') := by
  induction h generalizing before before' offset offset' with
  | nil =>
    rw [pointsOf_nil, List.append_nil] at hsource hsource'
    refine sameUrl_rawSegment ?_ offset offset'
    rw [sourceOf_eq_nil_iff hsource, sourceOf_eq_nil_iff hsource', hbefore]
  | cons hpart _ ih =>
    cases hpart with
    | raw htext =>
      rw [pointsOf_cons, ← List.append_assoc] at hsource hsource'
      refine ih ?_ hsource hsource' offset offset'
      rw [List.append_eq_nil_iff, List.append_eq_nil_iff, hbefore, Part.text, Part.text, htext]
    | url kind url a b =>
      rw [pointsOf_cons, List.forall_mem_append, List.forall_mem_append] at hsource hsource'
      have hraw : sourceOf before' = [] ↔ sourceOf before = [] := by
        rw [sourceOf_eq_nil_iff hsource.1, sourceOf_eq_nil_iff hsource'.1, hbefore]
      have hrest := @ih [] [] Iff.rfl hsource.2.2 hsource'.2.2
      exact List.rel_append (sameUrl_rawSegment hraw offset offset') (.cons ⟨rfl, rfl⟩ (hrest _ _))

end CssUrls
