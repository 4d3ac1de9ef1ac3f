import CssUrls.Segment.Basic
import CssUrls.Proofs.Text.Source
import CssUrls.Proofs.Segment.Constructs

/-! A stylesheet as its parts.

A part is raw text or a URL, with the points it is written as. `Parts` reads parts off the lexemes of
a text as the context goes along, and `segmentsOf` says what segments parts make: raw text is
gathered up to the next URL. `Parts.segmentTokens_eq`: these are the segments of the text. -/
namespace CssUrls
open Text Lexical

inductive Part
  | raw (text : List Point)
  | url (kind : SegmentKind) (url : String) (text : List Point)

def Part.text : Part → List Point
  | .raw text | .url _ _ text => text

/-- What parts are written as together. -/
def pointsOf (parts : List Part) : List Point := parts.flatMap Part.text

@[simp] theorem pointsOf_nil : pointsOf [] = [] := rfl

@[simp] theorem pointsOf_cons (part : Part) (parts : List Part) :
    pointsOf (part :: parts) = part.text ++ pointsOf parts := rfl

@[simp] theorem pointsOf_append (a b : List Part) : pointsOf (a ++ b) = pointsOf a ++ pointsOf b :=
  List.flatMap_append

/-- The segments of parts behind raw text that is in none yet. -/
def segmentsOf (offset : Nat) (before : List Point) : List Part → List Segment
  | [] => rawSegment offset (sourceOf before)
  | .raw text :: parts => segmentsOf offset (before ++ text) parts
  | .url kind url text :: parts =>
    let start := offset + byteLength (sourceOf before)
    let stop := start + byteLength (sourceOf text)
    rawSegment offset (sourceOf before) ++ ⟨kind, url, start, stop⟩ :: segmentsOf stop [] parts

/-- The parts of a text with these lexemes, read in a context. Comments in front of a URL are raw text,
those between its tokens are part of it. -/
inductive Parts (classifier : Classifier) : Context → List Point → List Lexeme → List Part → Prop
  | nil (c : Context) : Parts classifier c [] [] []
  | token {c : Context} {text rest : List Point} {l : Lexeme} {ls : List Lexeme} {parts : List Part}
      (htext : text.map Point.char = l.text) (hurl : ¬ StartsUrl (tokensOf (l :: ls)))
      (hrest : Parts classifier (c.track l.token) rest ls parts) :
      Parts classifier c (text ++ rest) (l :: ls) (.raw text :: parts)
  | url {c : Context} {gap text rest : List Point} {l : Lexeme} {more ls : List Lexeme}
      {parts : List Part} {url : String} (hgap : gap.map Point.char = l.gap)
      (htext : text.map Point.char = l.body ++ textOf more) (hbody : l.body ≠ [])
      (hurl : SpellsUrl (tokensOf (l :: more)) url)
      (hrest : Parts classifier c.forgetting rest ls parts) :
      Parts classifier c (gap ++ (text ++ rest)) (l :: (more ++ ls))
        (.raw gap :: .url (c.kindHere classifier) url text :: parts)

variable {classifier : Classifier}

/-- Parts leave out nothing of the text. -/
theorem Parts.pointsOf_eq {c : Context} {text : List Point} {ls : List Lexeme} {parts : List Part}
    (h : Parts classifier c text ls parts) : pointsOf parts = text := by
  induction h with
  | nil => rfl
  | token _ _ _ ih => rw [pointsOf_cons, ih, Part.text]
  | url _ _ _ _ _ ih => rw [pointsOf_cons, pointsOf_cons, ih, Part.text, Part.text]

/-- The lexemes of parts are what the parts are written as. -/
theorem Parts.map_char_eq {c : Context} {text : List Point} {ls : List Lexeme} {parts : List Part}
    (h : Parts classifier c text ls parts) : text.map Point.char = textOf ls := by
  induction h with
  | nil => rfl
  | token htext _ _ ih => rw [List.map_append, htext, ih, textOf_cons]
  | url hgap htext _ _ _ ih =>
    rw [List.map_append, List.map_append, hgap, htext, ih, textOf_cons, textOf_append, Lexeme.text]
    simp only [List.append_assoc]

/-- Every text with lexemes has parts. -/
theorem exists_parts (classifier : Classifier) {ls : List Lexeme}
    (hbody : ∀ l ∈ ls, opensUrl l.token = true → l.body ≠ []) (c : Context) {text : List Point}
    (htext : text.map Point.char = textOf ls) : ∃ parts, Parts classifier c text ls parts := by
  induction ls using itemwise generalizing c text with
  | nil =>
    rw [textOf_nil, List.map_eq_nil_iff] at htext
    subst htext
    exact ⟨[], .nil c⟩
  | token l ls hurl ih =>
    obtain ⟨front, rest, rfl, hfront, hrest⟩ := List.map_eq_append_iff.mp htext
    obtain ⟨parts, hparts⟩ := ih (fun m hm => hbody m (List.mem_cons_of_mem l hm)) (c.track l.token) hrest
    exact ⟨_, .token hfront hurl hparts⟩
  | url l more url ls hurl ih =>
    rw [textOf_cons, textOf_append, Lexeme.text, List.append_assoc, ← List.append_assoc l.body] at htext
    obtain ⟨gap, tail, rfl, hgap, htail⟩ := List.map_eq_append_iff.mp htext
    obtain ⟨front, rest, rfl, hfront, hrest⟩ := List.map_eq_append_iff.mp htail
    obtain ⟨parts, hparts⟩ := ih (fun m hm => hbody m (by simp [hm])) c.forgetting hrest
    exact ⟨_, .url hgap hfront (hbody l (List.mem_cons_self ..) hurl.opensUrl) hurl hparts⟩

/-- A URL is found where it is written. -/
theorem items_of_written {gap written : List Point} {l : Lexeme} {more : List Lexeme} {url : String}
    (hgap : gap.map Point.char = l.gap) (hwritten : written.map Point.char = l.body ++ textOf more)
    (hurl : SpellsUrl (tokensOf (l :: more)) url) (position : Nat) (ls : List Lexeme) :
    items (spansFrom position (l :: (more ++ ls))) =
      .url ⟨url, position + gap.length, position + gap.length + written.length⟩ ::
        items (spansFrom (position + gap.length + written.length) ls) := by
  have hgapLength : l.gap.length = gap.length := by rw [← hgap, List.length_map]
  have hrun : (textOf (l :: more)).length = gap.length + written.length := by
    rw [textOf_cons, Lexeme.text, List.append_assoc, ← hwritten, List.length_append, List.length_map,
      hgapLength]
  rw [items_spansFrom_url hurl, hrun, hgapLength, Nat.add_assoc]

/-- What is cut at the findings is cut at the parts. -/
theorem Parts.cutFrom_eq {c : Context} {text : List Point} {ls : List Lexeme} {parts : List Part}
    (h : Parts classifier c text ls parts) (position offset : Nat) (before : List Point) :
    cutFrom position offset (before ++ text)
        (findings classifier c (items (spansFrom (position + before.length) ls))) =
      segmentsOf offset before parts := by
  induction h generalizing position offset before with
  | nil c =>
    rw [spansFrom, items_nil, findings, cutFrom, List.append_nil, segmentsOf]
  | @token c text rest l ls parts htext hurl hrest ih =>
    have hlength := congrArg List.length htext
    rw [List.length_map] at hlength
    have hih := ih position offset (before ++ text)
    rw [List.length_append, hlength, ← Nat.add_assoc, List.append_assoc] at hih
    rw [items_spansFrom_token hurl, findings, segmentsOf]
    exact hih
  | @url c gap text rest l more ls parts url hgap htext hbody hurl hrest ih =>
    rw [items_of_written hgap htext hurl, findings, cutFrom, segmentsOf, segmentsOf]
    simp only
    have hstart : position + before.length + gap.length - position = (before ++ gap).length := by
      rw [List.length_append]
      omega
    rw [hstart, Nat.add_sub_cancel_left, ← List.append_assoc before, List.take_left, List.drop_left,
      List.take_left, List.drop_left]
    congr 2
    exact ih _ _ []

/-! ### The segments of a text -/

theorem properlyEnded_tokenize (text : List Char) : properlyEnded (tokenize text).spans = true := by
  obtain ⟨front, gap, heq, hfront⟩ := lexemes_eq_append_endOfFile text
  have hcount : (spansFrom 0 front).countP (·.token == .endOfFile) = 0 := by
    rw [List.countP_eq_zero]
    intro s hs
    have htoken : s.token ∈ tokensOf front := by
      rw [← spansFrom_token 0 front]
      exact List.mem_map_of_mem hs
    obtain ⟨l, hl, heq⟩ := List.mem_map.mp htoken
    rw [beq_iff_eq, ← heq]
    exact (hfront l hl).1
  rw [tokenize_spans, heq, spansFrom_append, properlyEnded, List.countP_append, hcount]
  simp [spansFrom]

/-- **The segments of a text are those of its parts.** -/
theorem Parts.segmentTokens_eq {text : List Point} {parts : List Part}
    (h : Parts classifier .initial text (lexemes (text.map Point.char)) parts) :
    segmentTokens classifier text (tokenize (text.map Point.char)).spans =
      .ok (segmentsOf 0 [] parts) := by
  rw [segmentTokens, if_pos (properlyEnded_tokenize _), tokenize_spans]
  exact congrArg Except.ok (h.cutFrom_eq 0 0 [])

/-- A token that may open a URL is written as something. -/
theorem body_ne_nil_of_opensUrl {text : List Char} :
    ∀ l ∈ lexemes text, opensUrl l.token = true → l.body ≠ [] := by
  intro l hl hurl
  obtain ⟨front, gap, heq, hfront⟩ := lexemes_eq_append_endOfFile text
  rw [heq, List.mem_append, List.mem_singleton] at hl
  rcases hl with hl | rfl
  · exact List.ne_nil_of_length_pos (hfront l hl).2
  · contradiction

/-- Every text has parts, in any context. -/
theorem exists_parts_in (classifier : Classifier) (c : Context) (text : List Point) :
    ∃ parts, Parts classifier c text (lexemes (text.map Point.char)) parts :=
  exists_parts classifier body_ne_nil_of_opensUrl c (textOf_lexemes _).symm

theorem exists_parts_of_text (classifier : Classifier) (text : List Point) :
    ∃ parts, Parts classifier .initial text (lexemes (text.map Point.char)) parts :=
  exists_parts_in classifier .initial text

/-! ### The segment of a URL -/

/-- A URL among items is a part, of the kind it has behind them. -/
theorem Parts.exists_url {c : Context} {text : List Point} {ls : List Lexeme} {parts : List Part}
    (h : Parts classifier c text ls parts) {position : Nat} {before after : List Item} {u : Construct}
    (hitems : items (spansFrom position ls) = before ++ .url u :: after) :
    ∃ front written back,
      parts = front ++
        .url ((before.foldl Context.trackItem c).kindHere classifier) u.url written :: back ∧
      u.start = position + (pointsOf front).length ∧ u.stop = u.start + written.length := by
  induction h generalizing position before with
  | nil c =>
    rw [spansFrom, items_nil] at hitems
    simp at hitems
  | @token c text rest l ls parts htext hurl hrest ih =>
    rw [items_spansFrom_token hurl] at hitems
    cases before with
    | nil => simp at hitems
    | cons i before =>
      obtain ⟨rfl, hbefore⟩ := List.cons.inj hitems
      obtain ⟨front, written, back, rfl, hstart, hstop⟩ := ih hbefore
      refine ⟨.raw text :: front, written, back, rfl, ?_, hstop⟩
      rw [hstart, pointsOf_cons, List.length_append, Part.text, ← htext, List.length_map, Nat.add_assoc]
  | @url c gap text rest l more ls parts url hgap htext hbody hurl hrest ih =>
    rw [items_of_written hgap htext hurl] at hitems
    cases before with
    | nil =>
      obtain ⟨hu, -⟩ := List.cons.inj hitems
      cases hu
      refine ⟨[.raw gap], text, parts, rfl, ?_, rfl⟩
      rw [pointsOf_cons, pointsOf_nil, List.append_nil, Part.text]
    | cons i before =>
      obtain ⟨rfl, hbefore⟩ := List.cons.inj hitems
      obtain ⟨front, written, back, rfl, hstart, hstop⟩ := ih hbefore
      refine ⟨.raw gap :: .url (c.kindHere classifier) url text :: front, written, back, rfl, ?_, hstop⟩
      rw [hstart, pointsOf_cons, pointsOf_cons, Part.text, Part.text, List.length_append,
        List.length_append, Nat.add_assoc, Nat.add_assoc]

/-- A URL among parts is a segment. -/
theorem segmentsOf_url (kind : SegmentKind) (url : String) (written : List Point) (back : List Part)
    (offset : Nat) (before : List Point) (front : List Part) :
    ∃ first last, segmentsOf offset before (front ++ .url kind url written :: back) =
      first ++ ⟨kind, url, offset + byteLength (sourceOf (before ++ pointsOf front)),
        offset + byteLength (sourceOf (before ++ pointsOf front ++ written))⟩ :: last := by
  induction front generalizing offset before with
  | nil =>
    rw [List.nil_append, segmentsOf]
    refine ⟨rawSegment offset (sourceOf before),
      segmentsOf (offset + byteLength (sourceOf (before ++ written))) [] back, ?_⟩
    simp only [pointsOf_nil, List.append_nil, sourceOf_append, byteLength_append, Nat.add_assoc]
  | cons part front ih =>
    cases part with
    | raw text =>
      obtain ⟨first, last, heq⟩ := ih offset (before ++ text)
      refine ⟨first, last, ?_⟩
      rw [List.cons_append, segmentsOf, heq, pointsOf_cons, Part.text, List.append_assoc before]
    | url other otherUrl text =>
      let start := offset + byteLength (sourceOf before)
      let stop := start + byteLength (sourceOf text)
      obtain ⟨first, last, heq⟩ := ih stop []
      refine ⟨rawSegment offset (sourceOf before) ++ ⟨other, otherUrl, start, stop⟩ :: first, last, ?_⟩
      rw [List.cons_append, segmentsOf, heq]
      simp only [start, stop, pointsOf_cons, Part.text, List.nil_append, List.append_assoc,
        List.cons_append, sourceOf_append, byteLength_append, Nat.add_assoc]

/-! ### Kinds -/

/-- The classifier holds the kind of raw text for no property. -/
def Classifier.WithoutBytes (classifier : Classifier) : Prop :=
  ∀ name : String, classifier.kinds[name]? ≠ some SegmentKind.bytes

/-- No URL has the kind of raw text then. -/
theorem Classifier.WithoutBytes.classify_ne (h : classifier.WithoutBytes) (property : Option String)
    (inFontFace : Bool) : classifier.classify property inFontFace ≠ .bytes := by
  unfold Classifier.classify
  split
  · exact SegmentKind.noConfusion
  · cases property with
    | none => exact SegmentKind.noConfusion
    | some property =>
      show (classifier.kind? property).getD .imageUrl ≠ .bytes
      simp only [Classifier.kind?, Classifier.kindOfName?]
      cases hkind : classifier.kinds[lowercase property]? with
      | some kind =>
        intro heq
        subst heq
        exact h _ hkind
      | none =>
        simp only
        split <;> exact SegmentKind.noConfusion

theorem Classifier.WithoutBytes.finding_ne (h : classifier.WithoutBytes) (c : Context)
    (is : List Item) : ∀ f ∈ findings classifier c is, f.kind ≠ .bytes := by
  induction is generalizing c with
  | nil => simp [findings]
  | cons i is ih =>
    cases i with
    | token t => exact ih (c.track t)
    | url u =>
      rw [findings, List.forall_mem_cons]
      exact ⟨h.classify_ne _ _, ih _⟩

end CssUrls
