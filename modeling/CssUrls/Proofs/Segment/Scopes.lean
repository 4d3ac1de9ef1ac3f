import CssUrls.Proofs.Segment.Tracking

/-! Curly blocks are scopes.

Behind a block in which all brackets are paired a context has the blocks that were open in front of it, and
nothing of a declaration. Inside of it the blocks that were open stay open under those that it opens
(`Context.Inside`), so that of `@font-face` does. Main statement: `block_scoped`. -/
namespace CssUrls

/-! ### Brackets in pairs -/

/-- The brackets that are open behind one more token, the innermost first. It may close the innermost alone. -/
def nestedBy (stack : List Bracket) (t : Token) : Option (List Bracket) :=
  match opens? (.token t), closes? (.token t) with
  | some b, _ => some (b :: stack)
  | none, some b => if stack.head? = some b then some stack.tail else none
  | none, none => some stack

/-- Each bracket that the tokens open is closed in them, behind those that are opened inside of it. -/
def WellBracketed (tokens : List Token) : Prop := tokens.foldlM nestedBy [] = some []

instance : DecidablePred WellBracketed := fun _ => inferInstanceAs (Decidable (_ = _))

/-- The tokens of a curly block. -/
def curlyBlock (body : List Token) : List Token := .openCurly :: (body ++ [.closeCurly])

theorem foldlM_nestedBy_cons {t : Token} {tokens : List Token} {stack last : List Bracket} :
    (t :: tokens).foldlM nestedBy stack = some last ↔
      ∃ mid, nestedBy stack t = some mid ∧ tokens.foldlM nestedBy mid = some last := by
  rw [List.foldlM_cons]
  exact Option.bind_eq_some_iff

theorem foldlM_nestedBy_append {a b : List Token} {stack last : List Bracket} :
    (a ++ b).foldlM nestedBy stack = some last ↔
      ∃ mid, a.foldlM nestedBy stack = some mid ∧ b.foldlM nestedBy mid = some last := by
  rw [List.foldlM_append]
  exact Option.bind_eq_some_iff

theorem foldlM_nestedBy_replicate (n : Nat) (stack : List Bracket) :
    (List.replicate n .whitespace).foldlM nestedBy stack = some stack := by
  induction n with
  | zero => rfl
  | succ n ih => exact ih

/-- A URL leaves no bracket open, and closes none but its own. -/
theorem SpellsUrl.foldlM_nestedBy {run : List Token} {url : String} (h : SpellsUrl run url)
    (stack : List Bracket) : run.foldlM nestedBy stack = some stack := by
  cases h with
  | bare => rfl
  | quoted name _ before after =>
    rw [foldlM_nestedBy_cons]
    refine ⟨.paren :: stack, rfl, ?_⟩
    rw [foldlM_nestedBy_append]
    refine ⟨_, foldlM_nestedBy_replicate before _, ?_⟩
    rw [foldlM_nestedBy_cons]
    refine ⟨.paren :: stack, rfl, ?_⟩
    rw [foldlM_nestedBy_append]
    exact ⟨_, foldlM_nestedBy_replicate after _, rfl⟩

theorem SpellsUrl.foldlM_nestedBy_append {run : List Token} {url : String} (h : SpellsUrl run url)
    (rest : List Token) (stack : List Bracket) :
    (run ++ rest).foldlM nestedBy stack = rest.foldlM nestedBy stack := by
  rw [List.foldlM_append, h.foldlM_nestedBy]
  rfl

/-! ### Items on either side of a curly bracket -/

/-- Induction on spans, one item at a time. -/
theorem spanwise {motive : List Span → Prop} (nil : motive [])
    (token : ∀ s ss, ¬ StartsUrl ((s :: ss).map Span.token) → motive ss → motive (s :: ss))
    (url : ∀ s more url ss, SpellsUrl ((s :: more).map Span.token) url → motive ss →
      motive (s :: (more ++ ss))) (ss : List Span) : motive ss :=
  itemwise_of Span.token nil token url ss

/-- A curly bracket. -/
def isCurly : Token → Bool
  | .openCurly | .closeCurly => true
  | _ => false

theorem SpellsUrl.isCurly_eq_false {run : List Token} {url : String} (h : SpellsUrl run url) :
    ∀ t ∈ run, isCurly t = false := by
  cases h with
  | bare => simp [isCurly]
  | quoted name _ before after =>
    intro t ht
    simp only [List.mem_append, List.mem_cons, List.mem_replicate, List.not_mem_nil, or_false] at ht
    obtain rfl | ⟨-, rfl⟩ | rfl | ⟨-, rfl⟩ | rfl := ht <;> rfl

/-- A URL that starts in front of a curly bracket ends there too. -/
theorem startsUrl_of_append_curly {tokens rest : List Token} {t : Token} (ht : isCurly t = true)
    (h : StartsUrl (tokens ++ t :: rest)) : StartsUrl tokens := by
  obtain ⟨run, after, url, heq, hurl⟩ := h
  rcases List.append_eq_append_iff.mp heq with ⟨more, rfl, hmore⟩ | ⟨more, rfl, -⟩
  · cases more with
    | nil => exact ⟨tokens, [], url, (List.append_nil _).symm, by rwa [List.append_nil] at hurl⟩
    | cons u more =>
      obtain ⟨rfl, -⟩ := List.cons.inj hmore
      rw [hurl.isCurly_eq_false t (by simp)] at ht
      contradiction
  · exact ⟨run, more, url, rfl, hurl⟩

/-- **The items on either side of a curly bracket** are read by themselves. -/
theorem items_append_curly {s : Span} (hs : isCurly s.token = true) (before after : List Span) :
    items (before ++ s :: after) = items before ++ .token s.token :: items after := by
  -- On the items in front: no URL among them, and none that starts there, can reach over the bracket.
  induction before using spanwise with
  | nil =>
    rw [List.nil_append, items_nil, List.nil_append]
    refine items_token fun h => ?_
    rw [← List.nil_append (s.token :: _)] at h
    obtain ⟨run, _, _, heq, hurl⟩ := startsUrl_of_append_curly hs h
    rw [(List.append_eq_nil_iff.mp heq.symm).1] at hurl
    obtain ⟨_, _, hnil, -⟩ := hurl.eq_cons
    contradiction
  | token first rest hurl ih =>
    have hnot : ¬ StartsUrl (first.token :: (rest ++ s :: after).map Span.token) := by
      intro h
      rw [List.map_append, List.map_cons, ← List.cons_append] at h
      exact hurl (startsUrl_of_append_curly hs h)
    rw [List.cons_append, items_token hnot, items_token hurl, ih, List.cons_append]
  | url first more url rest hurl ih =>
    rw [List.cons_append, List.append_assoc, items_url hurl, items_url hurl, ih, List.cons_append]

/-! ### Inside of blocks -/

variable {classifier : Classifier} {c : Context} {outer : List Block} {stack last : List Bracket}

/-- In the context the blocks `outer` are open, and inside of them those that the brackets have opened. -/
def Context.Inside (c : Context) (outer : List Block) (stack : List Bracket) : Prop :=
  ∃ inner, c.blocks = inner ++ outer ∧ inner.map Block.bracket = stack

theorem Context.bracket_blockOf (c : Context) (b : Bracket) : (c.blockOf b).bracket = b := by
  cases b <;> rfl

/-- **A token keeps the blocks outside**, if it closes nothing but what is open inside. -/
theorem Context.Inside.track {t : Token} (h : c.Inside outer stack) (ht : nestedBy stack t = some last) :
    (c.track t).Inside outer last := by
  obtain ⟨inner, hblocks, rfl⟩ := h
  have htrack := c.trackItem_blocks (.token t)
  unfold nestedBy at ht
  cases hopens : opens? (.token t) with
  | some b =>
    rw [hopens] at ht htrack
    cases ht
    exact ⟨c.blockOf b :: inner, by rw [List.cons_append, ← hblocks]; exact htrack,
      by rw [List.map_cons, c.bracket_blockOf]⟩
  | none =>
    rw [hopens] at ht htrack
    cases hcloses : closes? (.token t) with
    | none =>
      rw [hcloses] at ht htrack
      cases ht
      exact ⟨inner, htrack.trans hblocks, rfl⟩
    | some b =>
      rw [hcloses] at ht htrack
      simp only [Option.ite_none_right_eq_some, Option.some.injEq] at ht
      obtain ⟨hhead, rfl⟩ := ht
      cases inner with
      | nil => contradiction
      | cons block inner =>
        have hinnermost : c.innermost? = some b := by
          rw [Context.innermost?, hblocks]
          exact hhead
        refine ⟨inner, ?_, rfl⟩
        simp only [hinnermost, Option.isSome_some, and_self, if_true] at htrack
        rw [hblocks] at htrack
        exact htrack

/-- A URL keeps all blocks. -/
theorem Context.Inside.forgetting (h : c.Inside outer stack) : c.forgetting.Inside outer stack := h

/-- **Tokens keep the blocks outside**, if they close nothing but what is open inside. -/
theorem Context.Inside.foldl {spans : List Span} (h : c.Inside outer stack)
    (hspans : (spans.map Span.token).foldlM nestedBy stack = some last) :
    ((items spans).foldl Context.trackItem c).Inside outer last := by
  -- A URL is one step of the run, but several tokens of the brackets: together they open and close nothing.
  induction spans using spanwise generalizing c stack with
  | nil =>
    rw [items_nil]
    cases hspans
    exact h
  | token s ss hurl ih =>
    rw [List.map_cons, foldlM_nestedBy_cons] at hspans
    obtain ⟨mid, hs, hss⟩ := hspans
    rw [items_token hurl]
    exact ih (h.track hs) hss
  | url s more url ss hurl ih =>
    rw [← List.cons_append, List.map_append, hurl.foldlM_nestedBy_append] at hspans
    rw [items_url hurl]
    exact ih h.forgetting hspans

theorem Context.kindHere_of_fontFace (h : .curly true ∈ c.blocks) : c.kindHere classifier = .otherUrl := by
  have hin : c.inFontFace = true := List.contains_iff_mem.mpr h
  rw [Context.kindHere, hin]
  rfl

/-- **No URL inside of a block of `@font-face` is an image.** -/
theorem Context.Inside.kind_eq {spans : List Span} (h : c.Inside outer stack) (houter : .curly true ∈ outer)
    (hspans : (spans.map Span.token).foldlM nestedBy stack = some last) :
    ∀ f ∈ findings classifier c (items spans), f.kind = .otherUrl := by
  induction spans using spanwise generalizing c stack with
  | nil =>
    rw [items_nil, findings]
    exact fun f hf => absurd hf List.not_mem_nil
  | token s ss hurl ih =>
    rw [List.map_cons, foldlM_nestedBy_cons] at hspans
    obtain ⟨mid, hs, hss⟩ := hspans
    rw [items_token hurl, findings]
    exact ih (h.track hs) hss
  | url s more url ss hurl ih =>
    rw [← List.cons_append, List.map_append, hurl.foldlM_nestedBy_append] at hspans
    rw [items_url hurl, findings, List.forall_mem_cons]
    refine ⟨Context.kindHere_of_fontFace ?_, ih h.forgetting hspans⟩
    obtain ⟨inner, hblocks, -⟩ := h
    rw [hblocks]
    exact List.mem_append_right inner houter

/-! ### What is found -/

theorem findings_append (classifier : Classifier) (c : Context) (a b : List Item) :
    findings classifier c (a ++ b) =
      findings classifier c a ++ findings classifier (a.foldl Context.trackItem c) b := by
  induction a generalizing c with
  | nil => rfl
  | cons i a ih =>
    cases i with
    | token t => exact ih (c.track t)
    | url u => exact congrArg _ (ih c.forgetting)

/-- A URL and its kind, wherever it is written. -/
def Finding.what (f : Finding) : String × SegmentKind := (f.construct.url, f.kind)

/-- What is found among tokens does not depend on where they stand. -/
theorem map_what_findings (classifier : Classifier) (c : Context) {spans others : List Span}
    (h : others.map Span.token = spans.map Span.token) :
    (findings classifier c (items others)).map Finding.what =
      (findings classifier c (items spans)).map Finding.what := by
  induction spans using spanwise generalizing c others with
  | nil =>
    rw [List.map_nil, List.map_eq_nil_iff] at h
    rw [h]
  | token s ss hurl ih =>
    obtain ⟨other, others, rfl, hs, hss⟩ := List.map_eq_cons_iff.mp h
    have hother : ¬ StartsUrl (other.token :: others.map Span.token) := by
      rw [hs, hss]
      exact hurl
    rw [items_token hurl, items_token hother, findings, findings, hs]
    exact ih (c.track s.token) hss
  | url s more url ss hurl ih =>
    rw [← List.cons_append, List.map_append] at h
    obtain ⟨run, others, rfl, hrun, hss⟩ := List.map_eq_append_iff.mp h
    obtain ⟨other, run, rfl, hs, hmore⟩ := List.map_eq_cons_iff.mp hrun
    have hother : SpellsUrl (other.token :: run.map Span.token) url := by
      rw [hs, hmore]
      exact hurl
    rw [List.cons_append, items_url hurl, items_url hother, findings, findings, List.map_cons, List.map_cons,
      ih _ hss]
    rfl

/-! ### Blocks -/

theorem Context.track_closeCurly {f : Bool} (h : c.blocks = .curly f :: outer) :
    c.track .closeCurly = ⟨outer, none, none, false⟩ := by
  obtain ⟨blocks, property, candidate, pending⟩ := c
  cases h
  rfl

/-- Where a curly block starts, it is open, and it knows whether it is that of `@font-face`. -/
theorem Context.inside_openCurly (c : Context) :
    (c.track .openCurly).Inside (.curly c.pendingFontFace :: c.blocks) [] := ⟨[], rfl, rfl⟩

section Block
variable {body : List Token} {block : List Span}

/-- The items of a block, and those behind it. -/
theorem exists_items_block (h : block.map Span.token = curlyBlock body) :
    ∃ inside, inside.map Span.token = body ∧
      items block = .token .openCurly :: (items inside ++ [.token .closeCurly]) ∧
      ∀ after, items (block ++ after) = items block ++ items after := by
  obtain ⟨first, rest, rfl, hfirst, hrest⟩ := List.map_eq_cons_iff.mp h
  obtain ⟨inside, rest, rfl, hinside, hrest⟩ := List.map_eq_append_iff.mp hrest
  obtain ⟨final, rest, rfl, hfinal, hrest⟩ := List.map_eq_cons_iff.mp hrest
  rw [List.map_eq_nil_iff] at hrest
  subst hrest
  have hitems (after : List Span) : items (first :: (inside ++ final :: after)) =
      .token .openCurly :: (items inside ++ .token .closeCurly :: items after) := by
    have hopen := items_append_curly (s := first) (by rw [hfirst]; rfl) [] (inside ++ final :: after)
    have hclose := items_append_curly (s := final) (by rw [hfinal]; rfl) inside after
    rw [hclose, items_nil, hfirst, hfinal] at hopen
    exact hopen
  have hblock := hitems []
  rw [items_nil] at hblock
  refine ⟨inside, hinside, hblock, fun after => ?_⟩
  rw [hblock, List.cons_append, List.append_assoc, List.singleton_append, hitems after, List.cons_append,
    List.append_assoc, List.singleton_append]

/-- **A block leaves the blocks that were open**, and nothing else. -/
theorem foldl_block (c : Context) (hbody : WellBracketed body) (hblock : block.map Span.token = curlyBlock body) :
    (items block).foldl Context.trackItem c = ⟨c.blocks, none, none, false⟩ := by
  obtain ⟨inside, rfl, hitems, -⟩ := exists_items_block hblock
  obtain ⟨inner, hblocks, hinner⟩ := c.inside_openCurly.foldl hbody
  rw [List.map_eq_nil_iff.mp hinner] at hblocks
  rw [hitems, List.foldl_cons, List.foldl_append]
  exact Context.track_closeCurly hblocks

/-- **Curly blocks are scopes.** Behind one in which brackets are paired, the blocks are open that were open
in front of it, and no declaration is being read. So what is found behind it is the same whatever it holds.
If it is the block of `@font-face`, each URL in it is of another kind than images. -/
theorem block_scoped (classifier : Classifier) (c : Context) (hbody : WellBracketed body)
    (hblock : block.map Span.token = curlyBlock body) :
    (items block).foldl Context.trackItem c = ⟨c.blocks, none, none, false⟩ ∧
      (∀ otherBody other after otherAfter, WellBracketed otherBody →
        other.map Span.token = curlyBlock otherBody → otherAfter.map Span.token = after.map Span.token →
        ∃ behind otherBehind,
          findings classifier c (items (block ++ after)) = findings classifier c (items block) ++ behind ∧
          findings classifier c (items (other ++ otherAfter)) =
            findings classifier c (items other) ++ otherBehind ∧
          otherBehind.map Finding.what = behind.map Finding.what) ∧
      (c.pendingFontFace = true → ∀ f ∈ findings classifier c (items block), f.kind = .otherUrl) := by
  have hcontext := foldl_block c hbody hblock
  obtain ⟨inside, rfl, hitems, hbehind⟩ := exists_items_block hblock
  refine ⟨hcontext, fun otherBody other after otherAfter hotherBody hother hafter => ?_, fun hfontFace => ?_⟩
  · obtain ⟨-, -, -, hotherBehind⟩ := exists_items_block hother
    have hotherContext := foldl_block c hotherBody hother
    refine ⟨_, _, ?_, ?_, map_what_findings classifier ⟨c.blocks, none, none, false⟩ hafter⟩
    · rw [hbehind, findings_append, hcontext]
    · rw [hotherBehind, findings_append, hotherContext]
  · have hinside := c.inside_openCurly
    rw [hfontFace] at hinside
    rw [hitems, findings, findings_append, findings, findings, List.append_nil]
    exact hinside.kind_eq (List.mem_cons_self ..) hbody

/-- Nested rules in the block of `@font-face`, and the same without them. -/
theorem block_scoped_fontFace :
    let c : Context := ⟨[.square], some "cursor", some "a", true⟩
    let body : List Token := [.atKeyword "media", .openParen, .closeParen, .openCurly, .ident "mask", .colon,
      .url "a", .semicolon, .closeCurly, .function "url", .string "b", .closeParen]
    let after : List Token := [.closeSquare, .ident "mask", .colon, .url "c"]
    let spans (tokens : List Token) : List Span := tokens.map (⟨·, 0, 0⟩)
    let classifier := Classifier.empty.insert "mask" .bytes
    WellBracketed body ∧ WellBracketed [] ∧
      (items (spans (curlyBlock body))).foldl Context.trackItem c = ⟨[.square], none, none, false⟩ ∧
      (findings classifier c (items (spans (curlyBlock body)))).length = 2 ∧
      (∀ f ∈ findings classifier c (items (spans (curlyBlock body))), f.kind = .otherUrl) ∧
      ∃ behind otherBehind,
        findings classifier c (items (spans (curlyBlock body) ++ spans after)) =
          findings classifier c (items (spans (curlyBlock body))) ++ behind ∧
        findings classifier c (items (spans (curlyBlock []) ++ spans after)) =
          findings classifier c (items (spans (curlyBlock []))) ++ otherBehind ∧
        otherBehind.map Finding.what = behind.map Finding.what := by
  intro c body after spans classifier
  have hspans (tokens : List Token) : (spans tokens).map Span.token = tokens := by
    rw [List.map_map]
    exact List.map_id _
  have hbody : WellBracketed body := by decide +kernel
  obtain ⟨hcontext, hbehind, hfontFace⟩ := block_scoped classifier c hbody (hspans (curlyBlock body))
  refine ⟨hbody, by decide, hcontext, by decide +kernel, hfontFace rfl, ?_⟩
  exact hbehind [] (spans (curlyBlock [])) (spans after) (spans after) (by decide) (hspans _) rfl

end Block

end CssUrls
