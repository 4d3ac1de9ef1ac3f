import CssUrls.Proofs.Css.QuotedReread
import CssUrls.Proofs.Lexical.Decoded
import CssUrls.Proofs.Segment.Parts

/-! Other URLs in place of those of a stylesheet.

Whatever URL is written where one was, the tokens around it stay what they are: nothing in front of it
can tell, since URLs all start with a name (`alike_url`), and nothing of it reaches behind its
parenthesis. So the parts of a stylesheet with other URLs are its parts with those URLs
(`Parts.exchange`). -/
namespace CssUrls
open Text Lexical Css

/-! ### In front of a URL -/

theorem startsIdentifier_of_opensUrl {text : List Char} (h : opensUrl (readToken text).value = true) :
    startsIdentifier text = true := by
  cases text with
  | nil => contradiction
  | cons c rest =>
    rcases readToken_cases c rest with ⟨hident, -⟩ | ⟨-, hquoted⟩ | halone
    · exact hident
    · rw [hquoted] at h
      rcases readQuoted_value c rest with hvalue | hvalue <;>
        · rw [hvalue] at h
          contradiction
    · generalize (readToken (c :: rest)).value = token at h halone
      cases token <;> contradiction

/-- No class of code points that start no identifier is at the front of one. -/
theorem startsWith_eq_false_of_startsIdentifier {text : List Char} (h : startsIdentifier text = true)
    {inClass : Char → Bool} (hclass : ∀ c, inClass c = true →
      isNameStart c = false ∧ c ≠ '-' ∧ c ≠ '\\') : startsWith inClass text = false := by
  cases text with
  | nil => rfl
  | cons c rest =>
    rw [startsWith_cons, ← Bool.not_eq_true]
    intro hc
    obtain ⟨hstart, hhyphen, hescape⟩ := hclass c hc
    rw [startsIdentifier_plain hhyphen hescape, hstart] at h
    contradiction

/-- In front of an identifier nothing can tell if there is a text instead that goes on with no token and
starts neither a string nor a comment. -/
theorem alike_of_startsIdentifier {s t : List Char} (hs : startsIdentifier s = true)
    (hquote : startsWith isQuote t = false) (hslash : startsWith (· == '/') t = false)
    (hsettled : startsWith joins t = false) : Alike s t := by
  constructor
  case nonempty =>
    intro heq
    subst heq
    contradiction
  case whitespace =>
    refine startsWith_eq_false_of_startsIdentifier hs fun c hc => ?_
    simp only [isWhitespace, isNewline, Bool.or_eq_true, beq_iff_eq] at hc
    rcases hc with (rfl | rfl) | (rfl | rfl) | rfl <;> decide
  case quote =>
    refine hquote.trans (startsWith_eq_false_of_startsIdentifier hs fun c hc => ?_).symm
    simp only [isQuote, Bool.or_eq_true, beq_iff_eq] at hc
    rcases hc with rfl | rfl <;> decide
  case slash =>
    refine hslash.trans (startsWith_eq_false_of_startsIdentifier hs fun c hc => ?_).symm
    rw [beq_iff_eq] at hc
    subst hc
    decide
  case identifier => exact fun _ => hs
  case comment =>
    rintro ⟨tail, rfl⟩
    contradiction
  case settled => exact hsettled

/-- **One URL is as good as another** for what is in front of it. -/
theorem alike_url {s : List Char} (h : opensUrl (readToken s).value = true) (url rest : List Char) :
    Alike s (urlText url ++ rest) :=
  alike_of_startsIdentifier (startsIdentifier_of_opensUrl h) rfl rfl rfl

/-! ### Texts and tokens up to a URL -/

/-- The texts are the same, or the same up to where a URL starts in both. -/
def AgreeText (a b : List Char) : Prop :=
  a = b ∨ ∃ front s t, a = front ++ s ∧ b = front ++ t ∧ Alike s t

/-- The tokens are the same, or the same up to where a URL may start in both. -/
def AgreeTokens (a b : List Token) : Prop :=
  a = b ∨ ∃ front s ss t ts, a = front ++ s :: ss ∧ b = front ++ t :: ts ∧
    opensUrl s = true ∧ opensUrl t = true

theorem AgreeText.append {a b : List Char} (h : AgreeText a b) (front : List Char) :
    AgreeText (front ++ a) (front ++ b) := by
  rcases h with rfl | ⟨more, s, t, rfl, rfl, halike⟩
  · exact .inl rfl
  · exact .inr ⟨front ++ more, s, t, (List.append_assoc ..).symm, (List.append_assoc ..).symm, halike⟩

theorem AgreeTokens.cons {a b : List Token} (h : AgreeTokens a b) (token : Token) :
    AgreeTokens (token :: a) (token :: b) := by
  rcases h with rfl | ⟨front, s, ss, t, ts, rfl, rfl, hs, ht⟩
  · exact .inl rfl
  · exact .inr ⟨token :: front, s, ss, t, ts, rfl, rfl, hs, ht⟩

/-- A lexeme in front of a text stays what it is. -/
theorem AgreeText.lexemes_append {a b : List Char} (h : AgreeText a b) {l : Lexeme}
    (hl : frontLexeme (l.text ++ a) = l) (hne : l.token ≠ .endOfFile) :
    lexemes (l.text ++ b) = l :: lexemes b := by
  apply Lexical.lexemes_append _ hne
  rcases h with rfl | ⟨front, s, t, rfl, rfl, halike⟩
  · exact hl
  · rw [← List.append_assoc] at hl ⊢
    rw [halike.frontLexeme_eq, hl]
    rw [hl, List.length_append]
    exact Nat.le_add_right ..

/-- So do any lexemes. -/
theorem AgreeText.lexemes_textOf {a b : List Char} (h : AgreeText a b) {front ls : List Lexeme}
    (hfront : lexemes (textOf front ++ a) = front ++ ls) (hne : ∀ l ∈ front, l.token ≠ .endOfFile) :
    lexemes (textOf front ++ b) = front ++ lexemes b := by
  induction front with
  | nil => rfl
  | cons l front ih =>
    obtain ⟨hl, hne⟩ := List.forall_mem_cons.mp hne
    rw [textOf_cons, List.append_assoc] at hfront ⊢
    obtain ⟨hfirst, ⟨hend, -⟩ | ⟨-, hrest⟩⟩ := lexemes_eq_cons hfront
    · rw [hend] at hl
      contradiction
    · rw [afterLexeme, hfirst, List.drop_left] at hrest
      rw [(h.append (textOf front)).lexemes_append hfirst hl, ih hrest.symm hne]
      rfl

/-- A token starts a URL in front of some tokens only where it does in front of others. -/
theorem AgreeTokens.startsUrl_cons {a b : List Token} (h : AgreeTokens a b) {token : Token}
    (hb : StartsUrl (token :: b)) : StartsUrl (token :: a) := by
  rcases h with rfl | ⟨front, s, ss, t, ts, rfl, rfl, hs, ht⟩
  · exact hb
  · obtain ⟨run, after, url, heq, hurl⟩ := hb
    obtain ⟨first, more, rfl, -, hmore⟩ := hurl.eq_cons
    obtain ⟨rfl, htail⟩ := List.cons.inj heq
    -- None but the first token of a URL opens one, so this one ends before the texts differ.
    rcases List.append_eq_append_iff.mp htail with ⟨c, rfl, hc⟩ | ⟨c, rfl, hc⟩
    · cases c with
      | nil =>
        refine ⟨_, s :: ss, url, ?_, hurl⟩
        rw [List.append_nil, List.cons_append]
      | cons d c =>
        obtain ⟨rfl, -⟩ := List.cons.inj hc
        rw [hmore t (by simp)] at ht
        contradiction
    · refine ⟨_, c ++ s :: ss, url, ?_, hurl⟩
      rw [List.cons_append, List.append_assoc]

/-! ### Parts with other URLs -/

def Part.url? : Part → Option String
  | .raw _ => none
  | .url _ u _ => some u

/-- Text that is in normal form, as points. -/
def plainPoints (text : List Char) : List Point := text.map fun c => ⟨c, [c]⟩

theorem sourceOf_plainPoints (text : List Char) : sourceOf (plainPoints text) = text := by
  induction text with
  | nil => rfl
  | cons c text ih =>
    show c :: sourceOf (plainPoints text) = _
    rw [ih]

theorem map_char_plainPoints (text : List Char) : (plainPoints text).map Point.char = text := by
  rw [plainPoints, List.map_map]
  exact List.map_id' text

/-- Other URLs written in place of those of parts, in order. -/
def exchange : List String → List Part → List Part
  | _, [] => []
  | us, .raw text :: parts => .raw text :: exchange us parts
  | u :: us, .url kind _ _ :: parts =>
    .url kind (u.map withoutNul) (plainPoints (urlText u.toList)) :: exchange us parts
  | [], .url kind url text :: parts => .url kind url text :: exchange [] parts

theorem quoted_plain (text : List Char) : ∀ c ∈ quoted text, c ≠ '\r' ∧ c ≠ '\x00' := by
  intro c hc
  simp only [quoted, List.mem_append, List.mem_cons, List.mem_flatMap, List.not_mem_nil, or_false] at hc
  rcases hc with rfl | ⟨d, -, hc⟩ | rfl
  · decide
  · exact quotedChar_plain d c hc
  · decide

theorem urlText_plain (url : List Char) : ∀ c ∈ urlText url, c ≠ '\r' ∧ c ≠ '\x00' := by
  intro c hc
  simp only [urlText, List.mem_append, List.mem_singleton] at hc
  rcases hc with hc | hc | rfl
  · exact List.all_eq_true.mp (show "url(".toList.all (fun c => c ≠ '\r' ∧ c ≠ '\x00') = true from rfl) c hc
      |> of_decide_eq_true
  · exact quoted_plain url c hc
  · decide

variable {classifier : Classifier} {c : Context} {text text' : List Point} {ls ls' : List Lexeme}
  {parts : List Part}

/-- A text and another one that has the same tokens and the same parts but for its URLs. -/
structure Exchanged (classifier : Classifier) (c : Context) (text : List Point) (ls : List Lexeme)
    (text' : List Point) (ls' : List Lexeme) (parts : List Part) : Prop where
  parts : Parts classifier c text' ls' parts
  lexemes : lexemes (textOf ls') = ls'
  points : points (sourceOf text') = text'
  agreeText : AgreeText (textOf ls) (textOf ls')
  agreeTokens : AgreeTokens (tokensOf ls) (tokensOf ls')
  feed : startsWith (· == '\n') (sourceOf text') = true → startsWith (· == '\n') (sourceOf text) = true

theorem Exchanged.refl (h : Parts classifier c text ls parts) (hls : Lexical.lexemes (textOf ls) = ls)
    (hread : Text.points (sourceOf text) = text) : Exchanged classifier c text ls text ls parts :=
  ⟨h, hls, hread, .inl rfl, .inl rfl, id⟩

/-- Behind the same text no other line feed comes to the front. -/
theorem feed_append {a b : List Char}
    (h : startsWith (· == '\n') b = true → startsWith (· == '\n') a = true) (front : List Char) :
    startsWith (· == '\n') (front ++ b) = true → startsWith (· == '\n') (front ++ a) = true := by
  cases front with
  | nil => exact h
  | cons c front => exact id

/-- A token that starts no URL. -/
theorem Exchanged.token {front : List Point} {l : Lexeme}
    (hl : frontLexeme (l.text ++ textOf ls) = l) (hne : l.token ≠ .endOfFile)
    (htext : front.map Point.char = l.text) (hurl : ¬ StartsUrl (tokensOf (l :: ls)))
    (hread : Text.points (sourceOf (front ++ text)) = front ++ text)
    (h : Exchanged classifier (c.track l.token) text ls text' ls' parts) :
    Exchanged classifier c (front ++ text) (l :: ls) (front ++ text') (l :: ls')
      (.raw front :: parts) := by
  constructor
  case parts => exact .token htext (fun h' => hurl (h.agreeTokens.startsUrl_cons h')) h.parts
  case lexemes => rw [textOf_cons, h.agreeText.lexemes_append hl hne, h.lexemes]
  case points =>
    have hrest := points_sourceOf_of_append hread
    rw [sourceOf_append] at hread ⊢
    rw [points_sourceOf_append (by rw [hread, hrest]) h.feed, h.points]
  case agreeText => exact h.agreeText.append l.text
  case agreeTokens => exact h.agreeTokens.cons l.token
  case feed =>
    rw [sourceOf_append, sourceOf_append]
    exact feed_append h.feed _

theorem readComments_of_frontLexeme {l : Lexeme} {rest : List Char}
    (h : frontLexeme (l.gap ++ (l.body ++ rest)) = l) :
    (readComments (l.gap ++ (l.body ++ rest))).length = l.gap.length := by
  rw [← frontLexeme_gap_length, h]

/-- The token of a lexeme is read off its body. -/
theorem readToken_of_frontLexeme {l : Lexeme} {rest : List Char}
    (h : frontLexeme (l.gap ++ (l.body ++ rest)) = l) : (readToken (l.body ++ rest)).value = l.token := by
  have hafter : afterComments (l.gap ++ (l.body ++ rest)) = l.body ++ rest := by
    rw [afterComments, readComments_of_frontLexeme h, List.drop_left]
  rw [← hafter]
  exact congrArg Lexeme.token h

/-- A URL, with another in its place. -/
theorem Exchanged.url {gap front : List Point} {l : Lexeme} {more : List Lexeme} {url : String}
    (hl : frontLexeme (l.text ++ (textOf more ++ textOf ls)) = l) (hgap : gap.map Point.char = l.gap)
    (hurl : SpellsUrl (tokensOf (l :: more)) url)
    (hread : Text.points (sourceOf (gap ++ (front ++ text))) = gap ++ (front ++ text))
    (h : Exchanged classifier c.forgetting text ls text' ls' parts) (u : String) :
    Exchanged classifier c (gap ++ (front ++ text)) (l :: (more ++ ls))
      (gap ++ (plainPoints (urlText u.toList) ++ text')) (urlLexemes l.gap u.toList ++ ls')
      (.raw gap :: .url (c.kindHere classifier) (u.map withoutNul) (plainPoints (urlText u.toList)) ::
        parts) := by
  have hs : l.text ++ (textOf more ++ textOf ls) = l.gap ++ (l.body ++ (textOf more ++ textOf ls)) := by
    rw [Lexeme.text, List.append_assoc]
  rw [hs] at hl
  have hcomments := readComments_of_frontLexeme hl
  have ht := hurl.opensUrl
  have hopens : opensUrl (readToken (l.body ++ (textOf more ++ textOf ls))).value = true := by
    rw [readToken_of_frontLexeme hl]
    exact ht
  have halike := alike_url hopens u.toList (textOf ls')
  have hfeed : startsWith (· == '\n') (urlText u.toList ++ sourceOf text') = false := rfl
  constructor
  case parts =>
    have hurl' := spellsUrl_urlLexemes l.gap u.toList
    rw [← String.toList_map, String.ofList_toList] at hurl'
    refine .url hgap ?_ (List.cons_ne_nil _ _) hurl' h.parts
    rw [map_char_plainPoints]
    simp [urlText, Lexeme.text]
  case lexemes =>
    have hgap' : (readComments (l.gap ++ (urlText u.toList ++ textOf ls'))).length = l.gap.length := by
      rw [halike.readComments_eq (Nat.le_of_eq hcomments), hcomments]
    rw [textOf_append, textOf_urlLexemes, List.append_assoc, lexemes_urlText hgap', h.lexemes]
  case points =>
    rw [sourceOf_append, sourceOf_append, sourceOf_plainPoints]
    rw [sourceOf_append] at hread
    rw [points_sourceOf_append, points_append_of_plain (urlText_plain _), h.points]
    · rfl
    · rw [hread, points_sourceOf_of_append hread]
    · rw [hfeed]
      exact Bool.noConfusion
  case agreeText =>
    refine .inr ⟨l.gap, _, _, ?_, ?_, halike⟩
    · rw [textOf_cons, textOf_append, hs]
    · rw [textOf_append, textOf_urlLexemes, List.append_assoc]
  case agreeTokens => exact .inr ⟨[], l.token, _, .function "url", _, rfl, rfl, ht, rfl⟩
  case feed =>
    rw [sourceOf_append gap, sourceOf_append gap, sourceOf_append, sourceOf_plainPoints]
    refine feed_append ?_ _
    rw [hfeed]
    exact Bool.noConfusion

/-- **The parts of a text with other URLs are its parts with those URLs.** -/
theorem Parts.exchange (h : Parts classifier c text ls parts) (hls : lexemes (textOf ls) = ls)
    (hread : points (sourceOf text) = text) {us : List String}
    (hus : us.length = (parts.filterMap Part.url?).length) :
    ∃ text' ls', Exchanged classifier c text ls text' ls' (exchange us parts) := by
  induction h generalizing us with
  | nil c => exact absurd hls (lexemes_ne_nil (textOf []))
  | @token c front text l ls parts htext hurl hrest ih =>
    obtain ⟨hl, ⟨hend, rfl⟩ | ⟨hne, -⟩⟩ := lexemes_eq_cons hls
    · cases hrest
      exact ⟨_, _, .refl (.token htext hurl (.nil _)) hls hread⟩
    · have hls' : lexemes (textOf ls) = ls :=
        lexemes_textOf_of_append (a := [l]) hls (by simpa using hne)
      have hread' : points (sourceOf (front ++ text)) = front ++ text := hread
      obtain ⟨text', ls', h⟩ := ih hls' (points_sourceOf_of_append hread) hus
      exact ⟨_, _, h.token hl hne htext hurl hread'⟩
  | @url c gap front text l more ls parts url hgap htext hbody hurl hrest ih =>
    cases us with
    | nil => contradiction
    | cons u us =>
      have hrun : ∀ m ∈ l :: more, m.token ≠ .endOfFile :=
        fun m hm => hurl.ne_endOfFile _ (List.mem_map_of_mem hm)
      have hls' : lexemes (textOf ls) = ls := lexemes_textOf_of_append (a := l :: more) hls hrun
      obtain ⟨hl, -⟩ := lexemes_eq_cons hls
      rw [textOf_cons, textOf_append] at hl
      obtain ⟨text', ls', h⟩ := ih hls'
        (points_sourceOf_of_append ((List.append_assoc gap front text).symm ▸ hread)) (Nat.succ.inj hus)
      exact ⟨_, _, h.url hl hgap hurl hread u⟩

end CssUrls
