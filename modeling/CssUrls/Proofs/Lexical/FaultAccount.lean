import Mathlib.Data.List.Forall2
import CssUrls.Proofs.Lexical.Restart
import CssUrls.Proofs.Lexical.TokenFaults

/-! Faults and the tokens that they are about.

A text is read one token at a time, each with its faults (`reads_tokenize`), and at most at its end with
a comment that is not closed. So what each token says of its faults the text says of all. Main statement:
`tokenize_accounted`. -/
namespace CssUrls.Lexical
open Text

/-- The faults with one of some flaws. -/
def faultsOf (flaws : List Flaw) (faults : List Fault) : List Fault := faults.filter (·.flaw ∈ flaws)

/-- Where a token stands. -/
def spansOf (token : Token) (spans : List Span) : List Span := spans.filter (·.token = token)

/-- Faults and tokens of a text account for each other. -/
structure Accounted (text : List Char) (t : Tokens) : Prop where
  /-- The faults come in the order of the text, and lie in it. -/
  sorted : t.faults.Pairwise fun f g => f.position ≤ g.position
  position_le : ∀ f ∈ t.faults, f.position ≤ text.length
  /-- Each newline in a string is where a malformed string stops. -/
  badStrings : List.Forall₂ (fun f s => f.position = s.stop)
    (faultsOf [.newlineInString] t.faults) (spansOf .badString t.spans)
  /-- Each malformed URL has its fault behind its start. -/
  badUrls : List.Forall₂ (fun f s => s.start < f.position ∧ f.position ≤ s.stop)
    (faultsOf [.invalidUrl, .unterminatedUrl] t.faults) (spansOf .badUrl t.spans)
  /-- Each lone backslash is one that escapes nothing. At most one more ends the text. -/
  escapes : ∃ last, (faultsOf [.invalidEscape] t.faults).map Fault.position =
      (spansOf (.delim '\\') t.spans).map Span.start ++ last ∧
    (last = [] ∨ 0 < text.length ∧ last = [text.length - 1])
  /-- The comments in front of the end of the file end with one that is not closed. -/
  openComment : ∀ n, ⟨.unterminatedComment, n⟩ ∈ t.faults ↔
    ∃ front comments rest, t.spans = front ++ [⟨.endOfFile, text.length, text.length⟩] ∧
      text.extract (reach 0 front) text.length = comments ++ rest ∧ ClosedComments comments ∧
      OpenComment rest ∧ n = reach 0 front + comments.length
  openComment_once : (faultsOf [.unterminatedComment] t.faults).length ≤ 1
  openString_once : (faultsOf [.unterminatedString] t.faults).length ≤ 1

/-! ### Faults with a flaw -/

@[simp] theorem faultsOf_append (flaws : List Flaw) (a b : List Fault) :
    faultsOf flaws (a ++ b) = faultsOf flaws a ++ faultsOf flaws b :=
  List.filter_append ..

@[simp] theorem faultsOf_map_shift (flaws : List Flaw) (n : Nat) (faults : List Fault) :
    faultsOf flaws (faults.map (Fault.shift n)) = (faultsOf flaws faults).map (Fault.shift n) :=
  List.filter_map ..

@[simp] theorem spansOf_map_shift (token : Token) (n : Nat) (spans : List Span) :
    spansOf token (spans.map (Span.shift n)) = (spansOf token spans).map (Span.shift n) :=
  List.filter_map ..

theorem map_position_shift (n : Nat) (faults : List Fault) :
    (faults.map (Fault.shift n)).map Fault.position = (faults.map Fault.position).map (n + ·) := by
  rw [List.map_map, List.map_map]
  rfl

theorem map_start_shift (n : Nat) (spans : List Span) :
    (spans.map (Span.shift n)).map Span.start = (spans.map Span.start).map (n + ·) := by
  rw [List.map_map, List.map_map]
  rfl

theorem spansOf_cons (token : Token) (s : Span) (spans : List Span) :
    spansOf token (s :: spans) = spansOf token [s] ++ spansOf token spans :=
  List.filter_append [s] spans

theorem faultsOf_eq_nil {flaws : List Flaw} {faults : List Fault} (h : ∀ f ∈ faults, f.flaw ∉ flaws) :
    faultsOf flaws faults = [] := by
  rw [faultsOf, List.filter_eq_nil_iff]
  simpa using h

theorem faultsOf_eq_self {flaws : List Flaw} {faults : List Fault} (h : ∀ f ∈ faults, f.flaw ∈ flaws) :
    faultsOf flaws faults = faults := by
  rw [faultsOf, List.filter_eq_self]
  simpa using h

/-! ### One token -/

section Token
variable {n length : Nat} {r : Reading Token} {faults : List Fault}

theorem StrayEscape.flaw_eq (h : StrayEscape n length faults) : ∀ f ∈ faults, f.flaw = .invalidEscape := by
  rcases h with rfl | ⟨-, -, rfl⟩ <;> simp

theorem StrayEscape.faultsOf_eq_nil (h : StrayEscape n length faults) {flaws : List Flaw}
    (hflaws : Flaw.invalidEscape ∉ flaws) : faultsOf flaws faults = [] :=
  Lexical.faultsOf_eq_nil fun f hf => by rw [h.flaw_eq f hf]; exact hflaws

theorem faultsOf_numbers {flaws : List Flaw} {numbers : List Fault} (hflaws : Flaw.numberOutOfRange ∉ flaws)
    (hnumbers : ∀ f ∈ numbers, f = ⟨.numberOutOfRange, 0⟩) : faultsOf flaws numbers = [] :=
  faultsOf_eq_nil fun f hf => by rw [hnumbers f hf]; exact hflaws

theorem TokenReading.position_le (h : TokenReading n r) : ∀ f ∈ r.faults, f.position ≤ r.length := by
  cases h with
  | sound htoken hnumbers hescapes =>
    intro f hf
    rcases List.mem_append.mp hf with hf | hf
    · rw [hnumbers f hf]
      exact Nat.zero_le _
    · rcases hescapes with rfl | ⟨-, rfl, rfl⟩
      · contradiction
      · rw [List.mem_singleton.mp hf]
        exact Nat.sub_le ..
  | openUrl hpos hescapes =>
    rcases hescapes with rfl | ⟨-, -, rfl⟩ <;> simp
  | badUrl hpos hle => simpa using hle
  | _ => simp

theorem TokenReading.sorted (h : TokenReading n r) :
    r.faults.Pairwise fun f g => f.position ≤ g.position := by
  cases h with
  | sound htoken hnumbers hescapes =>
    rw [List.pairwise_append]
    refine ⟨?_, ?_, fun f hf g hg => ?_⟩
    · rw [List.eq_replicate_iff.mpr ⟨rfl, hnumbers⟩, List.pairwise_replicate]
      exact .inr (Nat.le_refl _)
    · rcases hescapes with rfl | ⟨-, -, rfl⟩ <;> simp
    · rw [hnumbers f hf]
      exact Nat.zero_le _
  | openUrl hpos hescapes => rcases hescapes with rfl | ⟨-, -, rfl⟩ <;> simp
  | _ => exact List.pairwise_singleton ..

/-- A sound token has no fault of a malformed one. -/
theorem faultsOf_sound {numbers escapes : List Fault} (hnumbers : ∀ f ∈ numbers, f = ⟨.numberOutOfRange, 0⟩)
    (hescapes : StrayEscape n length escapes) {flaws : List Flaw} (hnumber : Flaw.numberOutOfRange ∉ flaws)
    (hescape : Flaw.invalidEscape ∉ flaws) : faultsOf flaws (numbers ++ escapes) = [] := by
  rw [faultsOf_append, faultsOf_numbers hnumber hnumbers, hescapes.faultsOf_eq_nil hescape]
  rfl

theorem spansOf_sound {token bad : Token} (htoken : isSound token = true) (hbad : isSound bad = false)
    (start stop : Nat) : spansOf bad [⟨token, start, stop⟩] = [] := by
  have hne : token ≠ bad := by
    rintro rfl
    rw [htoken] at hbad
    contradiction
  simp [spansOf, hne]

theorem TokenReading.badStrings (h : TokenReading n r) :
    List.Forall₂ (fun f s => f.position = s.stop) (faultsOf [.newlineInString] r.faults)
      (spansOf .badString [⟨r.value, 0, r.length⟩]) := by
  cases h with
  | sound htoken hnumbers hescapes =>
    rw [faultsOf_sound hnumbers hescapes (by decide) (by decide), spansOf_sound htoken rfl]
    exact .nil
  | badString => exact .cons rfl .nil
  | openUrl hpos hescapes =>
    rw [faultsOf_append, hescapes.faultsOf_eq_nil (by decide)]
    exact .nil
  | _ => exact .nil

theorem TokenReading.badUrls (h : TokenReading n r) :
    List.Forall₂ (fun f s => s.start < f.position ∧ f.position ≤ s.stop)
      (faultsOf [.invalidUrl, .unterminatedUrl] r.faults) (spansOf .badUrl [⟨r.value, 0, r.length⟩]) := by
  cases h with
  | sound htoken hnumbers hescapes =>
    rw [faultsOf_sound hnumbers hescapes (by decide) (by decide), spansOf_sound htoken rfl]
    exact .nil
  | openUrl hpos hescapes =>
    rw [faultsOf_append, hescapes.faultsOf_eq_nil (by decide)]
    exact .cons ⟨hpos, Nat.le_refl _⟩ .nil
  | badUrl hpos hle => exact .cons ⟨hpos, hle⟩ .nil
  | _ => exact .nil

theorem TokenReading.loneBackslash (h : TokenReading n r) :
    ∃ last, (faultsOf [.invalidEscape] r.faults).map Fault.position =
        (spansOf (.delim '\\') [⟨r.value, 0, r.length⟩]).map Span.start ++ last ∧
      (last = [] ∨ 0 < n ∧ r.length = n ∧ last = [n - 1]) := by
  have hstray {escapes : List Fault} {length : Nat} (h : StrayEscape n length escapes) :
      escapes.map Fault.position = [] ∨ 0 < n ∧ length = n ∧ escapes.map Fault.position = [n - 1] := by
    rcases h with rfl | ⟨hpos, hlength, rfl⟩
    · exact .inl rfl
    · exact .inr ⟨hpos, hlength, rfl⟩
  cases h with
  | @sound token length numbers escapes htoken hnumbers hescapes =>
    refine ⟨escapes.map Fault.position, ?_, hstray hescapes⟩
    rw [faultsOf_append, faultsOf_numbers (by decide) hnumbers, spansOf_sound htoken rfl,
      faultsOf_eq_self fun f hf => by simp [hescapes.flaw_eq f hf]]
    rfl
  | @openUrl escapes hpos hescapes =>
    refine ⟨escapes.map Fault.position, ?_, hstray hescapes⟩
    rw [faultsOf_append, faultsOf_eq_self fun f hf => by simp [hescapes.flaw_eq f hf]]
    exact (congrArg _ (List.append_nil _)).trans (List.nil_append _).symm
  | _ => exact ⟨[], rfl, .inl rfl⟩

/-- A string ends with the text, or has no fault that says so. -/
theorem TokenReading.unterminatedString (h : TokenReading n r) :
    faultsOf [.unterminatedString] r.faults = [] ∨
      r.length = n ∧ (faultsOf [.unterminatedString] r.faults).length = 1 := by
  cases h with
  | sound htoken hnumbers hescapes =>
    exact .inl (faultsOf_sound hnumbers hescapes (by decide) (by decide))
  | openString => exact .inr ⟨rfl, rfl⟩
  | openUrl hpos hescapes =>
    left
    rw [faultsOf_append, hescapes.faultsOf_eq_nil (by decide)]
    rfl
  | _ => exact .inl rfl

/-- No token is a comment. -/
theorem TokenReading.flaw_ne (h : TokenReading n r) : ∀ f ∈ r.faults, f.flaw ≠ .unterminatedComment := by
  cases h with
  | sound htoken hnumbers hescapes =>
    intro f hf
    rcases List.mem_append.mp hf with hf | hf
    · rw [hnumbers f hf]
      exact Flaw.noConfusion
    · rw [hescapes.flaw_eq f hf]
      exact Flaw.noConfusion
  | openUrl hpos hescapes =>
    intro f hf
    rcases List.mem_append.mp hf with hf | hf
    · rw [hescapes.flaw_eq f hf]
      exact Flaw.noConfusion
    · rw [List.mem_singleton.mp hf]
      exact Flaw.noConfusion
  | _ => simp

end Token

/-! ### One token after another -/

/-- What a text of `n` code points can be read as. -/
inductive Reads : Nat → Tokens → Prop
  | endOfFile {n : Nat} {faults : List Fault} (hone : faults.length ≤ 1)
      (hfaults : ∀ f ∈ faults, f.flaw = .unterminatedComment ∧ f.position < n) :
      Reads n ⟨[⟨.endOfFile, n, n⟩], faults⟩
  | token {gap n : Nat} {r : Reading Token} {t : Tokens} (hpos : 0 < r.length)
      (hr : TokenReading (r.length + n) r) (h : Reads n t) :
      Reads (gap + r.length + n)
        ⟨⟨r.value, gap, gap + r.length⟩ :: t.spans.map (Span.shift (gap + r.length)),
          r.faults.map (Fault.shift gap) ++ t.faults.map (Fault.shift (gap + r.length))⟩

variable {n : Nat} {t : Tokens}

/-- Comments with no token behind them are all of the text. -/
theorem readLexeme_of_endOfFile {text : List Char} (h : (readLexeme text).value = .endOfFile) :
    (readComments text).length = text.length ∧
      readLexeme text = ⟨.endOfFile, text.length, (readComments text).faults⟩ := by
  have hnil : afterComments text = [] := frontLexeme_token_eq_endOfFile_iff.mp h
  have hlength : (readComments text).length = text.length :=
    Nat.le_antisymm (readComments_length_le text) (List.drop_eq_nil_iff.mp hnil)
  refine ⟨hlength, ?_⟩
  rw [readLexeme, hnil, Reading.andThen, hlength]
  exact congrArg _ (List.append_nil _)

/-- Comments in front of a token have no fault. -/
theorem readLexeme_of_ne_endOfFile {text : List Char} (h : (readLexeme text).value ≠ .endOfFile) :
    readLexeme text = (readToken (afterComments text)).behind (readComments text).length := by
  have hnone : (readComments text).faults = [] := by
    rcases readComments_cases text with hnone | ⟨comments, rest, -, -, -, hread⟩
    · exact hnone
    · exfalso
      refine h (frontLexeme_token_eq_endOfFile_iff.mpr ?_)
      rw [afterComments, hread, List.drop_length]
  rw [readLexeme, Reading.andThen, hnone]
  rfl

/-- **A text is read one token at a time.** -/
theorem reads_tokenize (text : List Char) : Reads text.length (tokenize text) := by
  generalize hn : text.length = n
  induction n using Nat.strongRecOn generalizing text with
  | ind n ih =>
    subst hn
    have hafter : (afterComments text).length = text.length - (readComments text).length := List.length_drop
    have hcomments := readComments_length_le text
    show Reads text.length ⟨(tokenize text).spans, (tokenize text).faults⟩
    by_cases hend : (readLexeme text).value = .endOfFile
    · obtain ⟨hlength, hlexeme⟩ := readLexeme_of_endOfFile hend
      rw [(tokenize_eq_singleton hend).1, (tokenize_eq_singleton hend).2, hlexeme, hlength]
      rcases readComments_cases text with hnone | ⟨comments, rest, rfl, -, ⟨body, -, rfl⟩, hread⟩
      · rw [hnone]
        exact .endOfFile (Nat.zero_le _) nofun
      · rw [hread]
        refine .endOfFile (Nat.le_refl _) fun f hf => ?_
        rw [List.mem_singleton.mp hf, List.length_append]
        exact ⟨rfl, Nat.lt_add_of_pos_right (Nat.succ_pos _)⟩
    · have hpos : 0 < (readToken (afterComments text)).length := by
        rw [← frontLexeme_body_length]
        exact frontLexeme_body_pos hend
      have hle := readToken_length_le (afterComments text)
      have hr := readToken_reading (afterComments text)
      rw [(tokenize_eq_cons hend).1, (tokenize_eq_cons hend).2, readLexeme_of_ne_endOfFile hend,
        Reading.behind_length]
      have hrest := List.length_drop
        (i := (readComments text).length + (readToken (afterComments text)).length) (l := text)
      have htotal : (afterComments text).length = (readToken (afterComments text)).length +
        (text.drop ((readComments text).length + (readToken (afterComments text)).length)).length := by omega
      rw [htotal] at hr
      have hreads := @Reads.token (readComments text).length _ _ _ hpos hr (ih _ (by omega) _ rfl)
      rw [Nat.add_assoc, ← htotal, hafter, Nat.add_sub_cancel' hcomments] at hreads
      exact hreads

/-- Nothing is read of an empty text. -/
theorem Reads.eq_of_zero (h : Reads 0 t) : t = ⟨[⟨.endOfFile, 0, 0⟩], []⟩ := by
  generalize hn : 0 = n at h
  cases h with
  | @endOfFile _ faults hone hfaults =>
    cases faults with
    | nil => rw [← hn]
    | cons f faults =>
      have hlt := (hfaults f (List.mem_cons_self ..)).2
      omega
  | token hpos hr h => omega

theorem Reads.position_le (h : Reads n t) : ∀ f ∈ t.faults, f.position ≤ n := by
  induction h with
  | endOfFile hone hfaults => exact fun f hf => Nat.le_of_lt (hfaults f hf).2
  | @token gap n r t hpos hr h ih =>
    intro f hf
    rcases List.mem_append.mp hf with hf | hf
    · obtain ⟨g, hg, rfl⟩ := List.mem_map.mp hf
      have hle := hr.position_le g hg
      show gap + g.position ≤ _
      omega
    · obtain ⟨g, hg, rfl⟩ := List.mem_map.mp hf
      exact Nat.add_le_add_left (ih g hg) _

theorem Reads.sorted (h : Reads n t) : t.faults.Pairwise fun f g => f.position ≤ g.position := by
  induction h with
  | @endOfFile n faults hone hfaults =>
    match faults, hone with
    | [], _ => exact .nil
    | [f], _ => exact List.pairwise_singleton ..
  | @token gap n r t hpos hr h ih =>
    rw [List.pairwise_append, List.pairwise_map, List.pairwise_map]
    refine ⟨hr.sorted.imp (Nat.add_le_add_left · gap), ih.imp (Nat.add_le_add_left · _), ?_⟩
    intro _ hfirst _ hrest
    obtain ⟨f, hf, rfl⟩ := List.mem_map.mp hfirst
    obtain ⟨g, -, rfl⟩ := List.mem_map.mp hrest
    have hle := hr.position_le f hf
    show gap + f.position ≤ gap + r.length + g.position
    omega

/-- **What pairs the faults of each token with it** pairs those of a text with its tokens. -/
theorem Reads.paired {flaws : List Flaw} {token : Token} {rel : Fault → Span → Prop}
    (hshift : ∀ n f s, rel f s → rel (f.shift n) (s.shift n)) (hflaws : Flaw.unterminatedComment ∉ flaws)
    (htoken : Token.endOfFile ≠ token)
    (hone : ∀ {n r}, TokenReading n r →
      List.Forall₂ rel (faultsOf flaws r.faults) (spansOf token [⟨r.value, 0, r.length⟩]))
    (h : Reads n t) : List.Forall₂ rel (faultsOf flaws t.faults) (spansOf token t.spans) := by
  have hmap {faults : List Fault} {spans : List Span} (n : Nat) (h : List.Forall₂ rel faults spans) :
      List.Forall₂ rel (faults.map (Fault.shift n)) (spans.map (Span.shift n)) := by
    rw [List.forall₂_map_left_iff, List.forall₂_map_right_iff]
    exact h.imp (hshift n)
  induction h with
  | endOfFile hle hfaults =>
    rw [faultsOf_eq_nil fun f hf => by rw [(hfaults f hf).1]; exact hflaws]
    simp [spansOf, htoken]
  | @token gap n r t hpos hr h ih =>
    rw [faultsOf_append, faultsOf_map_shift, faultsOf_map_shift, spansOf_cons, spansOf_map_shift]
    have hfirst : [⟨r.value, gap, gap + r.length⟩] = [⟨r.value, 0, r.length⟩].map (Span.shift gap) := rfl
    rw [hfirst, spansOf_map_shift]
    exact List.rel_append (hmap gap (hone hr)) (hmap _ ih)

theorem Reads.escapes (h : Reads n t) :
    ∃ last, (faultsOf [.invalidEscape] t.faults).map Fault.position =
        (spansOf (.delim '\\') t.spans).map Span.start ++ last ∧ (last = [] ∨ 0 < n ∧ last = [n - 1]) := by
  induction h with
  | endOfFile hone hfaults =>
    rw [faultsOf_eq_nil fun f hf => by rw [(hfaults f hf).1]; decide]
    exact ⟨[], rfl, .inl rfl⟩
  | @token gap n r t hpos hr h ih =>
    obtain ⟨first, hfirst, hstray⟩ := hr.loneBackslash
    obtain ⟨last, hlast, hend⟩ := ih
    have hspan : [⟨r.value, gap, gap + r.length⟩] = [⟨r.value, 0, r.length⟩].map (Span.shift gap) := rfl
    rw [spansOf_cons, hspan, faultsOf_append, List.map_append, List.map_append]
    simp only [faultsOf_map_shift, spansOf_map_shift, map_position_shift, map_start_shift, hfirst, hlast,
      List.map_append]
    rcases hstray with rfl | ⟨hpos', hlength, rfl⟩
    · refine ⟨last.map (gap + r.length + ·), by simp, ?_⟩
      rcases hend with rfl | ⟨hn, rfl⟩
      · exact .inl rfl
      · refine .inr ⟨by omega, ?_⟩
        rw [Nat.add_sub_assoc hn]
        rfl
    · -- The text ends with the backslash, so nothing is read behind it.
      obtain rfl : n = 0 := by omega
      obtain rfl := h.eq_of_zero
      have hnone : last = [] := (List.append_eq_nil_iff.mp hlast.symm).2
      subst hnone
      refine ⟨[gap + r.length - 1], ?_, .inr ⟨by omega, rfl⟩⟩
      rw [Nat.add_sub_assoc hpos]
      simp [spansOf]

theorem Reads.openString_once (h : Reads n t) : (faultsOf [.unterminatedString] t.faults).length ≤ 1 := by
  induction h with
  | endOfFile hone hfaults =>
    rw [faultsOf_eq_nil fun f hf => by rw [(hfaults f hf).1]; decide]
    exact Nat.zero_le _
  | @token gap n r t hpos hr h ih =>
    rw [faultsOf_append, faultsOf_map_shift, faultsOf_map_shift, List.length_append, List.length_map,
      List.length_map]
    rcases hr.unterminatedString with hnone | ⟨hlength, hone⟩
    · rw [hnone, List.length_nil, Nat.zero_add]
      exact ih
    · -- The text ends with the string, so nothing is read behind it.
      obtain rfl : n = 0 := by omega
      rw [h.eq_of_zero, hone]
      exact Nat.le_refl _

theorem Reads.openComment_once (h : Reads n t) : (faultsOf [.unterminatedComment] t.faults).length ≤ 1 := by
  induction h with
  | endOfFile hone hfaults => exact Nat.le_trans (List.length_filter_le ..) hone
  | @token gap n r t hpos hr h ih =>
    have hnone : faultsOf [.unterminatedComment] r.faults = [] :=
      faultsOf_eq_nil fun f hf => by simpa using hr.flaw_ne f hf
    rw [faultsOf_append, faultsOf_map_shift, faultsOf_map_shift, hnone, List.map_nil, List.nil_append,
      List.length_map]
    exact ih

/-- Every fault of a text lies in the text, or where it ends. -/
theorem tokenize_within (text : List Char) : ∀ f ∈ (tokenize text).faults, f.position ≤ text.length :=
  (reads_tokenize text).position_le

/-! ### A comment that is not closed -/

theorem mem_faults_readComments {text : List Char} {n : Nat} :
    ⟨.unterminatedComment, n⟩ ∈ (readComments text).faults ↔
      ∃ comments rest, text = comments ++ rest ∧ ClosedComments comments ∧ OpenComment rest ∧
        n = comments.length := by
  constructor
  · intro h
    rcases readComments_cases text with hnone | ⟨comments, rest, htext, hclosed, hopen, hread⟩
    · rw [hnone] at h
      contradiction
    · rw [hread, List.mem_singleton] at h
      exact ⟨comments, rest, htext, hclosed, hopen, congrArg Fault.position h⟩
  · rintro ⟨comments, rest, rfl, hclosed, hopen, rfl⟩
    rw [readComments_append hclosed, readComments_open hopen]
    exact List.mem_singleton_self _

theorem mem_map_shift {f : Flaw} {faults : List Fault} {k m : Nat} :
    ⟨f, m⟩ ∈ faults.map (Fault.shift k) ↔ ∃ n, ⟨f, n⟩ ∈ faults ∧ m = k + n := by
  rw [List.mem_map]
  constructor
  · rintro ⟨⟨flaw, n⟩, hmem, heq⟩
    cases heq
    exact ⟨n, hmem, rfl⟩
  · rintro ⟨n, hmem, rfl⟩
    exact ⟨_, hmem, rfl⟩

/-- **A comment is not closed** only in front of the end of the file. -/
theorem mem_faults_tokenize {text : List Char} {front : List Lexeme} {gap : List Char}
    (h : lexemes text = front ++ [⟨gap, [], .endOfFile⟩]) {n : Nat} :
    ⟨.unterminatedComment, n⟩ ∈ (tokenize text).faults ↔
      ∃ comments rest, gap = comments ++ rest ∧ ClosedComments comments ∧ OpenComment rest ∧
        n = (textOf front).length + comments.length := by
  induction front generalizing text n with
  | nil =>
    obtain ⟨hfront, ⟨htext, -⟩ | ⟨hne, -⟩⟩ := lexemes_eq_cons h
    · have hgap : gap = text := congrArg Lexeme.gap htext
      have hend : (readLexeme text).value = .endOfFile := congrArg Lexeme.token hfront
      rw [(tokenize_eq_singleton hend).2, (readLexeme_of_endOfFile hend).2, mem_faults_readComments, hgap]
      simp only [textOf_nil, List.length_nil, Nat.zero_add]
    · contradiction
  | cons l front ih =>
    obtain ⟨hfront, ⟨-, hnil⟩ | ⟨hne, hrest⟩⟩ := lexemes_eq_cons h
    · simp at hnil
    · have hend : (readLexeme text).value ≠ .endOfFile := by
        rw [← hfront] at hne
        exact hne
      have hnone : ⟨.unterminatedComment, n⟩ ∉ (readLexeme text).faults := by
        rw [readLexeme_of_ne_endOfFile hend, Reading.behind, mem_map_shift]
        rintro ⟨m, hmem, -⟩
        exact (readToken_reading _).flaw_ne _ hmem rfl
      have hlength : (readLexeme text).length = l.text.length := by rw [readLexeme_length, hfront]
      rw [afterLexeme, hfront] at hrest
      rw [(tokenize_eq_cons hend).2, List.mem_append, or_iff_right hnone, mem_map_shift, hlength]
      simp only [ih hrest.symm, textOf_cons, List.length_append]
      constructor
      · rintro ⟨m, ⟨comments, rest, hgap, hclosed, hopen, rfl⟩, rfl⟩
        exact ⟨comments, rest, hgap, hclosed, hopen, (Nat.add_assoc ..).symm⟩
      · rintro ⟨comments, rest, hgap, hclosed, hopen, rfl⟩
        exact ⟨_, ⟨comments, rest, hgap, hclosed, hopen, rfl⟩, Nat.add_assoc ..⟩

/-! ### Texts -/

/-- **The faults of any text and its tokens account for each other.** -/
theorem tokenize_accounted (text : List Char) : Accounted text (tokenize text) := by
  have h := reads_tokenize text
  constructor
  case sorted => exact h.sorted
  case position_le => exact h.position_le
  case badStrings =>
    refine h.paired ?_ (by decide) Token.noConfusion TokenReading.badStrings
    exact fun n f s heq => congrArg (n + ·) heq
  case badUrls =>
    refine h.paired ?_ (by decide) Token.noConfusion TokenReading.badUrls
    exact fun n f s hle => ⟨Nat.add_lt_add_left hle.1 n, Nat.add_le_add_left hle.2 n⟩
  case escapes => exact h.escapes
  case openComment =>
    intro n
    obtain ⟨front, gap, heq, -, hspans, hgap⟩ := exists_lastGap text
    have hreach : reach 0 (spansFrom 0 front) = (textOf front).length := by
      rw [reach_spansFrom, Nat.zero_add]
    rw [mem_faults_tokenize heq, ← hgap, ← hreach]
    constructor
    · rintro ⟨comments, rest, hcomments, hclosed, hopen, hn⟩
      exact ⟨_, comments, rest, hspans, hcomments, hclosed, hopen, hn⟩
    · rintro ⟨before, comments, rest, hbefore, hcomments, hclosed, hopen, hn⟩
      obtain ⟨rfl, -⟩ := List.append_inj' (hspans.symm.trans hbefore) rfl
      exact ⟨comments, rest, hcomments, hclosed, hopen, hn⟩
  case openComment_once => exact h.openComment_once
  case openString_once => exact h.openString_once

end CssUrls.Lexical
