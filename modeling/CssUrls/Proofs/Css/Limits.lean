import CssUrls.Proofs.Css.NameReread
import CssUrls.Proofs.Text.Source

/-! Writing to a sink with a limit.

A sink takes the longest front of a text that it has room for, and writing stops there
(`onto_writeChars`). Names, strings, URLs, tokens and segments are all written as one text
(`Write.OfText`), so however many steps it takes to write them, a sink that is too small is left with the
longest front that fits of what one without limit takes. Main statement: `limit_kept`. -/
namespace CssUrls.Css
open Text

/-! ### Fronts of a text -/

/-- The longest front of a text that takes no more than so many bytes. -/
def fitting : Nat → List Char → List Char
  | _, [] => []
  | room, c :: text => if c.utf8Size ≤ room then c :: fitting (room - c.utf8Size) text else []

/-- A front of a text takes no more than so many bytes, and no longer one does. -/
structure IsLongestFront (room : Nat) (front text : List Char) : Prop where
  isPrefix : front <+: text
  fits : byteLength front ≤ room
  longest : ∀ other, other <+: text → byteLength other ≤ room → other <+: front

theorem isLongestFront_fitting (room : Nat) (text : List Char) :
    IsLongestFront room (fitting room text) text := by
  induction text generalizing room with
  | nil => exact ⟨List.prefix_rfl, Nat.zero_le room, fun _ h _ => h⟩
  | cons c text ih =>
    by_cases hc : c.utf8Size ≤ room
    · rw [fitting, if_pos hc]
      have hrest := ih (room - c.utf8Size)
      refine ⟨List.cons_prefix_cons.mpr ⟨rfl, hrest.isPrefix⟩, ?_, fun other hother hfits => ?_⟩
      · have := hrest.fits
        rw [byteLength_cons]
        omega
      · cases other with
        | nil => exact List.nil_prefix
        | cons d other =>
          obtain ⟨rfl, hprefix⟩ := List.cons_prefix_cons.mp hother
          rw [byteLength_cons] at hfits
          exact List.cons_prefix_cons.mpr ⟨rfl, hrest.longest other hprefix (by omega)⟩
    · rw [fitting, if_neg hc]
      refine ⟨List.nil_prefix, Nat.zero_le room, fun other hother hfits => ?_⟩
      cases other with
      | nil => exact List.prefix_rfl
      | cons d other =>
        obtain ⟨rfl, -⟩ := List.cons_prefix_cons.mp hother
        rw [byteLength_cons] at hfits
        omega

/-- All of a text is its longest front, if there is room. -/
theorem fitting_eq_self {room : Nat} {text : List Char} (h : byteLength text ≤ room) :
    fitting room text = text := by
  have hfront := isLongestFront_fitting room text
  exact hfront.isPrefix.eq_of_length_le (hfront.longest text List.prefix_rfl h).length_le

/-! ### A sink with a limit -/

/-- The sink that has taken a text. -/
def Sink.holding (limit : Option Nat) (text : List Char) : Sink :=
  ⟨limit, byteLength text, String.ofList text⟩

theorem Sink.push_holding (limit : Option Nat) (text : List Char) (c : Char) :
    (Sink.holding limit text).push c = .holding limit (text ++ [c]) := by
  rw [Sink.push, Sink.holding, Sink.holding, byteLength_append, String.ofList_append, String.push_eq_append]
  rfl

/-- **A sink takes the longest front of a text that it has room for**, behind what it holds. -/
theorem onto_writeChars {limit : Nat} {before : List Char} (h : byteLength before ≤ limit) (text : List Char) :
    (writeChars text).onto (.holding (some limit) before) =
      (decide (byteLength (before ++ text) ≤ limit),
        .holding (some limit) (before ++ fitting (limit - byteLength before) text)) := by
  -- What the sink holds grows by one code point a step, and what it has room for shrinks by its bytes.
  induction text generalizing before with
  | nil =>
    rw [fitting, List.append_nil, decide_eq_true h]
    rfl
  | cons c text ih =>
    have hfits : (Sink.holding (some limit) before).fits c =
        decide (byteLength before + c.utf8Size ≤ limit) := rfl
    have hroom : limit - byteLength (before ++ [c]) = limit - byteLength before - c.utf8Size := by
      rw [byteLength_append, Nat.sub_add_eq]
      rfl
    rw [onto_writeChars_cons, hfits]
    by_cases hc : byteLength before + c.utf8Size ≤ limit
    · have hpushed : byteLength (before ++ [c]) ≤ limit := by rwa [byteLength_append]
      rw [if_pos (decide_eq_true hc), Sink.push_holding, ih hpushed, hroom, fitting, if_pos (by omega),
        List.append_assoc, List.append_assoc]
      rfl
    · have hlong : ¬ byteLength (before ++ c :: text) ≤ limit := by
        rw [byteLength_append, byteLength_cons]
        omega
      rw [if_neg (by rwa [decide_eq_true_eq]), fitting, if_neg (by omega), List.append_nil, decide_eq_false hlong]

/-! ### Keeping to a limit -/

/-- A sink with the limit takes all that is written, if it has room for it. Otherwise writing fails, and the
sink is left with the longest front that fits. -/
structure KeepsTo (limit : Nat) (w : Write Unit) : Prop where
  whole : w.text.utf8ByteSize ≤ limit →
    w.onto (.empty (some limit)) = (true, ⟨some limit, w.text.utf8ByteSize, w.text⟩)
  cut : limit < w.text.utf8ByteSize → ∃ front, IsLongestFront limit front w.text.toList ∧
    w.onto (.empty (some limit)) = (false, ⟨some limit, byteLength front, String.ofList front⟩)

/-- What is written is a text, code point by code point. -/
def Write.OfText (w : Write Unit) : Prop := ∃ text, w = writeChars text

theorem Write.OfText.keepsTo {w : Write Unit} (h : w.OfText) (limit : Nat) : KeepsTo limit w := by
  obtain ⟨text, rfl⟩ := h
  have hempty : byteLength [] ≤ limit := Nat.zero_le limit
  have honto := onto_writeChars hempty text
  rw [List.nil_append, List.nil_append] at honto
  refine ⟨fun hfits => ?_, fun hlong => ⟨fitting limit text, ?_, ?_⟩⟩
  · rw [text_writeChars, utf8ByteSize_ofList] at hfits ⊢
    have hself : fitting (limit - byteLength []) text = text := fitting_eq_self hfits
    rw [decide_eq_true hfits, hself] at honto
    exact honto
  · rw [text_writeChars, String.toList_ofList]
    exact isLongestFront_fitting limit text
  · rw [text_writeChars, utf8ByteSize_ofList] at hlong
    rw [decide_eq_false (Nat.not_le.mpr hlong)] at honto
    exact honto

/-! ### What is written as a text -/

namespace Write.OfText

theorem chars (text : List Char) : Write.OfText (writeChars text) := ⟨text, rfl⟩

theorem text (text : String) : Write.OfText (writeText text) := chars text.toList

theorem char (c : Char) : Write.OfText (writeChar c) := ⟨[c], writeChar_eq c⟩

theorem done : Write.OfText (pure ()) := chars []

/-- One text is written behind another. -/
theorem andThen {v w : Write Unit} (hv : v.OfText) (hw : w.OfText) : Write.OfText (do v; w) := by
  obtain ⟨a, rfl⟩ := hv
  obtain ⟨b, rfl⟩ := hw
  exact ⟨a ++ b, (writeChars_append a b).symm⟩

theorem forM {α : Type} {f : α → Write Unit} (h : ∀ x, (f x).OfText) (xs : List α) :
    (xs.forM f).OfText := by
  induction xs with
  | nil => exact done
  | cons x xs ih => exact (h x).andThen ih

theorem name (name : List Char) : (writeName name).OfText := ⟨_, writeName_eq name⟩

theorem identifier (name : List Char) : (writeIdentifier name).OfText := ⟨_, writeIdentifier_eq name⟩

theorem quotedPart (part : List Char) : (writeQuotedPart part).OfText := forM (fun c => chars (quotedChar c)) part

theorem quoted (text : List Char) : (writeQuoted text).OfText := ⟨_, writeQuoted_eq text⟩

theorem url (url : List Char) : (writeUrl url).OfText := ⟨_, writeUrl_eq url⟩

theorem segment (s : Segment) : (writeSegment s).OfText := ⟨_, writeSegment_eq s⟩

theorem numeric (n : Numeric) : (writeNumeric n).OfText := ⟨_, writeNumeric_eq n⟩

theorem unit (unit : List Char) : (writeUnit unit).OfText := by
  unfold writeUnit
  split
  · exact (text _).andThen (name _)
  · exact identifier unit

theorem token (t : Token) : (writeToken t).OfText := by
  cases t with
  | ident value => exact identifier _
  | atKeyword value => exact (char _).andThen (identifier _)
  | hash value => exact (char _).andThen (name _)
  | idHash value => exact (char _).andThen (identifier _)
  | string value => exact quoted _
  | url value => exact url _
  | delim c => exact char c
  | number n => exact numeric n
  | percentage n => exact (numeric n).andThen (char _)
  | dimension n value => exact (numeric n).andThen (unit _)
  | function value => exact (identifier _).andThen (char _)
  | endOfFile => exact done
  | _ => exact text _

end Write.OfText

/-- **Writing keeps to every limit**: a sink that has no room for all that is written for a token, for segments
or for a name, a string or a URL holds the longest front of it that fits when writing fails, and no more. -/
theorem limit_kept (limit : Nat) :
    (∀ t, KeepsTo limit (writeToken t)) ∧
      (∀ s, KeepsTo limit (writeSegment s)) ∧ (∀ segments, KeepsTo limit (writeSegments segments)) ∧
      (∀ name, KeepsTo limit (writeIdentifier name)) ∧ (∀ name, KeepsTo limit (writeName name)) ∧
      (∀ text, KeepsTo limit (writeQuoted text)) ∧
      (∀ parts : List (List Char), KeepsTo limit (parts.forM writeQuotedPart)) ∧
      ∀ url, KeepsTo limit (writeUrl url) :=
  ⟨fun t => (Write.OfText.token t).keepsTo limit,
    fun s => (Write.OfText.segment s).keepsTo limit,
    fun segments => (Write.OfText.forM Write.OfText.segment segments).keepsTo limit,
    fun name => (Write.OfText.identifier name).keepsTo limit,
    fun name => (Write.OfText.name name).keepsTo limit,
    fun text => (Write.OfText.quoted text).keepsTo limit,
    fun parts => (Write.OfText.forM Write.OfText.quotedPart parts).keepsTo limit,
    fun url => (Write.OfText.url url).keepsTo limit⟩

/-- Four bytes have room for the quote, a code point of two bytes and the backslash of an escape. -/
example : ((writeQuoted "é\n".toList).onto (.empty (some 4))).1 = false ∧
    ((writeQuoted "é\n".toList).onto (.empty (some 4))).2.text = "\"é\\" := by
  decide +kernel

end CssUrls.Css
