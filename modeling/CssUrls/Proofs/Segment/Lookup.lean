import CssUrls.Segment.Lookup
import Mathlib.Data.List.Forall2
import Mathlib.Data.List.Pairwise

/-! What is known of a property.

Names are the same if only the case of ASCII letters tells them apart (`SameName`), and a lookup makes the same text
of a name wherever it holds that (`lowercaseIn_eq`). So the last kind that was given to a name stands for all of its
spellings, and kinds for different names may be given in any order. Main statements: `lookup?_ofList`,
`ofList_perm`. -/
namespace CssUrls.Text

/-! ### Letters -/

/-- The small letter of an ASCII capital. Every other code point stays as it is. -/
def smallLetter (c : Char) : Char := if 'A' ≤ c ∧ c ≤ 'Z' then Char.ofNat (c.toNat + 32) else c

/-- The code points are an ASCII capital and its small letter. -/
def CapitalOf (c d : Char) : Prop := 'A' ≤ c ∧ c ≤ 'Z' ∧ d.toNat = c.toNat + 32

def SameLetter (c d : Char) : Prop := c = d ∨ CapitalOf c d ∨ CapitalOf d c

/-- The same name but for the case of ASCII letters. -/
def SameName (a b : String) : Prop := List.Forall₂ SameLetter a.toList b.toList

theorem isCapital_iff {c : Char} : 'A' ≤ c ∧ c ≤ 'Z' ↔ 65 ≤ c.toNat ∧ c.toNat ≤ 90 := by
  simp only [Char.le_def, UInt32.le_iff_toNat_le]
  rfl

theorem not_capital_of_not_lt {c : Char} (h : ¬c.toNat < 128) : ¬('A' ≤ c ∧ c ≤ 'Z') := by
  rw [isCapital_iff]
  omega

theorem toLower_of_not_capital {c : Char} (h : ¬('A' ≤ c ∧ c ≤ 'Z')) : c.toLower = c := by
  rw [Char.le_def, Char.le_def] at h
  exact dif_neg h

theorem toNat_toLower (c : Char) :
    c.toLower.toNat = if 'A' ≤ c ∧ c ≤ 'Z' then c.toNat + 32 else c.toNat := by
  split
  · rename_i h
    have hletters : ∀ n < 91, 65 ≤ n → (Char.ofNat n).toLower.toNat = n + 32 := by decide
    rw [isCapital_iff] at h
    have hc := hletters c.toNat (by omega) h.1
    rwa [Char.ofNat_toNat] at hc
  · rw [toLower_of_not_capital ‹_›]

theorem toLower_eq_smallLetter (c : Char) : c.toLower = smallLetter c := by
  unfold smallLetter
  split
  · rename_i h
    have hlower := toNat_toLower c
    rw [if_pos h] at hlower
    rw [← hlower, Char.ofNat_toNat]
  · exact toLower_of_not_capital ‹_›

theorem lowercase_eq (text : String) : lowercase text = String.ofList (text.toList.map Char.toLower) := by
  rw [lowercase, ← String.toList_inj, String.toList_map, String.toList_ofList]

theorem sameLetter_iff {c d : Char} : SameLetter c d ↔ c.toLower = d.toLower := by
  rw [← Char.toNat_inj, toNat_toLower, toNat_toLower, SameLetter, CapitalOf, CapitalOf, ← Char.toNat_inj]
  simp only [← and_assoc, isCapital_iff]
  split <;> split <;> omega

theorem sameName_iff {a b : String} : SameName a b ↔ lowercase a = lowercase b := by
  have hletters : SameLetter = fun c d => c.toLower = d.toLower := funext₂ fun _ _ => propext sameLetter_iff
  rw [SameName, hletters, lowercase_eq, lowercase_eq, String.ofList_inj, ← List.forall₂_eq_eq_eq,
    List.forall₂_map_left_iff, List.forall₂_map_right_iff]

theorem SameName.symm {a b : String} (h : SameName a b) : SameName b a := by
  rw [sameName_iff] at h ⊢
  exact h.symm

instance (a b : String) : Decidable (SameName a b) := decidable_of_iff _ sameName_iff.symm

/-! ### Bytes -/

/-- The bytes of a text. -/
def utf8 (text : List Char) : List UInt8 := text.flatMap String.utf8EncodeChar

theorem toList_toUTF8 (text : String) : text.toUTF8.data.toList = utf8 text.toList := by
  rw [String.toUTF8_eq_toByteArray, ← String.utf8Encode_toList, List.utf8Encode, List.toList_data_toByteArray, utf8]

theorem length_utf8 (text : String) : (utf8 text.toList).length = text.utf8ByteSize := by
  rw [← toList_toUTF8, Array.length_toList]
  rfl

theorem fromUTF8?_utf8 (text : List Char) : String.fromUTF8? (utf8 text).toByteArray = some (String.ofList text) := by
  have hbytes : (utf8 text).toByteArray = (String.ofList text).toByteArray := String.toByteArray_ofList.symm
  rw [String.fromUTF8?, hbytes, dif_pos (String.ofList text).isValidUTF8]
  rfl

theorem utf8EncodeChar_of_lt {c : Char} (h : c.toNat < 128) :
    String.utf8EncodeChar c = [UInt8.ofNat c.toNat] := if_pos (Nat.le_of_lt_succ h)

/-- No byte of a code point above ASCII is one of ASCII. -/
theorem le_toNat_of_mem_utf8EncodeChar {c : Char} (h : 128 ≤ c.toNat) {b : UInt8}
    (hb : b ∈ String.utf8EncodeChar c) : 128 ≤ b.toNat := by
  have hval : c.val.toNat = c.toNat := rfl
  simp only [String.utf8EncodeChar, hval, if_neg (show ¬c.toNat ≤ 127 by omega)] at hb
  split at hb
  · simp only [List.mem_cons, List.not_mem_nil, or_false] at hb
    rcases hb with rfl | rfl <;> rw [UInt8.toNat_ofNat'] <;> omega
  · split at hb
    · simp only [List.mem_cons, List.not_mem_nil, or_false] at hb
      rcases hb with rfl | rfl | rfl <;> rw [UInt8.toNat_ofNat'] <;> omega
    · simp only [List.mem_cons, List.not_mem_nil, or_false] at hb
      rcases hb with rfl | rfl | rfl | rfl <;> rw [UInt8.toNat_ofNat'] <;> omega

theorem isCapitalByte_of_le {b : UInt8} (h : 128 ≤ b.toNat) : isCapitalByte b = false := by
  have hcapital : ¬b.toNat ≤ 90 := by omega
  rw [isCapitalByte, Bool.and_eq_false_iff, decide_eq_false_iff_not, decide_eq_false_iff_not, UInt8.le_iff_toNat_le,
    UInt8.le_iff_toNat_le]
  exact .inr hcapital

/-- Bytes are made small as their code points are. -/
theorem smallBytes_utf8EncodeChar (c : Char) :
    (String.utf8EncodeChar c).map smallByte = String.utf8EncodeChar c.toLower := by
  by_cases h : c.toNat < 128
  · have hletters : ∀ n < 128, [smallByte (UInt8.ofNat n)] = String.utf8EncodeChar (Char.ofNat n).toLower := by
      decide +kernel
    have hc := hletters c.toNat h
    rw [Char.ofNat_toNat] at hc
    rw [utf8EncodeChar_of_lt h, List.map_singleton, hc]
  · rw [toLower_of_not_capital (not_capital_of_not_lt h)]
    refine (List.map_congr_left fun b hb => if_neg ?_).trans (List.map_id _)
    rw [isCapitalByte_of_le (le_toNat_of_mem_utf8EncodeChar (Nat.not_lt.mp h) hb)]
    exact Bool.false_ne_true

theorem any_isCapitalByte_utf8EncodeChar (c : Char) :
    (String.utf8EncodeChar c).any isCapitalByte = decide ('A' ≤ c ∧ c ≤ 'Z') := by
  by_cases h : c.toNat < 128
  · have hletters : ∀ n < 128, isCapitalByte (UInt8.ofNat n) = decide (65 ≤ n ∧ n ≤ 90) := by decide +kernel
    rw [utf8EncodeChar_of_lt h, List.any_cons, List.any_nil, Bool.or_false, hletters c.toNat h]
    exact decide_eq_decide.mpr isCapital_iff.symm
  · rw [decide_eq_false (not_capital_of_not_lt h), List.any_eq_false]
    intro b hb
    rw [isCapitalByte_of_le (le_toNat_of_mem_utf8EncodeChar (Nat.not_lt.mp h) hb)]
    exact Bool.false_ne_true

theorem smallBytes_utf8 (text : List Char) : (utf8 text).map smallByte = utf8 (text.map Char.toLower) := by
  rw [utf8, List.map_flatMap, utf8, List.flatMap_map]
  exact List.flatMap_congr fun c _ => smallBytes_utf8EncodeChar c

theorem any_isCapitalByte_utf8 (text : List Char) :
    (utf8 text).any isCapitalByte = text.any fun c => decide ('A' ≤ c ∧ c ≤ 'Z') := by
  rw [utf8, List.any_flatMap]
  exact congrArg text.any (funext any_isCapitalByte_utf8EncodeChar)

/-! ### Lower case, wherever it is held -/

theorem smallByte_of_not_capital {b : UInt8} (h : isCapitalByte b = false) : smallByte b = b :=
  if_neg (Bool.eq_false_iff.mp h)

/-- It is enough to make bytes small from the first capital on. -/
theorem smallBytes_from {bytes : List UInt8} {first : Nat} (h : bytes.findIdx? isCapitalByte = some first) :
    bytes.take first ++ (bytes.drop first).map smallByte = bytes.map smallByte := by
  have hfront : ∀ b ∈ bytes.take first, smallByte b = b := by
    intro b hb
    obtain ⟨hlt, -, hbefore⟩ := List.findIdx?_eq_some_iff_getElem.mp h
    obtain ⟨j, hj, rfl⟩ := List.mem_take_iff_getElem.mp hb
    exact smallByte_of_not_capital (Bool.eq_false_iff.mpr (hbefore j (by omega)))
  have hsame : bytes.take first = (bytes.take first).map smallByte :=
    ((List.map_congr_left hfront).trans (List.map_id _)).symm
  rw [hsame, ← List.map_append, List.take_append_drop]

/-- Where a text in lower case is held: it is the text itself if that has no capital, and otherwise in a buffer
of so many bytes if it fits there. -/
def placeOf (size : Nat) (text : String) : Place :=
  if text.toList.any fun c => 'A' ≤ c ∧ c ≤ 'Z' then if text.utf8ByteSize ≤ size then .buffer else .heap else .given

/-- **A text is made lower case** whatever its length, whatever bytes it has and whatever the buffer held. -/
theorem lowercaseIn_eq (buffer : List UInt8) (text : String) :
    lowercaseIn buffer text = ⟨lowercase text, placeOf buffer.length text⟩ := by
  have hcapital : ((utf8 text.toList).findIdx? isCapitalByte).isSome = text.toList.any fun c => 'A' ≤ c ∧ c ≤ 'Z' := by
    rw [List.findIdx?_isSome, any_isCapitalByte_utf8]
  simp only [lowercaseIn, toList_toUTF8, length_utf8, placeOf, ← hcapital]
  split
  · rename_i hnone
    rw [hnone, Option.isSome_none, Eq.comm, List.any_eq_false] at hcapital
    have hplain : ∀ c ∈ text.toList, c.toLower = c := fun c hc =>
      toLower_of_not_capital fun h => hcapital c hc (decide_eq_true h)
    have hsame : text.toList.map Char.toLower = text.toList := (List.map_congr_left hplain).trans (List.map_id _)
    rw [hnone, Option.isSome_none, if_neg Bool.false_ne_true, lowercase_eq, hsame, String.ofList_toList]
  · rename_i first hfirst
    rw [hfirst, Option.isSome_some, if_pos rfl]
    have hcopy : (utf8 text.toList ++ buffer.drop text.utf8ByteSize).take text.utf8ByteSize = utf8 text.toList := by
      rw [← length_utf8, List.take_left]
    split
    · rw [if_neg (by omega)]
    · rw [if_pos (by omega), hcopy, smallBytes_from hfirst, smallBytes_utf8, fromUTF8?_utf8, lowercase_eq]

end CssUrls.Text

namespace CssUrls.Classifier
open Text

/-! ### What a classifier holds -/

theorem kinds_insert (c : Classifier) (property : String) (kind : SegmentKind) (name : String) :
    (c.insert property kind).kinds[name]? = if lowercase property = name then some kind else c.kinds[name]? := by
  rw [insert, Std.ExtTreeMap.getElem?_insert]
  simp only [Std.LawfulEqOrd.compare_eq_iff_eq]

theorem kinds_empty (name : String) : empty.kinds[name]? = none := Std.ExtTreeMap.getElem?_empty

/-- The last kind that is given to a name is held for it. -/
theorem kinds_insertAll (c : Classifier) (calls : List (String × SegmentKind)) (name : String) :
    (c.insertAll calls).kinds[name]? =
      ((calls.reverse.find? fun call => lowercase call.1 = name).map Prod.snd).or c.kinds[name]? := by
  induction calls generalizing c with
  | nil => rfl
  | cons call calls ih =>
    have hfirst : (c.insertAll (call :: calls)) = (c.insert call.1 call.2).insertAll calls := rfl
    rw [hfirst, ih, kinds_insert, List.reverse_cons, List.find?_append, Option.map_or, Option.or_assoc]
    congr 1
    by_cases h : lowercase call.1 = name
    · simp [h]
    · simp [h]

theorem contains_imageProperties_iff {property : String} :
    imageProperties.contains (lowercase property) = true ↔ ∃ name ∈ imageProperties, SameName name property := by
  have hlower : ∀ name ∈ imageProperties, lowercase name = name := by
    simp only [lowercase_eq]
    decide +kernel
  rw [List.contains_iff_mem]
  constructor
  · intro h
    exact ⟨lowercase property, h, sameName_iff.mpr (hlower _ h)⟩
  · rintro ⟨name, hname, hsame⟩
    rwa [← sameName_iff.mp hsame, hlower name hname]

/-! ### Lookups -/

theorem kind?_eq_lookup? (c : Classifier) (property : String) : c.kind? property = c.lookup? property := by
  rw [lookup?, lowercaseIn_eq]
  rfl

/-- **A property has the kind that was last given to its name**, in whatever letters, or else what is known of it.
The name is made lower case, and nothing else is done to it, wherever that is held. -/
theorem lookup?_ofList (calls : List (String × SegmentKind)) (property : String) :
    (ofList calls).lookup? property =
      (match calls.reverse.find? fun call => SameName call.1 property with
      | some (_, kind) => some kind
      | none => if ∃ name ∈ imageProperties, SameName name property then some .imageUrl else none) ∧
    (ofList calls).kind? property = (ofList calls).lookup? property ∧
    ∀ buffer, lowercaseIn buffer property =
      ⟨String.ofList (property.toList.map smallLetter), placeOf buffer.length property⟩ := by
  refine ⟨?_, kind?_eq_lookup? _ _, fun buffer => ?_⟩
  · have hheld := kinds_insertAll empty calls (lowercase property)
    rw [kinds_empty, Option.or_none] at hheld
    simp only [lookup?, lowercaseIn_eq, kindOfName?, ofList, hheld, sameName_iff]
    cases calls.reverse.find? fun call => lowercase call.1 = lowercase property with
    | some call => rfl
    | none =>
      simp only [← sameName_iff, ← contains_imageProperties_iff]
      rfl
  · rw [lowercaseIn_eq, lowercase_eq, funext toLower_eq_smallLetter]

/-! ### The order of the kinds -/

theorem insert_comm {a b : String} (h : ¬SameName a b) (c : Classifier) (kind other : SegmentKind) :
    (c.insert a kind).insert b other = (c.insert b other).insert a kind := by
  rw [sameName_iff] at h
  have hkinds (name : String) :
      ((c.insert a kind).insert b other).kinds[name]? = ((c.insert b other).insert a kind).kinds[name]? := by
    rw [kinds_insert, kinds_insert, kinds_insert, kinds_insert]
    split
    · rename_i hb
      rw [if_neg (fun ha => h (ha.trans hb.symm))]
    · rfl
  exact congrArg Classifier.mk (Std.ExtTreeMap.ext_getElem? hkinds)

/-- **The order of kinds makes no difference** if no two of them are for the same name. -/
theorem ofList_perm {a b : List (String × SegmentKind)} (hperm : a.Perm b)
    (hnames : a.Pairwise fun x y => ¬SameName x.1 y.1) :
    ofList a = ofList b ∧ (∀ property, (ofList a).lookup? property = (ofList b).lookup? property) ∧
      ∀ property inFontFace, (ofList a).classify property inFontFace = (ofList b).classify property inFontFace := by
  have hsymm : Std.Symm fun x y : String × SegmentKind => ¬SameName x.1 y.1 := ⟨fun _ _ h => mt SameName.symm h⟩
  have hsame : ofList a = ofList b := by
    refine hperm.foldl_eq' (fun x hx y hy c => ?_) empty
    by_cases hxy : x = y
    · rw [hxy]
    · exact insert_comm (hnames.forall hx hy hxy) c x.2 y.2
  rw [hsame]
  exact ⟨rfl, fun _ => rfl, fun _ _ => rfl⟩

/-- Names that differ only in their letters above ASCII are different, and those of the table may be given kinds. -/
theorem ofList_perm_reverse :
    let kinds := [("--\u00C9cran", SegmentKind.otherUrl), ("--\u00E9cran", .imageUrl), ("Content", .otherUrl)]
    kinds.Perm kinds.reverse ∧ (kinds.Pairwise fun x y => ¬SameName x.1 y.1) ∧ ofList kinds = ofList kinds.reverse := by
  intro kinds
  have hperm : kinds.Perm kinds.reverse := (List.reverse_perm kinds).symm
  have hnames : kinds.Pairwise fun x y => ¬SameName x.1 y.1 := by decide +kernel
  exact ⟨hperm, hnames, (ofList_perm hperm hnames).1⟩

end CssUrls.Classifier
