/-
  Searching the bytes of a text.

  A search for a word compares bytes of UTF-8, and answers with the number of bytes
  before the word.  A text may only be cut where one of its characters begins, or at
  its end.

  * `byteOffset? word text`: where a word first stands in a text.  `byteOffset?_append`:
    it stands after a part of the text in which its first byte does not occur;
  * `fromByte? text offset`: the text from a byte on, if it may be cut there;
  * `isValid_of_byteOffset?`: a text may be cut on both sides of a word that is found.
-/
import RegisterMachine.Proofs.LexicalClasses

namespace RegisterMachine

theorem utf8_eq_data (text : String) : utf8 text = text.toByteArray.data.toList := by
  rw [utf8, String.toUTF8_eq_toByteArray]

theorem length_utf8 (text : String) : (utf8 text).length = text.utf8ByteSize := by
  rw [utf8_eq_data, Array.length_toList]
  rfl

theorem utf8_append (first second : String) :
    utf8 (first ++ second) = utf8 first ++ utf8 second := by
  rw [utf8_eq, utf8_eq, utf8_eq, String.toList_append, List.flatMap_append]

/-! ## Where a word stands -/

/-- The number of bytes before the first place where a word stands in a text. -/
def byteOffset? (word text : String) : Option Nat :=
  (utf8 text).tails.findIdx? (utf8 word).isPrefixOf

/-- No word begins where its first byte does not stand. -/
theorem findIdx?_tails_append {b : UInt8} {word front : List UInt8} (h : b ∉ front)
    (rest : List UInt8) :
    (front ++ rest).tails.findIdx? (b :: word).isPrefixOf =
      (rest.tails.findIdx? (b :: word).isPrefixOf).map (· + front.length) := by
  induction front with
  | nil => simp
  | cons c front ih =>
    rw [List.mem_cons, not_or] at h
    have hprefix : (b :: word).isPrefixOf (c :: (front ++ rest)) = false := by
      simp [List.isPrefixOf_cons_cons, h.1]
    rw [List.cons_append, List.tails_cons, List.findIdx?_cons, hprefix, ih h.2]
    simp [Option.map_map, Function.comp_def, Nat.add_assoc]

/-- **A word is found where it stands**, after a text without its first byte. -/
theorem byteOffset?_append {word front : String} {b : UInt8} {bytes : List UInt8}
    (hw : utf8 word = b :: bytes) (hf : b ∉ utf8 front) (rest : String) :
    byteOffset? word (front ++ (word ++ rest)) = some front.utf8ByteSize := by
  have hhere : (b :: (bytes ++ utf8 rest)).tails.findIdx? (b :: bytes).isPrefixOf = some 0 := by
    have hprefix : (b :: bytes).isPrefixOf (b :: (bytes ++ utf8 rest)) = true :=
      List.isPrefixOf_iff_prefix.2 (List.prefix_append (b :: bytes) (utf8 rest))
    rw [List.tails_cons, List.findIdx?_cons, hprefix]
    rfl
  rw [byteOffset?, utf8_append, utf8_append, hw, findIdx?_tails_append hf, List.cons_append, hhere,
    Option.map_some, Nat.zero_add, length_utf8]

theorem prefix_of_byteOffset? {word text : String} {start : Nat}
    (h : byteOffset? word text = some start) : utf8 word <+: (utf8 text).drop start := by
  obtain ⟨hlt, hprefix, -⟩ := List.findIdx?_eq_some_iff_getElem.1 h
  rwa [List.getElem_tails, List.isPrefixOf_iff_prefix] at hprefix

/-! ## Cutting a text -/

/-- The text from a byte on, unless the byte is within a character. -/
def fromByte? (text : String) (offset : Nat) : Option String :=
  if h : (String.Pos.Raw.mk offset).IsValid text then
    some (text.sliceFrom (text.pos ⟨offset⟩ h)).copy
  else none

theorem isValid_append (front rest : String) :
    (String.Pos.Raw.mk front.utf8ByteSize).IsValid (front ++ rest) :=
  String.Pos.Raw.isValid_iff_exists_append.2 ⟨front, rest, rfl, rfl⟩

theorem fromByte?_append (front rest : String) :
    fromByte? (front ++ rest) front.utf8ByteSize = some rest := by
  have hvalid := isValid_append front rest
  have hsplits : ((front ++ rest).pos ⟨front.utf8ByteSize⟩ hvalid).Splits front rest := ⟨rfl, rfl⟩
  rw [fromByte?, dif_pos hvalid, (String.Pos.splits _).eq_right hsplits]

/-- **A text may be cut on both sides of a word that is found in it.**  Bytes that are
    UTF-8 themselves begin and end with characters of the text. -/
theorem isValid_of_byteOffset? {word text : String} (hw : word ≠ "") {start : Nat}
    (h : byteOffset? word text = some start) :
    (String.Pos.Raw.mk start).IsValid text ∧
      (String.Pos.Raw.mk (start + word.utf8ByteSize)).IsValid text := by
  have hprefix := prefix_of_byteOffset? h
  have hend : start + word.utf8ByteSize ≤ text.utf8ByteSize := by
    have hpos : word.utf8ByteSize ≠ 0 := mt String.utf8ByteSize_eq_zero_iff.1 hw
    have hle := hprefix.length_le
    rw [List.length_drop, length_utf8, length_utf8] at hle
    omega
  have hword : text.toByteArray.extract start (start + word.utf8ByteSize) = word.toByteArray := by
    rw [List.prefix_iff_eq_take, length_utf8] at hprefix
    rw [ByteArray.ext_iff, ByteArray.data_extract, ← Array.toList_inj, Array.toList_extract,
      List.extract_eq_take_drop, Nat.add_sub_cancel_left, ← utf8_eq_data, ← utf8_eq_data, ← hprefix]
  have hvalid : (text.toByteArray.extract start (start + word.utf8ByteSize)).IsValidUTF8 :=
    hword ▸ word.isValidUTF8
  have hcut := (String.Pos.Raw.isValidUTF8_extract_iff ⟨start⟩ ⟨start + word.utf8ByteSize⟩
    (Nat.le_add_right _ _) hend).1 hvalid
  refine hcut.resolve_left fun he => hw ?_
  have hzero : start = start + word.utf8ByteSize := congrArg String.Pos.Raw.byteIdx he
  rwa [left_eq_add, String.utf8ByteSize_eq_zero_iff] at hzero

end RegisterMachine
