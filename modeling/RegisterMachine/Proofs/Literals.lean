/-
  The grammar of integer literals.

  * `digitWords`: the digits, each with its value.  `Radix.Spells r digits n`:
    one or more digits of a radix have the positional value `n`;
  * `Denotes token v`: an optional minus sign, the mark of a radix and digits of
    it denote an integer.  `integer?_eq_some_iff`: that is how literals are read;
  * `Malformed token`: signs, marks and characters that no literal has where they
    stand;
  * `signedLiteral?` leaves the sign to a reader that takes one itself, and so has
    to test the first digit.  `literal?_eq_signedLiteral?`: it reads the same;
  * `literals_exact`: a token has a value iff the grammar gives it one that fits in
    a word, and that is its value.
-/
import Mathlib.Data.Nat.Digits.Defs
import Mathlib.Tactic
import RegisterMachine.Proofs.Numerals

namespace RegisterMachine

/-! ## Digits -/

namespace Text.Radix

/-- The digits of all radices, each with its value. -/
def digitWords : List (Char × Nat) :=
  [('0', 0), ('1', 1), ('2', 2), ('3', 3), ('4', 4), ('5', 5), ('6', 6), ('7', 7), ('8', 8),
    ('9', 9), ('a', 10), ('A', 10), ('b', 11), ('B', 11), ('c', 12), ('C', 12), ('d', 13),
    ('D', 13), ('e', 14), ('E', 14), ('f', 15), ('F', 15)]

/-- A digit of the radix, with its value. -/
def IsDigit (r : Radix) (c : Char) (d : Nat) : Prop :=
  (c, d) ∈ digitWords ∧ d < r.base

/-- One or more digits of the radix, the most significant first, and the number
    that they spell. -/
def Spells (r : Radix) (digits : List Char) (n : Nat) : Prop :=
  digits ≠ [] ∧ ∃ ds, List.Forall₂ r.IsDigit digits ds ∧ n = Nat.ofDigits r.base ds.reverse

/-- What stands before the digits of a radix in a literal. -/
def mark : Radix → List Char
  | binary => ['0', 'b']
  | decimal => []
  | hexadecimal => ['0', 'x']

/-- A character is the one of its code. -/
theorem eq_ofNat_toNat {c : Char} {k : Nat} (h : c.toNat = k) : c = Char.ofNat k := by
  rw [← h, Char.ofNat_toNat]

theorem digitValue?_eq_some_iff {c : Char} {d : Nat} :
    digitValue? c = some d ↔ (c, d) ∈ digitWords := by
  constructor
  · intro h
    unfold digitValue? at h
    split_ifs at h with hdigit hlower hupper
    · simp only [Char.isDigit, Bool.and_eq_true, decide_eq_true_eq] at hdigit
      obtain ⟨hlow, hhigh⟩ : 48 ≤ c.toNat ∧ c.toNat ≤ 57 := hdigit
      cases h
      interval_cases hk : c.toNat <;> rw [eq_ofNat_toNat hk] <;> decide
    · obtain ⟨hlow, hhigh⟩ : 97 ≤ c.toNat ∧ c.toNat ≤ 102 := hlower
      cases h
      interval_cases hk : c.toNat <;> rw [eq_ofNat_toNat hk] <;> decide
    · obtain ⟨hlow, hhigh⟩ : 65 ≤ c.toNat ∧ c.toNat ≤ 70 := hupper
      cases h
      interval_cases hk : c.toNat <;> rw [eq_ofNat_toNat hk] <;> decide
  · have hwords : ∀ word ∈ digitWords, digitValue? word.1 = some word.2 := by decide
    exact hwords (c, d)

theorem digit?_eq_some_iff {r : Radix} {c : Char} {d : Nat} :
    r.digit? c = some d ↔ r.IsDigit c d := by
  rw [digit?, Option.filter_eq_some_iff, digitValue?_eq_some_iff, IsDigit, decide_eq_true_eq]

/-- Each further digit multiplies the value by the base. -/
theorem extend?_eq_some_iff {r : Radix} {digits : List Char} {n value : Nat} :
    r.extend? n digits = some value ↔ ∃ ds, List.Forall₂ r.IsDigit digits ds ∧
      value = n * r.base ^ ds.length + Nat.ofDigits r.base ds.reverse := by
  induction digits generalizing n with
  | nil => simp [extend?, eq_comm]
  | cons c digits ih =>
    have hvalue : ∀ (d : Nat) (ds : List Nat),
        (r.base * n + d) * r.base ^ ds.length + Nat.ofDigits r.base ds.reverse =
          n * r.base ^ (d :: ds).length + Nat.ofDigits r.base (d :: ds).reverse := by
      intro d ds
      rw [List.reverse_cons, Nat.ofDigits_append, Nat.ofDigits_singleton, List.length_reverse,
        List.length_cons]
      ring
    simp only [extend?, Option.bind_eq_some_iff, digit?_eq_some_iff, ih,
      List.forall₂_cons_left_iff]
    constructor
    · rintro ⟨d, hd, ds, hds, rfl⟩
      exact ⟨d :: ds, ⟨d, ds, hd, hds, rfl⟩, hvalue d ds⟩
    · rintro ⟨_, ⟨d, ds, hd, hds, rfl⟩, rfl⟩
      exact ⟨d, hd, ds, hds, (hvalue d ds).symm⟩

theorem number?_eq_some_iff {r : Radix} {digits : List Char} {n : Nat} :
    r.number? digits = some n ↔ r.Spells digits n := by
  unfold number? Spells
  split_ifs with h
  · simp [h]
  · simp [h, extend?_eq_some_iff]

theorem Spells.exists_isDigit {r : Radix} {digits : List Char} {n : Nat} (h : r.Spells digits n)
    {c : Char} (hc : c ∈ digits) : ∃ d, r.IsDigit c d := by
  obtain ⟨-, ds, hds, -⟩ := h
  induction hds with
  | nil => cases hc
  | cons hd _ ih =>
    rcases List.mem_cons.1 hc with rfl | hc
    · exact ⟨_, hd⟩
    · exact ih hc

/-- The letters of marks, small or capital, are no decimal digits. -/
theorem Spells.not_mark {digits : List Char} {n : Nat} (h : decimal.Spells digits n) {c : Char}
    (hc : c ∈ ['x', 'b', 'X', 'B']) : c ∉ digits := by
  intro hm
  have hwords : ∀ word ∈ digitWords, word.2 < 10 → word.1 ∉ ['x', 'b', 'X', 'B'] := by decide
  obtain ⟨d, hd, hlt⟩ := h.exists_isDigit hm
  exact hwords (c, d) hd hlt hc

end Text.Radix

open Text Text.Radix

/-! ## Literals -/

/-- A literal and the integer that it denotes. -/
inductive Denotes : List Char → Int → Prop
  | positive {r : Radix} {digits n} : r.Spells digits n → Denotes (r.mark ++ digits) n
  | negative {r : Radix} {digits n} : r.Spells digits n → Denotes ('-' :: (r.mark ++ digits)) (-n)

theorem magnitude?_eq_some_iff {text : List Char} {n : Nat} :
    magnitude? text = some n ↔ ∃ (r : Radix) (digits : List Char),
      text = r.mark ++ digits ∧ r.Spells digits n := by
  constructor
  · intro h
    unfold magnitude? at h
    split at h
    · exact ⟨.hexadecimal, _, rfl, number?_eq_some_iff.1 h⟩
    · exact ⟨.binary, _, rfl, number?_eq_some_iff.1 h⟩
    · exact ⟨.decimal, _, rfl, number?_eq_some_iff.1 h⟩
  · rintro ⟨r, digits, rfl, hs⟩
    have hn := number?_eq_some_iff.2 hs
    cases r with
    | binary | hexadecimal => exact hn
    | decimal =>
      have hx : 'x' ∉ digits := hs.not_mark (by decide)
      have hb : 'b' ∉ digits := hs.not_mark (by decide)
      exact (magnitude?_eq_number? hx hb).trans hn

/-- Signs but for the one at the front, low lines, and what is beyond ASCII. -/
def Foreign (c : Char) : Prop :=
  c = '-' ∨ c = '+' ∨ c = '_' ∨ 127 < c.toNat

instance : DecidablePred Foreign :=
  fun _ => inferInstanceAs (Decidable (_ ∨ _))

theorem not_foreign_of_mem {r : Radix} {digits : List Char} {n : Nat} (h : r.Spells digits n)
    {c : Char} (hc : c ∈ r.mark ++ digits) : ¬ Foreign c := by
  have hmarks : (r.mark.all fun c => ¬ Foreign c) = true := by cases r <;> decide
  have hwords : ∀ word ∈ digitWords, ¬ Foreign word.1 := by decide
  rcases List.mem_append.1 hc with hc | hc
  · simpa using List.all_eq_true.1 hmarks c hc
  · obtain ⟨d, hd, -⟩ := h.exists_isDigit hc
    exact hwords (c, d) hd

/-- The integer that is read is the one that is denoted. -/
theorem integer?_eq_some_iff {text : List Char} {v : Int} :
    integer? text = some v ↔ Denotes text v := by
  constructor
  · intro h
    unfold integer? at h
    split at h
    · obtain ⟨n, hn, rfl⟩ := Option.map_eq_some_iff.1 h
      obtain ⟨r, digits, rfl, hs⟩ := magnitude?_eq_some_iff.1 hn
      exact .negative hs
    · obtain ⟨n, hn, rfl⟩ := Option.map_eq_some_iff.1 h
      obtain ⟨r, digits, rfl, hs⟩ := magnitude?_eq_some_iff.1 hn
      exact .positive hs
  · rintro (@⟨r, digits, n, hs⟩ | @⟨r, digits, n, hs⟩)
    · have hn := magnitude?_eq_some_iff.2 ⟨r, digits, rfl, hs⟩
      unfold integer?
      split
      · rename_i rest hrest
        have hc : '-' ∈ r.mark ++ digits := hrest ▸ List.mem_cons_self
        exact absurd (Or.inl rfl) (not_foreign_of_mem hs hc)
      · rw [hn]
        rfl
    · rw [integer?, magnitude?_eq_some_iff.2 ⟨r, digits, rfl, hs⟩]
      rfl

theorem Word.ofInt?_eq_some_iff {v : Int} {w : Word} :
    Word.ofInt? v = some w ↔ -2 ^ 63 ≤ v ∧ v ≤ 2 ^ 63 - 1 ∧ w.toInt = v := by
  have hmin : Int64.minValue.toInt = -2 ^ 63 := rfl
  have hmax : Int64.maxValue.toInt = 2 ^ 63 - 1 := rfl
  constructor
  · intro h
    unfold Word.ofInt? at h
    split_ifs at h with hv
    rw [hmin, hmax] at hv
    cases h
    exact ⟨hv.1, hv.2, Int64.toInt_ofInt_of_le hv.1 (by omega)⟩
  · rintro ⟨-, -, rfl⟩
    exact Word.ofInt?_toInt w

theorem literal?_eq_some_iff {token : String} {w : Word} :
    literal? token = some w ↔
      ∃ v, Denotes token.toList v ∧ -2 ^ 63 ≤ v ∧ v ≤ 2 ^ 63 - 1 ∧ w.toInt = v := by
  simp only [literal?, Option.bind_eq_some_iff, integer?_eq_some_iff, Word.ofInt?_eq_some_iff]

/-- A token has no value iff it denotes nothing, or something that is no word. -/
theorem literal?_eq_none_iff {token : String} :
    literal? token = none ↔ ∀ v, Denotes token.toList v → v < -2 ^ 63 ∨ 2 ^ 63 - 1 < v := by
  rw [Option.eq_none_iff_forall_ne_some]
  constructor
  · intro h v hv
    by_contra hfits
    have hlow : -2 ^ 63 ≤ v := by omega
    have hhigh : v < 2 ^ 63 := by omega
    refine h (Int64.ofInt v) (literal?_eq_some_iff.2 ⟨v, hv, hlow, by omega, ?_⟩)
    exact Int64.toInt_ofInt_of_le hlow hhigh
  · intro h w hw
    obtain ⟨v, hv, hlow, hhigh, -⟩ := literal?_eq_some_iff.1 hw
    have := h v hv
    omega

/-! ## Malformed literals -/

/-- Texts that stand for no number after the sign. -/
inductive MalformedMagnitude : List Char → Prop
  | foreign {text c} : c ∈ text → Foreign c → MalformedMagnitude text
  /-- A mark with a capital letter. -/
  | mark {c rest} : c = 'X' ∨ c = 'B' → MalformedMagnitude ('0' :: c :: rest)
  /-- A mark without digits, or nothing at all. -/
  | noDigits {r : Radix} : MalformedMagnitude r.mark

/-- Texts that are no literals, whatever the size of the number. -/
inductive Malformed : List Char → Prop
  | positive {text} : text.head? ≠ some '-' → MalformedMagnitude text → Malformed text
  | negative {text} : MalformedMagnitude text → Malformed ('-' :: text)

theorem MalformedMagnitude.not_spells {text : List Char} (h : MalformedMagnitude text) {r : Radix}
    {digits : List Char} {n : Nat} (hs : r.Spells digits n) : text ≠ r.mark ++ digits := by
  rintro rfl
  generalize ht : r.mark ++ digits = text at h
  cases h with
  | foreign hc hforeign => exact not_foreign_of_mem hs (ht ▸ hc) hforeign
  | @mark c rest hc =>
    cases r with
    | binary | hexadecimal =>
      cases ht
      simp at hc
    | decimal =>
      have hm : c ∈ ['x', 'b', 'X', 'B'] := by rcases hc with rfl | rfl <;> decide
      obtain rfl : digits = '0' :: c :: rest := ht
      exact hs.not_mark hm (List.mem_cons_of_mem _ List.mem_cons_self)
  | @noDigits r' =>
    cases r with
    | binary | hexadecimal =>
      -- there is no room for a digit in another mark
      have hlen : 2 + digits.length = r'.mark.length := by rw [← ht, List.length_append]; rfl
      have htwo : r'.mark.length ≤ 2 := by cases r' <;> decide
      have hpos : 0 < digits.length := List.length_pos_iff.2 hs.1
      omega
    | decimal =>
      obtain rfl : digits = r'.mark := ht
      cases r' with
      | binary => exact hs.not_mark (c := 'b') (by decide) (by decide)
      | hexadecimal => exact hs.not_mark (c := 'x') (by decide) (by decide)
      | decimal => exact hs.1 rfl

/-- A malformed text denotes nothing. -/
theorem Malformed.not_denotes {text : List Char} (h : Malformed text) {v : Int} :
    ¬ Denotes text v := by
  intro hv
  cases h with
  | positive hhead hm =>
    cases hv with
    | positive hs => exact hm.not_spells hs rfl
    | negative hs => exact hhead rfl
  | @negative rest hm =>
    generalize ht : '-' :: rest = text at hv
    cases hv with
    | positive hs =>
      have hc : '-' ∈ _ := ht ▸ List.mem_cons_self
      exact not_foreign_of_mem hs hc (Or.inl rfl)
    | negative hs =>
      cases ht
      exact hm.not_spells hs rfl

theorem Malformed.literal?_eq_none {token : String} (h : Malformed token.toList) :
    literal? token = none :=
  literal?_eq_none_iff.2 fun _ hv => absurd hv h.not_denotes

/-! ## A reader that takes a sign -/

/-- The word that digits of a radix spell, after a sign of either kind or none. -/
def Word.ofSigned? (r : Radix) : List Char → Option Word
  | '-' :: digits => ((r.number? digits).map fun n : Nat => -(n : Int)).bind Word.ofInt?
  | '+' :: digits => ((r.number? digits).map Int.ofNat).bind Word.ofInt?
  | digits => ((r.number? digits).map Int.ofNat).bind Word.ofInt?

/-- The radix that a mark stands for, and what follows. -/
def splitMark : List Char → Radix × List Char
  | '0' :: 'x' :: digits => (.hexadecimal, digits)
  | '0' :: 'b' :: digits => (.binary, digits)
  | digits => (.decimal, digits)

/-- Puts the sign of a literal and its digits together again, so that the least
    word can be read.  Without the test the digits might have a sign of their own. -/
def signedMagnitude? (negative : Bool) (text : List Char) : Option Word :=
  let digits := (splitMark text).2
  if digits.head?.any Char.isAlphanum then
    Word.ofSigned? (splitMark text).1 (if negative then '-' :: digits else digits)
  else none

/-- Reads a literal sign by sign. -/
def signedLiteral? (token : String) : Option Word :=
  match token.toList with
  | '-' :: text => signedMagnitude? true text
  | text => signedMagnitude? false text

theorem magnitude?_eq_splitMark (text : List Char) :
    magnitude? text = (splitMark text).1.number? (splitMark text).2 := by
  by_cases hx : ∃ digits, text = '0' :: 'x' :: digits
  · obtain ⟨digits, rfl⟩ := hx
    rfl
  by_cases hb : ∃ digits, text = '0' :: 'b' :: digits
  · obtain ⟨digits, rfl⟩ := hb
    rfl
  have hmagnitude : magnitude? text = Radix.decimal.number? text := by
    unfold magnitude?
    split
    · exact absurd ⟨_, rfl⟩ hx
    · exact absurd ⟨_, rfl⟩ hb
    · rfl
  have hsplit : splitMark text = (.decimal, text) := by
    unfold splitMark
    split
    · exact absurd ⟨_, rfl⟩ hx
    · exact absurd ⟨_, rfl⟩ hb
    · rfl
  rw [hmagnitude, hsplit]

/-- Digits start with a letter or a digit, and so with no sign. -/
theorem number?_eq_none_of_head {r : Radix} {digits : List Char}
    (h : ¬ digits.head?.any Char.isAlphanum) : r.number? digits = none := by
  rw [Option.eq_none_iff_forall_ne_some]
  intro n hn
  have hs := number?_eq_some_iff.1 hn
  obtain ⟨c, rest, rfl⟩ := List.exists_cons_of_ne_nil hs.1
  obtain ⟨d, hd, -⟩ := hs.exists_isDigit List.mem_cons_self
  have hwords : ∀ word ∈ digitWords, word.1.isAlphanum = true := by decide
  exact h (hwords (c, d) hd)

theorem Word.ofSigned?_digits {r : Radix} {digits : List Char}
    (h : digits.head?.any Char.isAlphanum) :
    Word.ofSigned? r digits = ((r.number? digits).map Int.ofNat).bind Word.ofInt? := by
  unfold Word.ofSigned?
  split
  · simp at h
  · simp at h
  · rfl

theorem signedMagnitude?_true (text : List Char) :
    signedMagnitude? true text =
      ((magnitude? text).map fun n : Nat => -(n : Int)).bind Word.ofInt? := by
  rw [magnitude?_eq_splitMark, signedMagnitude?]
  by_cases h : (splitMark text).2.head?.any Char.isAlphanum
  · rw [if_pos h]
    rfl
  · rw [if_neg h, number?_eq_none_of_head h]
    rfl

theorem signedMagnitude?_false (text : List Char) :
    signedMagnitude? false text = ((magnitude? text).map Int.ofNat).bind Word.ofInt? := by
  rw [magnitude?_eq_splitMark, signedMagnitude?]
  by_cases h : (splitMark text).2.head?.any Char.isAlphanum
  · rw [if_pos h]
    exact Word.ofSigned?_digits h
  · rw [if_neg h, number?_eq_none_of_head h]
    rfl

/-- **The test makes up for the second sign.** -/
theorem literal?_eq_signedLiteral? (token : String) : literal? token = signedLiteral? token := by
  unfold literal? signedLiteral?
  split
  · rename_i text ht
    rw [ht, signedMagnitude?_true]
    rfl
  · rename_i hne
    rw [signedMagnitude?_false, integer?]
    exact hne

/-- **Literals are exactly those of the grammar.**  A token has a value iff it
    denotes an integer that is a word, and that is the value.  Any other token has
    none: one that denotes an integer beyond the words, and one that is malformed.
    Reading the sign together with the digits gives the same. -/
theorem literals_exact (token : String) :
    (∀ w, literal? token = some w ↔
      ∃ v, Denotes token.toList v ∧ -2 ^ 63 ≤ v ∧ v ≤ 2 ^ 63 - 1 ∧ w.toInt = v) ∧
      (literal? token = none ↔ ∀ v, Denotes token.toList v → v < -2 ^ 63 ∨ 2 ^ 63 - 1 < v) ∧
      (Malformed token.toList → literal? token = none) ∧
      literal? token = signedLiteral? token :=
  ⟨fun _ => literal?_eq_some_iff, literal?_eq_none_iff, Malformed.literal?_eq_none,
    literal?_eq_signedLiteral? token⟩

/-- The least word in two radices, leading zeros, and a number just too great. -/
example :
    literal? "-0x8000000000000000" = some Int64.minValue ∧
      literal? "-9223372036854775808" = some Int64.minValue ∧ literal? "-0b00101" = some (-5) ∧
      literal? "9223372036854775808" = none ∧ literal? "-0x-8" = none := by
  decide

end RegisterMachine
