/-
  Integers in decimal, written and read back.

  * `number?_toDigits`: the decimal digits of a number spell it;
  * `integer?_decimal`: the decimal text of an integer denotes it;
  * `literal?_text`: every word is the value of its own text, the least one too.
-/
import Mathlib.Tactic
import RegisterMachine.Literal

namespace RegisterMachine

namespace Text.Radix

theorem base_decimal : decimal.base = 10 := rfl

theorem digit?_decimal_of_isDigit {c : Char} (h : c.isDigit = true) :
    decimal.digit? c = some (c.toNat - '0'.toNat) := by
  have hle : c.toNat ≤ '9'.toNat := by
    simp only [Char.isDigit, Bool.and_eq_true, decide_eq_true_eq] at h
    exact h.2
  have hlt : c.toNat - '0'.toNat < 10 := by
    change c.toNat ≤ 57 at hle
    change c.toNat - 48 < 10
    omega
  rw [digit?, digitValue?, if_pos h, base_decimal, Option.filter_some, if_pos (by simpa using hlt)]

/-- Letters are digits in other radices only. -/
theorem digit?_decimal_of_not_isDigit {c : Char} (h : c.isDigit = false) :
    decimal.digit? c = none := by
  rw [digit?, base_decimal, Option.filter_eq_none_iff]
  intro d hd
  simp only [digitValue?, h, Bool.false_eq_true, if_false] at hd
  have hten : 10 ≤ d := by
    split_ifs at hd <;> (cases hd; omega)
  simpa using hten

/-- Reading digits is computing their value. -/
theorem extend?_decimal {digits : List Char} (h : ∀ c ∈ digits, c.isDigit = true) (n : Nat) :
    decimal.extend? n digits = some (Nat.ofDigitChars 10 digits n) := by
  induction digits generalizing n with
  | nil => rfl
  | cons c digits ih =>
    rw [extend?, digit?_decimal_of_isDigit (h c List.mem_cons_self), Option.bind_some,
      ih fun d hd => h d (List.mem_cons_of_mem c hd), Nat.ofDigitChars_cons, base_decimal]

theorem number?_toDigits (n : Nat) : decimal.number? (Nat.toDigits 10 n) = some n := by
  have hd : ∀ c ∈ Nat.toDigits 10 n, c.isDigit = true :=
    fun _ hc => Nat.isDigit_of_mem_toDigits (by decide) (by decide) hc
  rw [number?, if_neg Nat.toDigits_ne_nil, extend?_decimal hd,
    Nat.ofDigitChars_toDigits (by decide) (by decide)]

end Text.Radix

open Text Text.Radix

/-! ## The characters of a decimal text -/

theorem not_mem_toDigits {c : Char} (h : c.isDigit = false) (n : Nat) : c ∉ Nat.toDigits 10 n := by
  intro hm
  rw [Nat.isDigit_of_mem_toDigits (by decide) (by decide) hm] at h
  cases h

theorem toList_decimal (v : Int) :
    (Text.decimal v).toList = (if v < 0 then ['-'] else []) ++ Nat.toDigits 10 v.natAbs :=
  String.toList_ofList

theorem toList_decimal_ne_nil (v : Int) : (Text.decimal v).toList ≠ [] := by
  rw [toList_decimal]
  exact List.append_ne_nil_of_right_ne_nil _ Nat.toDigits_ne_nil

/-- A decimal text consists of digits and a minus sign. -/
theorem not_mem_decimal {c : Char} (hd : c.isDigit = false) (hm : c ≠ '-') (v : Int) :
    c ∉ (Text.decimal v).toList := by
  rw [toList_decimal, List.mem_append, not_or]
  refine ⟨?_, not_mem_toDigits hd _⟩
  split_ifs <;> simp [hm]

/-! ## Literals -/

/-- Digits that start with no mark of a radix are decimal. -/
theorem magnitude?_eq_number? {digits : List Char} (hx : 'x' ∉ digits) (hb : 'b' ∉ digits) :
    magnitude? digits = decimal.number? digits := by
  unfold magnitude?
  split
  · simp at hx
  · simp at hb
  · rfl

theorem magnitude?_toDigits (n : Nat) : magnitude? (Nat.toDigits 10 n) = some n := by
  rw [magnitude?_eq_number? (not_mem_toDigits rfl n) (not_mem_toDigits rfl n), number?_toDigits]

/-- Without a minus sign an integer is its magnitude. -/
theorem integer?_eq_magnitude? {digits : List Char} (h : '-' ∉ digits) :
    integer? digits = (magnitude? digits).map Int.ofNat := by
  unfold integer?
  split
  · simp at h
  · rfl

/-- An integer starts with a digit or a minus sign. -/
theorem integer?_cons_eq_none {c : Char} {rest : List Char} (hd : c.isDigit = false)
    (hm : c ≠ '-') : integer? (c :: rest) = none := by
  have hzero : c ≠ '0' := by
    rintro rfl
    simp at hd
  have hmagnitude : magnitude? (c :: rest) = none := by
    rw [magnitude?, number?, if_neg (List.cons_ne_nil c rest), extend?,
      digit?_decimal_of_not_isDigit hd, Option.bind_none]
    all_goals simp [hzero]
  rw [integer?, hmagnitude, Option.map_none]
  simp [hm]

theorem integer?_decimal (v : Int) : integer? (Text.decimal v).toList = some v := by
  rw [toList_decimal]
  split_ifs with h
  · rw [List.singleton_append, integer?, magnitude?_toDigits, Option.map_some]
    congr 1
    omega
  · rw [List.nil_append, integer?_eq_magnitude? (not_mem_toDigits rfl _), magnitude?_toDigits,
      Option.map_some]
    congr 1
    exact Int.natAbs_of_nonneg (not_lt.1 h)

theorem Word.ofInt?_toInt (w : Word) : Word.ofInt? w.toInt = some w := by
  have hmin : Int64.minValue.toInt ≤ w.toInt := w.le_toInt
  have hmax : w.toInt ≤ Int64.maxValue.toInt := Int.le_of_lt_add_one w.toInt_lt
  rw [Word.ofInt?, if_pos ⟨hmin, hmax⟩, Int64.ofInt_toInt]

/-- **A word is the value of its text.** -/
theorem literal?_text (w : Word) : literal? w.text = some w := by
  rw [literal?, Word.text, integer?_decimal, Option.bind_some, Word.ofInt?_toInt]

end RegisterMachine
