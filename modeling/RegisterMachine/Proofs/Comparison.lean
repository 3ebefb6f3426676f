/-
  What conditional jumps decide after a comparison.

  A `cmp` leaves the difference of two words, which may have wrapped, and nothing
  but another `cmp` changes it.

  * `Condition.Relates l r condition`: the relation of words that a condition
    names, and `Condition.IsOrder`: those that ask for an order;
  * `holds_sub_of_fits` and `holds_sub_of_not_fits`: an order is decided as named
    if the difference is a word, and the other way if it is not;
  * `Compares p m`: the next instruction is a `cmp`.  `comparison_after`: without
    one the comparison value stays as it is;
  * `Branches p m target taken`: the next step is a jump to a target, which is
    taken iff a proposition holds;
  * `branches_decided`: what the jumps decide until the next `cmp`.
-/
import RegisterMachine.Proofs.Stepping
import RegisterMachine.Proofs.Unbounded

namespace RegisterMachine

/-! ## Conditions on a difference -/

namespace Condition

/-- The relation of two words that a condition names. -/
def Relates (l r : Word) : Condition → Prop
  | always => True
  | equal => l = r
  | notEqual => l ≠ r
  | less => l.toInt < r.toInt
  | lessEqual => l.toInt ≤ r.toInt
  | greater => r.toInt < l.toInt
  | greaterEqual => r.toInt ≤ l.toInt

/-- The conditions that ask for an order. -/
def IsOrder : Condition → Prop
  | always | equal | notEqual => False
  | less | lessEqual | greater | greaterEqual => True

end Condition

section
variable {l r : Word} {condition : Condition}

theorem ofInt_toInt_sub_toInt (l r : Word) : Int64.ofInt (l.toInt - r.toInt) = l - r := by
  rw [Int64.ofInt_sub, Int64.ofInt_toInt, Int64.ofInt_toInt]

theorem sub_eq_zero_iff : l - r = 0 ↔ l = r := by
  constructor
  · intro h
    calc l = l - r + r := (Int64.sub_add_cancel l r).symm
      _ = r := by rw [h, Int64.zero_add]
  · rintro rfl
    exact Int64.sub_self l

/-- An exact difference decides each condition as named. -/
theorem holds_sub_of_fits (h : Fits (l.toInt - r.toInt)) :
    condition.holds (l - r) = true ↔ condition.Relates l r := by
  rw [← ofInt_toInt_sub_toInt, Condition.holds_ofInt h]
  cases condition with
  | always => simp [Condition.holdsIdeally, Condition.Relates]
  | equal | notEqual =>
    simp [Condition.holdsIdeally, Condition.Relates, sub_eq_zero, Int64.toInt_inj]
  | less | lessEqual | greater | greaterEqual =>
    simp only [Condition.holdsIdeally, Condition.Relates, decide_eq_true_eq]
    omega

theorem bmod_of_le {d : Int} (h : 2 ^ 63 ≤ d) (h' : d < 2 ^ 64) :
    d.bmod (2 ^ 64) = d - 2 ^ 64 := by
  rw [← Int.sub_bmod_right]
  exact Int.bmod_eq_of_le (by omega) (by omega)

theorem bmod_of_lt {d : Int} (h : d < -2 ^ 63) (h' : -2 ^ 64 ≤ d) :
    d.bmod (2 ^ 64) = d + 2 ^ 64 := by
  rw [← Int.add_bmod_right]
  exact Int.bmod_eq_of_le (by omega) (by omega)

/-- A difference that wraps has the wrong sign, and is not zero. -/
theorem toInt_sub_of_not_fits (h : ¬ Fits (l.toInt - r.toInt)) :
    (l - r).toInt < 0 ∧ r.toInt < l.toInt ∨ 0 < (l - r).toInt ∧ l.toInt < r.toInt := by
  have hl : -2 ^ 63 ≤ l.toInt ∧ l.toInt < 2 ^ 63 := ⟨l.le_toInt, l.toInt_lt⟩
  have hr : -2 ^ 63 ≤ r.toInt ∧ r.toInt < 2 ^ 63 := ⟨r.le_toInt, r.toInt_lt⟩
  rw [Int64.toInt_sub]
  -- the difference is too small or too great, and one turn brings it back
  by_cases hlt : l.toInt - r.toInt < -2 ^ 63
  · rw [bmod_of_lt hlt (by omega)]
    right
    omega
  · have hge : 2 ^ 63 ≤ l.toInt - r.toInt := by
      by_contra hn
      exact h ⟨by omega, by omega⟩
    rw [bmod_of_le hge (by omega)]
    left
    omega

/-- A difference that wraps decides each order the other way. -/
theorem holds_sub_of_not_fits (h : ¬ Fits (l.toInt - r.toInt)) (ho : condition.IsOrder) :
    condition.holds (l - r) = true ↔ ¬ condition.Relates l r := by
  have hs := toInt_sub_of_not_fits h
  have hz : (0 : Word).toInt = 0 := rfl
  cases condition with
  | always | equal | notEqual => exact absurd ho not_false
  | less | lessEqual | greater | greaterEqual =>
    simp only [Condition.holds, Condition.Relates, decide_eq_true_eq, Int64.lt_iff_toInt_lt,
      Int64.le_iff_toInt_le, hz]
    omega

end

namespace Machine

variable {p : Program} {m : Machine}

/-! ## The comparison value between comparisons -/

/-- The next instruction compares. -/
def Compares (p : Program) (m : Machine) : Prop :=
  ∃ lhs rhs, p.instructions[m.pc]? = some (.data .cmp lhs rhs)

theorem comparison_step (h : ¬ Compares p m) :
    (m.step p).1.bank.comparison = m.bank.comparison := by
  have hs := stepsTo_step p m
  generalize m.step p = outcome at hs
  cases hs with
  | @data op lhs rhs hi =>
    cases op with
    | mov | inc | dec => rfl
    | cmp => exact absurd ⟨lhs, rhs, hi⟩ h
  | halted | passed | taken | faulty => rfl

/-- **Only comparisons change the comparison value.** -/
theorem comparison_after {n : Nat} (h : ∀ k < n, ¬ Compares p (after p k m)) :
    (after p n m).bank.comparison = m.bank.comparison := by
  induction n with
  | zero => rfl
  | succ n ih =>
    rw [after_succ, comparison_step (h n n.lt_succ_self)]
    exact ih fun k hk => h k (hk.trans n.lt_succ_self)

/-! ## Decisions -/

/-- The next step is that of a jump to a target, which is taken iff a proposition
    holds.  A jump that is taken goes to its target, or has a fault if that is no
    place; one that is not taken goes on. -/
structure Branches (p : Program) (m : Machine) (target : Int) (taken : Prop) : Prop where
  goes : taken → 0 ≤ target ∧ target ≤ p.size →
    m.step p = ({ m with pc := target.toNat, steps := m.steps + 1 }, none)
  faults : taken → ¬ (0 ≤ target ∧ target ≤ p.size) →
    m.step p = ({ m with steps := m.steps + 1 }, some ⟨m.pc, target, p.size⟩)
  passes : ¬ taken → m.step p = ({ m with pc := m.pc + 1, steps := m.steps + 1 }, none)

theorem branches_of_holds {condition : Condition} {target : Int} {taken : Prop}
    (hi : p.instructions[m.pc]? = some (.jump condition target))
    (h : condition.holds m.bank.comparison = true ↔ taken) : Branches p m target taken where
  goes ht hin := by
    obtain ⟨index, rfl⟩ := Int.eq_ofNat_of_zero_le hin.1
    exact stepsTo_iff.1 (.taken hi (h.2 ht) (by omega))
  faults ht hout := stepsTo_iff.1 (.faulty hi (h.2 ht) hout)
  passes ht := stepsTo_iff.1 (.passed hi (Bool.eq_false_iff.2 (mt h.1 ht)))

/-- What the next instruction decides, if it is a conditional jump, when `l` has
    been compared with `r`. -/
structure Decides (p : Program) (m : Machine) (l r : Word) : Prop where
  equal : ∀ target, p.instructions[m.pc]? = some (.jump .equal target) →
    Branches p m target (l = r)
  notEqual : ∀ target, p.instructions[m.pc]? = some (.jump .notEqual target) →
    Branches p m target (l ≠ r)
  /-- If the difference is a word, an order is decided as it is. -/
  order : ∀ condition target, condition.IsOrder →
    p.instructions[m.pc]? = some (.jump condition target) →
    Fits (l.toInt - r.toInt) → Branches p m target (condition.Relates l r)
  /-- If the difference overflows, it is decided the other way. -/
  overflow : ∀ condition target, condition.IsOrder →
    p.instructions[m.pc]? = some (.jump condition target) →
    ¬ Fits (l.toInt - r.toInt) → Branches p m target (¬ condition.Relates l r)

theorem decides_of_comparison {l r : Word} (h : m.bank.comparison = l - r) : Decides p m l r where
  equal target hi := by
    refine branches_of_holds hi ?_
    rw [h, ← sub_eq_zero_iff]
    simp [Condition.holds]
  notEqual target hi := by
    refine branches_of_holds hi ?_
    rw [h, ne_eq, ← sub_eq_zero_iff]
    simp [Condition.holds]
  order condition target _ hi hf := by
    refine branches_of_holds hi ?_
    rw [h, holds_sub_of_fits hf]
  overflow condition target ho hi hf := by
    refine branches_of_holds hi ?_
    rw [h, holds_sub_of_not_fits hf ho]

theorem comparison_step_cmp {lhs : Register} {rhs : Operand}
    (h : p.instructions[m.pc]? = some (.data .cmp lhs rhs)) :
    (m.step p).1.bank.comparison = m.bank.get lhs - m.bank.value rhs := by
  rw [stepsTo_iff.1 (.data h)]
  rfl

/-- **What conditional jumps decide after a comparison.**  From a `cmp` of two
    words until the next one, and whatever the steps between, jumps for equality
    decide whether the words are equal.  The other conditional jumps decide the
    order of the words if their difference is a word, and the contrary if it is
    not.  Before the first `cmp` of a run they decide as for two equal words. -/
theorem branches_decided (p : Program) :
    (∀ (m : Machine) lhs rhs n, p.instructions[m.pc]? = some (.data .cmp lhs rhs) →
      (∀ k < n, ¬ Compares p (after p (k + 1) m)) →
        Decides p (after p (n + 1) m) (m.bank.get lhs) (m.bank.value rhs)) ∧
      ∀ n, (∀ k < n, ¬ Compares p (after p k {})) → ∀ v, Decides p (after p n {}) v v := by
  constructor
  · intro m lhs rhs n hi hn
    refine decides_of_comparison ?_
    have hframe : (after p n (m.step p).1).bank.comparison = (m.step p).1.bank.comparison :=
      comparison_after hn
    exact hframe.trans (comparison_step_cmp hi)
  · intro n hn v
    refine decides_of_comparison ?_
    rw [comparison_after hn, sub_eq_zero_iff.2 rfl]

/-- Compares the least word with one, and has a jump before and a jump after it. -/
def leastCompared : Program :=
  ⟨#[.data .mov .ax (.literal Int64.minValue), .jump .greater 0, .data .cmp .ax (.literal 1),
    .data .mov .ax (.literal 7), .jump .greaterEqual 0], []⟩

/-- The least word is not greater than one, but the difference says so. -/
theorem branches_decided_leastCompared :
    (Decides leastCompared (after leastCompared 4 {}) Int64.minValue 1 ∧
      Branches leastCompared (after leastCompared 4 {}) 0 (¬ (1 : Int) ≤ Int64.minValue.toInt) ∧
      (after leastCompared 5 {}).pc = 0) ∧
    Decides leastCompared (after leastCompared 1 {}) 5 5 ∧
      Branches leastCompared (after leastCompared 1 {}) 0 ((5 : Int) < 5) ∧
      (after leastCompared 2 {}).pc = 2 := by
  have hi : leastCompared.instructions[(after leastCompared 2 {}).pc]? =
      some (.data .cmp .ax (.literal 1)) := by decide
  have hn : ∀ k < 1, ¬ Compares leastCompared
      (after leastCompared (k + 1) (after leastCompared 2 {})) := by
    intro k hk
    interval_cases k
    rintro ⟨lhs, rhs, h⟩
    cases h
  have hn' : ∀ k < 1, ¬ Compares leastCompared (after leastCompared k {}) := by
    intro k hk
    interval_cases k
    rintro ⟨lhs, rhs, h⟩
    cases h
  have hd := (branches_decided leastCompared).1 (after leastCompared 2 {}) .ax (.literal 1) 1 hi hn
  have hd' := (branches_decided leastCompared).2 1 hn' 5
  exact ⟨⟨hd, hd.overflow .greaterEqual 0 trivial (by decide) (by decide), by decide⟩, hd',
    hd'.order .greater 0 trivial (by decide) (by decide), by decide⟩

end Machine

end RegisterMachine
