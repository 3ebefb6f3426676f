/-
  Runs that come back to a state.

  How many steps a machine has counted plays no part in what it does next.  So a
  run that meets a state again goes round for ever.

  * `SameState m m'`: two machines agree in all but the number of counted steps.
    `sameState_step`: then so they do after a step, and the step has the same
    fault, if it has one;
  * `Program.Recurs p a b`: the states of a program after `a` and after `b`
    successful steps are the same, and not halted.  `Recurs.exists_earlier`: all
    later states are among those before the second one;
  * `recurring_exceeds`: such a program exceeds every limit;
  * `outlasts_iff_recurs`: a run without end comes back to a state.  The states of
    a program are finite in number, and that number is its budget if there is no
    limit: `execute_none_eq_stepLimitExceeded_iff`.
-/
import RegisterMachine.Proofs.Agreement
import RegisterMachine.Proofs.Cutoff

namespace RegisterMachine

namespace Machine

variable {p : Program} {m m' : Machine}

/-! ## States -/

/-- Two machines differ at most in the number of steps that they have counted. -/
structure SameState (m m' : Machine) : Prop where
  pc : m.pc = m'.pc
  /-- The registers and the comparison value. -/
  bank : m.bank = m'.bank

namespace SameState

theorem refl (m : Machine) : SameState m m :=
  ⟨rfl, rfl⟩

theorem trans {last : Machine} (h : SameState m m') (hl : SameState m' last) : SameState m last :=
  ⟨h.pc.trans hl.pc, h.bank.trans hl.bank⟩

theorem isHalted_eq (h : SameState m m') : m.isHalted p = m'.isHalted p := by
  rw [isHalted, isHalted, h.pc]

end SameState

theorem sameState_iff_agreeOn : SameState m m' ↔ AgreeOn (fun _ => True) m m' := by
  constructor
  · rintro ⟨hpc, hbank⟩
    exact ⟨hpc, by rw [hbank], fun r _ => by rw [hbank]⟩
  · rintro ⟨hpc, hcomparison, hget⟩
    obtain ⟨pc, ⟨registers, comparison⟩, steps⟩ := m
    have hregisters : registers = m'.bank.registers := Registers.ext_get fun r => hget r trivial
    refine ⟨hpc, ?_⟩
    rw [hregisters, show comparison = m'.bank.comparison from hcomparison]

/-- **Machines in the same state do the same.** -/
theorem sameState_step (p : Program) (h : SameState m m') :
    SameState (m.step p).1 (m'.step p).1 ∧ (m.step p).2 = (m'.step p).2 := by
  have hall : p.ReadsOnly fun _ => True := fun _ _ _ _ => trivial
  obtain ⟨hagree, hfault, -⟩ := agreeOn_step hall (sameState_iff_agreeOn.1 h)
  exact ⟨sameState_iff_agreeOn.2 hagree, hfault⟩

theorem sameState_after (p : Program) (n : Nat) (h : SameState m m') :
    SameState (after p n m) (after p n m') := by
  induction n generalizing m m' with
  | zero => exact h
  | succ n ih => exact ih (sameState_step p h).1

theorem after_add (p : Program) (k n : Nat) (m : Machine) :
    after p (k + n) m = after p n (after p k m) := by
  induction k generalizing m with
  | zero => rw [Nat.zero_add, after]
  | succ k ih => rw [Nat.add_right_comm, after, ih, after]

theorem after_of_isHalted (h : m.isHalted p = true) (n : Nat) : after p n m = m := by
  induction n with
  | zero => rfl
  | succ n ih => rw [after_succ, ih, step_of_isHalted h]

end Machine

namespace Program

open Machine

variable {p : Program} {a b : Nat}

/-! ## A state that is met again -/

/-- A program meets one state twice, after different numbers of successful steps,
    and has not halted. -/
structure Recurs (p : Program) (a b : Nat) : Prop where
  lt : a < b
  succeeds : ∀ k < b, ((after p k {}).step p).2 = none
  running : (after p a {}).isHalted p = false
  sameState : SameState (after p a {}) (after p b {})

namespace Recurs

variable (h : p.Recurs a b)
include h

/-- A halted machine would still be halted at the second meeting. -/
theorem runs : Runs p b {} := by
  refine fun k hk => ⟨?_, h.succeeds k hk⟩
  by_contra hh
  rw [Bool.not_eq_false] at hh
  obtain ⟨n, rfl⟩ := Nat.exists_eq_add_of_le hk.le
  have hend : after p (k + n) {} = after p k {} := by rw [after_add, after_of_isHalted hh]
  have hrunning := h.running
  rw [h.sameState.isHalted_eq, hend, hh] at hrunning
  cases hrunning

/-- From the first meeting on, the states come again after as many steps. -/
theorem sameState_add (n : Nat) : SameState (after p (a + n) {}) (after p (b + n) {}) := by
  rw [after_add, after_add]
  exact sameState_after p n h.sameState

/-- **Every state is one of those before the second meeting.** -/
theorem exists_earlier (n : Nat) : ∃ k < b, SameState (after p k {}) (after p n {}) := by
  induction n using Nat.strong_induction_on with
  | _ n ih =>
    by_cases hn : n < b
    · exact ⟨n, hn, .refl _⟩
    · obtain ⟨d, rfl⟩ := Nat.exists_eq_add_of_le (Nat.le_of_not_lt hn)
      obtain ⟨k, hk, hsame⟩ := ih (a + d) (Nat.add_lt_add_right h.lt d)
      exact ⟨k, hk, hsame.trans (h.sameState_add d)⟩

/-- No step halts the machine, and none is faulty. -/
theorem goes_on (n : Nat) :
    (after p n {}).isHalted p = false ∧ ((after p n {}).step p).2 = none := by
  obtain ⟨k, hk, hsame⟩ := h.exists_earlier n
  obtain ⟨hh, hs⟩ := h.runs k hk
  rw [hsame.isHalted_eq] at hh
  rw [(sameState_step p hsame).2] at hs
  exact ⟨hh, hs⟩

theorem outlasts (n : Nat) : p.Outlasts n :=
  ⟨fun k _ => h.goes_on k, (h.goes_on n).1⟩

end Recurs

/-- **A repeated state means that there is no result**, whatever the limit.  If a
    program that has not halted meets a state again, then no step halts it or is
    faulty.  So it exceeds every limit, the least ones too, and without a limit
    its loop goes on for as long as its steps can be counted. -/
theorem recurring_exceeds (h : p.Recurs a b) :
    (∀ n, (after p n {}).isHalted p = false ∧ ((after p n {}).step p).2 = none) ∧
      (∀ l, p.execute (some l) = .error (.stepLimitExceeded l)) ∧
      (∀ l ≤ maxCount, p.loop (some l) (l + 1) = .ended (.error (.stepLimitExceeded l))) ∧
      ∀ n ≤ maxCount, p.loop none n = .running (after p n {}) := by
  refine ⟨h.goes_on, fun l => execute_of_outlasts (h.outlasts l),
    fun l hl => loop_of_outlasts (h.outlasts l) hl, fun n hn => ?_⟩
  exact loop_eq_running_iff.2 ⟨(h.outlasts n).1, by simp, hn, rfl⟩

/-- Counts to one, and then compares for ever. -/
def pondering : Program :=
  ⟨#[.data .inc .ax (.literal 1), .data .cmp .ax (.literal 3), .jump .notEqual 1], []⟩

/-- After the first step the registers stay as they are, but the comparison value
    makes one more round different. -/
theorem recurring_exceeds_pondering :
    (pondering.Recurs 2 4 ∧ ¬ SameState (after pondering 1 {}) (after pondering 3 {})) ∧
      pondering.execute (some 1) = .error (.stepLimitExceeded 1) ∧
      pondering.execute (some 3) = .error (.stepLimitExceeded 3) ∧
      pondering.execute (some 1000000) = .error (.stepLimitExceeded 1000000) := by
  have h : pondering.Recurs 2 4 := by
    refine ⟨by decide, ?_, by decide, by decide, by decide⟩
    intro k hk
    interval_cases k <;> decide
  obtain ⟨-, hlimits, -⟩ := recurring_exceeds h
  refine ⟨⟨h, fun hsame => ?_⟩, hlimits 1, hlimits 3, hlimits 1000000⟩
  have hbank := hsame.bank
  revert hbank
  decide

/-! ## The number of states -/

/-- A state as the place of the program counter and five words. -/
def stateKey (p : Program) (m : Machine) : Fin (p.size + 1) × (Fin 5 → Fin UInt64.size) :=
  (Fin.ofNat (p.size + 1) m.pc,
    ![m.bank.registers.ax.toUInt64.toFin, m.bank.registers.bx.toUInt64.toFin,
      m.bank.registers.cx.toUInt64.toFin, m.bank.registers.dx.toUInt64.toFin,
      m.bank.comparison.toUInt64.toFin])

theorem card_stateKey (p : Program) :
    Fintype.card (Fin (p.size + 1) × (Fin 5 → Fin UInt64.size)) = p.stateCount := by
  rw [Fintype.card_prod, Fintype.card_fun, Fintype.card_fin, Fintype.card_fin, Fintype.card_fin]
  rfl

/-- Within a program the key of a state is its own. -/
theorem sameState_of_stateKey {m m' : Machine} (hm : m.pc ≤ p.size) (hm' : m'.pc ≤ p.size)
    (h : p.stateKey m = p.stateKey m') : SameState m m' := by
  obtain ⟨pc, ⟨⟨ax, bx, cx, dx⟩, comparison⟩, steps⟩ := m
  obtain ⟨pc', ⟨⟨ax', bx', cx', dx'⟩, comparison'⟩, steps'⟩ := m'
  obtain ⟨hpc, hwords⟩ := Prod.ext_iff.1 h
  have hpc : pc = pc' := by
    have hmod : pc % (p.size + 1) = pc' % (p.size + 1) := congrArg Fin.val hpc
    rwa [Nat.mod_eq_of_lt (Nat.lt_succ_of_le hm), Nat.mod_eq_of_lt (Nat.lt_succ_of_le hm')] at hmod
  have hword : ∀ {w w' : Word}, w.toUInt64.toFin = w'.toUInt64.toFin → w = w' := by
    rintro ⟨w⟩ ⟨w'⟩ hw
    exact congrArg Int64.ofUInt64 (UInt64.eq_of_toFin_eq hw)
  cases hpc
  cases hword (congrFun hwords 0)
  cases hword (congrFun hwords 1)
  cases hword (congrFun hwords 2)
  cases hword (congrFun hwords 3)
  cases hword (congrFun hwords 4)
  exact ⟨rfl, rfl⟩

/-- **As many steps as there are states come back to one of them.** -/
theorem exists_recurs (h : p.Outlasts p.stateCount) : ∃ a b, p.Recurs a b := by
  have hcard : Fintype.card (Fin (p.size + 1) × (Fin 5 → Fin UInt64.size)) <
      Fintype.card (Fin (p.stateCount + 1)) := by
    rw [card_stateKey, Fintype.card_fin]
    exact Nat.lt_succ_self _
  obtain ⟨i, j, hne, hkey⟩ := Fintype.exists_ne_map_eq_of_card_lt
    (fun k : Fin (p.stateCount + 1) => p.stateKey (after p k {})) hcard
  -- whichever of the two is the earlier one
  wlog hij : i < j generalizing i j
  · exact this j i hne.symm hkey.symm (lt_of_le_of_ne (not_lt.1 hij) hne.symm)
  have hj : (j : Nat) ≤ p.stateCount := Nat.le_of_lt_succ j.isLt
  have hi : (i : Nat) < p.stateCount := lt_of_lt_of_le hij hj
  exact ⟨i, j, hij, fun k hk => (h.1 k (hk.trans_le hj)).2, (h.1 i hi).1,
    sameState_of_stateKey (pc_le_after p i) (pc_le_after p j) hkey⟩

/-- **A run has no end just if it comes back to a state.** -/
theorem outlasts_iff_recurs : (∀ n, p.Outlasts n) ↔ ∃ a b, p.Recurs a b :=
  ⟨fun h => exists_recurs (h p.stateCount), fun ⟨_, _, h⟩ => h.outlasts⟩

/-- Without a limit the budget is spent just by the runs that have no end. -/
theorem execute_none_eq_stepLimitExceeded_iff :
    (∃ l, p.execute none = .error (.stepLimitExceeded l)) ↔ ∀ n, p.Outlasts n := by
  constructor
  · rintro ⟨l, h⟩
    obtain ⟨a, b, hr⟩ := exists_recurs (execute_eq_stepLimitExceeded_iff.1 h).2
    exact hr.outlasts
  · intro h
    exact ⟨_, execute_eq_stepLimitExceeded_iff.2 ⟨rfl, h _⟩⟩

end Program

end RegisterMachine
