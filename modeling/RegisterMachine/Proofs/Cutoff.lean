/-
  A step limit is only a cut-off.

  A run that comes to an end does so after some number of steps.  A limit that
  allows these steps leaves the outcome alone, and a smaller one cuts the run
  off.  A faulty step counts as a step, although nothing comes of it.

  * `Completes p n outcome`: if nothing cuts it off, the run of a program takes
    `n` steps and ends with registers or with a fault;
  * `completes_or_outlasts`: a program that does not complete outlasts any
    number of steps;
  * `Cutoff p t outcome`: what a program results in under each limit, where `t`
    is the least one that does not cut it off.  `exists_cutoff`: every program
    has one, at infinity if its run does not end.
-/
import RegisterMachine.Proofs.Iteration
import Mathlib.Data.ENat.Basic

namespace RegisterMachine.Program

open Machine

/-! ## Runs that come to an end -/

/-- The steps that the run of a program takes, and what it ends with. -/
inductive Completes (p : Program) : Nat → Except JumpFault Registers → Prop where
  | halts {n : Nat} {registers : Registers} : p.HaltsAfter n registers →
      Completes p n (.ok registers)
  | faults {n : Nat} {fault : JumpFault} : p.FaultsAfter n fault →
      Completes p (n + 1) (.error fault)

/-- Either a run ends, or any number of steps can be made in it. -/
theorem completes_or_outlasts (p : Program) :
    (∃ n outcome, p.Completes n outcome) ∨ ∀ n, p.Outlasts n := by
  by_cases hc : ∃ n outcome, p.Completes n outcome
  · exact Or.inl hc
  · refine Or.inr fun n => ?_
    rcases (boundedIteration p n).exists_case with ⟨_, _, -, h⟩ | ⟨_, _, -, h⟩ | h
    · exact absurd ⟨_, _, .halts h⟩ hc
    · exact absurd ⟨_, _, .faults h⟩ hc
    · exact h

namespace Completes

variable {p : Program} {n : Nat} {outcome : Except JumpFault Registers} (h : p.Completes n outcome)
include h

/-- A limit that allows all steps leaves the outcome alone. -/
theorem execute_of_le {limit : StepLimit} (hl : n ≤ p.budget limit) :
    p.execute limit = outcome.mapError .jumpOutOfRange := by
  rw [execute_eq_iff]
  cases h with
  | halts h => exact .ok hl h
  | faults h => exact .jumpOutOfRange hl h

/-- All the steps before the last can be made, and do not halt the machine. -/
theorem outlasts {k : Nat} (hk : k < n) : p.Outlasts k := by
  cases h with
  | halts h => exact ⟨h.1.mono hk.le, (h.1 k hk).1⟩
  | faults h =>
    obtain ⟨hr, hh, -⟩ := h
    rcases Nat.lt_succ_iff_lt_or_eq.1 hk with hk | rfl
    · exact ⟨hr.mono hk.le, (hr k hk).1⟩
    · exact ⟨hr, hh⟩

/-- The loop without a limit ends too, if the steps can be counted. -/
theorem loop_none (hn : n ≤ maxCount) :
    p.loop none (n + 1) = .ended (outcome.mapError .jumpOutOfRange) := by
  cases h with
  | halts h => exact loop_of_haltsAfter h (by simp) hn
  | @faults k fault h =>
    exact loop_mono (loop_of_faultsAfter h (by simp) hn) (by simp) (Nat.le_succ _)

end Completes

/-! ## Limits -/

/-- What a program results in under each limit: the outcome from `t` on, and an
    exceeded limit below. -/
structure Cutoff (p : Program) (t : ℕ∞) (outcome : Except JumpFault Registers) : Prop where
  /-- If `t` is finite, then it is the number of steps to the outcome. -/
  completes : ∀ n : Nat, t = n → p.Completes n outcome
  reached : ∀ l : Nat, t ≤ l → p.execute (some l) = outcome.mapError .jumpOutOfRange
  exceeded : ∀ l : Nat, l < t → p.execute (some l) = .error (.stepLimitExceeded l)
  /-- Without a limit the outcome is reached if the steps to it can be counted in
      64 bits. -/
  unlimited : t < 2 ^ 64 → p.execute none = outcome.mapError .jumpOutOfRange ∧
    ∃ n, p.loop none n = .ended (outcome.mapError .jumpOutOfRange)

theorem execute_of_outlasts {p : Program} {l : Nat} (h : p.Outlasts l) :
    p.execute (some l) = .error (.stepLimitExceeded l) :=
  execute_eq_stepLimitExceeded_iff.2 ⟨rfl, h⟩

theorem Completes.cutoff {p : Program} {n : Nat} {outcome : Except JumpFault Registers}
    (h : p.Completes n outcome) : p.Cutoff n outcome where
  completes k hk := Nat.cast_injective hk ▸ h
  reached l hl := h.execute_of_le (Nat.cast_le.1 hl)
  exceeded l hl := execute_of_outlasts (h.outlasts (Nat.cast_lt.1 hl))
  unlimited ht := by
    have hn : n < 2 ^ 64 := by exact_mod_cast ht
    have hcount : n ≤ maxCount := Nat.le_sub_one_of_lt hn
    have hstates : n ≤ p.stateCount := hcount.trans (maxCount_lt_stateCount p).le
    exact ⟨h.execute_of_le hstates, n + 1, h.loop_none hcount⟩

/-- Every limit cuts off a run without end. -/
theorem cutoff_top {p : Program} (h : ∀ n, p.Outlasts n)
    (outcome : Except JumpFault Registers) : p.Cutoff ⊤ outcome where
  completes n hn := absurd hn (ENat.top_ne_natCast n)
  reached l hl := absurd (top_le_iff.1 hl) (ENat.natCast_ne_top l)
  exceeded l _ := execute_of_outlasts (h l)
  unlimited ht := absurd ht not_top_lt

/-- **A step limit is only a cut-off.**  From some limit on, which may be
    infinite, a program has one outcome, also without any limit if the steps to
    it can be counted.  Every smaller limit is exceeded.  So two limits that are
    not exceeded give the same result. -/
theorem exists_cutoff (p : Program) :
    (∃ t outcome, p.Cutoff t outcome) ∧
      ∀ l l', (∀ k, p.execute (some l) ≠ .error (.stepLimitExceeded k)) →
        (∀ k, p.execute (some l') ≠ .error (.stepLimitExceeded k)) →
        p.execute (some l) = p.execute (some l') := by
  obtain ⟨t, outcome, h⟩ : ∃ t outcome, p.Cutoff t outcome := by
    rcases completes_or_outlasts p with ⟨n, outcome, h⟩ | h
    · exact ⟨n, outcome, h.cutoff⟩
    · exact ⟨⊤, .ok {}, cutoff_top h _⟩
  refine ⟨⟨t, outcome, h⟩, fun l l' hl hl' => ?_⟩
  have hreached : ∀ k, (∀ k', p.execute (some k) ≠ .error (.stepLimitExceeded k')) → t ≤ k :=
    fun k hk => not_lt.1 fun hlt => hk k (h.exceeded k hlt)
  rw [h.reached l (hreached l hl), h.reached l' (hreached l' hl')]

end RegisterMachine.Program
