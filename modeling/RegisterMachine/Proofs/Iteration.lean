/-
  A run is bounded iteration of the step function.

  * `step?_eq_some_iff`, `step?_eq_none_iff`: a step in 64 bits is a step, where
    the count does not overflow;
  * `Machine.Runs p n m`: `n` steps can be made, none of them faulty or from a
    halted machine;
  * `Ends p budget m last`: the three ways in which a run stops, in terms of the
    number of steps before.  `run_eq_iff`: `Machine.run` stops as it says;
  * `Program.loop`: the run as a loop that tests for the halt, then for the
    limit, and counts its steps in 64 bits;
  * `execute_iterates`: which result a program has under which limit.  The
    loop has the same one, and its counter does not overflow.
-/
import RegisterMachine.Execution
import Mathlib.Tactic

namespace RegisterMachine

namespace Machine

variable {p : Program} {m : Machine} {n : Nat}

/-! ## Steps and their count -/

theorem execute_steps (p : Program) (m : Machine) (i : Instruction) :
    (m.execute p i).1.steps = m.steps := by
  cases i with
  | data => rfl
  | jump condition target =>
    simp only [execute, jumpTo]
    split_ifs <;> rfl

/-- A step of a machine that has not halted is counted, also a faulty one. -/
theorem step_steps (h : m.isHalted p = false) : (m.step p).1.steps = m.steps + 1 := by
  have hlt : m.pc < p.instructions.size := Nat.lt_of_not_le (of_decide_eq_false h)
  unfold step
  rw [Array.getElem?_eq_getElem hlt]
  exact execute_steps p _ _

theorem isHalted_iff_getElem? : m.isHalted p = true ↔ p.instructions[m.pc]? = none := by
  rw [isHalted, decide_eq_true_eq, Array.getElem?_eq_none_iff, Program.size]

theorem step_of_isHalted (h : m.isHalted p = true) : m.step p = (m, none) := by
  rw [step, isHalted_iff_getElem?.1 h]

/-- A step in 64 bits is a step, as long as it can be counted.  That of a halted
    machine need not be. -/
theorem step?_eq_ite (p : Program) (m : Machine) :
    m.step? p = if m.isHalted p = true ∨ m.steps < maxCount then some (m.step p) else none := by
  unfold step? step
  cases hi : p.instructions[m.pc]? with
  | none => rw [if_pos (Or.inl (isHalted_iff_getElem?.2 hi))]
  | some i =>
    have hh : ¬ m.isHalted p = true := by simp [isHalted_iff_getElem?, hi]
    by_cases hc : m.steps < maxCount <;> simp [count?, hh, hc]

theorem step?_eq_some_iff {outcome : Machine × Option JumpFault} :
    m.step? p = some outcome ↔
      (m.isHalted p = true ∨ m.steps < maxCount) ∧ m.step p = outcome := by
  rw [step?_eq_ite, Option.ite_none_right_eq_some, Option.some_inj]

theorem step?_eq_none_iff : m.step? p = none ↔ m.isHalted p = false ∧ maxCount ≤ m.steps := by
  simp [step?_eq_ite]

theorem step?_of_isHalted (h : m.isHalted p = true) : m.step? p = some (m, none) :=
  step?_eq_some_iff.2 ⟨Or.inl h, step_of_isHalted h⟩

theorem step?_of_lt (h : m.steps < maxCount) : m.step? p = some (m.step p) :=
  step?_eq_some_iff.2 ⟨Or.inr h, rfl⟩

/-! ## Sequences of steps -/

theorem after_succ (p : Program) (n : Nat) (m : Machine) :
    after p (n + 1) m = ((after p n m).step p).1 := by
  induction n generalizing m with
  | zero => rfl
  | succ n ih => exact ih _

/-- Some number of steps can be made: none is faulty, and none starts from a
    halted machine. -/
def Runs (p : Program) (n : Nat) (m : Machine) : Prop :=
  ∀ k < n, (after p k m).isHalted p = false ∧ ((after p k m).step p).2 = none

theorem Runs.mono {k : Nat} (h : Runs p n m) (hk : k ≤ n) : Runs p k m :=
  fun j hj => h j (hj.trans_le hk)

theorem runs_zero (p : Program) (m : Machine) : Runs p 0 m :=
  fun _ hk => absurd hk (Nat.not_lt_zero _)

theorem runs_succ (h : m.isHalted p = false) (hs : (m.step p).2 = none)
    (hr : Runs p n (m.step p).1) : Runs p (n + 1) m := by
  intro k hk
  cases k with
  | zero => exact ⟨h, hs⟩
  | succ k => exact hr k (Nat.lt_of_succ_lt_succ hk)

theorem Runs.tail (h : Runs p (n + 1) m) : Runs p n (m.step p).1 :=
  fun k hk => h (k + 1) (Nat.succ_lt_succ hk)

/-- The counter of a machine counts the steps that are made. -/
theorem Runs.steps (h : Runs p n m) : (after p n m).steps = m.steps + n := by
  induction n with
  | zero => rfl
  | succ n ih =>
    rw [after_succ, step_steps (h n n.lt_succ_self).1, ih (h.mono n.le_succ), Nat.add_assoc]

theorem Runs.steps_fresh (h : Runs p n {}) : (after p n {}).steps = n := by
  rw [h.steps, Nat.zero_add]

/-! ## Runs under a budget -/

/-- How a run stops: it halts within the budget, it meets a faulty step that the
    budget allows, or it spends the budget. -/
inductive Ends (p : Program) (budget : Nat) (m : Machine) : Machine × Stop → Prop where
  | halted (n : Nat) : n ≤ budget → Runs p n m → (after p n m).isHalted p = true →
      Ends p budget m (after p n m, .halted)
  | faulted (n : Nat) (fault : JumpFault) : n < budget → Runs p n m →
      (after p n m).isHalted p = false → ((after p n m).step p).2 = some fault →
      Ends p budget m (after p (n + 1) m, .faulted fault)
  | spent : Runs p budget m → (after p budget m).isHalted p = false →
      Ends p budget m (after p budget m, .spent)

/-- A step before a run that stops somehow. -/
theorem Ends.cons {budget : Nat} {last : Machine × Stop} (h : m.isHalted p = false)
    (hs : (m.step p).2 = none) (he : Ends p budget (m.step p).1 last) :
    Ends p (budget + 1) m last := by
  cases he with
  | halted n hn hr hh => exact .halted (n + 1) (Nat.succ_le_succ hn) (runs_succ h hs hr) hh
  | faulted n fault hn hr hh hf =>
    exact .faulted (n + 1) fault (Nat.succ_lt_succ hn) (runs_succ h hs hr) hh hf
  | spent hr hh => exact .spent (runs_succ h hs hr) hh

theorem run_succ (h : m.isHalted p = false) (hs : (m.step p).2 = none) (budget : Nat) :
    run p (budget + 1) m = run p budget (m.step p).1 := by
  obtain ⟨next, hn⟩ : ∃ next, m.step p = (next, none) := ⟨_, Prod.ext rfl hs⟩
  simp [run, h, hn]

theorem ends_run (p : Program) (budget : Nat) (m : Machine) :
    Ends p budget m (run p budget m) := by
  induction budget generalizing m with
  | zero =>
    unfold run
    split_ifs with h
    · exact .halted 0 le_rfl (runs_zero p m) h
    · exact .spent (runs_zero p m) (Bool.eq_false_iff.2 h)
  | succ budget ih =>
    by_cases h : m.isHalted p = true
    · rw [run, if_pos h]
      exact .halted 0 (Nat.zero_le _) (runs_zero p m) h
    · rw [Bool.not_eq_true] at h
      cases hs : (m.step p).2 with
      | none =>
        rw [run_succ h hs]
        exact (ih _).cons h hs
      | some fault =>
        have hp : m.step p = ((m.step p).1, some fault) := Prod.ext rfl hs
        have hrun : run p (budget + 1) m = (after p 1 m, .faulted fault) := by
          rw [run, h, hp]
          simp [after]
        rw [hrun]
        exact .faulted 0 fault (Nat.succ_pos _) (runs_zero p m) h hs

/-- The steps that can be made are made first. -/
theorem Runs.run_add (h : Runs p n m) (budget : Nat) :
    run p (n + budget) m = run p budget (after p n m) := by
  induction n generalizing m with
  | zero => rw [Nat.zero_add, after]
  | succ n ih =>
    obtain ⟨hh, hs⟩ : m.isHalted p = false ∧ (m.step p).2 = none := h 0 n.succ_pos
    rw [Nat.add_right_comm, run_succ hh hs, ih h.tail, after]

theorem run_of_isHalted (h : m.isHalted p = true) (budget : Nat) :
    run p budget m = (m, .halted) := by
  cases budget <;> simp [run, h]

/-- **A run stops as iteration says**, and in no other way. -/
theorem run_eq_iff {budget : Nat} {last : Machine × Stop} :
    run p budget m = last ↔ Ends p budget m last := by
  constructor
  · rintro rfl
    exact ends_run p budget m
  · intro h
    cases h with
    | halted n hn hr hh =>
      obtain ⟨rest, rfl⟩ := Nat.exists_eq_add_of_le hn
      rw [hr.run_add, run_of_isHalted hh]
    | faulted n fault hn hr hh hf =>
      obtain ⟨rest, rfl⟩ := Nat.exists_eq_add_of_lt hn
      have hp : (after p n m).step p = (after p (n + 1) m, some fault) :=
        Prod.ext (after_succ p n m).symm hf
      rw [Nat.add_assoc, hr.run_add, run, hh, hp]
      rfl
    | spent hr hh =>
      rw [← Nat.add_zero budget, hr.run_add, run, hh, Nat.add_zero]
      rfl

end Machine

/-! ## Runs of a program -/

namespace Program

open Machine

/-- The machine halts with some registers once a number of steps is made. -/
def HaltsAfter (p : Program) (n : Nat) (registers : Registers) : Prop :=
  Runs p n {} ∧ (after p n {}).isHalted p = true ∧ (after p n {}).bank.registers = registers

/-- The step after a number of steps is faulty. -/
def FaultsAfter (p : Program) (n : Nat) (fault : JumpFault) : Prop :=
  Runs p n {} ∧ (after p n {}).isHalted p = false ∧ ((after p n {}).step p).2 = some fault

/-- A number of steps can be made, and the machine has not halted then. -/
def Outlasts (p : Program) (n : Nat) : Prop :=
  Runs p n {} ∧ (after p n {}).isHalted p = false

/-- The result of a program whose steps are as above. -/
inductive Yields (p : Program) (budget : Nat) : Except ExecutionError Registers → Prop where
  | ok {n : Nat} {registers : Registers} : n ≤ budget → p.HaltsAfter n registers →
      Yields p budget (.ok registers)
  | jumpOutOfRange {n : Nat} {fault : JumpFault} : n < budget → p.FaultsAfter n fault →
      Yields p budget (.error (.jumpOutOfRange fault))
  | stepLimitExceeded : p.Outlasts budget → Yields p budget (.error (.stepLimitExceeded budget))

variable {p : Program} {limit : StepLimit}

theorem yields_execute (p : Program) (limit : StepLimit) :
    p.Yields (p.budget limit) (p.execute limit) := by
  have he : Ends p (p.budget limit) {} (p.finish limit) := ends_run p _ _
  unfold execute
  generalize p.finish limit = last at he
  cases he with
  | halted n hn hr hh => exact .ok hn ⟨hr, hh, rfl⟩
  | faulted n fault hn hr hh hf => exact .jumpOutOfRange hn ⟨hr, hh, hf⟩
  | spent hr hh => exact .stepLimitExceeded ⟨hr, hh⟩

theorem execute_eq_iff {result : Except ExecutionError Registers} :
    p.execute limit = result ↔ p.Yields (p.budget limit) result := by
  constructor
  · rintro rfl
    exact yields_execute p limit
  · intro h
    unfold execute finish
    cases h with
    | ok hn h =>
      obtain ⟨hr, hh, rfl⟩ := h
      rw [run_eq_iff.2 (.halted _ hn hr hh)]
      rfl
    | jumpOutOfRange hn h =>
      obtain ⟨hr, hh, hf⟩ := h
      rw [run_eq_iff.2 (.faulted _ _ hn hr hh hf)]
      rfl
    | stepLimitExceeded h =>
      obtain ⟨hr, hh⟩ := h
      rw [run_eq_iff.2 (.spent hr hh)]
      rfl

theorem Yields.unique {budget : Nat} {result result' : Except ExecutionError Registers}
    (h : p.Yields budget result) (h' : p.Yields budget result') : result = result' := by
  have he : p.execute (some budget) = result := execute_eq_iff.2 h
  exact he.symm.trans (execute_eq_iff.2 h')

theorem execute_eq_ok_iff {registers : Registers} :
    p.execute limit = .ok registers ↔ ∃ n ≤ p.budget limit, p.HaltsAfter n registers := by
  rw [execute_eq_iff]
  constructor
  · intro h
    cases h with
    | ok hn h => exact ⟨_, hn, h⟩
  · rintro ⟨n, hn, h⟩
    exact .ok hn h

theorem execute_eq_jumpOutOfRange_iff {fault : JumpFault} :
    p.execute limit = .error (.jumpOutOfRange fault) ↔
      ∃ n < p.budget limit, p.FaultsAfter n fault := by
  rw [execute_eq_iff]
  constructor
  · intro h
    cases h with
    | jumpOutOfRange hn h => exact ⟨_, hn, h⟩
  · rintro ⟨n, hn, h⟩
    exact .jumpOutOfRange hn h

theorem execute_eq_stepLimitExceeded_iff {l : Nat} :
    p.execute limit = .error (.stepLimitExceeded l) ↔
      l = p.budget limit ∧ p.Outlasts (p.budget limit) := by
  rw [execute_eq_iff]
  constructor
  · intro h
    cases h with
    | stepLimitExceeded h => exact ⟨rfl, h⟩
  · rintro ⟨rfl, h⟩
    exact .stepLimitExceeded h

/-! ## The loop -/

/-- Where the loop stands after some rounds.  It overflows with the count of its
    machine. -/
inductive Loop where
  | running (m : Machine)
  | ended (result : Except ExecutionError Registers)
  | overflowed

/-- One round of the loop: the halt test, then the limit, then a step. -/
def round (p : Program) (limit : StepLimit) (m : Machine) : Loop :=
  if m.isHalted p then .ended (.ok m.bank.registers)
  else match limit.filter (· ≤ m.steps) with
    | some l => .ended (.error (.stepLimitExceeded l))
    | none =>
      match m.step? p with
      | none => .overflowed
      | some (next, none) => .running next
      | some (_, some fault) => .ended (.error (.jumpOutOfRange fault))

/-- The loop on a fresh machine, after a number of rounds. -/
def loop (p : Program) (limit : StepLimit) : Nat → Loop
  | 0 => .running {}
  | n + 1 =>
    match loop p limit n with
    | .running m => p.round limit m
    | done => done

/-- No step is made at the limit or beyond. -/
theorem filter_limit_eq_none_iff {n : Nat} :
    limit.filter (· ≤ n) = none ↔ ∀ l ∈ limit, n < l := by
  simp [Option.filter_eq_none_iff]

theorem round_eq_running_iff {m next : Machine} :
    p.round limit m = .running next ↔
      m.isHalted p = false ∧ (∀ l ∈ limit, m.steps < l) ∧ m.steps < maxCount ∧
        m.step p = (next, none) := by
  rw [← filter_limit_eq_none_iff]
  unfold round
  cases hh : m.isHalted p with
  | true => simp
  | false =>
    cases hl : limit.filter (· ≤ m.steps) with
    | some l => simp
    | none =>
      by_cases hc : m.steps < maxCount
      · rw [step?_of_lt hc]
        rcases m.step p with ⟨next', _ | fault⟩ <;> simp [hc]
      · rw [step?_eq_none_iff.2 ⟨hh, Nat.le_of_not_lt hc⟩]
        simp [hc]

/-- **The loop runs on through the steps that can be made**, up to the limit and
    as far as they can be counted. -/
theorem loop_eq_running_iff {n : Nat} {m : Machine} :
    p.loop limit n = .running m ↔
      Runs p n {} ∧ (∀ l ∈ limit, n ≤ l) ∧ n ≤ maxCount ∧ m = after p n {} := by
  induction n generalizing m with
  | zero =>
    constructor
    · rintro ⟨⟩
      exact ⟨runs_zero p {}, fun l _ => Nat.zero_le l, Nat.zero_le _, rfl⟩
    · rintro ⟨-, -, -, rfl⟩
      rfl
  | succ n ih =>
    have hlast : p.loop limit (n + 1) = .running m ↔
        ∃ m', p.loop limit n = .running m' ∧ p.round limit m' = .running m := by
      rw [loop]
      cases p.loop limit n <;> simp
    rw [hlast]
    constructor
    · rintro ⟨m', hm, hr⟩
      obtain ⟨hruns, hl, hc, rfl⟩ := ih.1 hm
      obtain ⟨hh, hlt, hlc, hs⟩ := round_eq_running_iff.1 hr
      rw [hruns.steps_fresh] at hlt hlc
      refine ⟨fun k hk => ?_, hlt, hlc, ?_⟩
      · rcases Nat.lt_succ_iff_lt_or_eq.1 hk with hk | rfl
        · exact hruns k hk
        · exact ⟨hh, congrArg Prod.snd hs⟩
      · rw [after_succ, hs]
    · rintro ⟨hruns, hl, hc, rfl⟩
      have hr := hruns.mono n.le_succ
      obtain ⟨hh, hs⟩ := hruns n n.lt_succ_self
      refine ⟨_, ih.2 ⟨hr, fun l hm => Nat.le_of_lt (hl l hm), Nat.le_of_lt hc, rfl⟩, ?_⟩
      rw [round_eq_running_iff, hr.steps_fresh, after_succ]
      exact ⟨hh, hl, hc, Prod.ext rfl hs⟩

/-- A loop that does not run any more stays as it is. -/
theorem loop_mono {n k : Nat} {done : Loop} (h : p.loop limit n = done)
    (hd : ∀ m, done ≠ .running m) (hk : n ≤ k) : p.loop limit k = done := by
  induction hk with
  | refl => exact h
  | step _ ih =>
    rw [loop, ih]
    cases done with
    | running m => exact absurd rfl (hd m)
    | ended | overflowed => rfl

section
variable {n : Nat}

theorem loop_succ_of_runs (hr : Runs p n {}) (hl : ∀ l ∈ limit, n ≤ l) (hc : n ≤ maxCount) :
    p.loop limit (n + 1) = p.round limit (after p n {}) := by
  rw [loop, loop_eq_running_iff.2 ⟨hr, hl, hc, rfl⟩]

theorem loop_of_haltsAfter {registers : Registers} (h : p.HaltsAfter n registers)
    (hl : ∀ l ∈ limit, n ≤ l) (hc : n ≤ maxCount) :
    p.loop limit (n + 1) = .ended (.ok registers) := by
  obtain ⟨hr, hh, rfl⟩ := h
  rw [loop_succ_of_runs hr hl hc, round, if_pos hh]

theorem loop_of_faultsAfter {fault : JumpFault} (h : p.FaultsAfter n fault)
    (hl : ∀ l ∈ limit, n < l) (hc : n < maxCount) :
    p.loop limit (n + 1) = .ended (.error (.jumpOutOfRange fault)) := by
  obtain ⟨hr, hh, hf⟩ := h
  have hs : (after p n {}).step? p = some (((after p n {}).step p).1, some fault) :=
    step?_eq_some_iff.2 ⟨Or.inr (by rwa [hr.steps_fresh]), Prod.ext rfl hf⟩
  rw [loop_succ_of_runs hr (fun l hm => Nat.le_of_lt (hl l hm)) (Nat.le_of_lt hc), round,
    hr.steps_fresh, filter_limit_eq_none_iff.2 hl, hs]
  simp [hh]

theorem loop_of_outlasts (h : p.Outlasts n) (hc : n ≤ maxCount) :
    p.loop (some n) (n + 1) = .ended (.error (.stepLimitExceeded n)) := by
  obtain ⟨hr, hh⟩ := h
  have hl : (some n).filter (· ≤ n) = some n := by simp [Option.filter]
  rw [loop_succ_of_runs hr (by simp) hc, round, hr.steps_fresh, hl]
  simp [hh]

/-- The loop ends with the result of the program. -/
theorem loop_eq_ended (p : Program) (hc : n ≤ maxCount) :
    p.loop (some n) (n + 1) = .ended (p.execute (some n)) := by
  have hy : p.Yields n (p.execute (some n)) := yields_execute p (some n)
  generalize p.execute (some n) = result at hy
  cases hy with
  | @ok k registers hk h =>
    exact loop_mono (loop_of_haltsAfter h (by simpa using hk) (hk.trans hc)) (by simp)
      (Nat.succ_le_succ hk)
  | @jumpOutOfRange k fault hk h =>
    exact loop_mono (loop_of_faultsAfter h (by simpa using hk) (hk.trans_le hc)) (by simp)
      (Nat.succ_le_succ (Nat.le_of_lt hk))
  | stepLimitExceeded h => exact loop_of_outlasts h hc

theorem loop_ne_overflowed (p : Program) (hc : n ≤ maxCount) (k : Nat) :
    p.loop (some n) k ≠ .overflowed := by
  intro h
  have h1 := loop_mono h (by simp) (Nat.le_max_left k (n + 1))
  have h2 := loop_mono (loop_eq_ended p hc) (by simp) (Nat.le_max_right k (n + 1))
  cases h1.symm.trans h2

theorem maxCount_lt_stateCount (p : Program) : maxCount < p.stateCount := by
  have h : maxCount < Nat.pow UInt64.size 5 := by decide
  exact h.trans_le (Nat.le_mul_of_pos_left _ p.size.succ_pos)

end

/-! ## Results under limits -/

/-- What bounded iteration says about the result under a limit: one of three
    cases holds, only that one, and the result is its own. -/
structure BoundedIteration (p : Program) (l : Nat) : Prop where
  ok : ∀ registers, p.execute (some l) = .ok registers ↔ ∃ n ≤ l, p.HaltsAfter n registers
  jumpOutOfRange : ∀ fault, p.execute (some l) = .error (.jumpOutOfRange fault) ↔
    ∃ n < l, p.FaultsAfter n fault
  stepLimitExceeded : ∀ l', p.execute (some l) = .error (.stepLimitExceeded l') ↔
    l' = l ∧ p.Outlasts l
  exists_case : (∃ registers, ∃ n ≤ l, p.HaltsAfter n registers) ∨
    (∃ fault, ∃ n < l, p.FaultsAfter n fault) ∨ p.Outlasts l
  halts_or_faults : ∀ registers fault, ∀ n ≤ l, ∀ k < l,
    ¬ (p.HaltsAfter n registers ∧ p.FaultsAfter k fault)
  halts_or_outlasts : ∀ registers, ∀ n ≤ l, ¬ (p.HaltsAfter n registers ∧ p.Outlasts l)
  faults_or_outlasts : ∀ fault, ∀ n < l, ¬ (p.FaultsAfter n fault ∧ p.Outlasts l)

theorem boundedIteration (p : Program) (l : Nat) : p.BoundedIteration l where
  ok _ := execute_eq_ok_iff
  jumpOutOfRange _ := execute_eq_jumpOutOfRange_iff
  stepLimitExceeded _ := execute_eq_stepLimitExceeded_iff
  exists_case := by
    have hy : p.Yields l (p.execute (some l)) := yields_execute p (some l)
    generalize p.execute (some l) = result at hy
    cases hy with
    | ok hn h => exact Or.inl ⟨_, _, hn, h⟩
    | jumpOutOfRange hn h => exact Or.inr (Or.inl ⟨_, _, hn, h⟩)
    | stepLimitExceeded h => exact Or.inr (Or.inr h)
  halts_or_faults := by
    rintro registers fault n hn k hk ⟨hh, hf⟩
    cases Yields.unique (.ok hn hh) (.jumpOutOfRange hk hf)
  halts_or_outlasts := by
    rintro registers n hn ⟨hh, ho⟩
    cases Yields.unique (.ok hn hh) (.stepLimitExceeded ho)
  faults_or_outlasts := by
    rintro fault n hn ⟨hf, ho⟩
    cases Yields.unique (.jumpOutOfRange hn hf) (.stepLimitExceeded ho)

/-- **A run is bounded iteration of the step function.**  Under a limit its
    result is the one of bounded iteration.  With a limit of 64 bits the loop
    ends with it after at most one round more than the limit, and the counter
    never exceeds the limit.  Without a limit, a halt or a fault that can be
    counted in 64 bits is the result. -/
theorem execute_iterates (p : Program) :
    (∀ l, p.BoundedIteration l) ∧
      (∀ l ≤ maxCount, p.loop (some l) (l + 1) = .ended (p.execute (some l)) ∧
        ∀ k, p.loop (some l) k ≠ .overflowed ∧
          ∀ m, p.loop (some l) k = .running m → m = after p k {} ∧ m.steps = k ∧ k ≤ l) ∧
      (∀ n < maxCount, ∀ registers, p.HaltsAfter n registers →
        p.execute none = .ok registers ∧ p.loop none (n + 1) = .ended (.ok registers)) ∧
      ∀ n < maxCount, ∀ fault, p.FaultsAfter n fault →
        p.execute none = .error (.jumpOutOfRange fault) ∧
          p.loop none (n + 1) = .ended (.error (.jumpOutOfRange fault)) := by
  refine ⟨boundedIteration p,
    fun l hl => ⟨loop_eq_ended p hl, fun k => ⟨loop_ne_overflowed p hl k, fun m hm => ?_⟩⟩,
    fun n hn registers h => ⟨?_, ?_⟩, fun n hn fault h => ⟨?_, ?_⟩⟩
  · obtain ⟨hr, hk, -, rfl⟩ := loop_eq_running_iff.1 hm
    exact ⟨rfl, hr.steps_fresh, hk l rfl⟩
  · exact execute_eq_ok_iff.2 ⟨n, (hn.trans (maxCount_lt_stateCount p)).le, h⟩
  · exact loop_of_haltsAfter h (by simp) hn.le
  · exact execute_eq_jumpOutOfRange_iff.2 ⟨n, hn.trans (maxCount_lt_stateCount p), h⟩
  · exact loop_of_faultsAfter h (by simp) hn

/-- A program may halt at its limit, and jump out of itself only before. -/
example :
    let p : Program := ⟨#[.data .inc .ax (.literal 1), .jump .always 7], []⟩
    p.execute (some 2) = .error (.jumpOutOfRange ⟨1, 7, 2⟩) ∧
      p.execute (some 1) = .error (.stepLimitExceeded 1) ∧
      (⟨#[.jump .always 1], []⟩ : Program).execute (some 1) = .ok {} := by
  decide

end Program

end RegisterMachine
