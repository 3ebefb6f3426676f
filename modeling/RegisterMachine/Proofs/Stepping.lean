/-
  What a machine keeps to, however often it is stepped.

  A machine may be stepped again after a faulty step, and after it has halted.
  So the sequences of steps here go on through both.

  * `StepsTo p m outcome`: what a step can come to, with one constructor for each
    thing that an instruction can do.  `stepsTo_iff`: the step comes to just that;
  * `pc_le_step`: no step leaves the program.  `after_of_faulty`: a machine with a
    faulty step makes the same faulty step for ever;
  * `Bank.AgreesButOne b b'`: two banks differ in one register or in the
    comparison value, if they differ;
  * `step?_steps_le`: no step counts beyond 64 bits.  `after?_eq_some_iff`: steps in
    64 bits are the same steps, as many as can be counted;
  * `Orderly p m`: where a machine may be, and what its next step may do to it;
  * `runningSteps p n`: how many of the first `n` steps are asked of a machine that
    has not halted.  `stepping_orderly`: a machine is orderly after any number of
    steps in 64 bits, and has counted just these.
-/
import RegisterMachine.Proofs.Iteration

namespace RegisterMachine

/-! ## Changes of a bank -/

namespace Bank

/-- Nothing differs but one register, or nothing but the comparison value. -/
def AgreesButOne (b b' : Bank) : Prop :=
  (b'.comparison = b.comparison ∧ ∃ r, ∀ q, q ≠ r → b'.get q = b.get q) ∨
    b'.registers = b.registers

theorem AgreesButOne.refl (b : Bank) : b.AgreesButOne b :=
  Or.inr rfl

theorem agreesButOne_set (b : Bank) (r : Register) (value : Word) :
    b.AgreesButOne (b.set r value) := by
  refine Or.inl ⟨rfl, r, fun q hq => ?_⟩
  rw [get, get, set, Registers.get_set, if_neg hq]

theorem agreesButOne_perform (b : Bank) (op : DataOp) (lhs : Register) (value : Word) :
    b.AgreesButOne (b.perform op lhs value) := by
  cases op with
  | mov | inc | dec => exact b.agreesButOne_set lhs _
  | cmp => exact Or.inr rfl

end Bank

namespace Machine

variable {p : Program} {m : Machine} {fault : JumpFault}

/-! ## Single steps -/

/-- What a step of a machine can come to. -/
inductive StepsTo (p : Program) (m : Machine) : Machine × Option JumpFault → Prop where
  | halted : m.isHalted p = true → StepsTo p m (m, none)
  | data {op : DataOp} {lhs : Register} {rhs : Operand} :
      p.instructions[m.pc]? = some (.data op lhs rhs) →
      StepsTo p m (⟨m.pc + 1, m.bank.perform op lhs (m.bank.value rhs), m.steps + 1⟩, none)
  | passed {condition : Condition} {target : Int} :
      p.instructions[m.pc]? = some (.jump condition target) →
      condition.holds m.bank.comparison = false →
      StepsTo p m (⟨m.pc + 1, m.bank, m.steps + 1⟩, none)
  | taken {condition : Condition} {target : Nat} :
      p.instructions[m.pc]? = some (.jump condition target) →
      condition.holds m.bank.comparison = true → target ≤ p.size →
      StepsTo p m (⟨target, m.bank, m.steps + 1⟩, none)
  | faulty {condition : Condition} {target : Int} :
      p.instructions[m.pc]? = some (.jump condition target) →
      condition.holds m.bank.comparison = true → ¬ (0 ≤ target ∧ target ≤ p.size) →
      StepsTo p m (⟨m.pc, m.bank, m.steps + 1⟩, some ⟨m.pc, target, p.size⟩)

theorem pc_lt_of_getElem? {i : Instruction} (hi : p.instructions[m.pc]? = some i) :
    m.pc < p.size :=
  (Array.getElem?_eq_some_iff.1 hi).1

theorem stepsTo_step (p : Program) (m : Machine) : StepsTo p m (m.step p) := by
  unfold step
  cases hi : p.instructions[m.pc]? with
  | none => exact .halted (isHalted_iff_getElem?.2 hi)
  | some i =>
    cases i with
    | data op lhs rhs => exact .data hi
    | jump condition target =>
      simp only [execute, jumpTo]
      split_ifs with hc ht
      · obtain ⟨index, rfl⟩ := Int.eq_ofNat_of_zero_le ht.1
        exact .taken hi hc (by omega)
      · exact .faulty hi hc ht
      · exact .passed hi (Bool.eq_false_iff.2 hc)

/-- **A step comes to one thing**, as the instruction says. -/
theorem stepsTo_iff {outcome : Machine × Option JumpFault} :
    StepsTo p m outcome ↔ m.step p = outcome := by
  constructor
  · intro h
    cases h with
    | halted hh => exact step_of_isHalted hh
    | data hi =>
      rw [step, hi]
      rfl
    | passed hi hc => simp [step, hi, execute, hc]
    | taken hi hc ht => simp [step, hi, execute, hc, jumpTo, ht]
    | faulty hi hc ht => simp only [step, hi, execute, hc, if_true, jumpTo, if_neg ht]
  · rintro rfl
    exact stepsTo_step p m

theorem pc_le_step (h : m.pc ≤ p.size) : (m.step p).1.pc ≤ p.size := by
  have hs := stepsTo_step p m
  generalize m.step p = outcome at hs
  cases hs with
  | halted | faulty => exact h
  | data hi | passed hi => exact pc_lt_of_getElem? hi
  | taken _ _ ht => exact ht

theorem agreesButOne_step (p : Program) (m : Machine) :
    m.bank.AgreesButOne (m.step p).1.bank := by
  have hs := stepsTo_step p m
  generalize m.step p = outcome at hs
  cases hs with
  | data => exact m.bank.agreesButOne_perform _ _ _
  | halted | passed | taken | faulty => exact .refl m.bank

/-- Only a data operation changes the bank. -/
theorem exists_data_of_bank_ne (h : (m.step p).1.bank ≠ m.bank) :
    ∃ op lhs rhs, p.instructions[m.pc]? = some (.data op lhs rhs) := by
  have hs := stepsTo_step p m
  generalize m.step p = outcome at hs h
  cases hs with
  | data hi => exact ⟨_, _, _, hi⟩
  | halted | passed | taken | faulty => exact absurd rfl h

/-! ## Faulty steps -/

/-- A fault is that of the place where the machine is.  The step is counted, and
    does nothing else; how many there were before plays no part in it. -/
theorem step_of_faulty (h : (m.step p).2 = some fault) :
    fault.source = m.pc ∧ fault.size = p.size ∧
      ∀ k, step p { m with steps := k } = ({ m with steps := k + 1 }, some fault) := by
  have hs := stepsTo_step p m
  generalize m.step p = outcome at hs h
  cases hs with
  | halted | data | passed | taken => cases h
  | faulty hi hc ht =>
    cases h
    exact ⟨rfl, rfl, fun k => stepsTo_iff.1 (.faulty hi hc ht)⟩

/-- **A faulty step is made again and again.** -/
theorem after_of_faulty (h : (m.step p).2 = some fault) (n : Nat) :
    after p n m = { m with steps := m.steps + n } := by
  induction n with
  | zero => rfl
  | succ n ih =>
    obtain ⟨-, -, hstep⟩ := step_of_faulty h
    rw [after_succ, ih, hstep]
    rfl

/-! ## Sequences of steps -/

theorem pc_le_after (p : Program) (n : Nat) : (after p n {}).pc ≤ p.size := by
  induction n with
  | zero => exact Nat.zero_le p.size
  | succ n ih =>
    rw [after_succ]
    exact pc_le_step ih

theorem after?_succ (p : Program) (n : Nat) (m : Machine) :
    after? p (n + 1) m = (after? p n m).bind fun last => (last.step? p).map Prod.fst := by
  induction n generalizing m with
  | zero => cases h : m.step? p <;> simp [after?, h]
  | succ n ih =>
    rw [after?, after?]
    cases m.step? p with
    | none => rfl
    | some outcome => exact ih outcome.1

/-- A step keeps to 64 bits if the state before does, and it is counted in them. -/
theorem step_steps_le_iff : (m.step p).1.steps ≤ maxCount ↔
    m.steps ≤ maxCount ∧ (m.isHalted p = true ∨ m.steps < maxCount) := by
  cases hh : m.isHalted p with
  | true => simp [step_of_isHalted hh]
  | false =>
    rw [step_steps hh]
    simp only [Bool.false_eq_true, false_or]
    omega

theorem step?_steps_le {outcome : Machine × Option JumpFault} (h : m.steps ≤ maxCount)
    (hs : m.step? p = some outcome) : outcome.1.steps ≤ maxCount := by
  obtain ⟨hcount, rfl⟩ := step?_eq_some_iff.1 hs
  exact step_steps_le_iff.2 ⟨h, hcount⟩

/-- **Steps in 64 bits are the same steps**, and there are as many as can be counted. -/
theorem after?_eq_some_iff {n : Nat} {last : Machine} (h : m.steps ≤ maxCount) :
    after? p n m = some last ↔ after p n m = last ∧ last.steps ≤ maxCount := by
  induction n generalizing last with
  | zero =>
    rw [after?, after, Option.some_inj]
    exact ⟨fun hm => ⟨hm, hm ▸ h⟩, And.left⟩
  | succ n ih =>
    rw [after?_succ, after_succ, Option.bind_eq_some_iff]
    constructor
    · rintro ⟨mid, hmid, hlast⟩
      obtain ⟨rfl, hle⟩ := ih.1 hmid
      obtain ⟨outcome, hstep, rfl⟩ := Option.map_eq_some_iff.1 hlast
      exact ⟨by rw [(step?_eq_some_iff.1 hstep).2], step?_steps_le hle hstep⟩
    · rintro ⟨rfl, hle⟩
      obtain ⟨hmid, hcount⟩ := step_steps_le_iff.1 hle
      refine ⟨_, ih.2 ⟨rfl, hmid⟩, ?_⟩
      rw [step?_eq_some_iff.2 ⟨hcount, rfl⟩]
      rfl

/-- After a faulty step all steps are counted and do nothing else, with its fault. -/
theorem step?_after?_of_faulty {next : Machine} (h : m.steps ≤ maxCount)
    (hs : m.step? p = some (next, some fault)) {n : Nat} {last : Machine}
    {outcome : Machine × Option JumpFault} (hlast : after? p n next = some last)
    (hout : last.step? p = some outcome) :
    outcome = ({ last with steps := last.steps + 1 }, some fault) := by
  have hstep : m.step p = (next, some fault) := (step?_eq_some_iff.1 hs).2
  obtain ⟨-, -, hsame⟩ := step_of_faulty (congrArg Prod.snd hstep)
  have hafter : after p n next = { m with steps := m.steps + (n + 1) } := by
    rw [← after_of_faulty (congrArg Prod.snd hstep), after, hstep]
  obtain ⟨rfl, -⟩ := (after?_eq_some_iff (step?_steps_le h hs)).1 hlast
  rw [hafter] at hout ⊢
  exact (step?_eq_some_iff.1 hout).2.symm.trans (hsame _)

/-! ## The order of the steps -/

/-- Where a machine may be, and what its next step may do to it. -/
structure Orderly (p : Program) (m : Machine) : Prop where
  pc_le : m.pc ≤ p.size
  isHalted_iff : m.isHalted p = true ↔ m.pc = p.size
  steps_le : m.steps ≤ maxCount
  /-- There is no outcome of a step, if it would be one too many for 64 bits. -/
  overflows : m.step? p = none ↔ m.isHalted p = false ∧ m.steps = maxCount
  /-- A halted machine stays as it is. -/
  halted : m.isHalted p = true → m.step? p = some (m, none)
  /-- A faulty step is counted and does nothing else, and so do all steps after it,
      with the same fault. -/
  faulty : ∀ next fault, m.step? p = some (next, some fault) →
    fault.source = m.pc ∧ fault.size = p.size ∧ next = { m with steps := m.steps + 1 } ∧
      ∀ n last outcome, after? p n next = some last → last.step? p = some outcome →
        outcome = ({ last with steps := last.steps + 1 }, some fault)
  /-- Any other step is counted, too.  It changes one register or the comparison
      value at most, and nothing of them if it is a jump. -/
  running : ∀ next, m.isHalted p = false → m.step? p = some (next, none) →
    next.steps = m.steps + 1 ∧ m.bank.AgreesButOne next.bank ∧
      (next.bank ≠ m.bank → ∃ op lhs rhs, p.instructions[m.pc]? = some (.data op lhs rhs))

theorem orderly_of_le (hpc : m.pc ≤ p.size) (hcount : m.steps ≤ maxCount) : Orderly p m where
  pc_le := hpc
  isHalted_iff := by
    rw [isHalted, decide_eq_true_eq]
    omega
  steps_le := hcount
  overflows := by
    rw [step?_eq_none_iff, hcount.ge_iff_eq]
  halted := step?_of_isHalted
  faulty next fault hstep := by
    have hs : m.step p = (next, some fault) := (step?_eq_some_iff.1 hstep).2
    obtain ⟨hsource, hsize, hsame⟩ := step_of_faulty (congrArg Prod.snd hs)
    have hnext : next = { m with steps := m.steps + 1 } :=
      congrArg Prod.fst (hs.symm.trans (hsame m.steps))
    exact ⟨hsource, hsize, hnext,
      fun n last outcome => step?_after?_of_faulty hcount hstep⟩
  running next hh hstep := by
    obtain ⟨-, hs⟩ := step?_eq_some_iff.1 hstep
    obtain rfl : (m.step p).1 = next := congrArg Prod.fst hs
    exact ⟨step_steps hh, agreesButOne_step p m, exists_data_of_bank_ne⟩

/-! ## The number of the steps -/

/-- How many of the first steps are asked of a machine that has not halted. -/
def runningSteps (p : Program) (n : Nat) : Nat :=
  (List.range n).countP fun k => (after? p k {}).any fun m => !m.isHalted p

theorem runningSteps_succ (p : Program) (n : Nat) : runningSteps p (n + 1) =
    runningSteps p n + if (after? p n {}).any (!·.isHalted p) then 1 else 0 := by
  rw [runningSteps, List.range_succ, List.countP_append, List.countP_singleton]
  rfl

theorem runningSteps_le (p : Program) (n : Nat) : runningSteps p n ≤ n := by
  calc runningSteps p n
      ≤ (List.range n).length := List.countP_le_length
    _ = n := List.length_range

/-- The steps asked of a running machine are counted, until they are too many. -/
theorem count_after? (p : Program) (n : Nat) :
    match after? p n {} with
    | some m => m.steps = runningSteps p n
    | none => maxCount < runningSteps p n := by
  induction n with
  | zero => rfl
  | succ n ih =>
    rw [after?_succ, runningSteps_succ]
    cases hn : after? p n {} with
    | none => simpa [hn] using ih
    | some m =>
      rw [hn] at ih
      cases hh : m.isHalted p with
      | true => simpa [step?_of_isHalted hh, hh] using ih
      | false =>
        by_cases hc : m.steps < maxCount
        · simpa [step?_of_lt hc, hh, step_steps hh] using ih
        · have hstep : m.step? p = none := step?_eq_none_iff.2 ⟨hh, Nat.le_of_not_lt hc⟩
          simp [hstep, hh, ← ih]
          omega

/-- **Stepping is orderly**, also beyond a fault or the halt.  After any number of
    steps a machine is within its program or at the end, and its next step does
    one thing at most.  It has counted the steps that it was asked for while it had
    not halted.  All steps have an outcome just if these can be counted in 64 bits,
    as fewer than 2⁶⁴ always can. -/
theorem stepping_orderly (p : Program) (n : Nat) :
    ((after? p n {}).isSome = true ↔ runningSteps p n ≤ maxCount) ∧ runningSteps p n ≤ n ∧
      ∀ m, after? p n {} = some m →
        m = after p n {} ∧ Orderly p m ∧ m.steps = runningSteps p n := by
  have hcount := count_after? p n
  have hiff (last : Machine) :
      after? p n {} = some last ↔ after p n {} = last ∧ last.steps ≤ maxCount :=
    after?_eq_some_iff (Nat.zero_le maxCount)
  refine ⟨?_, runningSteps_le p n, fun m hm => ?_⟩
  · cases hn : after? p n {} with
    | none =>
      rw [hn] at hcount
      simpa using hcount
    | some m =>
      rw [hn] at hcount
      simpa [← hcount] using ((hiff m).1 hn).2
  · rw [hm] at hcount
    obtain ⟨rfl, hle⟩ := (hiff m).1 hm
    exact ⟨rfl, orderly_of_le (pc_le_after p n) hle, hcount⟩

/-- Leaves its program for ever, after one step within. -/
def leavingProgram : Program :=
  ⟨#[.data .dec .bx (.literal 1), .jump .always 9], []⟩

/-- Four steps, of which the last three are the same faulty jump. -/
theorem stepping_orderly_leavingProgram :
    after? leavingProgram 4 {} = some ⟨1, { registers := { bx := -1 } }, 4⟩ ∧
      Orderly leavingProgram ⟨1, { registers := { bx := -1 } }, 4⟩ ∧
      runningSteps leavingProgram 4 = 4 := by
  have h : after? leavingProgram 4 {} = some ⟨1, { registers := { bx := -1 } }, 4⟩ := by decide
  obtain ⟨-, horderly, hcount⟩ := (stepping_orderly leavingProgram 4).2.2 _ h
  exact ⟨h, horderly, hcount.symm⟩

/-- No step is one too many for a halted machine. -/
example :
    let p : Program := ⟨#[.data .inc .ax (.literal 1)], []⟩
    step? p ⟨0, {}, maxCount⟩ = none ∧
      step? p ⟨1, {}, maxCount⟩ = some (⟨1, {}, maxCount⟩, none) := by
  decide

end Machine

end RegisterMachine
