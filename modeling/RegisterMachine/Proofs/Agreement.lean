/-
  Machines that agree in part of their registers.

  What a program does depends on the registers that it reads, the comparison value
  and the place where it is.  A register that is only written to, and changed by
  steps that are read elsewhere, has no part in that.

  * `Instruction.sources`: the registers whose values an instruction takes to
    another place.  `Program.ReadsOnly visible p`: these are visible ones;
  * `Machine.AgreeOn visible m m'`: two machines are at the same place, with the
    same comparison value and the same visible registers.  `agreeOn_step`: then a
    step does the same to both;
  * `Program.WriteOnly p r`: a register that is never such a source.
    `writeOnly_hidden`: what it holds is seen nowhere else, in any number of steps.
-/
import RegisterMachine.Proofs.Stepping

namespace RegisterMachine

/-! ## Registers that are read -/

def Operand.sources : Operand → List Register
  | register r => [r]
  | literal _ => []

/-- The registers whose values an instruction takes to another place: its right
    operand, and both sides of a comparison.  What `inc` and `dec` read on the left
    stays there. -/
def Instruction.sources : Instruction → List Register
  | data .cmp lhs rhs => lhs :: rhs.sources
  | data .mov _ rhs | data .inc _ rhs | data .dec _ rhs => rhs.sources
  | jump .. => []

/-- All the sources of instructions are visible. -/
def Program.ReadsOnly (visible : Register → Prop) (p : Program) : Prop :=
  ∀ i ∈ p.instructions, ∀ r ∈ i.sources, visible r

variable {visible : Register → Prop}

/-! ## Banks -/

namespace Bank

/-- The same comparison value and the same visible registers. -/
structure AgreeOn (visible : Register → Prop) (b b' : Bank) : Prop where
  comparison : b.comparison = b'.comparison
  get : ∀ r, visible r → b.get r = b'.get r

namespace AgreeOn

variable {b b' : Bank} (h : AgreeOn visible b b')
include h

theorem value {rhs : Operand} (hr : ∀ r ∈ rhs.sources, visible r) : b.value rhs = b'.value rhs := by
  cases rhs with
  | register r => exact h.get r (hr r List.mem_cons_self)
  | literal value => rfl

/-- A hidden register may be set to different values. -/
theorem set {lhs : Register} {w w' : Word} (hw : visible lhs → w = w') :
    AgreeOn visible (b.set lhs w) (b'.set lhs w') where
  comparison := h.comparison
  get r hr := by
    rw [Bank.get, Bank.get, Bank.set, Bank.set, Registers.get_set, Registers.get_set]
    split_ifs with he
    · exact hw (he ▸ hr)
    · exact h.get r hr

theorem perform {op : DataOp} {lhs : Register} {rhs : Operand}
    (hr : ∀ r ∈ (Instruction.data op lhs rhs).sources, visible r) :
    AgreeOn visible (b.perform op lhs (b.value rhs)) (b'.perform op lhs (b'.value rhs)) := by
  cases op with
  | mov => exact h.set fun _ => h.value hr
  | inc | dec =>
    -- the register changes by the same value, so it is seen if it was seen before
    have hv : b.value rhs = b'.value rhs := h.value hr
    refine h.set fun hl => ?_
    rw [h.get lhs hl, hv]
  | cmp =>
    have hl : visible lhs := hr lhs List.mem_cons_self
    have hv : b.value rhs = b'.value rhs := h.value fun r hm => hr r (List.mem_cons_of_mem lhs hm)
    refine ⟨?_, h.get⟩
    rw [Bank.perform, Bank.perform, h.get lhs hl, hv]

end AgreeOn

end Bank

namespace Machine

variable {p : Program} {m m' : Machine}

/-! ## Machines -/

/-- The same place, comparison value and visible registers. -/
structure AgreeOn (visible : Register → Prop) (m m' : Machine) : Prop where
  pc : m.pc = m'.pc
  bank : m.bank.AgreeOn visible m'.bank

theorem AgreeOn.isHalted_eq (h : AgreeOn visible m m') : m.isHalted p = m'.isHalted p := by
  rw [isHalted, isHalted, h.pc]

/-- **A step does the same to machines that agree in what is read**, and counts as
    much in both. -/
theorem agreeOn_step (hp : p.ReadsOnly visible) (h : AgreeOn visible m m') :
    AgreeOn visible (m.step p).1 (m'.step p).1 ∧ (m.step p).2 = (m'.step p).2 ∧
      (m.step p).1.steps + m'.steps = (m'.step p).1.steps + m.steps := by
  obtain ⟨hpc, hbank⟩ := h
  obtain ⟨pc, bank, steps⟩ := m
  obtain ⟨_, bank', steps'⟩ := m'
  obtain rfl : pc = _ := hpc
  have hs := stepsTo_step p ⟨pc, bank, steps⟩
  generalize step p ⟨pc, bank, steps⟩ = outcome at hs
  cases hs with
  | halted hh =>
    rw [stepsTo_iff.1 (.halted (m := ⟨pc, bank', steps'⟩) hh)]
    exact ⟨⟨rfl, hbank⟩, rfl, Nat.add_comm _ _⟩
  | data hi =>
    rw [stepsTo_iff.1 (.data (m := ⟨pc, bank', steps'⟩) hi)]
    exact ⟨⟨rfl, hbank.perform (hp _ (Array.mem_of_getElem? hi))⟩, rfl, by dsimp only; omega⟩
  | passed hi hc =>
    rw [stepsTo_iff.1 (.passed (m := ⟨pc, bank', steps'⟩) hi (hbank.comparison ▸ hc))]
    exact ⟨⟨rfl, hbank⟩, rfl, by dsimp only; omega⟩
  | taken hi hc ht =>
    rw [stepsTo_iff.1 (.taken (m := ⟨pc, bank', steps'⟩) hi (hbank.comparison ▸ hc) ht)]
    exact ⟨⟨rfl, hbank⟩, rfl, by dsimp only; omega⟩
  | faulty hi hc ht =>
    rw [stepsTo_iff.1 (.faulty (m := ⟨pc, bank', steps'⟩) hi (hbank.comparison ▸ hc) ht)]
    exact ⟨⟨rfl, hbank⟩, rfl, by dsimp only; omega⟩

theorem exists_agreeOn_step (hp : p.ReadsOnly visible) (h : AgreeOn visible m m') :
    ∃ next next' fault, m.step p = (next, fault) ∧ m'.step p = (next', fault) ∧
      AgreeOn visible next next' := by
  obtain ⟨hnext, hfault, -⟩ := agreeOn_step hp h
  exact ⟨_, _, _, rfl, Prod.ext rfl hfault.symm, hnext⟩

theorem AgreeOn.nextEvent?_eq (h : AgreeOn visible m m') : m.nextEvent? p = m'.nextEvent? p := by
  rw [nextEvent?, nextEvent?, h.pc]

/-! ## Sequences of steps -/

theorem agreeOn_after (hp : p.ReadsOnly visible) (h : AgreeOn visible m m') (n : Nat) :
    AgreeOn visible (after p n m) (after p n m') ∧
      (after p n m).steps + m'.steps = (after p n m').steps + m.steps := by
  induction n with
  | zero => exact ⟨h, Nat.add_comm _ _⟩
  | succ n ih =>
    obtain ⟨hagree, hcount⟩ := ih
    obtain ⟨hnext, -, hstep⟩ := agreeOn_step hp hagree
    rw [after_succ, after_succ]
    exact ⟨hnext, by omega⟩

theorem agreeOn_run (hp : p.ReadsOnly visible) (h : AgreeOn visible m m') (budget : Nat) :
    AgreeOn visible (run p budget m).1 (run p budget m').1 ∧
      (run p budget m).2 = (run p budget m').2 := by
  induction budget generalizing m m' with
  | zero => exact ⟨h, by rw [run, run, h.isHalted_eq]⟩
  | succ budget ih =>
    obtain ⟨next, next', fault, hs, hs', hnext⟩ := exists_agreeOn_step hp h
    rw [run, run, ← h.isHalted_eq, hs, hs']
    split_ifs with hh
    · exact ⟨h, rfl⟩
    · cases fault with
      | none => exact ih hnext
      | some fault => exact ⟨hnext, rfl⟩

theorem trace_eq_of_agreeOn (hp : p.ReadsOnly visible) (h : AgreeOn visible m m') (budget : Nat) :
    trace p budget m = trace p budget m' := by
  induction budget generalizing m m' with
  | zero => rfl
  | succ budget ih =>
    obtain ⟨next, next', fault, hs, hs', hnext⟩ := exists_agreeOn_step hp h
    rw [trace, trace, ← h.nextEvent?_eq, hs, hs']
    cases m.nextEvent? p with
    | none => rfl
    | some event =>
      cases fault with
      | none => exact congrArg (event :: ·) (ih hnext)
      | some fault => rfl

end Machine

/-! ## Registers that are only written to -/

/-- A register is no source of an instruction.  It may be the one that a `mov`, `inc`
    or `dec` changes. -/
def Program.WriteOnly (p : Program) (r : Register) : Prop :=
  ∀ i ∈ p.instructions, r ∉ i.sources

instance (p : Program) (r : Register) : Decidable (p.WriteOnly r) :=
  inferInstanceAs (Decidable (∀ i ∈ p.instructions, r ∉ i.sources))

theorem Program.WriteOnly.readsOnly {p : Program} {r : Register} (h : p.WriteOnly r) :
    p.ReadsOnly (· ≠ r) := by
  rintro i hi q hq rfl
  exact h i hi hq

namespace Machine

variable {p : Program} {m m' : Machine} {r : Register}

/-- **What a write-only register holds is seen in that register only.**  Of two machines
    that agree in all but this register and the number of steps, either is as far as
    the other after any number of steps: they still agree, both have halted or none
    has, the next step has the same fault, and as many steps were counted.  So runs of
    them stop alike after the same records. -/
theorem writeOnly_hidden (hp : p.WriteOnly r) (h : AgreeOn (· ≠ r) m m') :
    (∀ n, AgreeOn (· ≠ r) (after p n m) (after p n m') ∧
      (after p n m).isHalted p = (after p n m').isHalted p ∧
      ((after p n m).step p).2 = ((after p n m').step p).2 ∧
      (after p n m).steps + m'.steps = (after p n m').steps + m.steps) ∧
    ∀ budget, AgreeOn (· ≠ r) (run p budget m).1 (run p budget m').1 ∧
      (run p budget m).2 = (run p budget m').2 ∧ trace p budget m = trace p budget m' := by
  refine ⟨fun n => ?_, fun budget => ?_⟩
  · obtain ⟨hagree, hcount⟩ := agreeOn_after hp.readsOnly h n
    exact ⟨hagree, hagree.isHalted_eq, (agreeOn_step hp.readsOnly hagree).2.1, hcount⟩
  · obtain ⟨hagree, hstop⟩ := agreeOn_run hp.readsOnly h budget
    exact ⟨hagree, hstop, trace_eq_of_agreeOn hp.readsOnly h budget⟩

/-- Counts `ax` down, with a sum in `dx` and a faulty jump at the end. -/
def tally : Program :=
  ⟨#[.data .inc .dx (.register .ax), .data .dec .ax (.literal 1), .data .cmp .ax (.literal 0),
    .jump .notEqual 0, .data .dec .dx (.literal 1), .jump .always (-3)], []⟩

theorem writeOnly_hidden_tally :
    tally.WriteOnly .dx ∧
    (∀ n, AgreeOn (· ≠ .dx) (after tally n ⟨0, { registers := { ax := 2 } }, 0⟩)
      (after tally n ⟨0, { registers := { ax := 2, dx := 40 } }, 7⟩)) ∧
    run tally 20 ⟨0, { registers := { ax := 2 } }, 0⟩ =
      (⟨5, { registers := { dx := 2 } }, 10⟩, .faulted ⟨5, -3, 6⟩) ∧
    (run tally 20 ⟨0, { registers := { ax := 2, dx := 40 } }, 7⟩).2 = .faulted ⟨5, -3, 6⟩ := by
  have hp : tally.WriteOnly .dx := by decide
  have h : AgreeOn (· ≠ .dx) ⟨0, { registers := { ax := 2 } }, 0⟩
      ⟨0, { registers := { ax := 2, dx := 40 } }, 7⟩ := by
    refine ⟨rfl, rfl, fun q hq => ?_⟩
    cases q with
    | ax | bx | cx => rfl
    | dx => exact absurd rfl hq
  have hrun : run tally 20 ⟨0, { registers := { ax := 2 } }, 0⟩ =
      (⟨5, { registers := { dx := 2 } }, 10⟩, .faulted ⟨5, -3, 6⟩) := by decide
  obtain ⟨hsteps, hruns⟩ := writeOnly_hidden hp h
  refine ⟨hp, fun n => (hsteps n).1, hrun, ?_⟩
  rw [← (hruns 20).2.1, hrun]

end Machine

end RegisterMachine
