/-
  Registers that change places.

  No register has a part of its own: a program in which the registers change
  places does to the one what it did to the other.

  * `Respelling.ofPerm π`: statements in which each register name is replaced as a
    permutation says.  Labels stay, so the program of such statements is that of
    the statements with other registers;
  * `Registers.permute`, `Bank.permute` and `Machine.permute` move the values along.
    `StepsTo.permute`: a step does not mind, and `run_permute`: nor does a run;
  * `registers_interchangeable`: the registers of a result are those of the
    program before, each in its new place, and an error is the same.
-/
import RegisterMachine.Proofs.Respelling
import RegisterMachine.Proofs.Stepping

namespace RegisterMachine

variable (π : Equiv.Perm Register)

/-! ## Statements -/

/-- The names of registers change places among operands. -/
def Respelling.ofPerm : Respelling where
  label := id
  operand name := ((Register.ofName? name).map fun r => (π r).name).getD name
  register := π
  label_injective := Function.injective_id
  isLabelName_label _ := rfl
  operand_label name h := by simp [ofName?_eq_none_of_isLabelName h]
  operand_register r := by simp
  operand_fixed name h := by simp [ofName?_eq_none_of_not_isIdentifier h]

theorem Respelling.program_ofPerm (p : Program) :
    (ofPerm π).program p = p.mapRegister π := by
  have hlabels : (ofPerm π).labels p.labels = p.labels := List.map_id p.labels
  rw [program, hlabels]
  rfl

/-! ## Values -/

/-- The values of registers, each in the place of its register. -/
def Registers.permute (rs : Registers) : Registers where
  ax := rs.get (π.symm .ax)
  bx := rs.get (π.symm .bx)
  cx := rs.get (π.symm .cx)
  dx := rs.get (π.symm .dx)

def Bank.permute (bank : Bank) : Bank :=
  { bank with registers := bank.registers.permute π }

def Machine.permute (m : Machine) : Machine :=
  { m with bank := m.bank.permute π }

namespace Registers

theorem get_permute (rs : Registers) (r : Register) :
    (rs.permute π).get r = rs.get (π.symm r) := by
  cases r <;> rfl

theorem get_permute_apply (rs : Registers) (r : Register) :
    (rs.permute π).get (π r) = rs.get r := by
  rw [get_permute, Equiv.symm_apply_apply]

theorem permute_set (rs : Registers) (r : Register) (value : Word) :
    (rs.set r value).permute π = (rs.permute π).set (π r) value := by
  refine ext_get fun q => ?_
  rw [get_permute, get_set, get_set, get_permute]
  simp only [Equiv.symm_apply_eq]

theorem permute_zero : ({} : Registers).permute π = {} := by
  have hzero : ∀ r, get {} r = 0 := by
    intro r
    cases r <;> rfl
  refine ext_get fun r => ?_
  rw [get_permute, hzero, hzero]

end Registers

namespace Bank

theorem get_permute (bank : Bank) (r : Register) : (bank.permute π).get (π r) = bank.get r :=
  bank.registers.get_permute_apply π r

theorem value_permute (bank : Bank) (rhs : Operand) :
    (bank.permute π).value (rhs.mapRegister π) = bank.value rhs := by
  cases rhs with
  | register r => exact bank.get_permute π r
  | literal value => rfl

theorem permute_set (bank : Bank) (r : Register) (value : Word) :
    (bank.set r value).permute π = (bank.permute π).set (π r) value := by
  rw [permute, set, set, Registers.permute_set]
  rfl

theorem permute_perform (bank : Bank) (op : DataOp) (lhs : Register) (value : Word) :
    (bank.perform op lhs value).permute π = (bank.permute π).perform op (π lhs) value := by
  cases op with
  | mov => exact bank.permute_set π lhs value
  | inc | dec =>
    rw [perform, perform, permute_set, get_permute]
  | cmp =>
    rw [perform, perform, get_permute]
    rfl

end Bank

/-! ## Steps and runs -/

theorem Program.size_mapRegister (f : Register → Register) (p : Program) :
    (p.mapRegister f).size = p.size :=
  Array.size_map

theorem Program.getElem?_mapRegister {f : Register → Register} {p : Program} {index : Nat}
    {i : Instruction} (h : p.instructions[index]? = some i) :
    (p.mapRegister f).instructions[index]? = some (i.mapRegister f) := by
  rw [mapRegister, Array.getElem?_map, h, Option.map_some]

namespace Machine

variable {p : Program} {m : Machine}

theorem isHalted_permute : (m.permute π).isHalted (p.mapRegister π) = m.isHalted p := by
  rw [isHalted, isHalted, Program.size_mapRegister]
  rfl

/-- **A step does with the values in their new places what it did before.** -/
theorem StepsTo.permute {outcome : Machine × Option JumpFault} (h : StepsTo p m outcome) :
    StepsTo (p.mapRegister π) (m.permute π) (outcome.1.permute π, outcome.2) := by
  cases h with
  | halted hh => exact .halted ((isHalted_permute π).trans hh)
  | @data op lhs rhs hi =>
    have hnext : Machine.permute π
        ⟨m.pc + 1, m.bank.perform op lhs (m.bank.value rhs), m.steps + 1⟩ =
          ⟨m.pc + 1, (m.bank.permute π).perform op (π lhs)
            ((m.bank.permute π).value (rhs.mapRegister π)), m.steps + 1⟩ := by
      rw [Machine.permute, Bank.permute_perform, Bank.value_permute]
    dsimp only
    rw [hnext]
    exact .data (Program.getElem?_mapRegister hi)
  | passed hi hc => exact .passed (Program.getElem?_mapRegister hi) hc
  | taken hi hc ht =>
    rw [← Program.size_mapRegister π] at ht
    exact .taken (Program.getElem?_mapRegister hi) hc ht
  | faulty hi hc ht =>
    rw [← Program.size_mapRegister π] at ht ⊢
    exact .faulty (Program.getElem?_mapRegister hi) hc ht

theorem step_permute (p : Program) (m : Machine) :
    (m.permute π).step (p.mapRegister π) = ((m.step p).1.permute π, (m.step p).2) :=
  stepsTo_iff.1 ((stepsTo_step p m).permute π)

theorem run_permute (p : Program) (budget : Nat) (m : Machine) :
    run (p.mapRegister π) budget (m.permute π) =
      ((run p budget m).1.permute π, (run p budget m).2) := by
  induction budget generalizing m with
  | zero => rw [run, run, isHalted_permute]
  | succ budget ih =>
    rw [run, run, isHalted_permute, step_permute]
    cases m.isHalted p with
    | true => rfl
    | false =>
      rcases m.step p with ⟨next, _ | fault⟩
      · exact ih next
      · rfl

end Machine

theorem Program.execute_mapRegister (p : Program) (limit : StepLimit) :
    (p.mapRegister π).execute limit = (p.execute limit).map (Registers.permute π) := by
  have hbudget : (p.mapRegister π).budget limit = p.budget limit := by
    rw [budget, budget, stateCount, stateCount, size_mapRegister]
  have hfresh : ({} : Machine).permute π = {} := by
    rw [Machine.permute, Bank.permute, Registers.permute_zero]
  have hfinish : (p.mapRegister π).finish limit =
      ((p.finish limit).1.permute π, (p.finish limit).2) := by
    rw [finish, finish, hbudget, ← Machine.run_permute, hfresh]
  rw [execute, execute, hfinish]
  obtain ⟨m, _ | fault | _⟩ := p.finish limit
  · rfl
  · rfl
  · rw [result, result, hbudget]
    rfl

/-- **The registers are interchangeable.**  If they change places in statements
    that come to a program, then the statements come to the program in which they
    change places, at the same addresses and with the same labels.  Under any
    limit a program in which they do has the registers of the program before,
    each value in its new place, or the same error. -/
theorem registers_interchangeable :
    (∀ (code : List Statement) (p : Program), (Program.assemble code).result = .ok p →
      (Program.assemble (code.map (Respelling.ofPerm π).statement)).result =
        .ok (p.mapRegister π)) ∧
    ∀ (p : Program) (limit : StepLimit),
      (p.mapRegister π).execute limit = (p.execute limit).map (Registers.permute π) := by
  refine ⟨fun code p hp => ?_, fun p limit => p.execute_mapRegister π limit⟩
  rw [Respelling.assemble_statements, Respelling.report, hp, ← Respelling.program_ofPerm]
  rfl

/-- Each register goes on to the place of the next, and the last to the first. -/
def rotation : Equiv.Perm Register where
  toFun
    | .ax => .bx
    | .bx => .cx
    | .cx => .dx
    | .dx => .ax
  invFun
    | .bx => .ax
    | .cx => .bx
    | .dx => .cx
    | .ax => .dx
  left_inv r := by cases r <;> rfl
  right_inv r := by cases r <;> rfl

/-- Counts `cx` down to the index of a label. -/
def countingDown : List Statement :=
  [.instruction "mov" [.name "cx", .integer 4], .label "again",
    .instruction "dec" [.name "cx", .name "bx"], .instruction "dec" [.name "cx"],
    .instruction "cmp" [.name "cx", .name "again"], .instruction "jg" [.name "again"]]

theorem registers_interchangeable_countingDown :
    ∃ p, (Program.assemble countingDown).result = .ok p ∧
      (Program.assemble [.instruction "mov" [.name "dx", .integer 4], .label "again",
        .instruction "dec" [.name "dx", .name "cx"], .instruction "dec" [.name "dx"],
        .instruction "cmp" [.name "dx", .name "again"],
        .instruction "jg" [.name "again"]]).result = .ok (p.mapRegister rotation) ∧
      p.execute (some 20) = .ok { cx := 1 } ∧
      (p.mapRegister rotation).execute (some 20) = .ok { dx := 1 } := by
  have hp : (Program.assemble countingDown).result =
      .ok ⟨#[.data .mov .cx (.literal 4), .data .dec .cx (.register .bx),
        .data .dec .cx (.literal 1), .data .cmp .cx (.literal 1), .jump .greater 1],
        [("again", 1)]⟩ := by decide
  obtain ⟨hcode, hrun⟩ := registers_interchangeable rotation
  refine ⟨_, hp, hcode countingDown _ hp, by decide, ?_⟩
  rw [hrun]
  decide

end RegisterMachine
