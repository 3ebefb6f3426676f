/-
  Faulty jumps, and the statements that they come from.

  * `step_snd_eq_some_iff`: a step is faulty iff it takes a jump to a target
    outside of the program;
  * `IntegerJump code index condition target`: the instruction statement of an
    index is a jump to an integer.  No other jump can be faulty, since labels
    stay within the program: `step_faulty_iff`;
  * `Truthful code fault`: a fault names the statement of its jump, the integer
    there and the number of instruction statements.  `faults_truthful`: so does
    every fault of a step or of a run, and jumps to labels have none.
-/
import Mathlib.Tactic
import RegisterMachine.Proofs.Iteration
import RegisterMachine.Proofs.Translation

namespace RegisterMachine

open Statement

/-! ## Faulty steps -/

namespace Machine

variable {p : Program} {m : Machine} {fault : JumpFault}

theorem jumpTo_snd_eq_some_iff {target : Int} :
    (m.jumpTo p target).2 = some fault ↔
      ¬ (0 ≤ target ∧ target ≤ p.size) ∧ fault = ⟨m.pc, target, p.size⟩ := by
  unfold jumpTo
  split_ifs with h
  · simp [h]
  · simp [h, eq_comm]

theorem step_snd_eq_some_iff :
    (m.step p).2 = some fault ↔ ∃ condition target,
      p.instructions[m.pc]? = some (.jump condition target) ∧
        condition.holds m.bank.comparison = true ∧ ¬ (0 ≤ target ∧ target ≤ p.size) ∧
          fault = ⟨m.pc, target, p.size⟩ := by
  unfold step
  cases hi : p.instructions[m.pc]? with
  | none => simp
  | some i =>
    cases i with
    | data op lhs rhs => simp [execute]
    | jump condition target =>
      simp only [execute, Option.some.injEq, Instruction.jump.injEq]
      split_ifs with hc
      · rw [jumpTo_snd_eq_some_iff]
        simp [hc]
      · simp [hc]

end Machine

/-! ## The statement of a jump -/

/-- The instruction statement of an index is a jump to an integer. -/
def IntegerJump (code : List Statement) (index : Nat) (condition : Condition) (target : Int) :
    Prop :=
  ∃ word value, (word, condition) ∈ jumpWords ∧
    (calls code)[index]? = some (word, [.integer value]) ∧ value.toInt = target

/-- A jump goes to an integer that is written, or to a label. -/
theorem Translates.jump_cases {code : List Statement} {call : String × List Argument}
    {condition : Condition} {target : Int} (h : Translates code call (.jump condition target)) :
    (∃ word value, (word, condition) ∈ jumpWords ∧ call = (word, [.integer value]) ∧
        value.toInt = target) ∨
      ∃ name index, LabelIndex code name index ∧ target = (index : Int) := by
  cases h with
  | jump hw ht =>
    cases ht with
    | @integer value => exact Or.inl ⟨_, value, hw, rfl, rfl⟩
    | label hi => exact Or.inr ⟨_, _, hi, rfl⟩

theorem Translates.eq_jump {code : List Statement} {word : String} {condition : Condition}
    {value : Word} {i : Instruction} (hw : (word, condition) ∈ jumpWords)
    (h : Translates code (word, [.integer value]) i) : i = .jump condition value.toInt := by
  cases h with
  | jump hw' ht =>
    have hc := (ofName?_jump_iff.2 hw').symm.trans (ofName?_jump_iff.2 hw)
    cases hc
    cases ht
    rfl

section
variable {code : List Statement} {p : Program} (h : (Program.assemble code).result = .ok p)
include h

/-- Each instruction of a program translates the statement of its index. -/
theorem exists_call {index : Nat} {i : Instruction} (hi : p.instructions[index]? = some i) :
    ∃ call, (calls code)[index]? = some call ∧ Translates code call i := by
  have hlt : index < (calls code).length := by
    obtain ⟨hlt, -⟩ := Array.getElem?_eq_some_iff.1 hi
    rwa [← size_of_assemble h]
  obtain ⟨i', hi', ht⟩ := getElem?_instructions h (List.getElem?_eq_getElem hlt)
  cases hi.symm.trans hi'
  exact ⟨_, List.getElem?_eq_getElem hlt, ht⟩

/-- **Only a jump to an integer can be faulty**, and it is if it is taken and
    the integer is no place of the program. -/
theorem step_faulty_iff {m : Machine} {fault : JumpFault} :
    (m.step p).2 = some fault ↔
      fault.source = m.pc ∧ fault.size = (calls code).length ∧
        (∃ condition, IntegerJump code m.pc condition fault.target ∧
          condition.holds m.bank.comparison = true) ∧
        (fault.target < 0 ∨ (fault.size : Int) < fault.target) := by
  have hsize := size_of_assemble h
  rw [Machine.step_snd_eq_some_iff]
  constructor
  · rintro ⟨condition, target, hi, hc, hout, rfl⟩
    obtain ⟨call, hcall, ht⟩ := exists_call h hi
    rcases ht.jump_cases with ⟨word, value, hw, rfl, hv⟩ | ⟨name, index, hl, rfl⟩
    · exact ⟨rfl, hsize, ⟨condition, ⟨word, value, hw, hcall, hv⟩, hc⟩, by simp; omega⟩
    · have hle : index ≤ p.size := hsize ▸ hl.le
      exact absurd ⟨Int.natCast_nonneg index, by omega⟩ hout
  · obtain ⟨source, target, size⟩ := fault
    rintro ⟨rfl, rfl, ⟨condition, ⟨word, value, hw, hcall, rfl⟩, hc⟩, hout⟩
    obtain ⟨i, hi, ht⟩ := getElem?_instructions h hcall
    obtain rfl := ht.eq_jump hw
    simp only at hout
    exact ⟨condition, value.toInt, hi, hc, by omega, by rw [hsize]⟩

end

/-! ## Reports of faults -/

/-- A fault that says where it comes from: a jump to its target, which is no
    place of the program. -/
structure Truthful (code : List Statement) (fault : JumpFault) : Prop where
  size : fault.size = (calls code).length
  source : ∃ condition, IntegerJump code fault.source condition fault.target
  outside : fault.target < 0 ∨ (fault.size : Int) < fault.target

/-- All operands of jumps are names. -/
def JumpsToLabels (code : List Statement) : Prop :=
  ∀ word condition operands, (word, condition) ∈ jumpWords → .instruction word operands ∈ code →
    ∀ a ∈ operands, ∃ name, a = .name name

theorem JumpsToLabels.not_integerJump {code : List Statement} (hl : JumpsToLabels code)
    {index : Nat} {condition : Condition} {target : Int} :
    ¬ IntegerJump code index condition target := by
  rintro ⟨word, value, hw, hcall, -⟩
  have hm : .instruction word [.integer value] ∈ code := mem_calls.1 (List.mem_of_getElem? hcall)
  obtain ⟨name, hn⟩ := hl word condition _ hw hm _ (List.mem_singleton_self _)
  cases hn

/-- A run that ends with a fault does so by a faulty step. -/
theorem exists_step_of_run {p : Program} {limit : StepLimit} {threshold : Threshold}
    {fault : JumpFault} (hr : (p.run limit threshold).result = .error (.jumpOutOfRange fault)) :
    ∃ n, ((Machine.after p n {}).step p).2 = some fault := by
  have he : p.execute limit = .error (.jumpOutOfRange fault) := hr
  obtain ⟨n, -, -, -, hf⟩ := Program.execute_eq_jumpOutOfRange_iff.1 he
  exact ⟨n, hf⟩

section
variable {code : List Statement} {p : Program} (h : (Program.assemble code).result = .ok p)
include h

theorem truthful_of_step {m : Machine} {fault : JumpFault} (hf : (m.step p).2 = some fault) :
    fault.source = m.pc ∧ Truthful code fault := by
  obtain ⟨hsource, hsize, ⟨condition, hj, -⟩, hout⟩ := (step_faulty_iff h).1 hf
  exact ⟨hsource, hsize, ⟨condition, hsource ▸ hj⟩, hout⟩

theorem step_snd_eq_none (hl : JumpsToLabels code) (m : Machine) : (m.step p).2 = none := by
  rw [Option.eq_none_iff_forall_ne_some]
  intro fault hf
  obtain ⟨-, -, ⟨condition, hj, -⟩, -⟩ := (step_faulty_iff h).1 hf
  exact hl.not_integerJump hj

/-- **Faults tell the truth, and only jumps to integers have them.**  A step of
    any machine, so any sequence of them, and a run under any limit report only
    faults that say where they come from.  If all jumps name labels, nothing is
    faulty. -/
theorem faults_truthful :
    (∀ (m : Machine) fault, (m.step p).2 = some fault → fault.source = m.pc ∧ Truthful code fault) ∧
      (∀ limit threshold fault,
        (p.run limit threshold).result = .error (.jumpOutOfRange fault) →
          ∃ n, fault.source = (Machine.after p n {}).pc ∧ Truthful code fault) ∧
      (JumpsToLabels code → (∀ m : Machine, (m.step p).2 = none) ∧
        ∀ limit threshold fault,
          (p.run limit threshold).result ≠ .error (.jumpOutOfRange fault)) := by
  refine ⟨fun m fault hf => truthful_of_step h hf, fun limit threshold fault hr => ?_,
    fun hl => ⟨step_snd_eq_none h hl, fun limit threshold fault hr => ?_⟩⟩
  · obtain ⟨n, hf⟩ := exists_step_of_run hr
    exact ⟨n, truthful_of_step h hf⟩
  · obtain ⟨n, hf⟩ := exists_step_of_run hr
    rw [step_snd_eq_none h hl] at hf
    cases hf

end

/-- A jump to a label that is declared again, and one to a negative integer. -/
def escapingCode : List Statement :=
  [.label "next", .instruction "jmp" [.name "next"], .label "next",
    .instruction "cmp" [.name "ax", .integer 1], .instruction "jl" [.integer (-1)], .label "end"]

/-- The first jump of it alone. -/
def labelledCode : List Statement :=
  escapingCode.take 3

theorem faults_truthful_escapingCode :
    (∃ p, (Program.assemble escapingCode).result = .ok p ∧
      (p.run (some 3) none).result = .error (.jumpOutOfRange ⟨2, -1, 3⟩) ∧
      Truthful escapingCode ⟨2, -1, 3⟩) ∧
    JumpsToLabels labelledCode ∧ ∃ p, (Program.assemble labelledCode).result = .ok p ∧
      ∀ m : Machine, (m.step p).2 = none := by
  have h : (Program.assemble escapingCode).result =
      .ok ⟨#[.jump .always 1, .data .cmp .ax (.literal 1), .jump .less (-1)],
        [("next", 1), ("end", 3)]⟩ := by decide
  have hr : (Program.run ⟨#[.jump .always 1, .data .cmp .ax (.literal 1), .jump .less (-1)],
      [("next", 1), ("end", 3)]⟩ (some 3) none).result =
      .error (.jumpOutOfRange ⟨2, -1, 3⟩) := by decide
  have h' : (Program.assemble labelledCode).result = .ok ⟨#[.jump .always 1], [("next", 1)]⟩ := by
    decide
  have hl : JumpsToLabels labelledCode := by
    intro word condition operands _ hm a ha
    simp only [labelledCode, escapingCode, List.take_succ_cons, List.take_zero, List.mem_cons,
      reduceCtorEq, Statement.instruction.injEq, List.not_mem_nil, or_false, false_or] at hm
    obtain ⟨-, rfl⟩ := hm
    exact ⟨"next", List.mem_singleton.1 ha⟩
  obtain ⟨n, -, ht⟩ := (faults_truthful h).2.1 (some 3) none ⟨2, -1, 3⟩ hr
  exact ⟨⟨_, h, hr, ht⟩, hl, _, h', ((faults_truthful h').2.2 hl).1⟩

end RegisterMachine
