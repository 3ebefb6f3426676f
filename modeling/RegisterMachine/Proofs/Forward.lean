/-
  Programs whose jumps all go forward.

  Of a label that is declared more than once the last declaration counts.  If it
  stands behind each jump to it, no run goes back, and so every run ends.

  * `JumpsForward code`: so it is in a list of statements.  `Program.Forward p`: each
    jump of a program goes to a greater index, and not beyond the end.
    `forward_of_jumpsForward`: assembly makes the one of the other;
  * `Forward.pc_lt_step`: a step of such a program goes on to a greater index.
    `Forward.exists_haltsAfter`: it halts after as many steps as it has
    instructions, or fewer;
  * `executedIndices_trace`: the trace of a run lists the places of its steps;
  * `forward_finishes`: a limit that allows a step for each instruction statement
    lets such a program finish, and it executes none of them twice.
-/
import RegisterMachine.Proofs.Faults
import RegisterMachine.Proofs.Records

namespace RegisterMachine

open Statement

/-! ## Jumps in statements -/

/-- Every jump names a label whose last declaration comes after it. -/
def JumpsForward (code : List Statement) : Prop :=
  ∀ place word condition operands, (word, condition) ∈ jumpWords →
    code[place]? = some (.instruction word operands) →
      ∃ name last, operands = [.name name] ∧ LastDeclaration code name last ∧ place < last

namespace Statement

theorem callsBefore_mono {code : List Statement} {place other : Nat} (h : place ≤ other) :
    callsBefore code place ≤ callsBefore code other :=
  ((List.take_sublist_take_left h).filterMap _).length_le

/-- The place of an instruction, which is after as many instructions as its index
    says. -/
theorem exists_place {code : List Statement} {index : Nat} {word : String}
    {operands : List Argument} (h : (calls code)[index]? = some (word, operands)) :
    ∃ place, code[place]? = some (.instruction word operands) ∧ callsBefore code place = index := by
  induction code generalizing index with
  | nil => cases h
  | cons s rest ih =>
    cases s with
    | label name =>
      obtain ⟨place, hp, hc⟩ := ih h
      exact ⟨place + 1, hp, hc⟩
    | instruction word' operands' =>
      cases index with
      | zero =>
        cases h
        exact ⟨0, rfl, rfl⟩
      | succ index =>
        obtain ⟨place, hp, hc⟩ := ih h
        exact ⟨place + 1, hp, by rw [callsBefore_instruction, hc]⟩

theorem LastDeclaration.unique {code : List Statement} {name : String} {place other : Nat}
    (h : LastDeclaration code name place) (h' : LastDeclaration code name other) :
    place = other := by
  rcases Nat.lt_trichotomy place other with hlt | heq | hgt
  · exact absurd h'.here (h.later other hlt)
  · exact heq
  · exact absurd h.here (h'.later place hgt)

end Statement

/-! ## Programs -/

/-- Every jump of a program goes forward, to the end at most. -/
def Program.Forward (p : Program) : Prop :=
  ∀ (index : Nat) condition target, p.instructions[index]? = some (.jump condition target) →
    (index : Int) < target ∧ target ≤ p.size

/-- **Jumps that go forward in the statements do so in the program.** -/
theorem forward_of_jumpsForward {code : List Statement} {p : Program}
    (h : (Program.assemble code).result = .ok p) (hf : JumpsForward code) : p.Forward := by
  intro index condition target hi
  obtain ⟨call, hcall, ht⟩ := exists_call h hi
  cases ht with
  | @jump word _ a _ hw ht =>
    obtain ⟨place, hplace, rfl⟩ := exists_place hcall
    obtain ⟨name, last, ha, hlast, hlt⟩ := hf place word condition _ hw hplace
    cases ha
    cases ht with
    | label hl =>
      have hle := hl.le
      obtain ⟨other, hother, rfl⟩ := hl
      obtain rfl := hlast.unique hother
      -- the jump itself is among the instructions before the label
      have hmono : callsBefore code (place + 1) ≤ callsBefore code last := callsBefore_mono hlt
      rw [callsBefore_succ hplace] at hmono
      rw [size_of_assemble h]
      omega

/-! ## Runs -/

namespace Program

open Machine

variable {p : Program} (hf : p.Forward) {m : Machine} {n : Nat}
include hf

/-- **A step goes on to a greater index**, and is not faulty. -/
theorem Forward.pc_lt_step (hh : m.isHalted p = false) :
    (m.step p).2 = none ∧ m.pc < (m.step p).1.pc := by
  have hs := stepsTo_step p m
  generalize m.step p = outcome at hs
  cases hs with
  | halted h =>
    rw [h] at hh
    cases hh
  | data | passed => exact ⟨rfl, m.pc.lt_succ_self⟩
  | taken hi =>
    have hjump := hf _ _ _ hi
    exact ⟨rfl, by simp; omega⟩
  | faulty hi _ hout =>
    have hjump := hf _ _ _ hi
    exact absurd ⟨by omega, hjump.2⟩ hout

/-- In a run each place is greater than those before. -/
theorem Forward.pc_lt_after (hr : Runs p n m) {j k : Nat} (hjk : j < k) (hk : k ≤ n) :
    (after p j m).pc < (after p k m).pc := by
  induction k with
  | zero => omega
  | succ k ih =>
    have hstep : (after p k m).pc < (after p (k + 1) m).pc := by
      rw [after_succ]
      exact (hf.pc_lt_step (hr k hk).1).2
    rcases Nat.lt_succ_iff_lt_or_eq.1 hjk with hlt | rfl
    · exact (ih hlt (by omega)).trans hstep
    · exact hstep

theorem Forward.le_pc_after (hr : Runs p n m) : n ≤ (after p n m).pc := by
  induction n with
  | zero => exact Nat.zero_le _
  | succ n ih =>
    have hlt : (after p n m).pc < (after p (n + 1) m).pc :=
      hf.pc_lt_after hr n.lt_succ_self le_rfl
    have hle := ih (hr.mono n.le_succ)
    omega

/-- **A run ends after a step for each instruction at the latest.** -/
theorem Forward.exists_haltsAfter : ∃ n ≤ p.size, ∃ registers, p.HaltsAfter n registers := by
  have he := ends_run p p.size {}
  generalize Machine.run p p.size {} = last at he
  cases he with
  | halted n hn hr hh => exact ⟨n, hn, _, hr, hh, rfl⟩
  | faulted n fault _ _ hh hfault =>
    rw [(hf.pc_lt_step hh).1] at hfault
    cases hfault
  | spent hr hh =>
    -- so many steps lead to the end at least
    have hle := hf.le_pc_after hr
    rw [isHalted, decide_eq_false_iff_not] at hh
    exact absurd hle hh

end Program

/-! ## Traces -/

/-- The place of the instruction that an event reports to be executed. -/
def Event.executedIndex? : Event → Option Nat
  | executed index _ => some index
  | _ => none

/-- The places of the instructions that are executed, in order. -/
def executedIndices (events : List Event) : List Nat :=
  events.filterMap Event.executedIndex?

/-- The trace of a run that halts lists the places from which its steps start. -/
theorem executedIndices_trace {p : Program} {m : Machine} {n budget : Nat} (hr : Machine.Runs p n m)
    (hh : (Machine.after p n m).isHalted p = true) (hn : n ≤ budget) :
    executedIndices (Machine.trace p budget m) =
      (List.range n).map fun k => (Machine.after p k m).pc := by
  rw [hr.trace_of_isHalted hh hn]
  clear hh hn
  induction n generalizing m with
  | zero => rfl
  | succ n ih =>
    obtain ⟨hrun, hstep⟩ : m.isHalted p = false ∧ (m.step p).2 = none := hr 0 n.succ_pos
    obtain ⟨i, hi⟩ := Machine.exists_nextEvent? hrun
    rw [Machine.trace_succ hrun hstep, hi, List.range_succ_eq_map, List.map_cons, List.map_map]
    exact congrArg (m.pc :: ·) (ih hr.tail)

/-! ## Forward programs finish -/

/-- Under a limit a program finishes after a number of steps, and no two of them
    execute the same instruction. -/
structure Finishes (p : Program) (n : Nat) (registers : Registers) (limit : StepLimit) : Prop where
  execute : p.execute limit = .ok registers
  steps : (p.finish limit).1.steps = n
  /-- The loop ends as well, if the steps can be counted. -/
  loop : n ≤ Machine.maxCount → p.loop limit (n + 1) = .ended (.ok registers)
  trace : executedIndices (p.trace limit) = (List.range n).map fun k => (Machine.after p k {}).pc
  nodup : (executedIndices (p.trace limit)).Nodup

theorem Program.le_budget {p : Program} {n : Nat} {limit : StepLimit} (hn : n ≤ p.size)
    (hl : ∀ l ∈ limit, p.size ≤ l) : n ≤ p.budget limit := by
  cases limit with
  | none =>
    calc n ≤ p.size + 1 := hn.trans p.size.le_succ
      _ ≤ p.stateCount := Nat.le_mul_of_pos_right _ (by decide)
  | some l => exact hn.trans (hl l rfl)

theorem Program.Forward.finishes {p : Program} (hf : p.Forward) {n : Nat} {registers : Registers}
    {limit : StepLimit} (hn : n ≤ p.size) (h : p.HaltsAfter n registers)
    (hl : ∀ l ∈ limit, p.size ≤ l) : Finishes p n registers limit := by
  obtain ⟨hr, hh, hregisters⟩ := h
  have hbudget : n ≤ p.budget limit := Program.le_budget hn hl
  have hfinish : p.finish limit = (Machine.after p n {}, .halted) :=
    Machine.run_eq_iff.2 (.halted n hbudget hr hh)
  have htrace := executedIndices_trace hr hh hbudget
  refine ⟨Program.execute_eq_ok_iff.2 ⟨n, hbudget, hr, hh, hregisters⟩, ?_, fun hc => ?_,
    htrace, ?_⟩
  · rw [hfinish]
    exact hr.steps_fresh
  · exact Program.loop_of_haltsAfter ⟨hr, hh, hregisters⟩ (fun l hm => hn.trans (hl l hm)) hc
  · have hnodup : ((List.range n).map fun k => (Machine.after p k {}).pc).Nodup := by
      refine List.nodup_range.map_on fun j hj k hk he => ?_
      rw [List.mem_range] at hj hk
      -- of two steps the later one is at the greater place
      rcases Nat.lt_trichotomy j k with hlt | heq | hgt
      · exact absurd he (hf.pc_lt_after hr hlt hk.le).ne
      · exact heq
      · exact absurd he (hf.pc_lt_after hr hgt hj.le).ne'
    exact htrace ▸ hnodup

/-- **Programs whose jumps go forward finish.**  The run halts after no more steps
    than there are instruction statements, each at a greater index than the one
    before it.  So it does without a limit, and under any limit that is not below
    their number, and it executes no instruction twice. -/
theorem forward_finishes {code : List Statement} {p : Program}
    (h : (Program.assemble code).result = .ok p) (hf : JumpsForward code) :
    ∃ n ≤ (calls code).length, ∃ registers, p.HaltsAfter n registers ∧
      (∀ j k, j < k → k ≤ n → (Machine.after p j {}).pc < (Machine.after p k {}).pc) ∧
        ∀ limit : StepLimit, (∀ l ∈ limit, (calls code).length ≤ l) →
          Finishes p n registers limit := by
  have hforward := forward_of_jumpsForward h hf
  have hsize := size_of_assemble h
  obtain ⟨n, hn, registers, hhalts⟩ := hforward.exists_haltsAfter
  refine ⟨n, hsize ▸ hn, registers, hhalts, fun j k => hforward.pc_lt_after hhalts.1,
    fun limit hl => hforward.finishes hn hhalts (hsize ▸ hl)⟩

/-- Jumps to a label that is declared before them, too, and to one at the end. -/
def skippingCode : List Statement :=
  [.label "on", .instruction "cmp" [.name "ax", .integer 0], .instruction "je" [.name "on"],
    .instruction "inc" [.name "ax"], .label "on", .instruction "jl" [.name "end"],
    .instruction "inc" [.name "bx"], .label "end"]

theorem jumpsForward_skippingCode : JumpsForward skippingCode := by
  have hon : LastDeclaration skippingCode "on" 4 := lastDeclaration?_eq_some_iff.1 (by decide)
  have hend : LastDeclaration skippingCode "end" 7 := lastDeclaration?_eq_some_iff.1 (by decide)
  intro place word condition operands hw hp
  have hlt : place < 8 := (List.getElem?_eq_some_iff.1 hp).1
  interval_cases place <;> cases hp
  · simp [jumpWords] at hw
  · exact ⟨"on", 4, rfl, hon, by omega⟩
  · simp [jumpWords] at hw
  · exact ⟨"end", 7, rfl, hend, by omega⟩
  · simp [jumpWords] at hw

theorem forward_finishes_skippingCode :
    ∃ p, (Program.assemble skippingCode).result = .ok p ∧ JumpsForward skippingCode ∧
      Finishes p 4 { bx := 1 } none ∧ Finishes p 4 { bx := 1 } (some 5) := by
  have h : (Program.assemble skippingCode).result =
      .ok ⟨#[.data .cmp .ax (.literal 0), .jump .equal 3, .data .inc .ax (.literal 1),
        .jump .less 5, .data .inc .bx (.literal 1)], [("on", 3), ("end", 5)]⟩ := by decide
  obtain ⟨n, hn, registers, hhalts, -, hfinishes⟩ := forward_finishes h jumpsForward_skippingCode
  have hsome := hfinishes (some 5) (by simp [skippingCode])
  obtain rfl : 4 = n := hsome.steps
  have he : Except.ok { bx := 1 } = Except.ok registers := hsome.execute
  cases he
  exact ⟨_, h, jumpsForward_skippingCode, hfinishes none (by simp), hsome⟩

end RegisterMachine
