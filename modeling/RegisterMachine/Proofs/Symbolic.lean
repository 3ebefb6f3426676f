/-
  Running statements without assembling them.

  A symbolic run stands at a place in the statements.  Labels are passed over, a
  jump to a label goes to its last declaration, and a jump to an index looks for
  the instruction that many instructions are before.  Mnemonics and operands are
  read when they are executed: what cannot be read leaves the run stuck.

  * `Symbolic.step` executes one instruction, `Symbolic.after` some number of
    them;
  * `Agree code s m`: the symbolic state `s` is what the machine state `m` stands
    for.  `agreeStep_step`: one step of both keeps it, and gives the same fault;
  * `lockstep`: a program runs as its statements do, for any number of steps.
-/
import RegisterMachine.Machine
import RegisterMachine.Proofs.Translation

namespace RegisterMachine

open Statement

/-- The state of a symbolic run: a place in the statements, and the bank. -/
structure Symbolic where
  place : Nat := 0
  bank : Bank := {}
  deriving DecidableEq, Repr

namespace Symbolic

/-! ## Symbolic steps -/

/-- The place of the first instruction from a place on, or the end. -/
def skipLabels (code : List Statement) (place : Nat) : Nat :=
  place + (code.drop place).findIdx fun s => s.call?.isSome

/-- The place of the instruction that some number of instructions are before;
    the end, if it is the number of all of them. -/
def instructionPlace? : List Statement → Nat → Option Nat
  | [], 0 => some 0
  | [], _ + 1 => none
  | .label _ :: rest, k => (instructionPlace? rest k).map (· + 1)
  | .instruction .. :: _, 0 => some 0
  | .instruction .. :: rest, k + 1 => (instructionPlace? rest k).map (· + 1)

/-- The place of an index that may lie outside of the program. -/
def indexPlace? (code : List Statement) (index : Int) : Option Nat :=
  if 0 ≤ index then instructionPlace? code index.toNat else none

/-- The register that an operand names. -/
def register? : Argument → Option Register
  | .integer _ => none
  | .name name => registerWords.lookup name

/-- The value of an operand.  A label has the number of instructions before its
    last declaration. -/
def value? (code : List Statement) (s : Symbolic) : Argument → Option Word
  | .integer value => some value
  | .name name =>
    match registerWords.lookup name with
    | some r => some (s.bank.get r)
    | none => (lastDeclaration? name code).map fun place => Int64.ofNat (callsBefore code place)

/-- Sets a register to what `f` makes of it and a value, and goes on. -/
def assign (code : List Statement) (s : Symbolic) (f : Word → Word → Word) (lhs rhs : Argument) :
    Option (Symbolic × Option JumpFault) := do
  let r ← register? lhs
  let value ← s.value? code rhs
  return (⟨s.place + 1, s.bank.set r (f (s.bank.get r) value)⟩, none)

/-- Sets the comparison to the difference of a register and a value, and goes
    on. -/
def compare (code : List Statement) (s : Symbolic) (lhs rhs : Argument) :
    Option (Symbolic × Option JumpFault) := do
  let r ← register? lhs
  let value ← s.value? code rhs
  return (⟨s.place + 1, { s.bank with comparison := s.bank.get r - value }⟩, none)

/-- Goes to an index or to a label. -/
def goto (code : List Statement) (s : Symbolic) : Argument → Option (Symbolic × Option JumpFault)
  | .integer k =>
    match indexPlace? code k.toInt with
    | some place => some ({ s with place }, none)
    | none => some (s, some ⟨callsBefore code s.place, k.toInt, (calls code).length⟩)
  | .name name => (lastDeclaration? name code).map fun place => ({ s with place }, none)

/-- Goes to a target if the comparison is as it should be. -/
def branch (code : List Statement) (s : Symbolic) (taken : Bool) (target : Argument) :
    Option (Symbolic × Option JumpFault) :=
  if taken then s.goto code target else some ({ s with place := s.place + 1 }, none)

/-- Executes the instruction at the place of a state. -/
def execute (code : List Statement) (s : Symbolic) :
    String → List Argument → Option (Symbolic × Option JumpFault)
  | "mov", [lhs, rhs] => s.assign code (fun _ value => value) lhs rhs
  | "inc", [lhs, rhs] => s.assign code (fun old value => old + value) lhs rhs
  | "inc", [lhs] => s.assign code (fun old value => old + value) lhs (.integer 1)
  | "dec", [lhs, rhs] => s.assign code (fun old value => old - value) lhs rhs
  | "dec", [lhs] => s.assign code (fun old value => old - value) lhs (.integer 1)
  | "cmp", [lhs, rhs] => s.compare code lhs rhs
  | "jmp", [target] => s.goto code target
  | "je", [target] => s.branch code (s.bank.comparison = 0) target
  | "jne", [target] => s.branch code (s.bank.comparison ≠ 0) target
  | "jl", [target] => s.branch code (s.bank.comparison < 0) target
  | "jle", [target] => s.branch code (s.bank.comparison ≤ 0) target
  | "jg", [target] => s.branch code (s.bank.comparison > 0) target
  | "jge", [target] => s.branch code (s.bank.comparison ≥ 0) target
  | _, _ => none

/-- Passes over labels and executes one instruction.  Without one left, nothing
    happens. -/
def step (code : List Statement) (s : Symbolic) : Option (Symbolic × Option JumpFault) :=
  let here := skipLabels code s.place
  match code[here]? with
  | some (.instruction mnemonic operands) => execute code { s with place := here } mnemonic operands
  | _ => some (s, none)

/-- The state after a number of steps, faulty ones included. -/
def after (code : List Statement) : Nat → Symbolic → Option Symbolic
  | 0, s => some s
  | n + 1, s => (s.step code).bind fun next => after code n next.1

/-- No instruction is left. -/
def Halted (code : List Statement) (s : Symbolic) : Prop :=
  calls (code.drop s.place) = []

/-! ## Places -/

theorem callsBefore_skipLabels (code : List Statement) (place : Nat) :
    callsBefore code (skipLabels code place) = callsBefore code place := by
  have hnone : calls ((code.drop place).take
      ((code.drop place).findIdx fun s => s.call?.isSome)) = [] := by
    refine List.filterMap_eq_nil_iff.2 fun s hs => ?_
    simpa using List.false_of_mem_take_findIdx hs
  unfold callsBefore skipLabels
  rw [List.take_add, calls_append, hnone, List.append_nil]

/-- Behind the labels stands an instruction, or the end if none is left. -/
theorem getElem?_skipLabels (code : List Statement) (place : Nat) :
    (∃ mnemonic operands,
        code[skipLabels code place]? = some (.instruction mnemonic operands)) ∨
      (calls (code.drop place) = [] ∧ code[skipLabels code place]? = none) := by
  unfold skipLabels
  rw [← List.getElem?_drop]
  cases hs : (code.drop place)[(code.drop place).findIdx fun s => s.call?.isSome]? with
  | none =>
    have hlen : (code.drop place).findIdx (fun s => s.call?.isSome) = (code.drop place).length :=
      le_antisymm List.findIdx_le_length (List.getElem?_eq_none_iff.1 hs)
    refine Or.inr ⟨List.filterMap_eq_nil_iff.2 fun s hm => ?_, rfl⟩
    simpa using List.findIdx_eq_length.1 hlen s hm
  | some s =>
    have hi := List.findIdx_of_getElem?_eq_some hs
    cases s with
    | label name => simp [call?] at hi
    | instruction mnemonic operands => exact Or.inl ⟨mnemonic, operands, rfl⟩

theorem exists_instructionPlace? {code : List Statement} {k : Nat} (hk : k ≤ (calls code).length) :
    ∃ place, instructionPlace? code k = some place ∧ callsBefore code place = k := by
  induction code generalizing k with
  | nil =>
    obtain rfl : k = 0 := by simpa using hk
    exact ⟨0, rfl, rfl⟩
  | cons s rest ih =>
    cases s with
    | label name =>
      obtain ⟨place, hp, hc⟩ := ih hk
      exact ⟨place + 1, by simp [instructionPlace?, hp], hc⟩
    | instruction mnemonic operands =>
      cases k with
      | zero => exact ⟨0, rfl, rfl⟩
      | succ k =>
        obtain ⟨place, hp, rfl⟩ := ih (Nat.le_of_succ_le_succ hk)
        exact ⟨place + 1, by simp [instructionPlace?, hp], rfl⟩

theorem instructionPlace?_eq_none {code : List Statement} {k : Nat}
    (hk : (calls code).length < k) : instructionPlace? code k = none := by
  induction code generalizing k with
  | nil =>
    cases k with
    | zero => simp at hk
    | succ k => rfl
  | cons s rest ih =>
    cases s with
    | label name => simp [instructionPlace?, ih hk]
    | instruction mnemonic operands =>
      cases k with
      | zero => simp at hk
      | succ k => simp [instructionPlace?, ih (Nat.lt_of_succ_lt_succ hk)]

theorem exists_indexPlace? {code : List Statement} {index : Int}
    (hi : 0 ≤ index ∧ index ≤ (calls code).length) :
    ∃ place, indexPlace? code index = some place ∧ callsBefore code place = index.toNat := by
  have hk : index.toNat ≤ (calls code).length := by omega
  obtain ⟨place, hp, hc⟩ := exists_instructionPlace? hk
  exact ⟨place, by rw [indexPlace?, if_pos hi.1, hp], hc⟩

theorem indexPlace?_eq_none {code : List Statement} {index : Int}
    (hi : ¬ (0 ≤ index ∧ index ≤ (calls code).length)) : indexPlace? code index = none := by
  unfold indexPlace?
  split_ifs with h0
  · exact instructionPlace?_eq_none (by omega)
  · rfl

/-! ## Agreement -/

/-- A symbolic state and a machine state agree: as many instructions are before
    the place as the program counter says, and the banks are the same. -/
structure Agree (code : List Statement) (s : Symbolic) (m : Machine) : Prop where
  pc : m.pc = callsBefore code s.place
  bank : m.bank = s.bank

/-- The outcomes of a symbolic step and of a machine step agree: the symbolic one
    is not stuck, the states agree, and the fault is the same, if there is one. -/
def AgreeStep (code : List Statement) (outcome : Option (Symbolic × Option JumpFault))
    (result : Machine × Option JumpFault) : Prop :=
  ∃ s, outcome = some (s, result.2) ∧ Agree code s result.1

section
variable {code : List Statement} {p : Program} (h : (Program.assemble code).result = .ok p)
include h

theorem value?_of_readsValue {s : Symbolic} {a : Argument} {operand : Operand}
    (hv : ReadsValue code a operand) : s.value? code a = some (s.bank.value operand) := by
  rcases hv with _ | hr | hi
  · rfl
  · simp only [value?, lookup_registerWords_iff.2 hr]
    rfl
  · rename_i name index
    have hn := (isLabelName_iff.1 ((binds_of_assemble h).isLabelName name hi.mem)).2
    have hl : registerWords.lookup name = none := by
      rw [Option.eq_none_iff_forall_ne_some]
      exact fun r hr => hn ⟨r, lookup_registerWords_iff.1 hr⟩
    obtain ⟨place, hp, rfl⟩ := hi
    simp only [value?, hl, lastDeclaration?_eq_some_iff.2 hp]
    rfl

theorem agreeStep_goto {s : Symbolic} {m : Machine} (ha : Agree code s m) {a : Argument}
    {target : Int} (ht : ReadsTarget code a target) :
    AgreeStep code (s.goto code a) (m.jumpTo p target) := by
  rcases ht with _ | hi
  · rename_i k
    unfold Machine.jumpTo
    rw [size_of_assemble h]
    split_ifs with hk
    · obtain ⟨place, hp, hc⟩ := exists_indexPlace? hk
      exact ⟨{ s with place }, by simp only [goto, hp], hc.symm, ha.bank⟩
    · exact ⟨s, by simp only [goto, indexPlace?_eq_none hk, ha.pc], ha⟩
  · have hle := hi.le
    obtain ⟨place, hp, rfl⟩ := hi
    unfold Machine.jumpTo
    rw [size_of_assemble h, if_pos (by omega)]
    refine ⟨{ s with place }, ?_, by simp, ha.bank⟩
    simp [goto, lastDeclaration?_eq_some_iff.2 hp]

/-! Each instruction keeps agreement.  The place must be the one of the
instruction: the labels before it are passed over already. -/

variable {s : Symbolic} {m : Machine} (ha : Agree code s m) {word : String}
  {operands : List Argument} (hs : code[s.place]? = some (.instruction word operands))
include ha hs

theorem agreeStep_branch (condition : Condition) {taken : Bool}
    (hc : taken = condition.holds s.bank.comparison) {a : Argument} {target : Int}
    (ht : ReadsTarget code a target) :
    AgreeStep code (s.branch code taken a) (m.execute p (.jump condition target)) := by
  simp only [branch, Machine.execute, ha.bank, ← hc]
  cases taken with
  | true => exact agreeStep_goto h ha ht
  | false =>
    refine ⟨{ s with place := s.place + 1 }, rfl, ?_, rfl⟩
    rw [callsBefore_succ hs, ← ha.pc]
    rfl

theorem agreeStep_assign (op : DataOp) (f : Word → Word → Word)
    (hf : ∀ (bank : Bank) r value, bank.perform op r value = bank.set r (f (bank.get r) value))
    {name : String} {r : Register} {rhs : Argument} {operand : Operand}
    (hr : (name, r) ∈ registerWords) (hv : ReadsValue code rhs operand) :
    AgreeStep code (s.assign code f (.name name) rhs) (m.execute p (.data op r operand)) := by
  refine ⟨⟨s.place + 1, s.bank.perform op r (s.bank.value operand)⟩, ?_, ?_, ?_⟩
  · simp only [assign, register?, lookup_registerWords_iff.2 hr, value?_of_readsValue h hv, hf]
    rfl
  · rw [callsBefore_succ hs, ← ha.pc]
    rfl
  · rw [← ha.bank]
    rfl

theorem agreeStep_compare {name : String} {r : Register} {rhs : Argument} {operand : Operand}
    (hr : (name, r) ∈ registerWords) (hv : ReadsValue code rhs operand) :
    AgreeStep code (s.compare code (.name name) rhs) (m.execute p (.data .cmp r operand)) := by
  refine ⟨⟨s.place + 1, s.bank.perform .cmp r (s.bank.value operand)⟩, ?_, ?_, ?_⟩
  · simp only [compare, register?, lookup_registerWords_iff.2 hr, value?_of_readsValue h hv]
    rfl
  · rw [callsBefore_succ hs, ← ha.pc]
    rfl
  · rw [← ha.bank]
    rfl

/-- **An instruction and its translation do the same.** -/
theorem agreeStep_execute {i : Instruction} (ht : Translates code (word, operands) i) :
    AgreeStep code (s.execute code word operands) (m.execute p i) := by
  rcases ht with ⟨hw, hr, hv⟩ | ⟨hw, hr⟩ | ⟨hw, ht⟩
  · simp only [dataWords, List.mem_cons, Prod.mk.injEq, List.not_mem_nil, or_false] at hw
    rcases hw with ⟨rfl, rfl⟩ | ⟨rfl, rfl⟩ | ⟨rfl, rfl⟩ | ⟨rfl, rfl⟩
    · exact agreeStep_assign h ha hs .mov (fun _ value => value) (fun _ _ _ => rfl) hr hv
    · exact agreeStep_assign h ha hs .inc (· + ·) (fun _ _ _ => rfl) hr hv
    · exact agreeStep_assign h ha hs .dec (· - ·) (fun _ _ _ => rfl) hr hv
    · exact agreeStep_compare h ha hs hr hv
  · simp only [stepWords, List.mem_cons, Prod.mk.injEq, List.not_mem_nil, or_false] at hw
    rcases hw with ⟨rfl, rfl⟩ | ⟨rfl, rfl⟩
    · exact agreeStep_assign h ha hs .inc (· + ·) (fun _ _ _ => rfl) hr .integer
    · exact agreeStep_assign h ha hs .dec (· - ·) (fun _ _ _ => rfl) hr .integer
  · simp only [jumpWords, List.mem_cons, Prod.mk.injEq, List.not_mem_nil, or_false] at hw
    rcases hw with ⟨rfl, rfl⟩ | ⟨rfl, rfl⟩ | ⟨rfl, rfl⟩ | ⟨rfl, rfl⟩ | ⟨rfl, rfl⟩ | ⟨rfl, rfl⟩ |
      ⟨rfl, rfl⟩
    · exact agreeStep_goto h ha ht
    · exact agreeStep_branch h ha hs .equal (by simp [Condition.holds, beq_eq_decide]) ht
    · exact agreeStep_branch h ha hs .notEqual (by simp [Condition.holds, bne, beq_eq_decide]) ht
    · exact agreeStep_branch h ha hs .less rfl ht
    · exact agreeStep_branch h ha hs .lessEqual rfl ht
    · exact agreeStep_branch h ha hs .greater rfl ht
    · exact agreeStep_branch h ha hs .greaterEqual rfl ht

end

section
variable {code : List Statement} {p : Program} (h : (Program.assemble code).result = .ok p)
include h

theorem halted_iff {s : Symbolic} {m : Machine} (ha : Agree code s m) :
    m.isHalted p = true ↔ s.Halted code := by
  have hadd := callsBefore_add_drop code s.place
  rw [Machine.isHalted, decide_eq_true_iff, size_of_assemble h, ha.pc, Halted,
    ← List.length_eq_zero_iff]
  omega

/-- **One step keeps agreement**, and gives the same fault on both sides. -/
theorem agreeStep_step {s : Symbolic} {m : Machine} (ha : Agree code s m) :
    AgreeStep code (s.step code) (m.step p) := by
  unfold step Machine.step
  rcases getElem?_skipLabels code s.place with ⟨word, operands, hs⟩ | ⟨hd, hs⟩
  · have hpc : m.pc = callsBefore code (skipLabels code s.place) := by
      rw [callsBefore_skipLabels, ha.pc]
    obtain ⟨i, hi, ht⟩ := getElem?_instructions h (getElem?_calls hs)
    rw [← hpc] at hi
    simp only [hs, hi]
    exact agreeStep_execute h (s := ⟨skipLabels code s.place, s.bank⟩)
      (m := { m with steps := m.steps + 1 }) ⟨hpc, ha.bank⟩ hs ht
  · have hh : p.instructions[m.pc]? = none := by
      rw [Array.getElem?_eq_none_iff]
      exact of_decide_eq_true ((halted_iff h ha).2 hd)
    simp only [hs, hh]
    exact ⟨s, rfl, ha⟩

/-- Any number of steps keeps agreement. -/
theorem agree_after (n : Nat) {s : Symbolic} {m : Machine} (ha : Agree code s m) :
    ∃ t, after code n s = some t ∧ Agree code t (Machine.after p n m) := by
  induction n generalizing s m with
  | zero => exact ⟨s, rfl, ha⟩
  | succ n ih =>
    obtain ⟨next, hn, han⟩ := agreeStep_step h ha
    obtain ⟨t, ht, hat⟩ := ih han
    exact ⟨t, by rw [after, hn]; exact ht, hat⟩

/-- **A program runs as its statements do.**  After any number of steps the
    symbolic run is not stuck, and has the registers, the comparison, the place
    and the halting of the machine; and the next step has the same fault. -/
theorem lockstep (n : Nat) :
    ∃ s next fault, after code n {} = some s ∧ s.step code = some (next, fault) ∧
      (Machine.after p n {}).bank.registers = s.bank.registers ∧
      (Machine.after p n {}).bank.comparison = s.bank.comparison ∧
      (Machine.after p n {}).pc = callsBefore code s.place ∧
      ((Machine.after p n {}).isHalted p = true ↔ s.Halted code) ∧
      ((Machine.after p n {}).step p).2 = fault := by
  obtain ⟨s, hs, ha⟩ := agree_after h n (s := {}) (m := {}) ⟨rfl, rfl⟩
  obtain ⟨next, hn, -⟩ := agreeStep_step h ha
  exact ⟨s, next, _, hs, hn, by rw [ha.bank], by rw [ha.bank], ha.pc, halted_iff h ha, rfl⟩

end

/-- A label that is declared twice and used as a value and as a target, and a
    last jump beyond the end. -/
def loopCode : List Statement :=
  [.label "top", .instruction "mov" [.name "cx", .name "top"], .label "top",
    .instruction "dec" [.name "cx"], .instruction "cmp" [.name "cx", .integer 0],
    .instruction "jg" [.name "top"], .instruction "jmp" [.integer 9], .label "end"]

theorem lockstep_loopCode :
    ∃ s next, after loopCode 4 {} = some s ∧ s.place = 6 ∧
      s.step loopCode = some (next, some ⟨4, 9, 5⟩) := by
  have h : (Program.assemble loopCode).result =
      .ok ⟨#[.data .mov .cx (.literal 1), .data .dec .cx (.literal 1),
        .data .cmp .cx (.literal 0), .jump .greater 1, .jump .always 9],
        [("top", 1), ("end", 5)]⟩ := by decide
  obtain ⟨s, next, fault, hs, hn, -, -, -, -, rfl⟩ := lockstep h 4
  have hp : after loopCode 4 {} = some ⟨6, {}⟩ := by decide
  cases hp.symm.trans hs
  exact ⟨_, next, hs, rfl, hn⟩

end Symbolic

end RegisterMachine
