/-
  The machine against one that computes with all integers.

  * `IdealMachine` runs the same programs with unbounded registers and an
    unbounded comparison value; `IdealMachine.step` is its step function;
  * `Congruent m s`: the machine `m` holds the words of the integers that the
    ideal machine `s` holds.  A step keeps this, and is faulty iff the ideal step
    is, unless a conditional jump tests a difference that is no word
    (`Congruent.step`);
  * `congruent_after`: so do `n` steps.  `wrapping_agrees`: after them the machine
    is at the place of the ideal one, with its registers modulo 2⁶⁴, and it has
    its very values as long as these are words.
-/
import Mathlib.Tactic
import RegisterMachine.Proofs.Iteration

namespace RegisterMachine

/-! ## The ideal machine -/

/-- A machine with unbounded registers. -/
structure IdealMachine where
  pc : Nat := 0
  registers : Register → Int := fun _ => 0
  comparison : Int := 0

/-- Whether an unbounded comparison value takes a jump. -/
def Condition.holdsIdeally (condition : Condition) (comparison : Int) : Bool :=
  match condition with
  | always => true
  | equal => comparison == 0
  | notEqual => comparison != 0
  | less => comparison < 0
  | lessEqual => comparison ≤ 0
  | greater => 0 < comparison
  | greaterEqual => 0 ≤ comparison

namespace IdealMachine

def isHalted (p : Program) (s : IdealMachine) : Bool :=
  p.size ≤ s.pc

def value (s : IdealMachine) : Operand → Int
  | .register r => s.registers r
  | .literal value => value.toInt

def set (s : IdealMachine) (r : Register) (value : Int) : IdealMachine :=
  { s with registers := Function.update s.registers r value }

/-- Carries out a data operation.  A comparison stores the exact difference. -/
def perform (s : IdealMachine) (op : DataOp) (lhs : Register) (value : Int) : IdealMachine :=
  match op with
  | .mov => s.set lhs value
  | .inc => s.set lhs (s.registers lhs + value)
  | .dec => s.set lhs (s.registers lhs - value)
  | .cmp => { s with comparison := s.registers lhs - value }

def jumpTo (p : Program) (s : IdealMachine) (target : Int) : IdealMachine × Option JumpFault :=
  if 0 ≤ target ∧ target ≤ p.size then ({ s with pc := target.toNat }, none)
  else (s, some ⟨s.pc, target, p.size⟩)

def execute (p : Program) (s : IdealMachine) : Instruction → IdealMachine × Option JumpFault
  | .data op lhs rhs => ({ s.perform op lhs (s.value rhs) with pc := s.pc + 1 }, none)
  | .jump condition target =>
    if condition.holdsIdeally s.comparison then s.jumpTo p target
    else ({ s with pc := s.pc + 1 }, none)

def step (p : Program) (s : IdealMachine) : IdealMachine × Option JumpFault :=
  match p.instructions[s.pc]? with
  | none => (s, none)
  | some i => execute p s i

/-- The machine after a number of steps, faulty ones included. -/
def after (p : Program) : Nat → IdealMachine → IdealMachine
  | 0, s => s
  | n + 1, s => after p n (s.step p).1

theorem after_succ (p : Program) (n : Nat) (s : IdealMachine) :
    after p (n + 1) s = ((after p n s).step p).1 := by
  induction n generalizing s with
  | zero => rfl
  | succ n ih => exact ih _

end IdealMachine

/-! ## Integers that are words -/

/-- The integer is the value of a word. -/
def Fits (v : Int) : Prop :=
  -2 ^ 63 ≤ v ∧ v < 2 ^ 63

instance (v : Int) : Decidable (Fits v) :=
  inferInstanceAs (Decidable (_ ∧ _))

theorem fits_toInt (w : Word) : Fits w.toInt :=
  ⟨w.le_toInt, w.toInt_lt⟩

theorem Fits.toInt_ofInt {v : Int} (h : Fits v) : (Int64.ofInt v).toInt = v :=
  Int64.toInt_ofInt_of_le h.1 h.2

/-- On a word both readings of a condition are the same. -/
theorem Condition.holds_ofInt {v : Int} (h : Fits v) (condition : Condition) :
    condition.holds (Int64.ofInt v) = condition.holdsIdeally v := by
  have hz : (0 : Word).toInt = 0 := rfl
  have heq : Int64.ofInt v = 0 ↔ v = 0 := by rw [← Int64.toInt_inj, h.toInt_ofInt, hz]
  have hlt : Int64.ofInt v < 0 ↔ v < 0 := by rw [Int64.lt_iff_toInt_lt, h.toInt_ofInt, hz]
  have hgt : 0 < Int64.ofInt v ↔ 0 < v := by rw [Int64.lt_iff_toInt_lt, h.toInt_ofInt, hz]
  have hle : Int64.ofInt v ≤ 0 ↔ v ≤ 0 := by rw [Int64.le_iff_toInt_le, h.toInt_ofInt, hz]
  have hge : 0 ≤ Int64.ofInt v ↔ 0 ≤ v := by rw [Int64.le_iff_toInt_le, h.toInt_ofInt, hz]
  cases condition with
  | always => rfl
  | equal | notEqual => simp only [holds, holdsIdeally, bne, Bool.beq_eq_decide_eq, heq]
  | less | lessEqual | greater | greaterEqual =>
    simp only [holds, holdsIdeally, hlt, hle, hgt, hge]

/-! ## Congruent machines -/

/-- The words of a machine are those of the integers of an ideal one. -/
structure Congruent (m : Machine) (s : IdealMachine) : Prop where
  pc : m.pc = s.pc
  registers : ∀ r, m.bank.get r = Int64.ofInt (s.registers r)
  comparison : m.bank.comparison = Int64.ofInt s.comparison

/-- The jumps that test the comparison value. -/
def Instruction.IsBranch : Instruction → Prop
  | data _ _ _ => False
  | jump condition _ => condition ≠ .always

instance : DecidablePred Instruction.IsBranch
  | .data _ _ _ => inferInstanceAs (Decidable False)
  | .jump condition _ => inferInstanceAs (Decidable (condition ≠ .always))

/-- If the next instruction tests the comparison value, that is a word. -/
def IdealMachine.BranchFits (p : Program) (s : IdealMachine) : Prop :=
  ∀ i ∈ p.instructions[s.pc]?, i.IsBranch → Fits s.comparison

instance (p : Program) (s : IdealMachine) : Decidable (s.BranchFits p) :=
  inferInstanceAs (Decidable (∀ i ∈ p.instructions[s.pc]?, i.IsBranch → Fits s.comparison))

namespace Congruent

variable {p : Program} {m : Machine} {s : IdealMachine}

theorem initial : Congruent {} {} :=
  ⟨rfl, fun r => by cases r <;> rfl, rfl⟩

section
variable (h : Congruent m s)
include h

theorem value (rhs : Operand) : m.bank.value rhs = Int64.ofInt (s.value rhs) := by
  cases rhs with
  | register r => exact h.registers r
  | literal value => exact (Int64.ofInt_toInt value).symm

theorem set (r : Register) (v : Int) :
    Congruent { m with bank := m.bank.set r (Int64.ofInt v) } (s.set r v) := by
  refine ⟨h.pc, fun q => ?_, h.comparison⟩
  simp only [Bank.get, Bank.set, Registers.get_set, IdealMachine.set, Function.update_apply]
  split_ifs
  · rfl
  · exact h.registers q

theorem perform (op : DataOp) (lhs : Register) (v : Int) :
    Congruent { m with bank := m.bank.perform op lhs (Int64.ofInt v) } (s.perform op lhs v) := by
  cases op with
  | mov => exact h.set lhs v
  | inc =>
    simp only [Bank.perform, h.registers, ← Int64.ofInt_add]
    exact h.set lhs _
  | dec =>
    simp only [Bank.perform, h.registers, ← Int64.ofInt_sub]
    exact h.set lhs _
  | cmp =>
    refine ⟨h.pc, h.registers, ?_⟩
    simp only [Bank.perform, h.registers, ← Int64.ofInt_sub]
    rfl

theorem goTo (pc : Nat) : Congruent { m with pc } { s with pc } :=
  ⟨rfl, h.registers, h.comparison⟩

theorem jumpTo (target : Int) :
    Congruent (m.jumpTo p target).1 (s.jumpTo p target).1 ∧
      (m.jumpTo p target).2 = (s.jumpTo p target).2 := by
  simp only [Machine.jumpTo, IdealMachine.jumpTo, h.pc]
  split_ifs
  · exact ⟨h.goTo _, rfl⟩
  · exact ⟨h, rfl⟩

theorem holds {condition : Condition} (hf : condition ≠ .always → Fits s.comparison) :
    condition.holds m.bank.comparison = condition.holdsIdeally s.comparison := by
  rw [h.comparison]
  by_cases ha : condition = .always
  · rw [ha]
    rfl
  · exact Condition.holds_ofInt (hf ha) condition

theorem execute {i : Instruction} (hf : i.IsBranch → Fits s.comparison) :
    Congruent (m.execute p i).1 (s.execute p i).1 ∧ (m.execute p i).2 = (s.execute p i).2 := by
  cases i with
  | data op lhs rhs =>
    refine ⟨?_, rfl⟩
    simp only [Machine.execute, IdealMachine.execute, h.value, h.pc]
    exact (h.perform op lhs _).goTo _
  | jump condition target =>
    simp only [Machine.execute, IdealMachine.execute, h.holds hf]
    split_ifs
    · exact h.jumpTo target
    · rw [h.pc]
      exact ⟨h.goTo _, rfl⟩

/-- **A step keeps machines congruent**, and both are faulty or none is. -/
theorem step (hf : s.BranchFits p) :
    Congruent (m.step p).1 (s.step p).1 ∧ (m.step p).2 = (s.step p).2 := by
  have hpc : p.instructions[m.pc]? = p.instructions[s.pc]? := by rw [h.pc]
  cases hi : p.instructions[s.pc]? with
  | none =>
    simp only [Machine.step, IdealMachine.step, hpc, hi]
    exact ⟨h, trivial⟩
  | some i =>
    simp only [Machine.step, IdealMachine.step, hpc, hi]
    -- counting a step changes nothing that is compared
    have hc : Congruent { m with steps := m.steps + 1 } s := ⟨h.pc, h.registers, h.comparison⟩
    exact hc.execute (hf i hi)

theorem isHalted : m.isHalted p = s.isHalted p := by
  rw [Machine.isHalted, IdealMachine.isHalted, h.pc]

end

end Congruent

/-! ## Runs -/

/-- All comparison values that the first steps test are words. -/
def BranchesFit (p : Program) (n : Nat) : Prop :=
  ∀ k < n, (IdealMachine.after p k {}).BranchFits p

instance (p : Program) (n : Nat) : Decidable (BranchesFit p n) :=
  inferInstanceAs (Decidable (∀ k < n, (IdealMachine.after p k {}).BranchFits p))

theorem congruent_after {p : Program} {n : Nat} (h : BranchesFit p n) :
    Congruent (Machine.after p n {}) (IdealMachine.after p n {}) := by
  induction n with
  | zero => exact .initial
  | succ n ih =>
    rw [Machine.after_succ, IdealMachine.after_succ]
    have hn := ih fun k hk => h k (hk.trans n.lt_succ_self)
    exact (hn.step (h n n.lt_succ_self)).1

/-- After a number of steps the machine is where the ideal one is, with its
    registers modulo 2⁶⁴, and on the way it has had the same faults. -/
structure AgreesAfter (p : Program) (n : Nat) : Prop where
  pc : (Machine.after p n {}).pc = (IdealMachine.after p n {}).pc
  isHalted : (Machine.after p n {}).isHalted p = (IdealMachine.after p n {}).isHalted p
  faults : ∀ k < n, ((Machine.after p k {}).step p).2 = ((IdealMachine.after p k {}).step p).2
  registers : ∀ r, ((Machine.after p n {}).bank.get r).toInt =
    ((IdealMachine.after p n {}).registers r).bmod (2 ^ 64)

theorem BranchesFit.agreesAfter {p : Program} {n : Nat} (h : BranchesFit p n) :
    AgreesAfter p n := by
  have hn := congruent_after h
  refine ⟨hn.pc, hn.isHalted, fun k hk => ?_, fun r => ?_⟩
  · have hc := congruent_after fun j hj => h j (hj.trans hk)
    exact (hc.step (h k hk)).2
  · rw [hn.registers, Int64.toInt_ofInt]
    rfl

/-- The program tests no comparison value. -/
def Branchless (p : Program) : Prop :=
  ∀ i ∈ p.instructions, ¬ i.IsBranch

theorem Branchless.branchesFit {p : Program} (h : Branchless p) (n : Nat) : BranchesFit p n :=
  fun _ _ i hi hb => absurd hb (h i (Array.mem_of_getElem? hi))

/-- All values of an ideal machine are words. -/
structure IdealMachine.Bounded (s : IdealMachine) : Prop where
  registers : ∀ r, Fits (s.registers r)
  comparison : Fits s.comparison

/-- **Wrapping arithmetic agrees with that of all integers.**  As long as the
    conditional jumps test words, the machine goes the way of the ideal one, and
    its registers are those of the ideal one modulo 2⁶⁴.  Without conditional
    jumps that is always so, and without a value that is no word the registers
    are the same. -/
theorem wrapping_agrees (p : Program) :
    (∀ n, BranchesFit p n → AgreesAfter p n) ∧
      (Branchless p → ∀ n, AgreesAfter p n) ∧
      (∀ n, (∀ k ≤ n, (IdealMachine.after p k {}).Bounded) → AgreesAfter p n ∧
        ∀ r, ((Machine.after p n {}).bank.get r).toInt =
          (IdealMachine.after p n {}).registers r) := by
  refine ⟨fun n h => h.agreesAfter, fun h n => (h.branchesFit n).agreesAfter, fun n hb => ?_⟩
  have h : BranchesFit p n := fun k hk _ _ _ => (hb k hk.le).comparison
  refine ⟨h.agreesAfter, fun r => ?_⟩
  rw [(congruent_after h).registers, ((hb n le_rfl).registers r).toInt_ofInt]

/-- A jump that tests a wrapped difference goes the other way. -/
example :
    let p : Program := ⟨#[.data .mov .ax (.literal Int64.minValue), .data .cmp .ax (.literal 1),
      .jump .less 0], []⟩
    (Machine.after p 3 {}).pc = 3 ∧ (IdealMachine.after p 3 {}).pc = 0 := by
  decide

/-- Doubles `ax`, which starts with the greatest word, again and again. -/
def doubling : Program :=
  ⟨#[.data .mov .ax (.literal 9223372036854775807), .data .inc .ax (.register .ax),
    .data .cmp .bx (.literal 1), .jump .less 1], []⟩

/-- The instructions of it that are executed once. -/
def doublingOnce : Program :=
  ⟨doubling.instructions.take 2, []⟩

theorem wrapping_agrees_doubling :
    (BranchesFit doubling 6 ∧ AgreesAfter doubling 6 ∧
      (IdealMachine.after doubling 6 {}).registers .ax = 4 * (2 ^ 63 - 1) ∧
      (Machine.after doubling 6 {}).bank.get .ax = -4) ∧
    (Branchless doublingOnce ∧ AgreesAfter doublingOnce 2) ∧
    ((∀ k ≤ 1, (IdealMachine.after doubling k {}).Bounded) ∧
      ∀ r, ((Machine.after doubling 1 {}).bank.get r).toInt =
        (IdealMachine.after doubling 1 {}).registers r) := by
  have hf : BranchesFit doubling 6 := by decide
  have hs : Branchless doublingOnce := by
    unfold Branchless
    decide
  have hb : ∀ k ≤ 1, (IdealMachine.after doubling k {}).Bounded := by
    intro k hk
    interval_cases k <;> exact ⟨by rintro ⟨⟩ <;> decide, by decide⟩
  exact ⟨⟨hf, (wrapping_agrees doubling).1 6 hf, by decide, by decide⟩,
    ⟨hs, (wrapping_agrees doublingOnce).2.1 hs 2⟩, hb, ((wrapping_agrees doubling).2.2 1 hb).2⟩

end RegisterMachine
