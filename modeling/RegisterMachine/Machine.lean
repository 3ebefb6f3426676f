/-
  The machine that executes a program, one instruction at a time.

  * `Machine.step` executes the instruction at the program counter, and does
    nothing once the machine has halted;
  * a taken jump must stay within the program or go to its end: otherwise the
    step gives a `JumpFault` and changes only the number of steps;
  * `Machine.step?` is a step whose count has 64 bits.  It has no outcome where
    the count overflows, and is the same step everywhere else.
-/
import RegisterMachine.Event
import RegisterMachine.Program

namespace RegisterMachine

/-- A taken jump that leaves a program of some size. -/
structure JumpFault where
  source : Nat
  target : Int
  size : Nat
  deriving DecidableEq, Repr

def JumpFault.message (fault : JumpFault) : String :=
  s!"jump at instruction {fault.source} targets {Text.decimal fault.target}, " ++
    s!"outside of 0..={fault.size}"

/-- The state of an execution: the index of the next instruction, the bank, and
    how many instructions have been executed, of which `step?` counts no more than
    64 bits can hold. -/
structure Machine where
  pc : Nat := 0
  bank : Bank := {}
  steps : Nat := 0
  deriving DecidableEq, Repr

namespace Machine

def isHalted (p : Program) (m : Machine) : Bool :=
  p.size ≤ m.pc

/-- Goes on at a target, if it is within the program or at its end. -/
def jumpTo (p : Program) (m : Machine) (target : Int) : Machine × Option JumpFault :=
  if 0 ≤ target ∧ target ≤ p.size then ({ m with pc := target.toNat }, none)
  else (m, some ⟨m.pc, target, p.size⟩)

def execute (p : Program) (m : Machine) : Instruction → Machine × Option JumpFault
  | .data op lhs rhs =>
    ({ m with pc := m.pc + 1, bank := m.bank.perform op lhs (m.bank.value rhs) }, none)
  | .jump condition target =>
    if condition.holds m.bank.comparison then m.jumpTo p target
    else ({ m with pc := m.pc + 1 }, none)

/-- Executes and counts the next instruction, if there is one, however many there
    were before. -/
def step (p : Program) (m : Machine) : Machine × Option JumpFault :=
  match p.instructions[m.pc]? with
  | none => (m, none)
  | some i => execute p { m with steps := m.steps + 1 } i

/-- The greatest count of steps in 64 bits. -/
def maxCount : Nat :=
  UInt64.size - 1

/-- Counts one step more.  An overflow is an error of the program, and has no outcome. -/
def count? (m : Machine) : Option Machine :=
  if m.steps < maxCount then some { m with steps := m.steps + 1 } else none

/-- A step with its count in 64 bits. -/
def step? (p : Program) (m : Machine) : Option (Machine × Option JumpFault) :=
  match p.instructions[m.pc]? with
  | none => some (m, none)
  | some i => m.count?.map fun counted => execute p counted i

def nextEvent? (p : Program) (m : Machine) : Option Event :=
  p.instructions[m.pc]?.map (.executed m.pc)

/-- The machine after a number of steps, faulty ones included. -/
def after (p : Program) : Nat → Machine → Machine
  | 0, m => m
  | n + 1, m => after p n (m.step p).1

/-- The machine after a number of steps in 64 bits, if none of them overflows. -/
def after? (p : Program) : Nat → Machine → Option Machine
  | 0, m => some m
  | n + 1, m => (m.step? p).bind fun outcome => after? p n outcome.1

end Machine

end RegisterMachine
