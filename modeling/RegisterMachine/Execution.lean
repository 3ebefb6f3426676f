/-
  Running a program to its end, or until a budget of steps is spent.

  * `Machine.run` steps a machine until it halts, a jump is faulty or the
    budget is spent, whichever is first, and halting before all;
  * `Program.execute` is the run of a fresh machine under a step limit;
  * `Machine.trace` are the events of a run, `Program.run` is the run with its
    report.

  Without a step limit the budget is the number of machine states.  A run that
  spends it has met a state twice, so it would never end.

  Runs are made of steps with any count.  A limit of 64 bits is met before the
  count overflows, so under it the steps are those of `Machine.step?`
  (`Program.loop_ne_overflowed`).
-/
import RegisterMachine.Machine

namespace RegisterMachine

/-- Why a run ended without a result. -/
inductive ExecutionError where
  | jumpOutOfRange (fault : JumpFault)
  | stepLimitExceeded (limit : Nat)
  deriving DecidableEq, Repr

def ExecutionError.message : ExecutionError → String
  | jumpOutOfRange fault => fault.message
  | stepLimitExceeded limit => s!"step limit of {limit} instructions exceeded"

inductive Stop where
  | halted
  | faulted (fault : JumpFault)
  | spent
  deriving DecidableEq, Repr

/-! ## Runs of a machine -/

namespace Machine

/-- Steps a machine until it stops, at most as often as the budget allows. -/
def run (p : Program) : Nat → Machine → Machine × Stop
  | 0, m => (m, if m.isHalted p then .halted else .spent)
  | budget + 1, m =>
    if m.isHalted p then (m, .halted)
    else match m.step p with
      | (m', none) => run p budget m'
      | (m', some fault) => (m', .faulted fault)

def trace (p : Program) : Nat → Machine → List Event
  | 0, _ => []
  | budget + 1, m =>
    match m.nextEvent? p with
    | none => []
    | some event =>
      event :: match m.step p with
        | (m', none) => trace p budget m'
        | (_, some _) => []

end Machine

/-! ## Runs of a program -/

/-- The number of instructions after which a run is given up, if there is one. -/
abbrev StepLimit := Option Nat

/-- The limit of a run for which none is asked. -/
def StepLimit.standard : StepLimit :=
  some 10000000

namespace Program

/-- How many states a machine has, its step count aside: the places of the
    program counter, and the values of the registers and the comparison. -/
def stateCount (p : Program) : Nat :=
  (p.size + 1) * Nat.pow UInt64.size 5

/-- The steps that a limit allows. -/
def budget (p : Program) (limit : StepLimit) : Nat :=
  limit.getD p.stateCount

/-- The fresh machine of a program, run under a limit. -/
def finish (p : Program) (limit : StepLimit) : Machine × Stop :=
  Machine.run p (p.budget limit) {}

/-- The registers in which a stopped run ends. -/
def result (p : Program) (limit : StepLimit) : Machine × Stop → Except ExecutionError Registers
  | (m, .halted) => .ok m.bank.registers
  | (_, .faulted fault) => .error (.jumpOutOfRange fault)
  | (_, .spent) => .error (.stepLimitExceeded (p.budget limit))

def execute (p : Program) (limit : StepLimit) : Except ExecutionError Registers :=
  p.result limit (p.finish limit)

def trace (p : Program) (limit : StepLimit) : List Event :=
  Machine.trace p (p.budget limit) {}

/-- The event after a run that has halted. -/
def summary (p : Program) : Machine × Stop → List Event
  | (m, .halted) => [.halted p.size m.steps m.bank.registers]
  | _ => []

/-- A run with the events that a threshold may show: the steps are listed only
    if it admits them. -/
def run (p : Program) (limit : StepLimit) (threshold : Threshold) :
    Report ExecutionError Registers :=
  let last := p.finish limit
  ⟨(if threshold.admits .trace then p.trace limit else []) ++ p.summary last,
    p.result limit last⟩

end Program

end RegisterMachine
