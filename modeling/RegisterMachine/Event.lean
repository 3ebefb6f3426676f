/-
  What the library reports while it works.

  * `Event` is one report, with its `level` and `message`;
  * `Threshold.admits` is the rule for showing an event: a threshold admits its
    own level and the more severe ones;
  * `Report` is a result together with the events before it.
-/
import RegisterMachine.Bank

namespace RegisterMachine

/-- How severe an event is, from most to least. -/
inductive Level where
  | error | warn | info | debug | trace
  deriving DecidableEq, Repr

namespace Level

/-- The place of a level in the order of severity. -/
def rank : Level → Nat
  | error => 0
  | warn => 1
  | info => 2
  | debug => 3
  | trace => 4

def name : Level → String
  | error => "ERROR"
  | warn => "WARN"
  | info => "INFO"
  | debug => "DEBUG"
  | trace => "TRACE"

end Level

/-- The least severe level to show, `none` to show nothing. -/
abbrev Threshold := Option Level

def Threshold.admits (threshold : Threshold) (level : Level) : Bool :=
  threshold.any fun last => level.rank ≤ last.rank

inductive Event where
  | running (path : String)
  /-- A name stands for the tokens of its value from here on. -/
  | defined (name : String) (value : List String)
  | including (name : String)
  /-- The label of a statement moves from one instruction to another. -/
  | labelMoved (name : String) (statement old new : Nat)
  | assembled (statements instructions labels : Nat)
  | executed (index : Nat) (instruction : Instruction)
  | halted (size steps : Nat) (registers : Registers)
  deriving DecidableEq, Repr

namespace Event

def level : Event → Level
  | labelMoved .. => .warn
  | running _ => .info
  | defined .. | including _ | assembled .. | halted .. => .debug
  | executed .. => .trace

/-- An index with blanks before it, four characters wide at least. -/
def column (index : Nat) : String :=
  String.ofList ((Nat.toDigits 10 index).leftpad 4 ' ')

def message : Event → String
  | running path => s!"running {path}"
  | defined name value => "defined `" ++ name ++ "` as `" ++ String.intercalate " " value ++ "`"
  | including name => s!"including `{name}`"
  | labelMoved name statement old new =>
    s!"label `{name}` redefined at statement {statement}, " ++
      s!"moving it from instruction {old} to {new}"
  | assembled statements instructions labels =>
    s!"assembled {statements} statements into {instructions} instructions with {labels} labels"
  | executed index instruction => column index ++ ": " ++ instruction.text
  | halted size steps registers =>
    s!"program of {size} instructions halted after {steps} steps with {registers.text}"

end Event

theorem map_eq_ok_iff {ε α β : Type} {f : α → β} {result : Except ε α} {value : β} :
    result.map f = .ok value ↔ ∃ a, result = .ok a ∧ f a = value := by
  cases result <;> simp [Except.map]

theorem map_eq_error_iff {ε α β : Type} {f : α → β} {result : Except ε α} {e : ε} :
    result.map f = .error e ↔ result = .error e := by
  cases result <;> simp [Except.map]

theorem bind_eq_ok_iff {ε α β : Type} {f : α → Except ε β} {result : Except ε α} {value : β} :
    result.bind f = .ok value ↔ ∃ a, result = .ok a ∧ f a = .ok value := by
  cases result <;> simp [Except.bind]

/-- A result and the events before it, oldest first. -/
structure Report (ε α : Type) where
  events : List Event
  result : Except ε α

namespace Report

variable {ε δ α β : Type}

def of (result : Except ε α) : Report ε α :=
  ⟨[], result⟩

/-- Goes on with the value of a report, unless it failed. -/
def andThen (report : Report ε α) (next : α → Report ε β) : Report ε β :=
  match report.result with
  | .error e => ⟨report.events, .error e⟩
  | .ok value =>
    let later := next value
    ⟨report.events ++ later.events, later.result⟩

def after (report : Report ε α) (events : List Event) : Report ε α :=
  { report with events := events ++ report.events }

def mapError (f : ε → δ) (report : Report ε α) : Report δ α :=
  ⟨report.events, report.result.mapError f⟩

@[simp] theorem result_of (result : Except ε α) : (of result).result = result := rfl

@[simp] theorem result_after (report : Report ε α) (events : List Event) :
    (report.after events).result = report.result := rfl

@[simp] theorem result_andThen (report : Report ε α) (next : α → Report ε β) :
    (report.andThen next).result = report.result.bind fun value => (next value).result := by
  unfold andThen
  cases report.result <;> rfl

/-- The events that a threshold lets through. -/
def shown (report : Report ε α) (threshold : Threshold) : List Event :=
  report.events.filter fun event => threshold.admits event.level

end Report

end RegisterMachine
