/-
  Instructions, in which no name is left.

  Labels have become instruction indices: numbers where a value is meant, and
  targets where a jump is.  A target is any integer, since a source may write
  one that no program is long enough for.

  * `Instruction.text` writes an instruction as a source would.
-/
import RegisterMachine.Literal
import RegisterMachine.Mnemonic
import RegisterMachine.Register

namespace RegisterMachine

/-- Where an instruction takes its value from. -/
inductive Operand where
  | register (r : Register)
  | literal (value : Word)
  deriving DecidableEq, Repr

def Operand.text : Operand → String
  | register r => r.name
  | literal value => value.text

inductive Instruction where
  /-- Applies an operation to a register and a value. -/
  | data (op : DataOp) (lhs : Register) (rhs : Operand)
  /-- Goes on at the instruction of an index if the condition holds. -/
  | jump (condition : Condition) (target : Int)
  deriving DecidableEq, Repr

namespace Instruction

def mnemonic : Instruction → Mnemonic
  | data op _ _ => .data op
  | jump condition _ => .jump condition

def text (i : Instruction) : String :=
  match i with
  | data _ lhs rhs => s!"{i.mnemonic.name} {lhs.name}, {rhs.text}"
  | jump _ target => s!"{i.mnemonic.name} {Text.decimal target}"

end Instruction

end RegisterMachine
