/-
  Statements, what a source says once its lines are read.

  A statement declares a label or names an instruction with its operands.
  Nothing is known about the names yet: any text may stand for a label, a
  mnemonic or an operand.

  * `Argument.text` and `Statement.text` write the parts as a source would.
-/
import RegisterMachine.Literal

namespace RegisterMachine

/-- An operand as it is written: a name or an integer. -/
inductive Argument where
  | name (name : String)
  | integer (value : Word)
  deriving DecidableEq, Repr

def Argument.text : Argument → String
  | name n => n
  | integer value => value.text

inductive Statement where
  /-- Names the place of the instruction that follows. -/
  | label (name : String)
  | instruction (mnemonic : String) (operands : List Argument)
  deriving DecidableEq, Repr

namespace Statement

/-- A statement in source: a label has a colon after it, operands have commas
    between them. -/
def text : Statement → String
  | label name => name ++ ":"
  | instruction mnemonic [] => mnemonic
  | instruction mnemonic operands =>
    mnemonic ++ " " ++ String.intercalate ", " (operands.map Argument.text)

end Statement

end RegisterMachine
