/-
  Statements that are right by construction in mnemonic, operand count and left
  operand.  Only the names of labels and of values are left to assembly.

  * `TypedStatement.statement` forgets the types;
  * `TypedStatement.assemble` and `TypedStatement.run` take a list of them as a
    program.
-/
import RegisterMachine.Assembly
import RegisterMachine.Execution
import RegisterMachine.Source

namespace RegisterMachine

/-- Where a jump goes: to an instruction index or to a label. -/
inductive JumpTarget where
  | index (value : Word)
  | label (name : String)
  deriving DecidableEq, Repr

/-- A statement with its mnemonic and its register in their types. -/
inductive TypedStatement where
  | label (name : String)
  | data (op : DataOp) (lhs : Register) (rhs : Argument)
  /-- Adds one. -/
  | inc (lhs : Register)
  /-- Subtracts one. -/
  | dec (lhs : Register)
  | jump (condition : Condition) (target : JumpTarget)
  deriving DecidableEq, Repr

def Register.argument (r : Register) : Argument :=
  .name r.name

def JumpTarget.argument : JumpTarget → Argument
  | index value => .integer value
  | label name => .name name

namespace TypedStatement

/-- The statement as a source would make it. -/
def statement : TypedStatement → Statement
  | label name => .label name
  | data op lhs rhs => .instruction (Mnemonic.data op).name [lhs.argument, rhs]
  | inc lhs => .instruction (Mnemonic.data .inc).name [lhs.argument]
  | dec lhs => .instruction (Mnemonic.data .dec).name [lhs.argument]
  | jump condition target => .instruction (Mnemonic.jump condition).name [target.argument]

def statements (code : List TypedStatement) : List Statement :=
  code.map statement

def assemble (code : List TypedStatement) : Report AssemblyError Program :=
  Program.assemble (statements code)

/-- Assembles and runs a list of typed statements under the standard limit. -/
def run (code : List TypedStatement) (threshold : Threshold) : Report Error Registers :=
  ((assemble code).mapError .assembly).andThen fun program =>
    (program.run .standard threshold).mapError .execution

end TypedStatement

end RegisterMachine
