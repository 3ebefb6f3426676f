/-
  Assembly: from statements to a program.

  Labels are bound first, over all statements, so that a label may be used
  before it is declared.  Then each instruction is made on its own: its
  mnemonic is found, its operands are counted, and each operand is read, from
  left to right, as its place asks.

  * `Labels.ofStatements` binds each label to the number of instructions before
    its last declaration, and reports every label that moves;
  * `Instruction.assemble` makes one instruction, `Program.assemble` a program;
  * `AssemblyError` is a fault with the index of its statement.
-/
import RegisterMachine.Event
import RegisterMachine.Identifier
import RegisterMachine.Program
import RegisterMachine.Statement

namespace RegisterMachine

/-! ## Errors -/

/-- What is wrong with a statement. -/
inductive AssemblyFault where
  | unknownMnemonic (mnemonic : String)
  | arityMismatch (mnemonic : String) (expected : Arity) (found : Nat)
  /-- An identifier that no statement declares. -/
  | undefinedLabel (label : String)
  | invalidOperand (mnemonic operand : String)
  /-- A declared name that no label may have. -/
  | invalidLabel (label : String)
  deriving DecidableEq, Repr

/-- A fault in the statement of an index that counts labels too. -/
structure AssemblyError where
  statement : Nat
  fault : AssemblyFault
  deriving DecidableEq, Repr

def AssemblyFault.message : AssemblyFault → String
  | unknownMnemonic mnemonic => s!"unknown mnemonic `{mnemonic}`"
  | arityMismatch mnemonic expected found =>
    s!"`{mnemonic}` takes {expected.text} operand(s), found {found}"
  | undefinedLabel label => s!"undefined label `{label}`"
  | invalidOperand mnemonic operand => s!"invalid operand `{operand}` for `{mnemonic}`"
  | invalidLabel label => s!"invalid label name `{label}`"

def AssemblyError.message (e : AssemblyError) : String :=
  s!"statement {e.statement}: {e.fault.message}"

/-! ## Labels -/

/-- Whether a label may have a name: an identifier that is no register. -/
def isLabelName (name : String) : Bool :=
  isIdentifier name && (Register.ofName? name).isNone

namespace Labels

/-- The report on a label that is declared again. -/
def moved (labels : Labels) (name : String) (statement position : Nat) : List Event :=
  match labels.index? name with
  | some old => [.labelMoved name statement old position]
  | none => []

/-- Adds the labels of statements, the first of which has index `statement` and
    `position` instructions before it. -/
def addStatements (labels : Labels) (statement position : Nat) :
    List Statement → Report AssemblyError Labels
  | [] => .of (.ok labels)
  | .instruction .. :: rest => labels.addStatements (statement + 1) (position + 1) rest
  | .label name :: rest =>
    if isLabelName name then
      ((labels.declare name position).addStatements (statement + 1) position rest).after
        (labels.moved name statement position)
    else .of (.error ⟨statement, .invalidLabel name⟩)

def ofStatements (statements : List Statement) : Report AssemblyError Labels :=
  addStatements [] 0 0 statements

/-- The index of a label that an instruction uses. -/
def resolve (labels : Labels) (name : String) : Except AssemblyFault Nat :=
  match labels.index? name with
  | some index => .ok index
  | none => .error (.undefinedLabel name)

end Labels

/-! ## Instructions -/

/-- A register as the left operand of a mnemonic. -/
def Register.ofArgument (mnemonic : String) (argument : Argument) : Except AssemblyFault Register :=
  match argument with
  | .integer value => .error (.invalidOperand mnemonic value.text)
  | .name name =>
    match Register.ofName? name with
    | some r => .ok r
    | none => .error (.invalidOperand mnemonic name)

/-- A value as the right operand of a mnemonic: an integer, a register or a
    label, which stands for its index. -/
def Operand.ofArgument (labels : Labels) (mnemonic : String) (argument : Argument) :
    Except AssemblyFault Operand :=
  match argument with
  | .integer value => .ok (.literal value)
  | .name name =>
    match Register.ofName? name with
    | some r => .ok (.register r)
    | none =>
      if isIdentifier name then
        (labels.resolve name).map fun index => .literal (Int64.ofNat index)
      else .error (.invalidOperand mnemonic name)

/-- The target of a jump: an integer or the index of a label, which is a word, too,
    in any list that is not too long. -/
def jumpTarget (labels : Labels) (mnemonic : String) (argument : Argument) :
    Except AssemblyFault Int :=
  match argument with
  | .integer value => .ok value.toInt
  | .name name =>
    if isLabelName name then (labels.resolve name).map Int.ofNat
    else .error (.invalidOperand mnemonic name)

namespace Instruction

def assembleData (labels : Labels) (mnemonic : String) (op : DataOp) (lhs rhs : Argument) :
    Except AssemblyFault Instruction :=
  match Register.ofArgument mnemonic lhs with
  | .error fault => .error fault
  | .ok r => (Operand.ofArgument labels mnemonic rhs).map (data op r)

/-- The instruction of a mnemonic and its operands.  An omitted step of `inc`
    or `dec` is one. -/
def assemble (labels : Labels) (mnemonic : String) (operands : List Argument) :
    Except AssemblyFault Instruction :=
  match Mnemonic.ofName? mnemonic with
  | none => .error (.unknownMnemonic mnemonic)
  | some m =>
    match m, operands with
    | .data op, [lhs, rhs] => assembleData labels mnemonic op lhs rhs
    | .data .inc, [lhs] => assembleData labels mnemonic .inc lhs (.integer 1)
    | .data .dec, [lhs] => assembleData labels mnemonic .dec lhs (.integer 1)
    | .jump condition, [target] => (jumpTarget labels mnemonic target).map (jump condition)
    | _, _ => .error (.arityMismatch mnemonic m.arity operands.length)

/-- The instructions of statements, the first of which has index `statement`. -/
def assembleFrom (labels : Labels) (statement : Nat) :
    List Statement → Except AssemblyError (List Instruction)
  | [] => .ok []
  | .label _ :: rest => assembleFrom labels (statement + 1) rest
  | .instruction mnemonic operands :: rest =>
    match assemble labels mnemonic operands with
    | .error fault => .error ⟨statement, fault⟩
    | .ok i => (assembleFrom labels (statement + 1) rest).map (i :: ·)

def assembleAll (labels : Labels) (statements : List Statement) :
    Except AssemblyError (List Instruction) :=
  assembleFrom labels 0 statements

end Instruction

/-! ## Programs -/

def Program.assemble (statements : List Statement) : Report AssemblyError Program :=
  (Labels.ofStatements statements).andThen fun labels =>
    match Instruction.assembleAll labels statements with
    | .error e => .of (.error e)
    | .ok code =>
      ⟨[.assembled statements.length code.length labels.length], .ok ⟨code.toArray, labels⟩⟩

end RegisterMachine
