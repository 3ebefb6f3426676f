/-
  Statements in another spelling.

  A respelling replaces the names in statements: one label by another, one
  register by another.  It says separately what becomes of a name where a label
  is declared and where a name is an operand.

  * `Respelling` is such a replacement.  Different labels stay different, a
    label stays a label, a register a register, and a name that is neither stays
    as it is (`name_cases` tells the three kinds apart);
  * `σ.statement`, `σ.labels`, `σ.program` and `σ.fault` are statements and what
    they come to, respelled;
  * `assemble_statements`: respelled statements come to the respelled report of
    the statements, with the program or the error in it.
-/
import RegisterMachine.Proofs.Names
import RegisterMachine.Proofs.RoundTrip

namespace RegisterMachine

/-! ## Replacing registers -/

def Operand.mapRegister (f : Register → Register) : Operand → Operand
  | register r => .register (f r)
  | literal value => .literal value

def Instruction.mapRegister (f : Register → Register) : Instruction → Instruction
  | data op lhs rhs => .data op (f lhs) (rhs.mapRegister f)
  | jump condition target => .jump condition target

/-- The program with other registers.  Its addresses and labels stay. -/
def Program.mapRegister (f : Register → Register) (p : Program) : Program :=
  { p with instructions := p.instructions.map (Instruction.mapRegister f) }

/-! ## Kinds of names -/

theorem ofName?_eq_none_of_isLabelName {name : String} (h : isLabelName name = true) :
    Register.ofName? name = none := by
  rw [isLabelName, Bool.and_eq_true, Option.isNone_iff_eq_none] at h
  exact h.2

theorem isIdentifier_of_isLabelName {name : String} (h : isLabelName name = true) :
    isIdentifier name = true :=
  (Bool.and_eq_true_iff.1 h).1

theorem isIdentifier_registerName (r : Register) : isIdentifier r.name = true := by
  cases r <;> rfl

theorem ofName?_eq_none_of_not_isIdentifier {name : String} (h : isIdentifier name = false) :
    Register.ofName? name = none := by
  rw [Option.eq_none_iff_forall_ne_some]
  intro r hr
  rw [Register.ofName?_eq_some_iff.1 hr, isIdentifier_registerName] at h
  cases h

theorem isLabelName_registerName (r : Register) : isLabelName r.name = false := by
  rw [isLabelName, Register.ofName?_name, Option.isNone_some, Bool.and_false]

/-- A name is that of a register, one that a label may have, or no identifier. -/
theorem name_cases (name : String) :
    (∃ r : Register, name = r.name) ∨ isLabelName name = true ∨ isIdentifier name = false := by
  cases hr : Register.ofName? name with
  | some r => exact Or.inl ⟨r, Register.ofName?_eq_some_iff.1 hr⟩
  | none =>
    cases hi : isIdentifier name with
    | false => exact Or.inr (Or.inr rfl)
    | true =>
      refine Or.inr (Or.inl ?_)
      rw [isLabelName, hi, hr]
      rfl

/-- The text of an integer is no identifier. -/
theorem isIdentifier_text (value : Word) : isIdentifier value.text = false := by
  rw [Bool.eq_false_iff]
  intro hi
  have hn := (isIdentifier_iff.1 hi).literal?_eq_none
  rw [literal?_text] at hn
  cases hn

/-! ## Respellings -/

/-- A replacement of the names in statements. -/
structure Respelling where
  /-- What a declared name becomes. -/
  label : String → String
  /-- What a name among operands becomes. -/
  operand : String → String
  /-- What a register becomes. -/
  register : Register → Register
  label_injective : Function.Injective label
  isLabelName_label : ∀ name, isLabelName (label name) = isLabelName name
  operand_label : ∀ name, isLabelName name = true → operand name = label name
  operand_register : ∀ r, operand r.name = (register r).name
  operand_fixed : ∀ name, isIdentifier name = false → operand name = name

namespace Respelling

def argument (σ : Respelling) : Argument → Argument
  | .name name => .name (σ.operand name)
  | .integer value => .integer value

def statement (σ : Respelling) : Statement → Statement
  | .label name => .label (σ.label name)
  | .instruction mnemonic operands => .instruction mnemonic (operands.map σ.argument)

/-- The table with the same indices under the new names. -/
def labels (σ : Respelling) (table : Labels) : Labels :=
  table.map fun entry => (σ.label entry.1, entry.2)

def program (σ : Respelling) (p : Program) : Program :=
  ⟨p.instructions.map (Instruction.mapRegister σ.register), σ.labels p.labels⟩

/-- The same fault, of another name. -/
def fault (σ : Respelling) : AssemblyFault → AssemblyFault
  | .unknownMnemonic mnemonic => .unknownMnemonic mnemonic
  | .arityMismatch mnemonic expected found => .arityMismatch mnemonic expected found
  | .undefinedLabel name => .undefinedLabel (σ.label name)
  | .invalidOperand mnemonic text => .invalidOperand mnemonic (σ.operand text)
  | .invalidLabel name => .invalidLabel (σ.label name)

def error (σ : Respelling) (e : AssemblyError) : AssemblyError :=
  ⟨e.statement, σ.fault e.fault⟩

def event (σ : Respelling) : Event → Event
  | .labelMoved name statement old new => .labelMoved (σ.label name) statement old new
  | other => other

/-- What a reader makes of an operand or an instruction, or its fault. -/
def outcome {α : Type} (σ : Respelling) (f : α → α) (result : Except AssemblyFault α) :
    Except AssemblyFault α :=
  (result.map f).mapError σ.fault

def report {α : Type} (σ : Respelling) (f : α → α) (report : Report AssemblyError α) :
    Report AssemblyError α :=
  ⟨report.events.map σ.event, (report.result.map f).mapError σ.error⟩

variable (σ : Respelling)

@[simp] theorem outcome_ok {α : Type} (f : α → α) (value : α) :
    σ.outcome f (.ok value) = .ok (f value) := rfl

@[simp] theorem outcome_error {α : Type} (f : α → α) (e : AssemblyFault) :
    σ.outcome f (.error e) = .error (σ.fault e) := rfl

@[simp] theorem operand_text (value : Word) : σ.operand value.text = value.text :=
  σ.operand_fixed _ (isIdentifier_text value)

/-- A label that is respelled is still no register. -/
theorem ofName?_label {name : String} (h : isLabelName name = true) :
    Register.ofName? (σ.label name) = none :=
  ofName?_eq_none_of_isLabelName ((σ.isLabelName_label name).trans h)

theorem isIdentifier_label {name : String} (h : isLabelName name = true) :
    isIdentifier (σ.label name) = true :=
  isIdentifier_of_isLabelName ((σ.isLabelName_label name).trans h)

theorem isLabelName_operand (name : String) : isLabelName (σ.operand name) = isLabelName name := by
  rcases name_cases name with ⟨r, rfl⟩ | hl | hi
  · rw [σ.operand_register, isLabelName_registerName, isLabelName_registerName]
  · rw [σ.operand_label name hl, σ.isLabelName_label]
  · rw [σ.operand_fixed name hi]

/-! ## Tables of labels -/

/-- Names are equal in any spelling, or in none. -/
theorem label_beq_label (a b : String) : (σ.label a == σ.label b) = (a == b) := by
  rw [Bool.eq_iff_iff, beq_iff_eq, beq_iff_eq, σ.label_injective.eq_iff]

theorem index?_labels (table : Labels) (name : String) :
    (σ.labels table).index? (σ.label name) = table.index? name := by
  induction table with
  | nil => rfl
  | cons entry rest ih =>
    obtain ⟨key, index⟩ := entry
    unfold Labels.index? labels at ih ⊢
    rw [List.map_cons, List.lookup_cons, List.lookup_cons, σ.label_beq_label, ih]

theorem declare_labels (table : Labels) (name : String) (index : Nat) :
    (σ.labels table).declare (σ.label name) index = σ.labels (table.declare name index) := by
  induction table with
  | nil => rfl
  | cons entry rest ih =>
    obtain ⟨key, old⟩ := entry
    unfold labels at ih ⊢
    rw [List.map_cons, Labels.declare, Labels.declare, ih, σ.label_beq_label]
    split_ifs <;> rfl

theorem moved_labels (table : Labels) (name : String) (statement position : Nat) :
    (σ.labels table).moved (σ.label name) statement position =
      (table.moved name statement position).map σ.event := by
  rw [Labels.moved, Labels.moved, σ.index?_labels]
  cases table.index? name <;> rfl

/-- **The table of respelled statements is the respelled table**, also on the
    way, with the same reports on the labels that move. -/
theorem addStatements_labels (table : Labels) (statement position : Nat) (code : List Statement) :
    (σ.labels table).addStatements statement position (code.map σ.statement) =
      σ.report σ.labels (table.addStatements statement position code) := by
  induction code generalizing table statement position with
  | nil => rfl
  | cons s rest ih =>
    cases s with
    | instruction mnemonic operands => exact ih table (statement + 1) (position + 1)
    | label name =>
      simp only [List.map_cons, Respelling.statement, Labels.addStatements, σ.isLabelName_label]
      cases isLabelName name with
      | false => rfl
      | true =>
        rw [if_pos rfl, if_pos rfl, declare_labels, ih, moved_labels]
        simp [report, Report.after]

theorem resolve_labels (table : Labels) (name : String) :
    (σ.labels table).resolve (σ.label name) = σ.outcome id (table.resolve name) := by
  rw [Labels.resolve, Labels.resolve, σ.index?_labels]
  cases table.index? name <;> rfl

/-! ## Operands -/

theorem ofArgument_register (mnemonic : String) (a : Argument) :
    Register.ofArgument mnemonic (σ.argument a) =
      σ.outcome σ.register (Register.ofArgument mnemonic a) := by
  cases a with
  | integer value => simp [argument, Register.ofArgument, fault]
  | name name =>
    rcases name_cases name with ⟨r, rfl⟩ | hl | hi
    · simp [argument, Register.ofArgument, σ.operand_register]
    · simp [argument, Register.ofArgument, σ.operand_label name hl, σ.ofName?_label hl,
        ofName?_eq_none_of_isLabelName hl, fault]
    · simp [argument, Register.ofArgument, σ.operand_fixed name hi,
        ofName?_eq_none_of_not_isIdentifier hi, fault]

theorem ofArgument_operand (table : Labels) (mnemonic : String) (a : Argument) :
    Operand.ofArgument (σ.labels table) mnemonic (σ.argument a) =
      σ.outcome (Operand.mapRegister σ.register) (Operand.ofArgument table mnemonic a) := by
  cases a with
  | integer value => rfl
  | name name =>
    rcases name_cases name with ⟨r, rfl⟩ | hl | hi
    · simp [argument, Operand.ofArgument, σ.operand_register, Operand.mapRegister]
    · simp only [argument, Operand.ofArgument, σ.operand_label name hl, σ.ofName?_label hl,
        σ.isIdentifier_label hl, ofName?_eq_none_of_isLabelName hl,
        isIdentifier_of_isLabelName hl, if_true, σ.resolve_labels]
      cases table.resolve name <;> rfl
    · simp [argument, Operand.ofArgument, σ.operand_fixed name hi, hi,
        ofName?_eq_none_of_not_isIdentifier hi, fault]

theorem jumpTarget_argument (table : Labels) (mnemonic : String) (a : Argument) :
    jumpTarget (σ.labels table) mnemonic (σ.argument a) =
      σ.outcome id (jumpTarget table mnemonic a) := by
  cases a with
  | integer value => rfl
  | name name =>
    simp only [argument, jumpTarget, σ.isLabelName_operand]
    cases hl : isLabelName name with
    | false => rfl
    | true =>
      rw [if_pos rfl, if_pos rfl, σ.operand_label name hl, σ.resolve_labels]
      cases table.resolve name <;> rfl

/-! ## Instructions -/

theorem assembleData_argument (table : Labels) (mnemonic : String) (op : DataOp)
    (lhs rhs : Argument) :
    Instruction.assembleData (σ.labels table) mnemonic op (σ.argument lhs) (σ.argument rhs) =
      σ.outcome (Instruction.mapRegister σ.register)
        (Instruction.assembleData table mnemonic op lhs rhs) := by
  unfold Instruction.assembleData
  rw [σ.ofArgument_register, σ.ofArgument_operand]
  cases Register.ofArgument mnemonic lhs with
  | error e => rfl
  | ok r => cases Operand.ofArgument table mnemonic rhs <;> rfl

/-- **An instruction is assembled alike in any spelling.** -/
theorem assemble_operands (table : Labels) (mnemonic : String) (operands : List Argument) :
    Instruction.assemble (σ.labels table) mnemonic (operands.map σ.argument) =
      σ.outcome (Instruction.mapRegister σ.register)
        (Instruction.assemble table mnemonic operands) := by
  unfold Instruction.assemble
  cases Mnemonic.ofName? mnemonic with
  | none => rfl
  | some m =>
    -- an omitted step is the same integer in any spelling
    have hstep := fun op lhs => σ.assembleData_argument table mnemonic op lhs (.integer 1)
    rcases operands with _ | ⟨a, _ | ⟨b, _ | ⟨c, rest⟩⟩⟩
    · rcases m with op | condition
      · cases op <;> rfl
      · rfl
    · rcases m with op | condition
      · cases op with
        | mov | cmp => rfl
        | inc => exact hstep .inc a
        | dec => exact hstep .dec a
      · simp only [List.map_cons, List.map_nil, σ.jumpTarget_argument]
        cases jumpTarget table mnemonic a <;> rfl
    · rcases m with op | condition
      · exact σ.assembleData_argument table mnemonic op a b
      · rfl
    · rcases m with op | condition
      · cases op <;> simp [fault]
      · simp [fault]

theorem assembleFrom_statements (table : Labels) (statement : Nat) (code : List Statement) :
    Instruction.assembleFrom (σ.labels table) statement (code.map σ.statement) =
      ((Instruction.assembleFrom table statement code).map
        (List.map (Instruction.mapRegister σ.register))).mapError σ.error := by
  induction code generalizing statement with
  | nil => rfl
  | cons s rest ih =>
    cases s with
    | label name => exact ih (statement + 1)
    | instruction mnemonic operands =>
      simp only [List.map_cons, Respelling.statement, Instruction.assembleFrom,
        σ.assemble_operands, ih]
      cases Instruction.assemble table mnemonic operands with
      | error e => rfl
      | ok i => cases Instruction.assembleFrom table (statement + 1) rest <;> rfl

/-! ## Programs -/

/-- **Assembly does not mind the spelling.**  Respelled statements come to the
    respelled program, or to the same error of a respelled name. -/
theorem assemble_statements (code : List Statement) :
    Program.assemble (code.map σ.statement) = σ.report σ.program (Program.assemble code) := by
  have hlabels : Labels.ofStatements (code.map σ.statement) =
      σ.report σ.labels (Labels.ofStatements code) := σ.addStatements_labels [] 0 0 code
  rw [Program.assemble, Program.assemble, hlabels]
  obtain ⟨events, e | table⟩ := Labels.ofStatements code
  · rfl
  · simp only [report, Report.andThen, Except.map, Except.mapError, Instruction.assembleAll,
      σ.assembleFrom_statements]
    cases Instruction.assembleFrom table 0 code with
    | error e => simp [Report.of]
    | ok is => simp [program, labels, event]

end Respelling

end RegisterMachine
