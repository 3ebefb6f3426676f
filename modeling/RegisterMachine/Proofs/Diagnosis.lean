/-
  Which error is reported for statements that have no program.

  * `formWords`: how many operands each mnemonic takes, and for what;
    `Misplaced role a`: an operand is of the wrong kind for its role;
  * `HasFault code s fault`: what is wrong with an instruction of `code`.  That
    is its mnemonic, else the number of its operands, else the leftmost one that
    is misplaced, else a label that is not declared;
  * `Diagnosis code e`: the first label that has no label's name or, if there is
    none, the first instruction that has a fault;
  * `Instruction.assembleAt` reads operands by their positions.
    `assembleAt_eq`: it makes the same instructions, so no position is out of
    bounds;
  * `assemble_diagnosed`: the error of statements without a program is their
    diagnosis.
-/
import Mathlib.Tactic
import RegisterMachine.Proofs.Translation

namespace RegisterMachine

open Statement

/-! ## Forms of instructions -/

/-- What an operand is needed for. -/
inductive Role where
  /-- The left operand of a data operation. -/
  | register
  | value
  | target
  deriving DecidableEq, Repr

/-- How many operands an instruction takes, and their roles from the left. -/
structure Form where
  arity : Arity
  roles : List Role
  deriving DecidableEq, Repr

/-- The forms of the mnemonics. -/
def formWords : List (String × Form) :=
  [("mov", ⟨.exactly 2, [.register, .value]⟩), ("inc", ⟨⟨1, 2⟩, [.register, .value]⟩),
    ("dec", ⟨⟨1, 2⟩, [.register, .value]⟩), ("cmp", ⟨.exactly 2, [.register, .value]⟩),
    ("jmp", ⟨.exactly 1, [.target]⟩), ("je", ⟨.exactly 1, [.target]⟩),
    ("jne", ⟨.exactly 1, [.target]⟩), ("jl", ⟨.exactly 1, [.target]⟩),
    ("jle", ⟨.exactly 1, [.target]⟩), ("jg", ⟨.exactly 1, [.target]⟩),
    ("jge", ⟨.exactly 1, [.target]⟩)]

def Mnemonic.form (m : Mnemonic) : Form :=
  ⟨m.arity, match m with
    | data _ => [.register, .value]
    | jump _ => [.target]⟩

theorem mem_formWords_iff {word : String} {form : Form} :
    (word, form) ∈ formWords ↔ ∃ m, Mnemonic.ofName? word = some m ∧ m.form = form := by
  have hw : formWords = Mnemonic.all.map fun m => (m.name, m.form) := rfl
  simp only [hw, List.mem_map, Prod.mk.injEq, Mnemonic.ofName?_eq_some_iff]
  constructor
  · rintro ⟨m, -, rfl, rfl⟩
    exact ⟨m, rfl, rfl⟩
  · rintro ⟨m, rfl, rfl⟩
    refine ⟨m, ?_, rfl, rfl⟩
    rcases m with op | condition
    · cases op <;> decide
    · cases condition <;> decide

/-! ## Faults of operands -/

/-- An operand is of the wrong kind for its role: what is no register to the
    left, a name that is neither a register nor an identifier for a value, a
    register or a name that is no identifier for a target. -/
def Misplaced : Role → Argument → Prop
  | .register, a => ¬ IsRegister a
  | .value, .name name => ¬ RegisterName name ∧ ¬ Identifier name
  | .target, .name name => RegisterName name ∨ ¬ Identifier name
  | .value, .integer _ | .target, .integer _ => False

/-- A name that could be a label of `code` and is none. -/
@[mk_iff]
structure Undeclared (code : List Statement) (name : String) : Prop where
  identifier : Identifier name
  not_registerName : ¬ RegisterName name
  not_mem : .label name ∉ code

/-- The leftmost misplaced operand. -/
inductive LeftmostMisplaced : List (Role × Argument) → Argument → Prop
  | here {role a rest} : Misplaced role a → LeftmostMisplaced ((role, a) :: rest) a
  | later {role b rest a} : ¬ Misplaced role b → LeftmostMisplaced rest a →
      LeftmostMisplaced ((role, b) :: rest) a

/-- The fault of operands in their roles: a misplaced one, else an undeclared
    label. -/
inductive OperandFault (code : List Statement) (word : String) :
    List (Role × Argument) → AssemblyFault → Prop
  | misplaced {operands a} : LeftmostMisplaced operands a →
      OperandFault code word operands (.invalidOperand word a.text)
  | undeclared {operands role name} : (∀ x ∈ operands, ¬ Misplaced x.1 x.2) →
      (role, .name name) ∈ operands → Undeclared code name →
      OperandFault code word operands (.undefinedLabel name)

/-! ## Faults of statements -/

/-- The fault of an instruction of `code`. -/
inductive HasFault (code : List Statement) : Statement → AssemblyFault → Prop
  | unknownMnemonic {word operands} : (∀ form, (word, form) ∉ formWords) →
      HasFault code (.instruction word operands) (.unknownMnemonic word)
  | arityMismatch {word form operands} : (word, form) ∈ formWords →
      form.arity.accepts operands.length = false →
      HasFault code (.instruction word operands) (.arityMismatch word form.arity operands.length)
  | operand {word form operands fault} : (word, form) ∈ formWords →
      form.arity.accepts operands.length = true →
      OperandFault code word (form.roles.zip operands) fault →
      HasFault code (.instruction word operands) fault

/-- The fault of a label. -/
inductive HasLabelFault : Statement → AssemblyFault → Prop
  | mk {name} : ¬ (Identifier name ∧ ¬ RegisterName name) →
      HasLabelFault (.label name) (.invalidLabel name)

/-- The first statement with a fault of some sort is at a place. -/
structure FirstFault (faulty : Statement → AssemblyFault → Prop) (code : List Statement)
    (place : Nat) (fault : AssemblyFault) : Prop where
  here : ∃ s, code[place]? = some s ∧ faulty s fault
  before : ∀ s ∈ code.take place, ∀ other, ¬ faulty s other

/-- The error of statements: the first fault of a label, else the first one of an
    instruction. -/
inductive Diagnosis (code : List Statement) : AssemblyError → Prop
  | label {place fault} : FirstFault HasLabelFault code place fault → Diagnosis code ⟨place, fault⟩
  | instruction {place fault} : (∀ s ∈ code, ∀ other, ¬ HasLabelFault s other) →
      FirstFault (HasFault code) code place fault → Diagnosis code ⟨place, fault⟩

/-! ## Reading operands -/

section
variable {code : List Statement} {word : String} {fault : AssemblyFault}

theorem operandFault_cons_register_iff {a : Argument} {operands : List (Role × Argument)} :
    OperandFault code word ((.register, a) :: operands) fault ↔
      (Misplaced .register a ∧ fault = .invalidOperand word a.text) ∨
        (¬ Misplaced .register a ∧ OperandFault code word operands fault) := by
  constructor
  · rintro (⟨hm | ⟨hm, hl⟩⟩ | ⟨hm, hn, hu⟩)
    · exact Or.inl ⟨hm, rfl⟩
    · exact Or.inr ⟨hm, .misplaced hl⟩
    · have ha := hm _ List.mem_cons_self
      rcases List.mem_cons.1 hn with he | hn
      · -- a register that is where it should be is no undeclared label
        cases he
        cases not_not.1 ha with
        | mk hr => exact absurd hr hu.not_registerName
      · exact Or.inr ⟨ha, .undeclared (fun x hx => hm x (List.mem_cons_of_mem _ hx)) hn hu⟩
  · rintro (⟨hm, rfl⟩ | ⟨hm, hl | ⟨ho, hn, hu⟩⟩)
    · exact .misplaced (.here hm)
    · exact .misplaced (.later hm hl)
    · refine .undeclared (fun x hx => ?_) (List.mem_cons_of_mem _ hn) hu
      rcases List.mem_cons.1 hx with rfl | hx
      · exact hm
      · exact ho x hx

theorem operandFault_singleton_iff {role : Role} {a : Argument} :
    OperandFault code word [(role, a)] fault ↔
      (Misplaced role a ∧ fault = .invalidOperand word a.text) ∨
        (¬ Misplaced role a ∧ ∃ name, a = .name name ∧ Undeclared code name ∧
          fault = .undefinedLabel name) := by
  constructor
  · rintro (⟨hm | ⟨-, hl⟩⟩ | ⟨hm, hn, hu⟩)
    · exact Or.inl ⟨hm, rfl⟩
    · cases hl
    · cases List.mem_singleton.1 hn
      exact Or.inr ⟨hm _ (List.mem_singleton_self _), _, rfl, hu, rfl⟩
  · rintro (⟨hm, rfl⟩ | ⟨hm, name, rfl, hu, rfl⟩)
    · exact .misplaced (.here hm)
    · refine .undeclared (fun x hx => ?_) (List.mem_singleton_self _) hu
      rw [List.mem_singleton.1 hx]
      exact hm

/-- An integer for a value has no fault. -/
theorem operandFault_omitted_iff {a : Argument} {value : Word} :
    OperandFault code word [(.register, a), (.value, .integer value)] fault ↔
      OperandFault code word [(.register, a)] fault := by
  have hv : ¬ OperandFault code word [(.value, .integer value)] fault := by
    simp [operandFault_singleton_iff, Misplaced]
  have hn : ¬ OperandFault code word [] fault := by
    rintro (⟨⟨⟩⟩ | ⟨-, hn, -⟩)
    cases hn
  rw [operandFault_cons_register_iff, operandFault_cons_register_iff]
  simp only [hv, hn]

theorem Register.ofArgument_eq_error_iff {a : Argument} :
    Register.ofArgument word a = .error fault ↔
      Misplaced .register a ∧ fault = .invalidOperand word a.text := by
  cases a with
  | integer value =>
    have hm : Misplaced .register (.integer value) := by rintro ⟨⟩
    simp [Register.ofArgument, hm, Argument.text, eq_comm]
  | name name =>
    have hm : Misplaced .register (.name name) ↔ (Register.ofName? name).isNone = true := by
      rw [ofName?_register_isNone_iff, Misplaced, not_iff_not]
      constructor
      · rintro ⟨hr⟩
        exact hr
      · exact .mk
    rw [hm, Register.ofArgument]
    cases Register.ofName? name <;> simp [Argument.text, eq_comm]

variable {labels : Labels} (h : labels.Binds code)
include h

theorem resolve_eq_error_iff {name : String} :
    labels.resolve name = .error fault ↔ .label name ∉ code ∧ fault = .undefinedLabel name := by
  have hn : labels.index? name = none ↔ .label name ∉ code := by
    rw [Option.eq_none_iff_forall_ne_some]
    simp only [ne_eq, h.index?_eq_some_iff]
    constructor
    · intro hi hl
      obtain ⟨index, hindex⟩ := exists_labelIndex hl
      exact hi index hindex
    · exact fun hl index hi => hl hi.mem
  rw [← hn, Labels.resolve]
  cases labels.index? name <;> simp [eq_comm]

theorem Operand.ofArgument_eq_error_iff {a : Argument} :
    Operand.ofArgument labels word a = .error fault ↔
      OperandFault code word [(.value, a)] fault := by
  rw [operandFault_singleton_iff]
  cases a with
  | integer value => simp [Operand.ofArgument, Misplaced]
  | name name =>
    simp only [Argument.name.injEq, exists_eq_left', Argument.text, Misplaced, undeclared_iff,
      Operand.ofArgument, ← ofName?_register_isNone_iff, ← isIdentifier_iff]
    cases Register.ofName? name with
    | some r => simp
    | none =>
      cases isIdentifier name
      · simp [eq_comm]
      · simp [map_eq_error_iff, resolve_eq_error_iff h]

theorem jumpTarget_eq_error_iff {a : Argument} :
    jumpTarget labels word a = .error fault ↔ OperandFault code word [(.target, a)] fault := by
  rw [operandFault_singleton_iff]
  cases a with
  | integer value => simp [jumpTarget, Misplaced]
  | name name =>
    have hm : Misplaced .target (.name name) ↔ isLabelName name = false := by
      rw [← Bool.not_eq_true, isLabelName_iff, Misplaced]
      tauto
    have hu : Undeclared code name ↔ isLabelName name = true ∧ .label name ∉ code := by
      rw [undeclared_iff, isLabelName_iff, and_assoc]
    simp only [Argument.name.injEq, exists_eq_left', Argument.text, hm, hu, jumpTarget]
    cases isLabelName name
    · simp [eq_comm]
    · simp [map_eq_error_iff, resolve_eq_error_iff h]

/-! ## Reading instructions -/

theorem assembleData_eq_error_iff {op : DataOp} {lhs rhs : Argument} :
    Instruction.assembleData labels word op lhs rhs = .error fault ↔
      OperandFault code word [(.register, lhs), (.value, rhs)] fault := by
  rw [operandFault_cons_register_iff, ← Operand.ofArgument_eq_error_iff h,
    ← Register.ofArgument_eq_error_iff, Instruction.assembleData]
  cases hr : Register.ofArgument word lhs with
  | error other =>
    obtain ⟨hm, -⟩ := Register.ofArgument_eq_error_iff.1 hr
    simp [hm]
  | ok r =>
    have hm : ¬ Misplaced .register lhs := fun hm => by
      rw [Register.ofArgument_eq_error_iff.2 ⟨hm, rfl⟩] at hr
      cases hr
    simp [hm, map_eq_error_iff]

end

/-- The operands that a mnemonic takes. -/
inductive Shaped : Mnemonic → List Argument → Prop
  | data {op lhs rhs} : Shaped (.data op) [lhs, rhs]
  | step {op lhs} : op = .inc ∨ op = .dec → Shaped (.data op) [lhs]
  | jump {condition target} : Shaped (.jump condition) [target]

theorem accepts_iff {a : Arity} {count : Nat} :
    a.accepts count = true ↔ a.min ≤ count ∧ count ≤ a.max := by
  simp [Arity.accepts]

theorem accepts_data_iff {op : DataOp} {count : Nat} :
    (Mnemonic.data op).arity.accepts count = true ↔
      count = 2 ∨ (count = 1 ∧ (op = .inc ∨ op = .dec)) := by
  rw [accepts_iff]
  cases op <;>
    simp only [Mnemonic.arity, Arity.exactly, reduceCtorEq, or_self, or_true, or_false, and_true,
      and_false] <;>
    omega

theorem accepts_jump_iff {condition : Condition} {count : Nat} :
    (Mnemonic.jump condition).arity.accepts count = true ↔ count = 1 := by
  rw [accepts_iff]
  simp only [Mnemonic.arity, Arity.exactly]
  omega

theorem shaped_iff {m : Mnemonic} {operands : List Argument} :
    Shaped m operands ↔ m.arity.accepts operands.length = true := by
  constructor
  · rintro (_ | hop | _)
    · exact accepts_data_iff.2 (Or.inl rfl)
    · exact accepts_data_iff.2 (Or.inr ⟨rfl, hop⟩)
    · exact accepts_jump_iff.2 rfl
  · intro ha
    cases m with
    | data op =>
      rcases accepts_data_iff.1 ha with hl | ⟨hl, hop⟩
      · obtain ⟨lhs, rhs, rfl⟩ := List.length_eq_two.1 hl
        exact .data
      · obtain ⟨lhs, rfl⟩ := List.length_eq_one_iff.1 hl
        exact .step hop
    | jump condition =>
      obtain ⟨target, rfl⟩ := List.length_eq_one_iff.1 (accepts_jump_iff.1 ha)
      exact .jump

/-- A wrong number of operands is the fault of an instruction, whatever they are. -/
theorem assemble_of_not_shaped {labels : Labels} {word : String} {m : Mnemonic}
    {operands : List Argument} (hm : Mnemonic.ofName? word = some m) (hs : ¬ Shaped m operands) :
    Instruction.assemble labels word operands =
      .error (.arityMismatch word m.arity operands.length) := by
  simp only [Instruction.assemble, hm]
  split
  · exact absurd .data hs
  · exact absurd (.step (Or.inl rfl)) hs
  · exact absurd (.step (Or.inr rfl)) hs
  · exact absurd .jump hs
  · rfl

section
variable {code : List Statement} {labels : Labels} {word : String} {operands : List Argument}
  {fault : AssemblyFault} (h : labels.Binds code)

theorem hasFault_of_none (hm : Mnemonic.ofName? word = none) :
    HasFault code (.instruction word operands) fault ↔ fault = .unknownMnemonic word := by
  have hw : ∀ form, (word, form) ∉ formWords := by
    intro form hf
    obtain ⟨m, hm', -⟩ := mem_formWords_iff.1 hf
    rw [hm] at hm'
    cases hm'
  constructor
  · rintro (_ | hf | hf)
    · rfl
    · exact absurd hf (hw _)
    · exact absurd hf (hw _)
  · rintro rfl
    exact .unknownMnemonic hw

theorem hasFault_of_some {m : Mnemonic} (hm : Mnemonic.ofName? word = some m) :
    HasFault code (.instruction word operands) fault ↔
      (¬ Shaped m operands ∧ fault = .arityMismatch word m.arity operands.length) ∨
        (Shaped m operands ∧ OperandFault code word (m.form.roles.zip operands) fault) := by
  have hw : ∀ {form}, (word, form) ∈ formWords ↔ m.form = form := by
    intro form
    rw [mem_formWords_iff, hm]
    simp
  have hf : (word, m.form) ∈ formWords := hw.2 rfl
  rw [shaped_iff, Bool.not_eq_true]
  constructor
  · rintro (hn | ⟨hf', ha⟩ | ⟨hf', ha, ho⟩)
    · exact absurd hf (hn _)
    · cases hw.1 hf'
      exact Or.inl ⟨ha, rfl⟩
    · cases hw.1 hf'
      exact Or.inr ⟨ha, ho⟩
  · rintro (⟨ha, rfl⟩ | ⟨ha, ho⟩)
    · exact .arityMismatch hf ha
    · exact .operand hf ha ho

include h

/-- **An instruction is rejected for its fault.** -/
theorem Instruction.assemble_eq_error_iff :
    Instruction.assemble labels word operands = .error fault ↔
      HasFault code (.instruction word operands) fault := by
  cases hm : Mnemonic.ofName? word with
  | none =>
    rw [hasFault_of_none hm, Instruction.assemble, hm]
    simp [eq_comm]
  | some m =>
    rw [hasFault_of_some hm]
    by_cases hs : Shaped m operands
    · simp only [hs, not_true_eq_false, false_and, true_and, false_or]
      cases hs with
      | data =>
        simp only [Instruction.assemble, hm]
        exact assembleData_eq_error_iff h
      | step hop =>
        rcases hop with rfl | rfl
        all_goals
          simp only [Instruction.assemble, hm]
          exact (assembleData_eq_error_iff h).trans operandFault_omitted_iff
      | jump =>
        simp only [Instruction.assemble, hm, map_eq_error_iff]
        exact jumpTarget_eq_error_iff h
    · rw [assemble_of_not_shaped hm hs]
      simp [hs, eq_comm]

end

/-- An instruction has a fault iff it is not well-formed. -/
theorem exists_hasFault_iff {code : List Statement} {labels : Labels} (h : labels.Binds code)
    {word : String} {operands : List Argument} :
    (∃ fault, HasFault code (.instruction word operands) fault) ↔
      ¬ Accepts code (.instruction word operands) := by
  simp only [← Instruction.assemble_eq_error_iff h, accepts_instruction_iff,
    ← Instruction.assemble_eq_ok_iff h]
  cases Instruction.assemble labels word operands <;> simp

/-! ## The first fault -/

section
variable {faulty : Statement → AssemblyFault → Prop} {s : Statement} {rest : List Statement}
  {start : Nat} {e : AssemblyError}

/-- The error of the first fault of statements that are counted from `start`. -/
def FirstError (faulty : Statement → AssemblyFault → Prop) (start : Nat) (code : List Statement)
    (e : AssemblyError) : Prop :=
  ∃ place fault, FirstFault faulty code place fault ∧ e = ⟨start + place, fault⟩

theorem not_firstError_nil : ¬ FirstError faulty start [] e := by
  rintro ⟨place, fault, ⟨⟨s, hs, -⟩, -⟩, -⟩
  cases hs

theorem firstError_cons_of_fault {other : AssemblyFault} (h : faulty s other) :
    FirstError faulty start (s :: rest) e ↔ ∃ fault, faulty s fault ∧ e = ⟨start, fault⟩ := by
  constructor
  · rintro ⟨place, fault, ⟨⟨t, ht, hf⟩, hb⟩, rfl⟩
    cases place with
    | zero =>
      cases ht
      exact ⟨fault, hf, rfl⟩
    | succ place => exact absurd h (hb s List.mem_cons_self other)
  · rintro ⟨fault, hf, rfl⟩
    exact ⟨0, fault, ⟨⟨s, rfl, hf⟩, fun t ht => absurd ht List.not_mem_nil⟩, rfl⟩

theorem firstError_cons_of_clean (h : ∀ other, ¬ faulty s other) :
    FirstError faulty start (s :: rest) e ↔ FirstError faulty (start + 1) rest e := by
  constructor
  · rintro ⟨place, fault, ⟨⟨t, ht, hf⟩, hb⟩, rfl⟩
    cases place with
    | zero =>
      cases ht
      exact absurd hf (h fault)
    | succ place =>
      refine ⟨place, fault, ⟨⟨t, ht, hf⟩, fun q hq => hb q (List.mem_cons_of_mem _ hq)⟩, ?_⟩
      rw [Nat.add_right_comm, Nat.add_assoc]
  · rintro ⟨place, fault, ⟨⟨t, ht, hf⟩, hb⟩, rfl⟩
    refine ⟨place + 1, fault, ⟨⟨t, ht, hf⟩, fun q hq => ?_⟩, ?_⟩
    · rcases List.mem_cons.1 hq with rfl | hq
      · exact h
      · exact hb q hq
    · rw [Nat.add_right_comm, Nat.add_assoc]

end

theorem hasLabelFault_iff {name : String} {fault : AssemblyFault} :
    HasLabelFault (.label name) fault ↔ isLabelName name = false ∧ fault = .invalidLabel name := by
  rw [← Bool.not_eq_true, isLabelName_iff]
  constructor
  · rintro ⟨hn⟩
    exact ⟨hn, rfl⟩
  · rintro ⟨hn, rfl⟩
    exact .mk hn

theorem Labels.addStatements_eq_error_iff {labels : Labels} {statement position : Nat}
    {code : List Statement} {e : AssemblyError} :
    (labels.addStatements statement position code).result = .error e ↔
      FirstError HasLabelFault statement code e := by
  induction code generalizing labels statement position with
  | nil => simp [addStatements, not_firstError_nil]
  | cons s rest ih =>
    cases s with
    | instruction word operands =>
      rw [firstError_cons_of_clean (by rintro _ ⟨⟩)]
      exact ih
    | label name =>
      unfold addStatements
      cases hn : isLabelName name with
      | false =>
        rw [firstError_cons_of_fault (hasLabelFault_iff.2 ⟨hn, rfl⟩)]
        simp [hasLabelFault_iff, hn, eq_comm]
      | true =>
        rw [firstError_cons_of_clean fun other ho => by simp [hasLabelFault_iff, hn] at ho]
        simpa using ih

theorem Instruction.assembleFrom_eq_error_iff {whole : List Statement} {labels : Labels}
    (h : labels.Binds whole) {statement : Nat} {code : List Statement} {e : AssemblyError} :
    assembleFrom labels statement code = .error e ↔
      FirstError (HasFault whole) statement code e := by
  induction code generalizing statement with
  | nil => simp [assembleFrom, not_firstError_nil]
  | cons s rest ih =>
    cases s with
    | label name =>
      rw [firstError_cons_of_clean (by rintro _ ⟨⟩)]
      exact ih
    | instruction word operands =>
      unfold assembleFrom
      cases hi : assemble labels word operands with
      | error fault =>
        rw [firstError_cons_of_fault ((assemble_eq_error_iff h).1 hi)]
        simp [← assemble_eq_error_iff h, hi, eq_comm]
      | ok i =>
        rw [firstError_cons_of_clean fun other ho => by
          simp [← assemble_eq_error_iff h, hi] at ho]
        simp [map_eq_error_iff, ih]

/-! ## The reported error -/

theorem firstError_zero_iff {faulty : Statement → AssemblyFault → Prop} {code : List Statement}
    {place : Nat} {fault : AssemblyFault} :
    FirstError faulty 0 code ⟨place, fault⟩ ↔ FirstFault faulty code place fault := by
  constructor
  · rintro ⟨place, fault, hf, he⟩
    cases he
    rwa [Nat.zero_add]
  · intro hf
    exact ⟨place, fault, hf, by rw [Nat.zero_add]⟩

theorem FirstFault.exists_mem {faulty : Statement → AssemblyFault → Prop} {code : List Statement}
    {place : Nat} {fault : AssemblyFault} (h : FirstFault faulty code place fault) :
    ∃ s ∈ code, faulty s fault := by
  obtain ⟨⟨s, hs, hf⟩, -⟩ := h
  exact ⟨s, List.mem_of_getElem? hs, hf⟩

section
variable {code : List Statement} {place : Nat} {fault : AssemblyFault}

theorem Labels.ofStatements_eq_error_iff :
    (Labels.ofStatements code).result = .error ⟨place, fault⟩ ↔
      FirstFault HasLabelFault code place fault :=
  addStatements_eq_error_iff.trans firstError_zero_iff

theorem Instruction.assembleAll_eq_error_iff {labels : Labels} (h : labels.Binds code) :
    assembleAll labels code = .error ⟨place, fault⟩ ↔
      FirstFault (HasFault code) code place fault :=
  (assembleFrom_eq_error_iff h).trans firstError_zero_iff

theorem Program.result_assemble {labels : Labels}
    (hl : (Labels.ofStatements code).result = .ok labels) :
    (Program.assemble code).result =
      (Instruction.assembleAll labels code).map fun is => ⟨is.toArray, labels⟩ := by
  rw [Program.assemble, Report.result_andThen, hl]
  simp only [Except.bind]
  cases Instruction.assembleAll labels code <;> rfl

/-- The diagnosis is the error that is reported. -/
theorem Program.assemble_eq_error_iff :
    (Program.assemble code).result = .error ⟨place, fault⟩ ↔ Diagnosis code ⟨place, fault⟩ := by
  cases hl : (Labels.ofStatements code).result with
  | error first =>
    have hfirst := Labels.ofStatements_eq_error_iff.1 hl
    rw [Program.assemble, Report.result_andThen, hl]
    constructor
    · intro he
      cases he
      exact .label hfirst
    · rintro (hf | ⟨hn, -⟩)
      · cases hl.symm.trans (Labels.ofStatements_eq_error_iff.2 hf)
        rfl
      · obtain ⟨s, hs, hf⟩ := hfirst.exists_mem
        exact absurd hf (hn s hs _)
  | ok labels =>
    have hn : ∀ s ∈ code, ∀ other, ¬ HasLabelFault s other := by
      rintro _ hs _ ⟨hf⟩
      exact hf (isLabelName_iff.1 (Labels.exists_ofStatements_iff.1 ⟨_, hl⟩ _ hs))
    rw [Program.result_assemble hl, map_eq_error_iff,
      Instruction.assembleAll_eq_error_iff (Labels.binds_of_ofStatements hl)]
    constructor
    · exact .instruction hn
    · rintro (hf | ⟨-, hf⟩)
      · obtain ⟨s, hs, hf⟩ := hf.exists_mem
        exact absurd hf (hn s hs _)
      · exact hf

end

/-! ## Operands by position -/

/-- What can be wrong when operands are read by position. -/
inductive AccessError where
  | outOfBounds (position : Nat)
  | fault (fault : AssemblyFault)
  deriving DecidableEq, Repr

def operandAt (operands : List Argument) (position : Nat) : Except AccessError Argument :=
  match operands[position]? with
  | some a => .ok a
  | none => .error (.outOfBounds position)

/-- The right operand of a data operation.  An omitted step is one. -/
def valueAt (op : DataOp) (operands : List Argument) : Except AccessError Argument :=
  if operands.length ≤ 1 ∧ (op = .inc ∨ op = .dec) then .ok (.integer 1) else operandAt operands 1

/-- The instruction of a mnemonic and its operands, which are counted first and
    then read by position. -/
def Instruction.assembleAt (labels : Labels) (word : String) (operands : List Argument) :
    Except AccessError Instruction :=
  match Mnemonic.ofName? word with
  | none => .error (.fault (.unknownMnemonic word))
  | some m =>
    if m.arity.accepts operands.length then
      match m with
      | .data op =>
        (operandAt operands 0).bind fun lhs => (valueAt op operands).bind fun rhs =>
          (assembleData labels word op lhs rhs).mapError .fault
      | .jump condition =>
        (operandAt operands 0).bind fun target =>
          ((jumpTarget labels word target).map (jump condition)).mapError .fault
    else .error (.fault (.arityMismatch word m.arity operands.length))

/-- **No position is out of bounds**: read by position, the operands give the same
    instruction or the same fault. -/
theorem Instruction.assembleAt_eq (labels : Labels) (word : String) (operands : List Argument) :
    assembleAt labels word operands = (assemble labels word operands).mapError .fault := by
  unfold assembleAt
  cases hm : Mnemonic.ofName? word with
  | none => simp [assemble, hm, Except.mapError]
  | some m =>
    by_cases hs : Shaped m operands
    · simp only [shaped_iff.1 hs, if_true]
      cases hs with
      | @data op => cases op <;> simp [assemble, hm, operandAt, valueAt, Except.bind]
      | step hop =>
        rcases hop with rfl | rfl <;> simp [assemble, hm, operandAt, valueAt, Except.bind]
      | jump => simp [assemble, hm, operandAt, Except.bind]
    · rw [assemble_of_not_shaped hm hs]
      rw [shaped_iff] at hs
      simp [hs, Except.mapError]

/-- **Errors are diagnosed exactly.**  If statements have no program, the error
    is their diagnosis, and they have no other one.  On the way no operand is
    read out of bounds. -/
theorem assemble_diagnosed (code : List Statement) :
    (∀ e, (Program.assemble code).result = .error e ↔ Diagnosis code e) ∧
      ∀ labels word operands,
        Instruction.assembleAt labels word operands =
            (Instruction.assemble labels word operands).mapError .fault ∧
          ∀ position,
            Instruction.assembleAt labels word operands ≠ .error (.outOfBounds position) := by
  refine ⟨fun e => Program.assemble_eq_error_iff, fun labels word operands => ⟨?_, ?_⟩⟩
  · exact Instruction.assembleAt_eq labels word operands
  · intro position
    rw [Instruction.assembleAt_eq]
    cases Instruction.assemble labels word operands <;> simp [Except.mapError]

/-- Three statements are wrong, a label after an instruction among them. -/
example :
    (Program.assemble
      [.instruction "jmp" [], .label "start", .label "ax", .instruction "add" []]).result =
      .error ⟨2, .invalidLabel "ax"⟩ := by
  decide

/-- A misplaced operand is reported rather than an undeclared label. -/
example :
    (Program.assemble [.label "start", .instruction "cmp" [.integer 1, .name "stop"]]).result =
      .error ⟨1, .invalidOperand "cmp" "1"⟩ := by
  decide

end RegisterMachine
