/-
  Which typed statements have a program.

  The types rule out unknown mnemonics, wrong numbers of operands and left operands
  that are no registers.  What can still be wrong is a name: of a label, of a value
  or of the target of a jump.

  * `WellNamed code`: labels have names that labels may have, values name a register
    or a declared label, and targets name a declared label;
  * `Makes code s i`: the instruction that a statement of `code` stands for.
    `translates_iff_makes`: so it is translated when its types are forgotten;
  * `HasNameFault code s fault`: what can be wrong with a statement of `code`;
  * `assemble_wellNamed`: typed statements have a program iff they are well-named,
    with an instruction for each one that is no label, and otherwise one of them
    has a fault of its names.
-/
import RegisterMachine.Proofs.Diagnosis
import RegisterMachine.TypedStatement

namespace RegisterMachine

open Statement

namespace TypedStatement

/-! ## Names -/

/-- Whether a statement only declares a label. -/
def isLabel : TypedStatement → Bool
  | label _ => true
  | data .. | inc _ | dec _ | jump .. => false

/-- A statement has a name for its value or for its target. -/
inductive Uses : TypedStatement → String → Prop
  | value {op lhs name} : Uses (.data op lhs (.name name)) name
  | target {condition name} : Uses (.jump condition (.label name)) name

/-- Every name in `code` is good for its place. -/
structure WellNamed (code : List TypedStatement) : Prop where
  label : ∀ name, .label name ∈ code → Identifier name ∧ ¬ RegisterName name
  /-- The label may be declared before or after its use. -/
  value : ∀ op lhs name, .data op lhs (.name name) ∈ code →
    RegisterName name ∨ .label name ∈ code
  target : ∀ condition name, .jump condition (.label name) ∈ code → .label name ∈ code

/-- What can be wrong with a statement of `code`. -/
inductive HasNameFault (code : List TypedStatement) : TypedStatement → AssemblyFault → Prop
  | label {name} : ¬ (Identifier name ∧ ¬ RegisterName name) →
      HasNameFault code (.label name) (.invalidLabel name)
  | value {op lhs name} : ¬ RegisterName name → ¬ Identifier name →
      HasNameFault code (.data op lhs (.name name)) (.invalidOperand (Mnemonic.data op).name name)
  | target {condition name} : RegisterName name ∨ ¬ Identifier name →
      HasNameFault code (.jump condition (.label name))
        (.invalidOperand (Mnemonic.jump condition).name name)
  | undeclared {s name} : Uses s name → Identifier name → ¬ RegisterName name →
      .label name ∉ code → HasNameFault code s (.undefinedLabel name)

/-! ## Instructions -/

/-- The instruction that a statement of `code` stands for. -/
inductive Makes (code : List TypedStatement) : TypedStatement → Instruction → Prop
  | data {op lhs rhs operand} : ReadsValue (statements code) rhs operand →
      Makes code (.data op lhs rhs) (.data op lhs operand)
  | inc {lhs} : Makes code (.inc lhs) (.data .inc lhs (.literal 1))
  | dec {lhs} : Makes code (.dec lhs) (.data .dec lhs (.literal 1))
  | jump {condition target index} : ReadsTarget (statements code) target.argument index →
      Makes code (.jump condition target) (.jump condition index)

theorem label_mem_statements_iff {code : List TypedStatement} {name : String} :
    .label name ∈ statements code ↔ .label name ∈ code := by
  rw [statements, List.mem_map]
  constructor
  · rintro ⟨s, hs, he⟩
    cases s with
    | label other =>
      cases he
      exact hs
    | data | inc | dec | jump => cases he
  · exact fun h => ⟨_, h, rfl⟩

/-! ### Words -/

theorem mem_registerWords_name_iff {r q : Register} : (r.name, q) ∈ registerWords ↔ q = r := by
  rw [← ofName?_register_iff, Register.ofName?_name, Option.some.injEq, eq_comm]

theorem mem_dataWords_name_iff {op q : DataOp} :
    ((Mnemonic.data op).name, q) ∈ dataWords ↔ q = op := by
  rw [← ofName?_data_iff, Mnemonic.ofName?_name, Option.some.injEq, Mnemonic.data.injEq, eq_comm]

theorem mem_jumpWords_name_iff {condition q : Condition} :
    ((Mnemonic.jump condition).name, q) ∈ jumpWords ↔ q = condition := by
  rw [← ofName?_jump_iff, Mnemonic.ofName?_name, Option.some.injEq, Mnemonic.jump.injEq, eq_comm]

theorem data_name_not_mem_jumpWords (op : DataOp) (condition : Condition) :
    ((Mnemonic.data op).name, condition) ∉ jumpWords := by
  rw [← ofName?_jump_iff, Mnemonic.ofName?_name]
  simp

section
variable {whole : List Statement} {i : Instruction}

theorem translates_data_iff {op : DataOp} {lhs : Register} {rhs : Argument} :
    Translates whole ((Mnemonic.data op).name, [lhs.argument, rhs]) i ↔
      ∃ operand, ReadsValue whole rhs operand ∧ i = .data op lhs operand := by
  constructor
  · rintro ⟨hw, hr, ho⟩
    obtain rfl := mem_dataWords_name_iff.1 hw
    obtain rfl := mem_registerWords_name_iff.1 hr
    exact ⟨_, ho, rfl⟩
  · rintro ⟨operand, ho, rfl⟩
    exact .data (mem_dataWords_name_iff.2 rfl) (mem_registerWords_name_iff.2 rfl) ho

theorem translates_step_iff {op : DataOp} (hop : op = .inc ∨ op = .dec) {lhs : Register} :
    Translates whole ((Mnemonic.data op).name, [lhs.argument]) i ↔
      i = .data op lhs (.literal 1) := by
  constructor
  · rintro (_ | ⟨hw, hr⟩ | ⟨hw, -⟩)
    · obtain rfl := mem_dataWords_name_iff.1 (mem_stepWords_iff.1 hw).1
      obtain rfl := mem_registerWords_name_iff.1 hr
      rfl
    · exact absurd hw (data_name_not_mem_jumpWords op _)
  · rintro rfl
    exact .step (mem_stepWords_iff.2 ⟨mem_dataWords_name_iff.2 rfl, hop⟩)
      (mem_registerWords_name_iff.2 rfl)

theorem translates_jump_iff {condition : Condition} {target : Argument} :
    Translates whole ((Mnemonic.jump condition).name, [target]) i ↔
      ∃ index, ReadsTarget whole target index ∧ i = .jump condition index := by
  constructor
  · rintro (_ | ⟨hw, -⟩ | ⟨hw, ht⟩)
    · have hm := ofName?_data_iff.2 (mem_stepWords_iff.1 hw).1
      rw [Mnemonic.ofName?_name] at hm
      cases hm
    · obtain rfl := mem_jumpWords_name_iff.1 hw
      exact ⟨_, ht, rfl⟩
  · rintro ⟨index, ht, rfl⟩
    exact .jump (mem_jumpWords_name_iff.2 rfl) ht

end

/-- **A statement is translated into the instruction that it stands for.** -/
theorem translates_iff_makes {code : List TypedStatement} {s : TypedStatement}
    {word : String} {operands : List Argument} (h : s.statement = .instruction word operands)
    {i : Instruction} : Translates (statements code) (word, operands) i ↔ Makes code s i := by
  cases s with
  | label name => cases h
  | data op lhs rhs =>
    cases h
    rw [translates_data_iff]
    constructor
    · rintro ⟨operand, ho, rfl⟩
      exact .data ho
    · intro hm
      cases hm with
      | data ho => exact ⟨_, ho, rfl⟩
  | inc lhs =>
    cases h
    rw [translates_step_iff (Or.inl rfl)]
    constructor
    · rintro rfl
      exact .inc
    · rintro ⟨⟩
      rfl
  | dec lhs =>
    cases h
    rw [translates_step_iff (Or.inr rfl)]
    constructor
    · rintro rfl
      exact .dec
    · rintro ⟨⟩
      rfl
  | jump condition target =>
    cases h
    rw [translates_jump_iff]
    constructor
    · rintro ⟨index, ht, rfl⟩
      exact .jump ht
    · intro hm
      cases hm with
      | jump ht => exact ⟨_, ht, rfl⟩

/-- A list is translated statement by statement, without the labels. -/
theorem forall₂_translates_iff_makes {whole code : List TypedStatement} {is : List Instruction} :
    List.Forall₂ (Translates (statements whole)) (calls (statements code)) is ↔
      List.Forall₂ (Makes whole) (code.filter (!·.isLabel)) is := by
  induction code generalizing is with
  | nil => simp [statements]
  | cons s rest ih =>
    have hcons : ∀ {word operands}, s.statement = .instruction word operands →
        (List.Forall₂ (Translates (statements whole))
            ((word, operands) :: calls (statements rest)) is ↔
          List.Forall₂ (Makes whole) (s :: rest.filter (!·.isLabel)) is) := by
      intro word operands hs
      rw [List.forall₂_cons_left_iff, List.forall₂_cons_left_iff]
      simp only [translates_iff_makes hs, ih]
    cases s with
    | label name => exact ih
    | data | inc | dec | jump => exact hcons rfl

/-! ## Well-named statements -/

theorem accepts_value_iff {whole : List Statement} {op : DataOp} {lhs : Register}
    {rhs : Argument} :
    Accepts whole (.instruction (Mnemonic.data op).name [lhs.argument, rhs]) ↔
      IsValue whole rhs := by
  rw [accepts_instruction_iff, isValue_iff]
  simp only [translates_data_iff]
  exact ⟨fun ⟨_, operand, ho, _⟩ => ⟨operand, ho⟩, fun ⟨operand, ho⟩ => ⟨_, operand, ho, rfl⟩⟩

theorem accepts_target_iff {whole : List Statement} {condition : Condition} {target : Argument} :
    Accepts whole (.instruction (Mnemonic.jump condition).name [target]) ↔
      IsTarget whole target := by
  rw [accepts_instruction_iff, isTarget_iff]
  simp only [translates_jump_iff]
  exact ⟨fun ⟨_, index, hi, _⟩ => ⟨index, hi⟩, fun ⟨index, hi⟩ => ⟨_, index, hi, rfl⟩⟩

theorem accepts_step {whole : List Statement} {op : DataOp} (hop : op = .inc ∨ op = .dec)
    (lhs : Register) : Accepts whole (.instruction (Mnemonic.data op).name [lhs.argument]) :=
  accepts_instruction_iff.2 ⟨_, (translates_step_iff hop).2 rfl⟩

/-- **Only its names keep a statement from being accepted.** -/
theorem forall_accepts_iff_wellNamed {code : List TypedStatement} :
    (∀ s ∈ statements code, Accepts (statements code) s) ↔ WellNamed code := by
  rw [statements, List.forall_mem_map]
  constructor
  · intro h
    refine ⟨fun name hn => ?_, fun op lhs name hn => ?_, fun condition name hn => ?_⟩
    · exact isLabelName_iff.1 (accepts_label_iff.1 (h _ hn))
    · cases accepts_value_iff.1 (h _ hn) with
      | register hr => exact Or.inl hr
      | label hl => exact Or.inr (label_mem_statements_iff.1 hl)
    · cases accepts_target_iff.1 (h _ hn) with
      | label hl => exact label_mem_statements_iff.1 hl
  · intro h s hs
    cases s with
    | label name => exact .label (h.label name hs).1 (h.label name hs).2
    | data op lhs rhs =>
      refine accepts_value_iff.2 ?_
      cases rhs with
      | integer value => exact .integer
      | name name =>
        rcases h.value op lhs name hs with hr | hl
        · exact .register hr
        · exact .label (label_mem_statements_iff.2 hl)
    | inc lhs => exact accepts_step (Or.inl rfl) lhs
    | dec lhs => exact accepts_step (Or.inr rfl) lhs
    | jump condition target =>
      refine accepts_target_iff.2 ?_
      cases target with
      | index value => exact .integer
      | label name => exact .label (label_mem_statements_iff.2 (h.target condition name hs))

/-! ## Faults -/

/-- An instruction that has the operands of its mnemonic has a fault only in them. -/
theorem operandFault_of_shaped {whole : List Statement} {m : Mnemonic} {operands : List Argument}
    {fault : AssemblyFault} (hs : Shaped m operands)
    (h : HasFault whole (.instruction m.name operands) fault) :
    OperandFault whole m.name (m.form.roles.zip operands) fault := by
  rcases (hasFault_of_some (Mnemonic.ofName?_name m)).1 h with ⟨hn, -⟩ | ⟨-, ho⟩
  · exact absurd hs hn
  · exact ho

theorem not_misplaced_register (r : Register) : ¬ Misplaced .register r.argument :=
  not_not_intro (.mk ⟨r, mem_registerWords_name_iff.2 rfl⟩)

theorem not_operandFault_register {whole : List Statement} {word : String} {r : Register}
    {fault : AssemblyFault} : ¬ OperandFault whole word [(.register, r.argument)] fault := by
  intro h
  rcases operandFault_singleton_iff.1 h with ⟨hm, -⟩ | ⟨-, name, hn, hu, -⟩
  · exact not_misplaced_register r hm
  · cases hn
    exact hu.not_registerName ⟨r, mem_registerWords_name_iff.2 rfl⟩

/-- **The fault of a statement is one of its names.** -/
theorem hasNameFault_of_hasFault {code : List TypedStatement} {s : TypedStatement}
    {fault : AssemblyFault} (h : HasFault (statements code) s.statement fault) :
    HasNameFault code s fault := by
  have hundeclared : ∀ {name}, Uses s name → Undeclared (statements code) name →
      HasNameFault code s (.undefinedLabel name) := fun hu hn =>
    .undeclared hu hn.identifier hn.not_registerName (mt label_mem_statements_iff.2 hn.not_mem)
  cases s with
  | label name => cases h
  | data op lhs rhs =>
    have ho := operandFault_of_shaped .data h
    rcases operandFault_cons_register_iff.1 ho with ⟨hm, -⟩ | ⟨-, ho⟩
    · exact absurd hm (not_misplaced_register lhs)
    · rcases operandFault_singleton_iff.1 ho with ⟨hm, rfl⟩ | ⟨-, name, rfl, hu, rfl⟩
      · cases rhs with
        | integer value => cases hm
        | name name => exact .value hm.1 hm.2
      · exact hundeclared .value hu
  | inc lhs =>
    exact absurd (operandFault_of_shaped (.step (Or.inl rfl)) h) not_operandFault_register
  | dec lhs =>
    exact absurd (operandFault_of_shaped (.step (Or.inr rfl)) h) not_operandFault_register
  | jump condition target =>
    have ho := operandFault_of_shaped .jump h
    rcases operandFault_singleton_iff.1 ho with ⟨hm, rfl⟩ | ⟨-, name, ha, hu, rfl⟩
    · cases target with
      | index value => cases hm
      | label name => exact .target hm
    · cases target with
      | index value => cases ha
      | label other =>
        cases ha
        exact hundeclared .target hu

/-- An error of assembly is the fault of the statement at its index. -/
theorem exists_hasNameFault {code : List TypedStatement} {e : AssemblyError}
    (h : (assemble code).result = .error e) :
    ∃ s, code[e.statement]? = some s ∧ HasNameFault code s e.fault := by
  obtain ⟨place, fault⟩ := e
  have hplace : ∀ {s}, (statements code)[place]? = some s → ∃ t, code[place]? = some t ∧
      t.statement = s := by
    intro s hs
    rwa [statements, List.getElem?_map, Option.map_eq_some_iff] at hs
  cases Program.assemble_eq_error_iff.1 h with
  | label hf =>
    obtain ⟨s, hs, hfault⟩ := hf.here
    obtain ⟨t, ht, rfl⟩ := hplace hs
    refine ⟨t, ht, ?_⟩
    cases t with
    | label name =>
      cases hfault with
      | mk hn => exact .label hn
    | data | inc | dec | jump => cases hfault
  | instruction _ hf =>
    obtain ⟨s, hs, hfault⟩ := hf.here
    obtain ⟨t, ht, rfl⟩ := hplace hs
    exact ⟨t, ht, hasNameFault_of_hasFault hfault⟩

/-- **Typed statements have a program iff they are well-named.**  The program then
    has just the instructions for which the statements stand, one for each that is
    no label.  Otherwise the error is the fault of a name: an invalid label, an
    invalid operand or an undefined label, and nothing else. -/
theorem assemble_wellNamed (code : List TypedStatement) :
    ((∃ p, (assemble code).result = .ok p) ↔ WellNamed code) ∧
      (∀ p, (assemble code).result = .ok p →
        List.Forall₂ (Makes code) (code.filter (!·.isLabel)) p.instructions.toList ∧
          p.size = code.countP (!·.isLabel)) ∧
      ∀ e, (assemble code).result = .error e →
        ∃ s, code[e.statement]? = some s ∧ HasNameFault code s e.fault := by
  refine ⟨?_, fun p hp => ?_, fun e => exists_hasNameFault⟩
  · rw [← forall_accepts_iff_wellNamed, ← exists_assemble_iff, assemble]
  · have hmakes := forall₂_translates_iff_makes.1 (translates_of_assemble hp)
    refine ⟨hmakes, ?_⟩
    rw [List.countP_eq_length_filter, hmakes.length_eq]
    rfl

/-- A register is a value but no target, and a label may be both. -/
example :
    (assemble [.jump .less (.label "end"), .data .inc .cx (.name "end"),
        .data .mov .ax Register.bx.argument, .label "end"]).result =
      .ok ⟨#[.jump .less 3, .data .inc .cx (.literal 3), .data .mov .ax (.register .bx)],
        [("end", 3)]⟩ ∧
    (assemble [.dec .ax, .jump .always (.label "bx")]).result =
      .error ⟨1, .invalidOperand "jmp" "bx"⟩ := by
  decide

end TypedStatement

end RegisterMachine
