/-
  What a list of statements means as a program.

  * `Accepts code statement`: a statement of `code` is well-formed.  A label has
    a name that labels may have; an instruction has a mnemonic with as many
    operands as it takes, a register first if it is a data operation, then a
    value, and a target if it is a jump;
  * `Translates code call i`: an instruction of `code` means `i`.  Labels stand
    for their index (`LabelIndex`), the rest stands for itself;
  * `assemble_eq_ok_iff`: assembly is the label table and, for each instruction,
    its translation; `assemble_exact`: a list has a program iff it accepts all its
    statements, and which program that is.
-/
import RegisterMachine.Proofs.Labels
import RegisterMachine.Proofs.Names

namespace RegisterMachine

open Statement

/-! ## Well-formed statements -/

/-- A register name, for the left operand of a data operation. -/
inductive IsRegister : Argument → Prop
  | mk {name} : RegisterName name → IsRegister (.name name)

/-- An integer, a register name or a label declared in `code`. -/
inductive IsValue (code : List Statement) : Argument → Prop
  | integer {value} : IsValue code (.integer value)
  | register {name} : RegisterName name → IsValue code (.name name)
  | label {name} : .label name ∈ code → IsValue code (.name name)

/-- An integer or a label declared in `code`. -/
inductive IsTarget (code : List Statement) : Argument → Prop
  | integer {value} : IsTarget code (.integer value)
  | label {name} : .label name ∈ code → IsTarget code (.name name)

/-- A statement of `code` is well-formed. -/
inductive Accepts (code : List Statement) : Statement → Prop
  | label {name} : Identifier name → ¬ RegisterName name → Accepts code (.label name)
  | data {word op lhs rhs} : (word, op) ∈ dataWords → IsRegister lhs → IsValue code rhs →
      Accepts code (.instruction word [lhs, rhs])
  | step {word op lhs} : (word, op) ∈ stepWords → IsRegister lhs →
      Accepts code (.instruction word [lhs])
  | jump {word condition target} : (word, condition) ∈ jumpWords → IsTarget code target →
      Accepts code (.instruction word [target])

/-! ## Translation -/

/-- What a value means in `code`. -/
inductive ReadsValue (code : List Statement) : Argument → Operand → Prop
  | integer {value} : ReadsValue code (.integer value) (.literal value)
  | register {name r} : (name, r) ∈ registerWords → ReadsValue code (.name name) (.register r)
  | label {name index} : LabelIndex code name index →
      ReadsValue code (.name name) (.literal (Int64.ofNat index))

/-- What a target means in `code`. -/
inductive ReadsTarget (code : List Statement) : Argument → Int → Prop
  | integer {value : Word} : ReadsTarget code (.integer value) value.toInt
  | label {name index} : LabelIndex code name index → ReadsTarget code (.name name) index

/-- What an instruction of `code` means: an omitted value is one. -/
inductive Translates (code : List Statement) : String × List Argument → Instruction → Prop
  | data {word op name r rhs operand} : (word, op) ∈ dataWords → (name, r) ∈ registerWords →
      ReadsValue code rhs operand →
      Translates code (word, [.name name, rhs]) (.data op r operand)
  | step {word op name r} : (word, op) ∈ stepWords → (name, r) ∈ registerWords →
      Translates code (word, [.name name]) (.data op r (.literal 1))
  | jump {word condition target index} : (word, condition) ∈ jumpWords →
      ReadsTarget code target index →
      Translates code (word, [target]) (.jump condition index)

theorem isValue_iff {code : List Statement} {a : Argument} :
    IsValue code a ↔ ∃ operand, ReadsValue code a operand := by
  constructor
  · rintro (_ | ⟨r, hr⟩ | hl)
    · exact ⟨_, .integer⟩
    · exact ⟨_, .register hr⟩
    · obtain ⟨index, hi⟩ := exists_labelIndex hl
      exact ⟨_, .label hi⟩
  · rintro ⟨operand, _ | hr | hi⟩
    · exact .integer
    · exact .register ⟨_, hr⟩
    · exact .label hi.mem

theorem isTarget_iff {code : List Statement} {a : Argument} :
    IsTarget code a ↔ ∃ index, ReadsTarget code a index := by
  constructor
  · rintro (_ | hl)
    · exact ⟨_, .integer⟩
    · obtain ⟨index, hi⟩ := exists_labelIndex hl
      exact ⟨_, .label hi⟩
  · rintro ⟨index, _ | hi⟩
    · exact .integer
    · exact .label hi.mem

/-- **A well-formed instruction is one that means something.** -/
theorem accepts_instruction_iff {code : List Statement} {word : String}
    {operands : List Argument} :
    Accepts code (.instruction word operands) ↔ ∃ i, Translates code (word, operands) i := by
  constructor
  · rintro (_ | ⟨hw, ⟨r, hr⟩, hv⟩ | ⟨hw, ⟨r, hr⟩⟩ | ⟨hw, ht⟩)
    · obtain ⟨operand, ho⟩ := isValue_iff.1 hv
      exact ⟨_, .data hw hr ho⟩
    · exact ⟨_, .step hw hr⟩
    · obtain ⟨index, hi⟩ := isTarget_iff.1 ht
      exact ⟨_, .jump hw hi⟩
  · rintro ⟨i, ⟨hw, hr, ho⟩ | ⟨hw, hr⟩ | ⟨hw, hi⟩⟩
    · exact .data hw ⟨_, hr⟩ (isValue_iff.2 ⟨_, ho⟩)
    · exact .step hw ⟨_, hr⟩
    · exact .jump hw (isTarget_iff.2 ⟨_, hi⟩)

theorem accepts_label_iff {code : List Statement} {name : String} :
    Accepts code (.label name) ↔ isLabelName name = true := by
  rw [isLabelName_iff]
  constructor
  · rintro ⟨hi, hr⟩
    exact ⟨hi, hr⟩
  · rintro ⟨hi, hr⟩
    exact .label hi hr

/-! ## Assembly is translation -/

theorem Register.ofArgument_eq_ok_iff {mnemonic : String} {a : Argument} {r : Register} :
    Register.ofArgument mnemonic a = .ok r ↔
      ∃ name, a = .name name ∧ (name, r) ∈ registerWords := by
  cases a with
  | integer value => simp [Register.ofArgument]
  | name name =>
    simp only [Register.ofArgument, Argument.name.injEq, exists_eq_left', ← ofName?_register_iff]
    cases Register.ofName? name <;> simp

section
variable {labels : Labels} {code : List Statement} (h : labels.Binds code)
include h

theorem resolve_eq_ok_iff {name : String} {index : Nat} :
    labels.resolve name = .ok index ↔ LabelIndex code name index := by
  rw [← h.index?_eq_some_iff, Labels.resolve]
  cases labels.index? name <;> simp

theorem Operand.ofArgument_eq_ok_iff {mnemonic : String} {a : Argument} {operand : Operand} :
    Operand.ofArgument labels mnemonic a = .ok operand ↔ ReadsValue code a operand := by
  constructor
  · intro ho
    cases a with
    | integer value =>
      cases ho
      exact .integer
    | name name =>
      unfold Operand.ofArgument at ho
      cases hr : Register.ofName? name with
      | some r =>
        simp only [hr] at ho
        cases ho
        exact .register (ofName?_register_iff.1 hr)
      | none =>
        simp only [hr] at ho
        split_ifs at ho
        obtain ⟨index, hi, rfl⟩ := map_eq_ok_iff.1 ho
        exact .label ((resolve_eq_ok_iff h).1 hi)
  · rintro (_ | hr | hi)
    · rfl
    · simp [Operand.ofArgument, ofName?_register_iff.2 hr]
    · have hn := h.isLabelName _ hi.mem
      simp only [isLabelName, Bool.and_eq_true, Option.isNone_iff_eq_none] at hn
      simp only [Operand.ofArgument, hn, if_true]
      exact map_eq_ok_iff.2 ⟨_, (resolve_eq_ok_iff h).2 hi, rfl⟩

theorem jumpTarget_eq_ok_iff {mnemonic : String} {a : Argument} {index : Int} :
    jumpTarget labels mnemonic a = .ok index ↔ ReadsTarget code a index := by
  constructor
  · intro ht
    cases a with
    | integer value =>
      cases ht
      exact .integer
    | name name =>
      simp only [jumpTarget] at ht
      split_ifs at ht
      obtain ⟨index, hi, rfl⟩ := map_eq_ok_iff.1 ht
      exact .label ((resolve_eq_ok_iff h).1 hi)
  · rintro (_ | hi)
    · rfl
    · simp only [jumpTarget, h.isLabelName _ hi.mem, if_true]
      exact map_eq_ok_iff.2 ⟨_, (resolve_eq_ok_iff h).2 hi, rfl⟩

theorem assembleData_eq_ok_iff {word : String} {op : DataOp} {lhs rhs : Argument}
    {i : Instruction} :
    Instruction.assembleData labels word op lhs rhs = .ok i ↔
      ∃ name r operand, lhs = .name name ∧ (name, r) ∈ registerWords ∧
        ReadsValue code rhs operand ∧ i = .data op r operand := by
  unfold Instruction.assembleData
  constructor
  · intro hi
    cases hr : Register.ofArgument word lhs with
    | error fault =>
      rw [hr] at hi
      cases hi
    | ok r =>
      obtain ⟨name, hl, hn⟩ := Register.ofArgument_eq_ok_iff.1 hr
      rw [hr] at hi
      obtain ⟨operand, ho, rfl⟩ := map_eq_ok_iff.1 hi
      exact ⟨name, r, operand, hl, hn, (Operand.ofArgument_eq_ok_iff h).1 ho, rfl⟩
  · rintro ⟨name, r, operand, hl, hn, ho, rfl⟩
    rw [Register.ofArgument_eq_ok_iff.2 ⟨name, hl, hn⟩]
    exact map_eq_ok_iff.2 ⟨operand, (Operand.ofArgument_eq_ok_iff h).2 ho, rfl⟩

/-- **An instruction is assembled into what it means.** -/
theorem Instruction.assemble_eq_ok_iff {word : String} {operands : List Argument}
    {i : Instruction} :
    Instruction.assemble labels word operands = .ok i ↔ Translates code (word, operands) i := by
  constructor
  · intro hi
    unfold Instruction.assemble at hi
    split at hi
    · cases hi
    · rename_i m hm
      -- one case for each shape of mnemonic and operands that the arity allows
      split at hi
      · obtain ⟨name, r, operand, rfl, hn, ho, rfl⟩ := (assembleData_eq_ok_iff h).1 hi
        exact .data (ofName?_data_iff.1 hm) hn ho
      · obtain ⟨name, r, operand, rfl, hn, ho, rfl⟩ := (assembleData_eq_ok_iff h).1 hi
        cases ho
        exact .step (mem_stepWords_iff.2 ⟨ofName?_data_iff.1 hm, Or.inl rfl⟩) hn
      · obtain ⟨name, r, operand, rfl, hn, ho, rfl⟩ := (assembleData_eq_ok_iff h).1 hi
        cases ho
        exact .step (mem_stepWords_iff.2 ⟨ofName?_data_iff.1 hm, Or.inr rfl⟩) hn
      · obtain ⟨index, ht, rfl⟩ := map_eq_ok_iff.1 hi
        exact .jump (ofName?_jump_iff.1 hm) ((jumpTarget_eq_ok_iff h).1 ht)
      · cases hi
  · rintro (⟨hw, hr, ho⟩ | ⟨hw, hr⟩ | ⟨hw, ht⟩)
    · simp only [Instruction.assemble, ofName?_data_iff.2 hw]
      exact (assembleData_eq_ok_iff h).2 ⟨_, _, _, rfl, hr, ho, rfl⟩
    · obtain ⟨hd, rfl | rfl⟩ := mem_stepWords_iff.1 hw
      all_goals
        simp only [Instruction.assemble, ofName?_data_iff.2 hd]
        exact (assembleData_eq_ok_iff h).2 ⟨_, _, _, rfl, hr, .integer, rfl⟩
    · simp only [Instruction.assemble, ofName?_jump_iff.2 hw]
      exact map_eq_ok_iff.2 ⟨_, (jumpTarget_eq_ok_iff h).2 ht, rfl⟩

end

theorem Instruction.assembleFrom_eq_ok_iff {labels : Labels} {statement : Nat}
    {code : List Statement} {is : List Instruction} :
    Instruction.assembleFrom labels statement code = .ok is ↔
      List.Forall₂ (fun call i => Instruction.assemble labels call.1 call.2 = .ok i)
        (calls code) is := by
  induction code generalizing statement is with
  | nil => simp [Instruction.assembleFrom, eq_comm]
  | cons s rest ih =>
    cases s with
    | label name => exact ih
    | instruction word operands =>
      rw [calls_instruction, List.forall₂_cons_left_iff, Instruction.assembleFrom]
      cases hi : Instruction.assemble labels word operands with
      | error fault => simp
      | ok i =>
        simp only [map_eq_ok_iff, ih, Except.ok.injEq, exists_eq_left', exists_and_left]
        simp only [eq_comm (b := is)]

/-! ## Programs -/

theorem Program.assemble_eq_ok_iff {code : List Statement} {p : Program} :
    (Program.assemble code).result = .ok p ↔
      (Labels.ofStatements code).result = .ok p.labels ∧
        List.Forall₂ (Translates code) (calls code) p.instructions.toList := by
  have hc : ∀ {labels is}, (Labels.ofStatements code).result = .ok labels →
      (Instruction.assembleAll labels code = .ok is ↔
        List.Forall₂ (Translates code) (calls code) is) := by
    intro labels is hl
    simp only [Instruction.assembleAll, Instruction.assembleFrom_eq_ok_iff,
      Instruction.assemble_eq_ok_iff (Labels.binds_of_ofStatements hl)]
  rw [Program.assemble, Report.result_andThen, bind_eq_ok_iff]
  constructor
  · rintro ⟨labels, hl, hp⟩
    cases hi : Instruction.assembleAll labels code with
    | error e =>
      rw [hi] at hp
      cases hp
    | ok is =>
      rw [hi] at hp
      cases hp
      exact ⟨hl, (hc hl).1 hi⟩
  · rintro ⟨hl, hi⟩
    refine ⟨p.labels, hl, ?_⟩
    rw [(hc hl).2 hi]

theorem exists_forall₂_iff {α β : Type} {R : α → β → Prop} {as : List α} :
    (∃ bs, List.Forall₂ R as bs) ↔ ∀ a ∈ as, ∃ b, R a b := by
  induction as with
  | nil => simp
  | cons a as ih =>
    simp only [List.forall₂_cons_left_iff, List.mem_cons, forall_eq_or_imp, ← ih]
    constructor
    · rintro ⟨_, b, bs, hb, hbs, rfl⟩
      exact ⟨⟨b, hb⟩, bs, hbs⟩
    · rintro ⟨⟨b, hb⟩, bs, hbs⟩
      exact ⟨_, b, bs, hb, hbs, rfl⟩

theorem mem_calls {code : List Statement} {call : String × List Argument} :
    call ∈ calls code ↔ .instruction call.1 call.2 ∈ code := by
  unfold calls
  rw [List.mem_filterMap]
  constructor
  · rintro ⟨s, hs, hc⟩
    cases s with
    | label name => cases hc
    | instruction word operands =>
      cases hc
      exact hs
  · exact fun h => ⟨_, h, rfl⟩

/-- **A list of statements has a program iff it accepts them all.** -/
theorem exists_assemble_iff {code : List Statement} :
    (∃ p, (Program.assemble code).result = .ok p) ↔ ∀ s ∈ code, Accepts code s := by
  constructor
  · rintro ⟨p, hp⟩ s hs
    obtain ⟨hl, hi⟩ := Program.assemble_eq_ok_iff.1 hp
    cases s with
    | label name => exact accepts_label_iff.2 (Labels.exists_ofStatements_iff.1 ⟨_, hl⟩ name hs)
    | instruction word operands =>
      have hc : (word, operands) ∈ calls code := mem_calls.2 hs
      exact accepts_instruction_iff.2 (exists_forall₂_iff.1 ⟨_, hi⟩ _ hc)
  · intro h
    obtain ⟨labels, hl⟩ := Labels.exists_ofStatements_iff.2 fun name hn =>
      accepts_label_iff.1 (h _ hn)
    obtain ⟨is, hi⟩ := exists_forall₂_iff.2 fun call hc =>
      accepts_instruction_iff.1 (h _ (mem_calls.1 hc))
    exact ⟨⟨is.toArray, labels⟩, Program.assemble_eq_ok_iff.2 ⟨hl, hi⟩⟩

section
variable {code : List Statement} {p : Program} (h : (Program.assemble code).result = .ok p)
include h

theorem binds_of_assemble : p.labels.Binds code :=
  Labels.binds_of_ofStatements (Program.assemble_eq_ok_iff.1 h).1

theorem translates_of_assemble :
    List.Forall₂ (Translates code) (calls code) p.instructions.toList :=
  (Program.assemble_eq_ok_iff.1 h).2

/-- The program is the only translation of its statements. -/
theorem forall₂_translates_iff {is : List Instruction} :
    List.Forall₂ (Translates code) (calls code) is ↔ is = p.instructions.toList := by
  constructor
  · intro hi
    have hq : (Program.assemble code).result = .ok ⟨is.toArray, p.labels⟩ :=
      Program.assemble_eq_ok_iff.2 ⟨(Program.assemble_eq_ok_iff.1 h).1, hi⟩
    have hp := Except.ok.inj (h.symm.trans hq)
    rw [hp]
  · rintro rfl
    exact translates_of_assemble h

theorem size_of_assemble : p.size = (calls code).length :=
  (translates_of_assemble h).length_eq.symm

/-- The instruction of an index translates the instruction statement of the
    same index. -/
theorem getElem?_instructions {index : Nat} {call : String × List Argument}
    (hc : (calls code)[index]? = some call) :
    ∃ i, p.instructions[index]? = some i ∧ Translates code call i := by
  obtain ⟨hlen, hget⟩ := List.forall₂_iff_get.1 (translates_of_assemble h)
  obtain ⟨hlt, rfl⟩ := List.getElem?_eq_some_iff.1 hc
  have hlt' : index < p.instructions.toList.length := hlen ▸ hlt
  refine ⟨p.instructions.toList[index], ?_, hget index hlt hlt'⟩
  rw [← Array.getElem?_toList, List.getElem?_eq_getElem hlt']

end

/-- What makes `p` the program of `code`. -/
structure ProgramOf (code : List Statement) (p : Program) : Prop where
  instructions : ∀ is,
    List.Forall₂ (Translates code) (calls code) is ↔ is = p.instructions.toList
  names : ∀ name, name ∈ p.labels.map Prod.fst ↔ .label name ∈ code
  nodup_names : (p.labels.map Prod.fst).Nodup
  labels : ∀ name index, (name, index) ∈ p.labels ↔ LabelIndex code name index
  label_le : ∀ entry ∈ p.labels, entry.2 ≤ p.size
  /-- As a value an index is itself, if the number of statements fits in a word. -/
  label_value : code.length < 2 ^ 63 → ∀ name index, LabelIndex code name index →
    (Int64.ofNat index).toInt = index

/-- **Assembly is exact.**  A list of statements has a program iff it accepts
    all its statements, and then the program has the only translation of each
    instruction, in order, and the index of each declared label. -/
theorem assemble_exact (code : List Statement) :
    ((∃ p, (Program.assemble code).result = .ok p) ↔ ∀ s ∈ code, Accepts code s) ∧
      ∀ p, (Program.assemble code).result = .ok p → ProgramOf code p := by
  refine ⟨exists_assemble_iff, fun p hp => ?_⟩
  have hb := binds_of_assemble hp
  have hle : ∀ entry ∈ p.labels, entry.2 ≤ p.size := by
    rintro ⟨name, index⟩ he
    rw [size_of_assemble hp]
    exact (hb.mem_iff.1 he).le
  refine ⟨fun _ => forall₂_translates_iff hp, fun name => ?_, hb.nodup_keys, fun _ _ => hb.mem_iff, hle,
    fun hlen name index hi => ?_⟩
  · constructor
    · intro hn
      obtain ⟨⟨_, index⟩, he, rfl⟩ := List.mem_map.1 hn
      exact (hb.mem_iff.1 he).mem
    · intro hn
      obtain ⟨index, hi⟩ := exists_labelIndex hn
      exact List.mem_map.2 ⟨(name, index), hb.mem_iff.2 hi, rfl⟩
  · have hle := hi.le
    have hc : (calls code).length ≤ code.length := List.length_filterMap_le _ _
    exact Int64.toInt_ofNat_of_lt (by omega)

/-- A label is used before it is declared, and one is declared twice. -/
example :
    (Program.assemble
      [.label "top", .instruction "jmp" [.name "end"], .label "top",
        .instruction "inc" [.name "cx"], .instruction "dec" [.name "dx", .name "top"],
        .label "end"]).result =
      .ok ⟨#[.jump .always 3, .data .inc .cx (.literal 1), .data .dec .dx (.literal 1)],
        [("top", 1), ("end", 3)]⟩ := by
  decide

end RegisterMachine
