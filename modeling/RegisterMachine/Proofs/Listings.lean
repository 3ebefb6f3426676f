/-
  Listings of typed statements and of instructions.

  What is built in types can be written down as a source: a list of typed
  statements, or the instructions of a program.  The source comes to the same as
  what it lists.

  * `Source.program_listing`: the program of a listing is the assembly of the
    statements in it, so its run can only fail later (`error_of_run_listing`);
  * `TypedStatement.run_listing`: typed statements and their listing have the
    same run, if the names in them are identifiers;
  * `Instruction.typed`: an instruction as a statement, which has the same text
    (`text_typed`) and is assembled into it (`assemble_typed`);
  * `Addressed i`: the target of a jump is a word.  So it is in every program that
    is not too long (`addressed_of_assemble`);
  * `listing_reassembles`: the listing of instructions is assembled into just
    these instructions.
-/
import RegisterMachine.Proofs.Faults
import RegisterMachine.Proofs.Normalization
import RegisterMachine.Proofs.Unbounded
import RegisterMachine.TypedStatement

namespace RegisterMachine

/-! ## Listings of statements -/

theorem Report.of_ok_andThen {ε α β : Type} (value : α) (next : α → Report ε β) :
    (Report.of (.ok value)).andThen next = next value := rfl

namespace Source

theorem result_run (fs : FileSystem) (text : String) (limit : StepLimit) (threshold : Threshold) :
    (run fs text limit threshold).result =
      (program fs text).result.bind fun p => (p.execute limit).mapError .execution := by
  rw [run, Report.result_andThen]
  rfl

section
variable {fs : FileSystem} {code : List Statement} (h : ∀ s ∈ code, Printable s)
include h

/-- The program of a listing is the assembly of what it lists. -/
theorem program_listing :
    program fs (Statement.listing code) = (Program.assemble code).mapError .assembly := by
  rw [program, statements_of_words fs (Statement.ofText_listing h) h]
  exact Report.of_ok_andThen code _

/-- The run of a listing fails in assembly or in execution, if it fails. -/
theorem error_of_run_listing {limit : StepLimit} {threshold : Threshold} {e : Error}
    (he : (run fs (Statement.listing code) limit threshold).result = .error e) :
    (∃ a, e = .assembly a) ∨ ∃ x, e = .execution x := by
  rw [result_run, program_listing h, Report.mapError] at he
  cases ha : (Program.assemble code).result with
  | error a =>
    rw [ha] at he
    cases he
    exact Or.inl ⟨a, rfl⟩
  | ok p =>
    rw [ha] at he
    cases hx : p.execute limit with
    | error x =>
      simp only [Except.mapError, Except.bind, hx] at he
      cases he
      exact Or.inr ⟨x, rfl⟩
    | ok registers => simp [Except.mapError, Except.bind, hx] at he

end

end Source

/-! ## Typed statements -/

theorem mnemonicWord_name (m : Mnemonic) : MnemonicWord m.name :=
  mnemonicWord_of_ofName? (Mnemonic.ofName?_name m)

theorem Register.mem_registerWords (r : Register) : (r.name, r) ∈ registerWords :=
  ofName?_register_iff.1 (Register.ofName?_name r)

theorem Register.printable (r : Register) : PrintableArgument r.argument :=
  .name (RegisterName.identifier ⟨r, r.mem_registerWords⟩)

namespace TypedStatement

/-- The names that a typed statement leaves to assembly. -/
def names : TypedStatement → List String
  | label name | data _ _ (.name name) | jump _ (.label name) => [name]
  | data _ _ (.integer _) | inc _ | dec _ | jump _ (.index _) => []

/-- Only the names of a typed statement can keep it from being printed. -/
theorem printable_statement {s : TypedStatement} (h : ∀ name ∈ s.names, Identifier name) :
    Printable s.statement := by
  cases s with
  | label name => exact .label (h name List.mem_cons_self)
  | data op lhs rhs =>
    have hrhs : PrintableArgument rhs := by
      cases rhs with
      | name name => exact .name (h name List.mem_cons_self)
      | integer value => exact .integer
    refine .instruction (mnemonicWord_name _) ?_
    simpa using ⟨lhs.printable, hrhs⟩
  | inc lhs | dec lhs =>
    refine .instruction (mnemonicWord_name _) ?_
    simpa using lhs.printable
  | jump condition target =>
    have htarget : PrintableArgument target.argument := by
      cases target with
      | index value => exact .integer
      | label name => exact .name (h name List.mem_cons_self)
    refine .instruction (mnemonicWord_name _) ?_
    simpa using htarget

theorem printable_statements {code : List TypedStatement}
    (h : ∀ s ∈ code, ∀ name ∈ s.names, Identifier name) : ∀ s ∈ statements code, Printable s := by
  simp only [statements, List.forall_mem_map]
  exact fun s hs => printable_statement (h s hs)

/-- **Typed statements and their listing have the same run**, with the same result
    and the same events, if their names are identifiers.  So the listing is always
    expanded and read. -/
theorem run_listing (fs : FileSystem) (threshold : Threshold) {code : List TypedStatement}
    (h : ∀ s ∈ code, ∀ name ∈ s.names, Identifier name) :
    Source.run fs (Statement.listing (statements code)) .standard threshold =
        run code threshold ∧
      ∀ e, (Source.run fs (Statement.listing (statements code)) .standard threshold).result =
        .error e → (∃ a, e = .assembly a) ∨ ∃ x, e = .execution x := by
  have hprintable := printable_statements h
  refine ⟨?_, fun e he => Source.error_of_run_listing hprintable he⟩
  rw [Source.run, Source.program_listing hprintable, run, assemble]

/-- Jumps to a label that is not declared. -/
def astray : List TypedStatement :=
  [.label "top", .data .mov .bx (.name "top"), .dec .ax, .jump .less (.label "ahead")]

theorem run_listing_astray :
    (∀ s ∈ astray, ∀ name ∈ s.names, Identifier name) ∧
      (Source.run (.ofTable []) "top:\nmov bx, top\ndec ax\njl ahead" .standard none).result =
        .error (.assembly ⟨3, .undefinedLabel "ahead"⟩) := by
  have h : ∀ s ∈ astray, ∀ name ∈ s.names, Identifier name := by decide
  have hl : Statement.listing (statements astray) = "top:\nmov bx, top\ndec ax\njl ahead" := by
    decide
  obtain ⟨hrun, -⟩ := run_listing (.ofTable []) none h
  rw [hl] at hrun
  exact ⟨h, hrun ▸ by decide⟩

end TypedStatement

/-! ## Instructions -/

def Operand.argument : Operand → Argument
  | register r => r.argument
  | literal value => .integer value

theorem Operand.text_argument (operand : Operand) : operand.argument.text = operand.text := by
  cases operand <;> rfl

/-- An instruction whose target, if it is a jump, is a word. -/
inductive Addressed : Instruction → Prop
  | data {op lhs rhs} : Addressed (.data op lhs rhs)
  | jump {condition target} : Fits target → Addressed (.jump condition target)

instance : DecidablePred Addressed
  | .data .. => .isTrue .data
  | .jump _ target => decidable_of_iff (Fits target) ⟨.jump, fun | .jump h => h⟩

namespace Instruction

/-- An instruction as a statement that names no label. -/
def typed : Instruction → TypedStatement
  | data op lhs rhs => .data op lhs rhs.argument
  | jump condition target => .jump condition (.index (Int64.ofInt target))

/-- Instructions as a source, one on a line. -/
def listing (code : List Instruction) : String :=
  String.intercalate "\n" (code.map text)

theorem identifier_of_mem_names (i : Instruction) : ∀ name ∈ i.typed.names, Identifier name := by
  cases i with
  | data op lhs rhs =>
    cases rhs with
    | register r =>
      intro name hn
      rw [List.mem_singleton.1 hn]
      exact RegisterName.identifier ⟨r, r.mem_registerWords⟩
    | literal value => exact List.forall_mem_nil _
  | jump condition target => exact List.forall_mem_nil _

/-- An instruction is written as its statement is. -/
theorem text_typed {i : Instruction} (h : Addressed i) : i.typed.statement.text = i.text := by
  cases h with
  | @data op lhs rhs =>
    have hstatement : (data op lhs rhs).typed.statement.text =
        (Mnemonic.data op).name ++ " " ++ (lhs.name ++ ", " ++ rhs.argument.text) := rfl
    have hinstruction : (data op lhs rhs).text =
        (Mnemonic.data op).name ++ " " ++ lhs.name ++ ", " ++ rhs.text := rfl
    rw [hstatement, hinstruction, rhs.text_argument]
    simp only [String.append_assoc]
  | @jump condition target ht =>
    have hstatement : (jump condition target).typed.statement.text =
        (Mnemonic.jump condition).name ++ " " ++ Word.text (Int64.ofInt target) := rfl
    rw [hstatement, Word.text, ht.toInt_ofInt]
    rfl

theorem listing_typed {code : List Instruction} (h : ∀ i ∈ code, Addressed i) :
    Statement.listing (TypedStatement.statements (code.map typed)) = listing code := by
  have htexts : (TypedStatement.statements (code.map typed)).map Statement.text =
      code.map text := by
    rw [TypedStatement.statements, List.map_map, List.map_map]
    exact List.map_congr_left fun i hi => text_typed (h i hi)
  rw [Statement.listing, htexts, listing]

/-- An instruction is what its statement means, whatever the labels. -/
theorem translates_typed {i : Instruction} (h : Addressed i) (code : List Statement) :
    ∃ call, i.typed.statement.call? = some call ∧ Translates code call i := by
  cases h with
  | @data op lhs rhs =>
    have hword : ((Mnemonic.data op).name, op) ∈ dataWords :=
      ofName?_data_iff.1 (Mnemonic.ofName?_name _)
    have hrhs : ReadsValue code rhs.argument rhs := by
      cases rhs with
      | register r => exact .register r.mem_registerWords
      | literal value => exact .integer
    exact ⟨_, rfl, .data hword lhs.mem_registerWords hrhs⟩
  | @jump condition target ht =>
    have hword : ((Mnemonic.jump condition).name, condition) ∈ jumpWords :=
      ofName?_jump_iff.1 (Mnemonic.ofName?_name _)
    have htarget : ReadsTarget code (.integer (Int64.ofInt target)) (Int64.ofInt target).toInt :=
      .integer
    rw [ht.toInt_ofInt] at htarget
    exact ⟨_, rfl, .jump hword htarget⟩

theorem forall₂_translates_typed {is : List Instruction} (h : ∀ i ∈ is, Addressed i)
    (code : List Statement) : List.Forall₂ (Translates code)
      (Statement.calls (TypedStatement.statements (is.map typed))) is := by
  induction is with
  | nil => exact .nil
  | cons i rest ih =>
    obtain ⟨hi, hrest⟩ := List.forall_mem_cons.1 h
    obtain ⟨call, hc, ht⟩ := translates_typed hi code
    have hcalls : Statement.calls (TypedStatement.statements ((i :: rest).map typed)) =
        call :: Statement.calls (TypedStatement.statements (rest.map typed)) :=
      List.filterMap_cons_some hc
    rw [hcalls]
    exact .cons ht (ih hrest)

/-- The statements of instructions declare no label. -/
theorem label_not_mem_typed (code : List Instruction) (name : String) :
    .label name ∉ TypedStatement.statements (code.map typed) := by
  rw [TypedStatement.statements, List.map_map]
  intro hm
  obtain ⟨i, -, hi⟩ := List.mem_map.1 hm
  cases i <;> cases hi

/-- **The statements of instructions are assembled into them.** -/
theorem assemble_typed {code : List Instruction} (h : ∀ i ∈ code, Addressed i) :
    (Program.assemble (TypedStatement.statements (code.map typed))).result =
      .ok ⟨code.toArray, []⟩ := by
  have hnone := label_not_mem_typed code
  obtain ⟨labels, hl⟩ := Labels.exists_ofStatements_iff.2 fun name hn => absurd hn (hnone name)
  have hempty : labels = [] := by
    refine List.eq_nil_iff_forall_not_mem.2 fun ⟨name, index⟩ hm => hnone name ?_
    exact ((Labels.binds_of_ofStatements hl).mem_iff.1 hm).mem
  rw [hempty] at hl
  exact Program.assemble_eq_ok_iff.2 ⟨hl, forall₂_translates_typed h _⟩

end Instruction

/-! ## Programs -/

/-- The targets of an assembled program are words: the index of a label is one, too. -/
theorem addressed_of_assemble {code : List Statement} {p : Program}
    (h : (Program.assemble code).result = .ok p) (hlen : code.length < 2 ^ 63) :
    ∀ i ∈ p.instructions, Addressed i := by
  intro i hi
  cases i with
  | data op lhs rhs => exact .data
  | jump condition target =>
    obtain ⟨index, hindex⟩ := Array.getElem?_of_mem hi
    obtain ⟨call, -, ht⟩ := exists_call h hindex
    rcases ht.jump_cases with ⟨_, value, -, -, rfl⟩ | ⟨name, index, hl, rfl⟩
    · exact .jump (fits_toInt value)
    · rw [← hl.toInt_ofNat hlen]
      exact .jump (fits_toInt _)

/-- The labels of a program play no part in its runs. -/
theorem Machine.run_labels (code : Array Instruction) (labels labels' : Labels) (budget : Nat)
    (m : Machine) : run ⟨code, labels⟩ budget m = run ⟨code, labels'⟩ budget m := by
  have hstep : step ⟨code, labels⟩ = step ⟨code, labels'⟩ := rfl
  have hhalted : isHalted ⟨code, labels⟩ = isHalted ⟨code, labels'⟩ := rfl
  induction budget generalizing m with
  | zero => rfl
  | succ budget ih => simp only [run, hstep, hhalted, ih]

theorem Program.execute_labels (code : Array Instruction) (labels labels' : Labels)
    (limit : StepLimit) : execute ⟨code, labels⟩ limit = execute ⟨code, labels'⟩ limit := by
  rw [execute, execute, finish, finish, Machine.run_labels code labels labels']
  rfl

theorem Instruction.program_listing (fs : FileSystem) {code : List Instruction}
    (h : ∀ i ∈ code, Addressed i) :
    (Source.program fs (listing code)).result = .ok ⟨code.toArray, []⟩ := by
  have hprintable : ∀ s ∈ TypedStatement.statements (code.map typed), Printable s :=
    TypedStatement.printable_statements
      (List.forall_mem_map.2 fun i _ => i.identifier_of_mem_names)
  rw [← listing_typed h, Source.program_listing hprintable, Report.mapError, assemble_typed h]
  rfl

theorem Program.result_run_listing (fs : FileSystem) {p : Program}
    (h : ∀ i ∈ p.instructions, Addressed i) (limit : StepLimit) (threshold : Threshold) :
    (Source.run fs (Instruction.listing p.instructions.toList) limit threshold).result =
      (p.execute limit).mapError .execution := by
  obtain ⟨code, labels⟩ := p
  have hcode : ∀ i ∈ code.toList, Addressed i := fun i hi => h i (Array.mem_toList_iff.1 hi)
  rw [Source.result_run, Instruction.program_listing fs hcode,
    Program.execute_labels code labels []]
  rfl

/-- **A listing of instructions is assembled into just these instructions**, in
    every file system and without labels, if their targets are words.  So it has
    the same runs as a program with these instructions, whatever the labels and
    the limit: for one, if the program is assembled. -/
theorem listing_reassembles (fs : FileSystem) :
    (∀ code : List Instruction, (∀ i ∈ code, Addressed i) →
      (Source.program fs (Instruction.listing code)).result = .ok ⟨code.toArray, []⟩) ∧
    (∀ p : Program, (∀ i ∈ p.instructions, Addressed i) → ∀ limit threshold,
      (Source.run fs (Instruction.listing p.instructions.toList) limit threshold).result =
        (p.execute limit).mapError .execution) ∧
    ∀ (statements : List Statement) (p : Program), statements.length < 2 ^ 63 →
      (Program.assemble statements).result = .ok p → ∀ limit threshold,
        (Source.run fs (Instruction.listing p.instructions.toList) limit threshold).result =
          (p.execute limit).mapError .execution :=
  ⟨fun _ h => Instruction.program_listing fs h, fun _ h => Program.result_run_listing fs h,
    fun _ _ hlen hp => Program.result_run_listing fs (addressed_of_assemble hp hlen)⟩

/-- The extreme words as targets and as a value. -/
def farthest : List Instruction :=
  [.jump .always (-2 ^ 63), .jump .greaterEqual (2 ^ 63 - 1),
    .data .cmp .dx (.literal Int64.minValue), .data .mov .ax (.register .bx)]

/-- Counts to three. -/
def counting : List Statement :=
  [.label "again", .instruction "inc" [.name "ax"],
    .instruction "cmp" [.name "ax", .integer 3], .instruction "jne" [.name "again"]]

theorem listing_reassembles_farthest :
    (∀ i ∈ farthest, Addressed i) ∧
      (Source.program (.ofTable []) ("jmp -9223372036854775808\njge 9223372036854775807\n" ++
        "cmp dx, -9223372036854775808\nmov ax, bx")).result = .ok ⟨farthest.toArray, []⟩ ∧
      counting.length < 2 ^ 63 ∧
      ∃ p, (Program.assemble counting).result = .ok p ∧
        p.labels = [("again", 0)] ∧
        (Source.run (.ofTable []) "inc ax, 1\ncmp ax, 3\njne 0" (some 9) none).result =
          .ok { ax := 3 } := by
  have h : ∀ i ∈ farthest, Addressed i := by decide
  have hl : Instruction.listing farthest =
      "jmp -9223372036854775808\njge 9223372036854775807\n" ++
        "cmp dx, -9223372036854775808\nmov ax, bx" := by decide
  have hlen : counting.length < 2 ^ 63 := by decide
  have hp : (Program.assemble counting).result =
      .ok ⟨#[.data .inc .ax (.literal 1), .data .cmp .ax (.literal 3), .jump .notEqual 0],
        [("again", 0)]⟩ := by decide
  obtain ⟨hprogram, -, hrun⟩ := listing_reassembles (.ofTable [])
  refine ⟨h, hl ▸ hprogram farthest h, hlen, _, hp, rfl, ?_⟩
  exact (hrun counting _ hlen hp (some 9) none).trans (by decide)

end RegisterMachine
