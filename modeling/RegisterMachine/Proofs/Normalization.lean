/-
  Sources in normal form: the statements of a source, written down again.

  * `Source.normal` is the listing of the statements of a source;
  * `Plain`: no line of a text starts with a directive;
  * `printable_of_accepts`: a statement that is well-formed can be printed, so
    substitution leaves nothing behind that the assembler takes and the reader
    would read differently;
  * `normal_of_assembled`: if a source has a program, then its normal form is
    plain, has the same program in every file system and is its own normal form.
-/
import RegisterMachine.Proofs.RoundTrip
import RegisterMachine.Proofs.Translation

namespace RegisterMachine

/-- The statements of a source, one on a line. -/
def Source.normal (fs : FileSystem) (text : String) : Except Error String :=
  (Source.statements fs text).result.map Statement.listing

/-- No line starts with a directive. -/
def Plain (text : String) : Prop :=
  ∀ line ∈ Text.lines text.toList, ∀ word ∈ (Line.tokens line).head?,
    word ≠ "%define" ∧ word ≠ "%include"

/-! ## Plain texts -/

/-- A line of code does not start with a directive. -/
theorem SourceLine.head?_of_ofLine_eq_code {line : Line} {tokens : List String}
    (h : ofLine line = .code tokens) :
    ∀ word ∈ line.tokens.head?, word ≠ defineDirective ∧ word ≠ includeDirective := by
  rw [ofLine] at h
  cases ht : line.tokens with
  | nil => simp
  | cons word rest =>
    rw [ht] at h
    by_cases hd : word = defineDirective
    · simp [hd] at h
    · by_cases hi : word = includeDirective
      · simp [hi, includeDirective, defineDirective] at h
      · simpa using ⟨hd, hi⟩

theorem plain_of_ofText {text : String} {lines : List (List String)}
    (h : SourceLine.ofText text = lines.map .code) : Plain text := by
  intro line hl
  have hm : SourceLine.ofLine line ∈ lines.map .code := h ▸ List.mem_map_of_mem hl
  obtain ⟨tokens, -, ht⟩ := List.mem_map.1 hm
  exact SourceLine.head?_of_ofLine_eq_code ht.symm

/-! ## What the assembler takes can be printed -/

theorem RegisterName.identifier {name : String} (h : RegisterName name) : Identifier name := by
  have hall : ∀ entry ∈ registerWords, Identifier entry.1 := by decide
  obtain ⟨r, hr⟩ := h
  exact hall _ hr

theorem mnemonicWord_of_ofName? {word : String} {m : Mnemonic}
    (h : Mnemonic.ofName? word = some m) : MnemonicWord word := by
  rw [Mnemonic.ofName?_eq_some_iff.1 h]
  cases m with
  | data op => cases op <;> decide
  | jump condition => cases condition <;> decide

theorem IsRegister.printable {a : Argument} (h : IsRegister a) : PrintableArgument a := by
  obtain ⟨hr⟩ := h
  exact .name hr.identifier

section
variable {code : List Statement} (hcode : ∀ s ∈ code, Accepts code s)
include hcode

/-- A declared label is an identifier, because its declaration is well-formed. -/
theorem identifier_of_declared {name : String} (h : .label name ∈ code) : Identifier name := by
  obtain ⟨hn, -⟩ | _ | _ | _ := hcode _ h
  exact hn

theorem IsValue.printable {a : Argument} (h : IsValue code a) : PrintableArgument a := by
  cases h with
  | integer => exact .integer
  | register hr => exact .name hr.identifier
  | label hl => exact .name (identifier_of_declared hcode hl)

theorem IsTarget.printable {a : Argument} (h : IsTarget code a) : PrintableArgument a := by
  cases h with
  | integer => exact .integer
  | label hl => exact .name (identifier_of_declared hcode hl)

/-- **Statements that are well-formed together can be printed.** -/
theorem printable_of_accepts {s : Statement} (h : s ∈ code) : Printable s := by
  cases hcode s h with
  | label hn hr => exact .label hn
  | data hw hl hv =>
    refine .instruction (mnemonicWord_of_ofName? (ofName?_data_iff.2 hw)) ?_
    simpa using ⟨hl.printable, hv.printable hcode⟩
  | step hw hl =>
    obtain ⟨hd, -⟩ := mem_stepWords_iff.1 hw
    refine .instruction (mnemonicWord_of_ofName? (ofName?_data_iff.2 hd)) ?_
    simpa using hl.printable
  | jump hw ht =>
    refine .instruction (mnemonicWord_of_ofName? (ofName?_jump_iff.2 hw)) ?_
    simpa using ht.printable hcode

end

/-! ## Normal forms -/

namespace Source

/-- A program is the assembly of the statements. -/
theorem program_eq_ok_iff {fs : FileSystem} {text : String} {p : Program} :
    (program fs text).result = .ok p ↔
      ∃ code, (statements fs text).result = .ok code ∧ (Program.assemble code).result = .ok p := by
  rw [program, Report.result_andThen, bind_eq_ok_iff]
  refine exists_congr fun code => and_congr_right fun _ => ?_
  rw [Report.mapError]
  cases (Program.assemble code).result <;> simp [Except.mapError]

/-- **The normal form of a source with a program** is plain, has this program in
    every file system, and is its own normal form. -/
theorem normal_of_assembled {fs : FileSystem} {source : String} {p : Program}
    (h : (program fs source).result = .ok p) :
    ∃ text, normal fs source = .ok text ∧ Plain text ∧
      ∀ fs', (program fs' text).result = .ok p ∧ normal fs' text = .ok text := by
  obtain ⟨code, hcode, hp⟩ := program_eq_ok_iff.1 h
  have haccepts : ∀ s ∈ code, Accepts code s := exists_assemble_iff.1 ⟨p, hp⟩
  have hprintable : ∀ s ∈ code, Printable s := fun s hs => printable_of_accepts haccepts hs
  have hlines := Statement.ofText_listing hprintable
  have hread : ∀ fs', (statements fs' (Statement.listing code)).result = .ok code :=
    fun fs' => congrArg Report.result (statements_of_words fs' hlines hprintable)
  refine ⟨Statement.listing code, ?_, plain_of_ofText hlines, fun fs' =>
    ⟨program_eq_ok_iff.2 ⟨code, hread fs', hp⟩, ?_⟩⟩
  · rw [normal, hcode]
    rfl
  · rw [normal, hread fs']
    rfl

/-- A file that renames a mnemonic, a register and a literal. -/
def dialect : FileSystem :=
  .ofTable [("words", .ok "%define again jne\n%define count cx # of rounds\n%define ten 0xA")]

/-- Counts down in the words of the file. -/
def countdown : String :=
  "# ten rounds\n%include words\nmov count ten\n\tround:  # label\ndec count\n\n" ++
    "cmp count,00\r\nagain round"

theorem normal_of_assembled_countdown :
    ∃ p, (program dialect countdown).result = .ok p ∧ p.labels = [("round", 1)] ∧
      ∀ fs, (program fs "mov cx, 10\nround:\ndec cx\ncmp cx, 0\njne round").result = .ok p := by
  let p : Program :=
    ⟨#[.data .mov .cx (.literal 10), .data .dec .cx (.literal 1), .data .cmp .cx (.literal 0),
      .jump .notEqual 1], [("round", 1)]⟩
  have hp : (program dialect countdown).result = .ok p := by decide
  have ht : normal dialect countdown =
      .ok "mov cx, 10\nround:\ndec cx\ncmp cx, 0\njne round" := by decide
  obtain ⟨text, hnormal, -, hsame⟩ := normal_of_assembled hp
  obtain rfl := Except.ok.inj (ht.symm.trans hnormal)
  exact ⟨p, hp, rfl, fun fs => (hsame fs).1⟩

end Source

end RegisterMachine
