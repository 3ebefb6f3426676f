/-
  The words of the language, letter by letter.

  * `Identifier` is the grammar `[A-Za-z_$@][A-Za-z0-9_$@]*`, and
    `isIdentifier_iff` says that it is what the library accepts;
  * `registerWords`, `dataWords` and `jumpWords` spell registers and mnemonics,
    `stepWords` are the operations that may omit their value.  Looking a word up
    in one of them is what `Register.ofName?` and `Mnemonic.ofName?` do;
  * `isLabelName_iff`: a label may have any identifier but the register names.
-/
import Mathlib.Tactic
import RegisterMachine.Assembly

namespace RegisterMachine

/-! ## Identifiers -/

/-- `[A-Za-z_$@]` -/
def IdentifierStart (c : Char) : Prop :=
  ('A' ≤ c ∧ c ≤ 'Z') ∨ ('a' ≤ c ∧ c ≤ 'z') ∨ c = '_' ∨ c = '$' ∨ c = '@'

/-- `[A-Za-z0-9_$@]` -/
def IdentifierRest (c : Char) : Prop :=
  IdentifierStart c ∨ ('0' ≤ c ∧ c ≤ '9')

/-- `[A-Za-z_$@][A-Za-z0-9_$@]*` -/
def Identifier (name : String) : Prop :=
  ∃ c rest, name.toList = c :: rest ∧ IdentifierStart c ∧ ∀ d ∈ rest, IdentifierRest d

theorem isIdentifierStart_iff {c : Char} : isIdentifierStart c = true ↔ IdentifierStart c := by
  have ha : c.isAlpha = (decide (c.val ≥ 'A'.val ∧ c.val ≤ 'Z'.val) ||
      decide (c.val ≥ 'a'.val) && decide (c.val ≤ 'z'.val)) := rfl
  simp only [isIdentifierStart, IdentifierStart, ha, Bool.or_eq_true, Bool.and_eq_true,
    decide_eq_true_eq, beq_iff_eq, Char.le_def, ge_iff_le, or_assoc]

theorem isIdentifierRest_iff {c : Char} : isIdentifierRest c = true ↔ IdentifierRest c := by
  simp only [isIdentifierRest, IdentifierRest, Bool.or_eq_true, isIdentifierStart_iff,
    Char.isDigit, Bool.and_eq_true, decide_eq_true_eq, Char.le_def, ge_iff_le]

theorem isIdentifier_iff {name : String} : isIdentifier name = true ↔ Identifier name := by
  unfold isIdentifier Identifier
  cases name.toList with
  | nil => simp [spellsIdentifier]
  | cons c rest =>
    simp only [spellsIdentifier, Bool.and_eq_true, List.all_eq_true, isIdentifierStart_iff,
      isIdentifierRest_iff, List.cons.injEq]
    constructor
    · rintro ⟨hc, hr⟩
      exact ⟨c, rest, ⟨rfl, rfl⟩, hc, hr⟩
    · rintro ⟨_, _, ⟨rfl, rfl⟩, hc, hr⟩
      exact ⟨hc, hr⟩

instance (name : String) : Decidable (Identifier name) :=
  decidable_of_iff _ isIdentifier_iff

/-! ## Registers and mnemonics -/

/-- The names of the registers. -/
def registerWords : List (String × Register) :=
  [("ax", .ax), ("bx", .bx), ("cx", .cx), ("dx", .dx)]

/-- The mnemonics of the data operations. -/
def dataWords : List (String × DataOp) :=
  [("mov", .mov), ("inc", .inc), ("dec", .dec), ("cmp", .cmp)]

/-- The mnemonics that may omit their value, which then is one. -/
def stepWords : List (String × DataOp) :=
  [("inc", .inc), ("dec", .dec)]

/-- The mnemonics of the jumps, each with its condition. -/
def jumpWords : List (String × Condition) :=
  [("jmp", .always), ("je", .equal), ("jne", .notEqual), ("jl", .less), ("jle", .lessEqual),
    ("jg", .greater), ("jge", .greaterEqual)]

theorem ofName?_register_iff {name : String} {r : Register} :
    Register.ofName? name = some r ↔ (name, r) ∈ registerWords := by
  rw [Register.ofName?_eq_some_iff]
  cases r <;> simp [registerWords, Register.name]

theorem lookup_registerWords_iff {name : String} {r : Register} :
    registerWords.lookup name = some r ↔ (name, r) ∈ registerWords := by
  constructor
  · intro h
    obtain ⟨before, rest, hw, -⟩ := List.lookup_eq_some_iff.1 h
    simp [hw]
  · intro h
    simp only [registerWords, List.mem_cons, Prod.mk.injEq, List.not_mem_nil, or_false] at h
    rcases h with ⟨rfl, rfl⟩ | ⟨rfl, rfl⟩ | ⟨rfl, rfl⟩ | ⟨rfl, rfl⟩ <;> rfl

theorem ofName?_data_iff {word : String} {op : DataOp} :
    Mnemonic.ofName? word = some (.data op) ↔ (word, op) ∈ dataWords := by
  rw [Mnemonic.ofName?_eq_some_iff]
  cases op <;> simp [dataWords, Mnemonic.name]

theorem mem_stepWords_iff {word : String} {op : DataOp} :
    (word, op) ∈ stepWords ↔ (word, op) ∈ dataWords ∧ (op = .inc ∨ op = .dec) := by
  cases op <;> simp [stepWords, dataWords]

theorem ofName?_jump_iff {word : String} {condition : Condition} :
    Mnemonic.ofName? word = some (.jump condition) ↔ (word, condition) ∈ jumpWords := by
  rw [Mnemonic.ofName?_eq_some_iff]
  cases condition <;> simp [jumpWords, Mnemonic.name]

/-- The words that name a register. -/
def RegisterName (name : String) : Prop :=
  ∃ r, (name, r) ∈ registerWords

theorem ofName?_register_isNone_iff {name : String} :
    (Register.ofName? name).isNone = true ↔ ¬ RegisterName name := by
  simp only [RegisterName, ← ofName?_register_iff]
  cases Register.ofName? name <;> simp

/-- **Labels have the identifiers that are no register names.** -/
theorem isLabelName_iff {name : String} :
    isLabelName name = true ↔ Identifier name ∧ ¬ RegisterName name := by
  rw [isLabelName, Bool.and_eq_true, isIdentifier_iff, ofName?_register_isNone_iff]

end RegisterMachine
