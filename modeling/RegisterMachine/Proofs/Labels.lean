/-
  Places in a list of statements, and the table of its labels.

  A place is an index into the statements, labels included; what a program
  counts are only the instructions before it.

  * `calls` are the instructions of a list, `callsBefore` counts those before a
    place, and `getElem?_calls` finds the instruction at a place again among
    them;
  * `LastDeclaration code name place`: the last declaration of `name` is at
    `place`.  `lastDeclaration?` looks for it;
  * `LabelIndex code name index`: a name stands for an index, which is the same
    number as a word (`LabelIndex.toInt_ofNat`);
  * `Labels.Binds`: a table holds the names declared in a list, each with the
    number of instructions before its last declaration.  `exists_ofStatements_iff`
    and `binds_of_ofStatements`: the table that is made of a list exists iff all
    declared names may be labels, and then it binds the list.
-/
import Mathlib.Data.List.Nodup
import Mathlib.Tactic
import RegisterMachine.Assembly

namespace RegisterMachine

namespace Statement

/-! ## Places -/

/-- The mnemonic and the operands of an instruction. -/
def call? : Statement → Option (String × List Argument)
  | label _ => none
  | instruction mnemonic operands => some (mnemonic, operands)

/-- The instructions among statements, in order. -/
def calls (code : List Statement) : List (String × List Argument) :=
  code.filterMap call?

/-- The number of instructions before a place. -/
def callsBefore (code : List Statement) (place : Nat) : Nat :=
  (calls (code.take place)).length

@[simp] theorem calls_nil : calls [] = [] := rfl

@[simp] theorem calls_label (name : String) (code : List Statement) :
    calls (.label name :: code) = calls code := rfl

@[simp] theorem calls_instruction (mnemonic : String) (operands : List Argument)
    (code : List Statement) :
    calls (.instruction mnemonic operands :: code) = (mnemonic, operands) :: calls code := rfl

theorem calls_append (a b : List Statement) : calls (a ++ b) = calls a ++ calls b :=
  List.filterMap_append

@[simp] theorem callsBefore_zero (code : List Statement) : callsBefore code 0 = 0 := rfl

@[simp] theorem callsBefore_label (name : String) (code : List Statement) (place : Nat) :
    callsBefore (.label name :: code) (place + 1) = callsBefore code place := rfl

@[simp] theorem callsBefore_instruction (mnemonic : String) (operands : List Argument)
    (code : List Statement) (place : Nat) :
    callsBefore (.instruction mnemonic operands :: code) (place + 1) =
      callsBefore code place + 1 := rfl

theorem calls_take_append_drop (code : List Statement) (place : Nat) :
    calls (code.take place) ++ calls (code.drop place) = calls code := by
  rw [← calls_append, List.take_append_drop]

theorem callsBefore_add_drop (code : List Statement) (place : Nat) :
    callsBefore code place + (calls (code.drop place)).length = (calls code).length := by
  rw [← calls_take_append_drop code place, List.length_append, callsBefore]

theorem callsBefore_le (code : List Statement) (place : Nat) :
    callsBefore code place ≤ (calls code).length := by
  have := callsBefore_add_drop code place
  omega

/-- The instruction at a place is the one that the instructions before it count. -/
theorem getElem?_calls {code : List Statement} {place : Nat} {mnemonic : String}
    {operands : List Argument} (h : code[place]? = some (.instruction mnemonic operands)) :
    (calls code)[callsBefore code place]? = some (mnemonic, operands) := by
  obtain ⟨hlt, he⟩ := List.getElem?_eq_some_iff.1 h
  rw [← calls_take_append_drop code place, callsBefore, List.getElem?_append_right le_rfl,
    Nat.sub_self, List.drop_eq_getElem_cons hlt, he, calls_instruction]
  rfl

theorem callsBefore_succ {code : List Statement} {place : Nat} {mnemonic : String}
    {operands : List Argument} (h : code[place]? = some (.instruction mnemonic operands)) :
    callsBefore code (place + 1) = callsBefore code place + 1 := by
  unfold callsBefore
  rw [List.take_add_one, h, calls_append]
  simp

/-! ## Declarations -/

/-- A name is declared at a place, and never after it. -/
structure LastDeclaration (code : List Statement) (name : String) (place : Nat) : Prop where
  here : code[place]? = some (.label name)
  later : ∀ other, place < other → code[other]? ≠ some (.label name)

/-- The place of the last declaration of a name. -/
def lastDeclaration? (name : String) : List Statement → Option Nat
  | [] => none
  | statement :: rest =>
    match lastDeclaration? name rest with
    | some place => some (place + 1)
    | none => if statement = .label name then some 0 else none

theorem lastDeclaration?_eq_none_iff {name : String} {code : List Statement} :
    lastDeclaration? name code = none ↔ .label name ∉ code := by
  induction code with
  | nil => simp [lastDeclaration?]
  | cons statement rest ih =>
    unfold lastDeclaration?
    cases hr : lastDeclaration? name rest with
    | some place =>
      have hm : .label name ∈ rest := by
        by_contra hn
        rw [ih.2 hn] at hr
        cases hr
      simp [hm]
    | none =>
      have hm := ih.1 hr
      by_cases hs : statement = .label name
      · simp [hs]
      · simp [hs, hm, Ne.symm hs]

theorem lastDeclaration?_isSome_iff {name : String} {code : List Statement} :
    (lastDeclaration? name code).isSome = true ↔ .label name ∈ code := by
  rw [Option.isSome_iff_ne_none, ne_eq, lastDeclaration?_eq_none_iff, not_not]

theorem lastDeclaration?_eq_some_iff {name : String} {code : List Statement} {place : Nat} :
    lastDeclaration? name code = some place ↔ LastDeclaration code name place := by
  induction code generalizing place with
  | nil =>
    constructor
    · intro h
      cases h
    · intro h
      have := h.here
      simp at this
  | cons statement rest ih =>
    unfold lastDeclaration?
    cases hr : lastDeclaration? name rest with
    | some last =>
      have hl := ih.1 hr
      constructor
      · rintro h
        cases h
        refine ⟨hl.here, fun other ho => ?_⟩
        cases other with
        | zero => omega
        | succ other => exact hl.later other (by omega)
      · intro h
        cases place with
        | zero => exact absurd hl.here (h.later (last + 1) (by omega))
        | succ place =>
          have hp : LastDeclaration rest name place :=
            ⟨h.here, fun other ho => h.later (other + 1) (by omega)⟩
          have := ih.2 hp
          rw [hr, Option.some.injEq] at this
          rw [this]
    | none =>
      have hn := lastDeclaration?_eq_none_iff.1 hr
      constructor
      · intro h
        split_ifs at h with hs
        cases h
        refine ⟨by simp [hs], fun other ho he => ?_⟩
        obtain ⟨other, rfl⟩ : ∃ k, other = k + 1 := ⟨other - 1, by omega⟩
        exact hn (List.mem_of_getElem? he)
      · intro h
        cases place with
        | zero =>
          have hs : statement = .label name := by simpa using h.here
          simp [hs]
        | succ place =>
          have hr : rest[place]? = some (.label name) := h.here
          exact absurd (List.mem_of_getElem? hr) hn

theorem LastDeclaration.mem {code : List Statement} {name : String} {place : Nat}
    (h : LastDeclaration code name place) : .label name ∈ code :=
  List.mem_of_getElem? h.here

theorem exists_lastDeclaration {code : List Statement} {name : String}
    (h : .label name ∈ code) : ∃ place, LastDeclaration code name place := by
  obtain ⟨place, hp⟩ := Option.isSome_iff_exists.1 (lastDeclaration?_isSome_iff.2 h)
  exact ⟨place, lastDeclaration?_eq_some_iff.1 hp⟩

/-- What a name stands for: the number of instructions before its last
    declaration. -/
def LabelIndex (code : List Statement) (name : String) (index : Nat) : Prop :=
  ∃ place, LastDeclaration code name place ∧ index = callsBefore code place

theorem LabelIndex.mem {code : List Statement} {name : String} {index : Nat}
    (h : LabelIndex code name index) : .label name ∈ code := by
  obtain ⟨place, hp, -⟩ := h
  exact hp.mem

theorem exists_labelIndex {code : List Statement} {name : String} (h : .label name ∈ code) :
    ∃ index, LabelIndex code name index := by
  obtain ⟨place, hp⟩ := exists_lastDeclaration h
  exact ⟨_, place, hp, rfl⟩

theorem LabelIndex.le {code : List Statement} {name : String} {index : Nat}
    (h : LabelIndex code name index) : index ≤ (calls code).length := by
  obtain ⟨place, -, rfl⟩ := h
  exact callsBefore_le code place

/-- An index is the same number as a word, in a list that is not too long. -/
theorem LabelIndex.toInt_ofNat {code : List Statement} {name : String} {index : Nat}
    (h : LabelIndex code name index) (hlen : code.length < 2 ^ 63) :
    (Int64.ofNat index).toInt = index := by
  have hcalls : (calls code).length ≤ code.length := List.length_filterMap_le _ _
  exact Int64.toInt_ofNat_of_lt ((h.le.trans hcalls).trans_lt hlen)

end Statement

/-! ## The label table -/

namespace Labels

open Statement

theorem mem_keys_declare {labels : Labels} {name other : String} {index : Nat} :
    other ∈ (labels.declare name index).map Prod.fst ↔
      other = name ∨ other ∈ labels.map Prod.fst := by
  induction labels with
  | nil => simp [declare]
  | cons entry rest ih =>
    unfold declare
    split_ifs with h
    · rw [beq_iff_eq] at h
      simp [h]
    · simp only [List.map_cons, List.mem_cons, ih]
      tauto

theorem nodup_keys_declare {labels : Labels} (name : String) (index : Nat)
    (h : (labels.map Prod.fst).Nodup) : ((labels.declare name index).map Prod.fst).Nodup := by
  induction labels with
  | nil => simp [declare]
  | cons entry rest ih =>
    simp only [List.map_cons, List.nodup_cons] at h
    unfold declare
    split_ifs with hn
    · rw [beq_iff_eq] at hn
      simpa [hn] using h
    · rw [beq_iff_eq] at hn
      simp only [List.map_cons, List.nodup_cons, mem_keys_declare, not_or]
      exact ⟨⟨Ne.symm hn, h.1⟩, ih h.2⟩

/-- The entries of a table are its look-ups, if every name is there once. -/
theorem mem_iff_index? {labels : Labels} (h : (labels.map Prod.fst).Nodup) {name : String}
    {index : Nat} : (name, index) ∈ labels ↔ labels.index? name = some index := by
  induction labels with
  | nil => simp [index?]
  | cons entry rest ih =>
    obtain ⟨key, old⟩ := entry
    simp only [List.map_cons, List.nodup_cons] at h
    unfold index? at ih ⊢
    by_cases hk : name = key
    · subst hk
      have hn : (name, index) ∉ rest := fun hm => h.1 (List.mem_map_of_mem hm)
      simp [hn, eq_comm]
    · simp [List.lookup_cons, hk, beq_eq_false_iff_ne.2 hk, ih h.2]

/-- A label is added iff its name may be a label, and then the rest follows. -/
theorem addStatements_label_eq_ok_iff {labels table : Labels} {statement position : Nat}
    {name : String} {rest : List Statement} :
    (labels.addStatements statement position (.label name :: rest)).result = .ok table ↔
      isLabelName name = true ∧
        ((labels.declare name position).addStatements (statement + 1) position rest).result =
          .ok table := by
  rw [addStatements]
  split_ifs with hn <;> simp [hn]

/-- Labels can be added iff their names may be labels. -/
theorem exists_addStatements_iff {labels : Labels} {statement position : Nat}
    {code : List Statement} :
    (∃ table, (labels.addStatements statement position code).result = .ok table) ↔
      ∀ name, .label name ∈ code → isLabelName name = true := by
  induction code generalizing labels statement position with
  | nil => simp [addStatements]
  | cons s rest ih =>
    cases s with
    | instruction mnemonic operands => simp [addStatements, ih]
    | label name =>
      simp only [addStatements_label_eq_ok_iff, exists_and_left, ih, List.mem_cons,
        Statement.label.injEq]
      constructor
      · rintro ⟨hn, h⟩ other (rfl | ho)
        · exact hn
        · exact h other ho
      · intro h
        exact ⟨h name (Or.inl rfl), fun other ho => h other (Or.inr ho)⟩

/-- A later declaration in `code` wins over the table so far, and the last one
    over all. -/
theorem index?_addStatements {labels table : Labels} {statement position : Nat}
    {code : List Statement}
    (h : (labels.addStatements statement position code).result = .ok table) (name : String) :
    table.index? name = ((lastDeclaration? name code).map (position + callsBefore code ·)).or
      (labels.index? name) := by
  induction code generalizing labels statement position with
  | nil =>
    cases h
    rfl
  | cons s rest ih =>
    cases s with
    | instruction mnemonic operands =>
      rw [addStatements] at h
      rw [ih h, lastDeclaration?]
      cases lastDeclaration? name rest with
      | none => simp
      | some place => simp [Nat.add_assoc, Nat.add_comm 1]
    | label key =>
      rw [ih (addStatements_label_eq_ok_iff.1 h).2, lastDeclaration?, index?_declare]
      cases lastDeclaration? name rest with
      | none => by_cases hk : name = key <;> simp [hk, eq_comm]
      | some place => simp

theorem nodup_keys_addStatements {labels table : Labels} {statement position : Nat}
    {code : List Statement}
    (h : (labels.addStatements statement position code).result = .ok table)
    (hl : (labels.map Prod.fst).Nodup) : (table.map Prod.fst).Nodup := by
  induction code generalizing labels statement position with
  | nil =>
    cases h
    exact hl
  | cons s rest ih =>
    cases s with
    | instruction mnemonic operands => exact ih h hl
    | label name =>
      exact ih (addStatements_label_eq_ok_iff.1 h).2 (nodup_keys_declare name position hl)

/-- A table binds the labels of a list of statements. -/
structure Binds (labels : Labels) (code : List Statement) : Prop where
  isLabelName : ∀ name, .label name ∈ code → isLabelName name = true
  index? : ∀ name, labels.index? name = (lastDeclaration? name code).map (callsBefore code)
  nodup_keys : (labels.map Prod.fst).Nodup

theorem exists_ofStatements_iff {code : List Statement} :
    (∃ labels, (ofStatements code).result = .ok labels) ↔
      ∀ name, .label name ∈ code → isLabelName name = true :=
  exists_addStatements_iff

/-- **The table that is made of a list of statements binds its labels.** -/
theorem binds_of_ofStatements {labels : Labels} {code : List Statement}
    (h : (ofStatements code).result = .ok labels) : labels.Binds code where
  isLabelName := exists_ofStatements_iff.1 ⟨labels, h⟩
  index? name := by
    rw [index?_addStatements h]
    cases lastDeclaration? name code <;> simp [Labels.index?]
  nodup_keys := nodup_keys_addStatements h List.nodup_nil

namespace Binds

variable {labels : Labels} {code : List Statement} (h : labels.Binds code)
include h

theorem index?_eq_some_iff {name : String} {index : Nat} :
    labels.index? name = some index ↔ LabelIndex code name index := by
  simp only [h.index?, LabelIndex, Option.map_eq_some_iff, lastDeclaration?_eq_some_iff,
    eq_comm (a := callsBefore code _)]

theorem mem_iff {name : String} {index : Nat} :
    (name, index) ∈ labels ↔ LabelIndex code name index := by
  rw [mem_iff_index? h.nodup_keys, h.index?_eq_some_iff]

end Binds

end Labels

end RegisterMachine
