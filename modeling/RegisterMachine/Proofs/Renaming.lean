/-
  Labels by other names.

  A label is looked up by its name and nothing else, and no name is left in a
  program but in the table of its labels.

  * `Renaming` gives each label another name and keeps labels apart.  It has no
    other names for registers and for what is no identifier.  For one,
    `Renaming.exchange` lets two labels change places;
  * `Renaming.respelling` is what a renaming does to statements;
  * `renaming_commutes`: renamed statements come to the same instructions, so to
    the same runs, or to the same error.
-/
import RegisterMachine.Proofs.Listings
import RegisterMachine.Proofs.Respelling

namespace RegisterMachine

/-- Other names for labels. -/
structure Renaming where
  apply : String → String
  injective : Function.Injective apply
  label : ∀ name, isLabelName name = true → isLabelName (apply name) = true
  fixed : ∀ name, isLabelName name = false → apply name = name

namespace Renaming

theorem isLabelName_apply (ρ : Renaming) (name : String) :
    isLabelName (ρ.apply name) = isLabelName name := by
  cases h : isLabelName name with
  | true => exact ρ.label name h
  | false => rw [ρ.fixed name h, h]

/-- A renaming as a respelling: a label has its new name wherever it stands. -/
def respelling (ρ : Renaming) : Respelling where
  label := ρ.apply
  operand := ρ.apply
  register := id
  label_injective := ρ.injective
  isLabelName_label := ρ.isLabelName_apply
  operand_label _ _ := rfl
  operand_register r := ρ.fixed r.name (isLabelName_registerName r)
  operand_fixed name hi := ρ.fixed name (by rw [isLabelName, hi, Bool.false_and])

/-- Lets two labels change places. -/
def exchange (a b : String) (ha : isLabelName a = true) (hb : isLabelName b = true) :
    Renaming where
  apply := Equiv.swap a b
  injective := (Equiv.swap a b).injective
  label name h := by
    rw [Equiv.swap_apply_def]
    split_ifs
    · exact hb
    · exact ha
    · exact h
  fixed name h := by
    refine Equiv.swap_apply_of_ne_of_ne ?_ ?_
    · rintro rfl
      cases ha.symm.trans h
    · rintro rfl
      cases hb.symm.trans h

end Renaming

theorem Instruction.mapRegister_id (i : Instruction) : i.mapRegister id = i := by
  cases i with
  | data op lhs rhs => cases rhs <;> rfl
  | jump condition target => rfl

/-- The instructions of a program are the same under other names. -/
theorem Renaming.program_eq (ρ : Renaming) (p : Program) :
    ρ.respelling.program p = { p with labels := ρ.respelling.labels p.labels } := by
  have hid : Instruction.mapRegister ρ.respelling.register = id :=
    funext Instruction.mapRegister_id
  rw [Respelling.program, hid, Array.map_id]

/-- **The names of labels mean nothing.**  Renamed statements come to a program
    with the very same instructions, and with the renamed table, if the
    statements come to one.  So all its results are the same.  Else they come to
    the same error, with the name in it renamed.  The reports on labels that move
    are the same but for their names. -/
theorem renaming_commutes (ρ : Renaming) (code : List Statement) :
    (∀ p, (Program.assemble code).result = .ok p →
      (Program.assemble (code.map ρ.respelling.statement)).result =
          .ok { p with labels := ρ.respelling.labels p.labels } ∧
        ∀ limit, Program.execute { p with labels := ρ.respelling.labels p.labels } limit =
          p.execute limit) ∧
    (∀ e, (Program.assemble code).result = .error e →
      (Program.assemble (code.map ρ.respelling.statement)).result =
        .error (ρ.respelling.error e)) ∧
    (Program.assemble (code.map ρ.respelling.statement)).events =
      (Program.assemble code).events.map ρ.respelling.event := by
  rw [ρ.respelling.assemble_statements, Respelling.report]
  refine ⟨fun p hp => ⟨?_, fun limit => ?_⟩, fun e he => ?_, rfl⟩
  · rw [hp, ← ρ.program_eq]
    rfl
  · exact Program.execute_labels p.instructions _ p.labels limit
  · rw [he]
    rfl

/-- Two labels in each other's place. -/
def crossing : Renaming :=
  .exchange "top" "end" (by decide) (by decide)

/-- Uses one label as a value and the other as a target. -/
def shuttle : List Statement :=
  [.label "top", .instruction "mov" [.name "ax", .name "end"], .instruction "jmp" [.name "top"],
    .label "end"]

theorem renaming_commutes_crossing :
    (∃ p, (Program.assemble shuttle).result = .ok p ∧
      (Program.assemble [.label "end", .instruction "mov" [.name "ax", .name "top"],
        .instruction "jmp" [.name "end"], .label "top"]).result =
          .ok { p with labels := [("end", 0), ("top", 2)] }) ∧
    (Program.assemble (shuttle.drop 1)).result = .error ⟨1, .undefinedLabel "top"⟩ ∧
      (Program.assemble ((shuttle.drop 1).map crossing.respelling.statement)).result =
        .error ⟨1, .undefinedLabel "end"⟩ := by
  have hp : (Program.assemble shuttle).result =
      .ok ⟨#[.data .mov .ax (.literal 2), .jump .always 0], [("top", 0), ("end", 2)]⟩ := by decide
  have he : (Program.assemble (shuttle.drop 1)).result = .error ⟨1, .undefinedLabel "top"⟩ := by
    decide
  have hcode : shuttle.map crossing.respelling.statement =
      [.label "end", .instruction "mov" [.name "ax", .name "top"],
        .instruction "jmp" [.name "end"], .label "top"] := by decide
  have hlabels : crossing.respelling.labels [("top", 0), ("end", 2)] =
      [("end", 0), ("top", 2)] := by decide
  have herror : crossing.respelling.error ⟨1, .undefinedLabel "top"⟩ =
      ⟨1, .undefinedLabel "end"⟩ := by decide
  obtain ⟨hprogram, -⟩ := (renaming_commutes crossing shuttle).1 _ hp
  rw [hcode, hlabels] at hprogram
  refine ⟨⟨_, hp, hprogram⟩, he, ?_⟩
  rw [(renaming_commutes crossing (shuttle.drop 1)).2.1 _ he, herror]

end RegisterMachine
