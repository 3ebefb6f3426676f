/-
  Programs: instructions in order, and the labels they were written with.

  * `Labels` binds names to instruction indices, in the order in which the
    names were first declared, each name once;
  * `Program.same` compares programs, whatever the order of their labels.
-/
import RegisterMachine.Instruction

namespace RegisterMachine

/-- Names with the index of the instruction each stands before. -/
abbrev Labels := List (String × Nat)

namespace Labels

def index? (labels : Labels) (name : String) : Option Nat :=
  labels.lookup name

/-- Binds a name, or moves it if it is bound. -/
def declare (labels : Labels) (name : String) (index : Nat) : Labels :=
  match labels with
  | [] => [(name, index)]
  | entry :: rest =>
    if name == entry.1 then (name, index) :: rest else entry :: declare rest name index

/-- Whether two tables bind the same names to the same indices. -/
def same (a b : Labels) : Bool :=
  a.length == b.length && a.all fun entry => b.index? entry.1 == some entry.2

theorem index?_declare (labels : Labels) (name other : String) (index : Nat) :
    (labels.declare name index).index? other =
      if other = name then some index else labels.index? other := by
  induction labels with
  | nil =>
    by_cases h : other = name <;>
      simp [declare, index?, List.lookup_cons, h, beq_eq_false_iff_ne.2]
  | cons entry rest ih =>
    obtain ⟨key, old⟩ := entry
    unfold index? at ih ⊢
    unfold declare
    by_cases hk : name = key
    · subst hk
      by_cases h : other = name <;> simp [List.lookup_cons, h, beq_eq_false_iff_ne.2]
    · by_cases h : other = key
      · subst h
        simp [Ne.symm hk, hk]
      · simp [List.lookup_cons, hk, beq_eq_false_iff_ne.2 h, ih]

end Labels

structure Program where
  instructions : Array Instruction := #[]
  labels : Labels := []
  deriving DecidableEq, Repr

namespace Program

def size (p : Program) : Nat :=
  p.instructions.size

/-- Whether two programs have the same instructions and the same labels. -/
def same (a b : Program) : Bool :=
  a.instructions == b.instructions && a.labels.same b.labels

end Program

end RegisterMachine
