/-
  The registers of the machine.

  * `Register` are the four registers, in the order in which they are shown;
  * `Register.ofName?` reads a name, the inverse of `Register.name`.
-/

namespace RegisterMachine

inductive Register where
  | ax | bx | cx | dx
  deriving DecidableEq, Repr

namespace Register

def all : List Register :=
  [ax, bx, cx, dx]

def name : Register → String
  | ax => "ax"
  | bx => "bx"
  | cx => "cx"
  | dx => "dx"

def ofName? (name : String) : Option Register :=
  all.find? (·.name == name)

@[simp] theorem ofName?_name (r : Register) : ofName? r.name = some r := by
  cases r <;> rfl

theorem ofName?_eq_some_iff {name : String} {r : Register} :
    ofName? name = some r ↔ name = r.name := by
  constructor
  · intro h
    unfold ofName? at h
    have hn := List.find?_some h
    exact (beq_iff_eq.1 hn).symm
  · rintro rfl
    exact ofName?_name r

end Register

end RegisterMachine
