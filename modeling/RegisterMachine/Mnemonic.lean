/-
  Mnemonics: the eleven operations, and how many operands each takes.

  A data operation reads a value and changes a register or the comparison.
  A jump goes to its target if a condition on the comparison holds.

  * `Mnemonic.ofName?` reads a name, the inverse of `Mnemonic.name`;
  * `Mnemonic.arity` is the range of its operand counts.
-/

namespace RegisterMachine

/-- The operations on a register and a value. -/
inductive DataOp where
  | mov
  | inc
  | dec
  | cmp
  deriving DecidableEq, Repr

/-- The conditions under which a jump is taken. -/
inductive Condition where
  | always | equal | notEqual | less | lessEqual | greater | greaterEqual
  deriving DecidableEq, Repr

/-- A range of operand counts, both ends included. -/
structure Arity where
  min : Nat
  max : Nat
  deriving DecidableEq, Repr

namespace Arity

def exactly (count : Nat) : Arity :=
  ⟨count, count⟩

def accepts (a : Arity) (count : Nat) : Bool :=
  a.min ≤ count && count ≤ a.max

def text (a : Arity) : String :=
  if a.min = a.max then s!"{a.min}" else s!"{a.min} to {a.max}"

end Arity

/-- What an instruction does, apart from its operands. -/
inductive Mnemonic where
  | data (op : DataOp)
  | jump (condition : Condition)
  deriving DecidableEq, Repr

namespace Mnemonic

def all : List Mnemonic :=
  [data .mov, data .inc, data .dec, data .cmp, jump .always, jump .equal, jump .notEqual,
    jump .less, jump .lessEqual, jump .greater, jump .greaterEqual]

def name : Mnemonic → String
  | data .mov => "mov"
  | data .inc => "inc"
  | data .dec => "dec"
  | data .cmp => "cmp"
  | jump .always => "jmp"
  | jump .equal => "je"
  | jump .notEqual => "jne"
  | jump .less => "jl"
  | jump .lessEqual => "jle"
  | jump .greater => "jg"
  | jump .greaterEqual => "jge"

def ofName? (name : String) : Option Mnemonic :=
  all.find? (·.name == name)

/-- How many operands a mnemonic takes: `inc` and `dec` may omit their step. -/
def arity : Mnemonic → Arity
  | data .mov | data .cmp => .exactly 2
  | data .inc | data .dec => ⟨1, 2⟩
  | jump _ => .exactly 1

@[simp] theorem ofName?_name (m : Mnemonic) : ofName? m.name = some m := by
  rcases m with op | c
  · cases op <;> rfl
  · cases c <;> rfl

theorem ofName?_eq_some_iff {name : String} {m : Mnemonic} :
    ofName? name = some m ↔ name = m.name := by
  constructor
  · intro h
    unfold ofName? at h
    have hn := List.find?_some h
    exact (beq_iff_eq.1 hn).symm
  · rintro rfl
    exact ofName?_name m

end Mnemonic

end RegisterMachine
