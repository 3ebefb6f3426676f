/-
  What the machine computes with: four registers and the comparison value that
  the last `cmp` left.  Everything starts at zero.

  * `Registers` is what a run shows in the end, `Bank` adds the comparison;
  * `Bank.perform` carries out a data operation, in arithmetic modulo 2⁶⁴;
  * `Condition.holds` says which comparison values take a jump.
-/
import RegisterMachine.Instruction

namespace RegisterMachine

structure Registers where
  ax : Word := 0
  bx : Word := 0
  cx : Word := 0
  dx : Word := 0
  deriving DecidableEq, Repr

namespace Registers

def get (rs : Registers) : Register → Word
  | .ax => rs.ax
  | .bx => rs.bx
  | .cx => rs.cx
  | .dx => rs.dx

def set (rs : Registers) (r : Register) (value : Word) : Registers :=
  match r with
  | .ax => { rs with ax := value }
  | .bx => { rs with bx := value }
  | .cx => { rs with cx := value }
  | .dx => { rs with dx := value }

def text (rs : Registers) : String :=
  s!"ax={rs.ax.text} bx={rs.bx.text} cx={rs.cx.text} dx={rs.dx.text}"

theorem get_set (rs : Registers) (r q : Register) (value : Word) :
    (rs.set r value).get q = if q = r then value else rs.get q := by
  cases r <;> cases q <;> rfl

theorem ext_get {rs rs' : Registers} (h : ∀ r, rs.get r = rs'.get r) : rs = rs' := by
  obtain ⟨ax, bx, cx, dx⟩ := rs
  obtain ⟨ax', bx', cx', dx'⟩ := rs'
  have ha : ax = ax' := h .ax
  have hb : bx = bx' := h .bx
  have hc : cx = cx' := h .cx
  have hd : dx = dx' := h .dx
  rw [ha, hb, hc, hd]

end Registers

structure Bank where
  registers : Registers := {}
  comparison : Word := 0
  deriving DecidableEq, Repr

namespace Bank

def get (bank : Bank) (r : Register) : Word :=
  bank.registers.get r

def set (bank : Bank) (r : Register) (value : Word) : Bank :=
  { bank with registers := bank.registers.set r value }

def value (bank : Bank) : Operand → Word
  | .register r => bank.get r
  | .literal value => value

/-- Carries out a data operation on a register and a value.  A comparison
    stores the difference, which may have wrapped. -/
def perform (bank : Bank) (op : DataOp) (lhs : Register) (value : Word) : Bank :=
  match op with
  | .mov => bank.set lhs value
  | .inc => bank.set lhs (bank.get lhs + value)
  | .dec => bank.set lhs (bank.get lhs - value)
  | .cmp => { bank with comparison := bank.get lhs - value }

end Bank

/-- Whether a comparison value takes a jump. -/
def Condition.holds (condition : Condition) (comparison : Word) : Bool :=
  match condition with
  | always => true
  | equal => comparison == 0
  | notEqual => comparison != 0
  | less => comparison < 0
  | lessEqual => comparison ≤ 0
  | greater => 0 < comparison
  | greaterEqual => 0 ≤ comparison

end RegisterMachine
