/-
  Integer literals.

  A literal is an optional minus sign and then digits: hexadecimal ones after
  `0x`, binary ones after `0b`, decimal ones otherwise.  Its value must fit in
  a word, that is in 64 bits with a sign.

  * `Word.ofInt?` keeps the integers that fit;
  * `literal?` reads a token as a literal.
-/
import RegisterMachine.Text.Radix

namespace RegisterMachine

/-- What a register holds: 64 bits, read as a signed integer. -/
abbrev Word := Int64

namespace Word

/-- The word of an integer that fits in one. -/
def ofInt? (v : Int) : Option Word :=
  if Int64.minValue.toInt ≤ v ∧ v ≤ Int64.maxValue.toInt then some (Int64.ofInt v) else none

def text (w : Word) : String :=
  Text.decimal w.toInt

end Word

/-- The number after the sign of a literal. -/
def magnitude? : List Char → Option Nat
  | '0' :: 'x' :: digits => Text.Radix.hexadecimal.number? digits
  | '0' :: 'b' :: digits => Text.Radix.binary.number? digits
  | digits => Text.Radix.decimal.number? digits

/-- The integer that a literal denotes, whether it fits in a word or not. -/
def integer? : List Char → Option Int
  | '-' :: rest => (magnitude? rest).map fun n : Nat => -(n : Int)
  | rest => (magnitude? rest).map Int.ofNat

/-- The value of a token that is an integer literal. -/
def literal? (token : String) : Option Word :=
  (integer? token.toList).bind Word.ofInt?

end RegisterMachine
