/-
  Numbers in digits: binary, decimal and hexadecimal.

  * `Radix.number?` reads digits alone, without sign, mark or blank;
  * `decimal` writes an integer, with a minus sign before a negative one.
-/

namespace RegisterMachine.Text

/-- The radices in which numbers are written. -/
inductive Radix where
  | binary | decimal | hexadecimal
  deriving DecidableEq, Repr

namespace Radix

/-- The number of digits of a radix. -/
def base : Radix → Nat
  | binary => 2
  | decimal => 10
  | hexadecimal => 16

/-- The value of a character as a digit of any radix up to sixteen, in either
    case. -/
def digitValue? (c : Char) : Option Nat :=
  if c.isDigit then some (c.toNat - '0'.toNat)
  else if 'a' ≤ c ∧ c ≤ 'f' then some (c.toNat - 'a'.toNat + 10)
  else if 'A' ≤ c ∧ c ≤ 'F' then some (c.toNat - 'A'.toNat + 10)
  else none

/-- The value of a digit of the radix. -/
def digit? (r : Radix) (c : Char) : Option Nat :=
  (digitValue? c).filter (· < r.base)

/-- The number that `digits` goes on to spell after the value `n`. -/
def extend? (r : Radix) (n : Nat) : List Char → Option Nat
  | [] => some n
  | c :: digits => (r.digit? c).bind fun d => r.extend? (r.base * n + d) digits

/-- The number spelled by one or more digits, the most significant first. -/
def number? (r : Radix) (digits : List Char) : Option Nat :=
  if digits = [] then none else r.extend? 0 digits

end Radix

/-- The decimal digits of an integer. -/
def decimal (v : Int) : String :=
  String.ofList ((if v < 0 then ['-'] else []) ++ Nat.toDigits 10 v.natAbs)

end RegisterMachine.Text
