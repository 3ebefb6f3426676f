/-
  Reading statements from the tokens of lines.

  A line starts with any number of label markers.  The first token that is no
  marker is the mnemonic, and every token after it is an operand: a literal or
  an identifier, never a marker.

  * `Statement.ofTokens` reads one line, `Statement.ofLines` a list of lines;
  * `ParseError` is the first violation, with the index of its line.
-/
import RegisterMachine.Identifier
import RegisterMachine.Statement

namespace RegisterMachine

inductive TokenFault where
  /-- An operand that is neither a literal nor an identifier. -/
  | invalidToken (token : String)
  /-- A label marker after the mnemonic. -/
  | unexpectedLabel (token : String)
  deriving DecidableEq, Repr

/-- A token fault on the line of an index that counts from zero. -/
structure ParseError where
  line : Nat
  fault : TokenFault
  deriving DecidableEq, Repr

def TokenFault.message : TokenFault → String
  | invalidToken token => s!"invalid token `{token}`"
  | unexpectedLabel token => s!"label `{token}` must precede the mnemonic"

/-- The message for a faulty line, which counts lines from one. -/
def ParseError.message (e : ParseError) : String :=
  s!"line {e.line + 1}: {e.fault.message}"

def Argument.ofToken (token : String) : Except TokenFault Argument :=
  if (markedLabel? token).isSome then .error (.unexpectedLabel token)
  else match literal? token with
    | some value => .ok (.integer value)
    | none => if isIdentifier token then .ok (.name token) else .error (.invalidToken token)

namespace Statement

def ofTokens : List String → Except TokenFault (List Statement)
  | [] => .ok []
  | token :: rest =>
    match markedLabel? token with
    | some name => (ofTokens rest).map (label name :: ·)
    | none => (rest.mapM Argument.ofToken).map fun operands => [instruction token operands]

/-- The statements of lines whose indices start at `first`. -/
def ofLinesFrom (first : Nat) : List (List String) → Except ParseError (List Statement)
  | [] => .ok []
  | tokens :: rest =>
    match ofTokens tokens with
    | .error fault => .error ⟨first, fault⟩
    | .ok statements => (ofLinesFrom (first + 1) rest).map (statements ++ ·)

/-- The statements of a list of lines. -/
def ofLines (lines : List (List String)) : Except ParseError (List Statement) :=
  ofLinesFrom 0 lines

end Statement

end RegisterMachine
