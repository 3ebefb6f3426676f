/-
  The kinds of source lines.

  The first token of a line decides: `%define` starts a definition, `%include`
  an inclusion, anything else is code.

  * `SourceLine.ofLine` sorts a line, `SourceLine.ofText` the lines of a text.
-/
import RegisterMachine.Line
import RegisterMachine.Text.Blank
import RegisterMachine.Text.Lines

namespace RegisterMachine

/-- A line before definitions and inclusions are carried out. -/
inductive SourceLine where
  /-- A definition, with the tokens after its directive. -/
  | definition (words : List String)
  /-- An inclusion, with the name of its file. -/
  | inclusion (file : String)
  | code (tokens : List String)
  deriving DecidableEq, Repr

namespace SourceLine

def defineDirective : String := "%define"

def includeDirective : String := "%include"

/-- What stands after the first token of a line, a directive of some length.
    The name of a file keeps the separators within it. -/
def argument (line : Line) (length : Nat) : String :=
  String.ofList (Text.trim ((line.code.dropWhile isSeparator).drop length))

def ofLine (line : Line) : SourceLine :=
  match line.tokens with
  | [] => code []
  | token :: rest =>
    if token = defineDirective then definition rest
    else if token = includeDirective then inclusion (argument line includeDirective.length)
    else code (token :: rest)

def ofText (text : String) : List SourceLine :=
  (Text.lines text.toList).map ofLine

def includedFile? : SourceLine → Option String
  | inclusion file => some file
  | definition _ | code _ => none

end SourceLine

end RegisterMachine
