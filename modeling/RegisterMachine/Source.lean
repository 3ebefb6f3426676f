/-
  From source text to the result of a run: expansion, statements, program, run.

  * `Source.statements`, `Source.program` and `Source.run` go so far with a
    text, `Source.runFile` starts with a path;
  * `Error` is an error of any stage.
-/
import RegisterMachine.Assembly
import RegisterMachine.Execution
import RegisterMachine.Expansion
import RegisterMachine.Statement.OfTokens

namespace RegisterMachine

inductive Error where
  | read (e : ReadError)
  | expansion (e : ExpansionError)
  | parse (e : ParseError)
  | assembly (e : AssemblyError)
  | execution (e : ExecutionError)
  deriving DecidableEq, Repr

def Error.message : Error → String
  | read e => e.message
  | expansion e => e.message
  | parse e => e.message
  | assembly e => e.message
  | execution e => e.message

namespace Source

def statements (fs : FileSystem) (text : String) : Report Error (List Statement) :=
  ((Expansion.ofSource fs [] text).report.mapError .expansion).andThen fun lines =>
    .of ((Statement.ofLines lines).mapError .parse)

def program (fs : FileSystem) (text : String) : Report Error Program :=
  (statements fs text).andThen fun list => (Program.assemble list).mapError .assembly

/-- The run of a text under a limit, with the events that a threshold may
    show. -/
def run (fs : FileSystem) (text : String) (limit : StepLimit) (threshold : Threshold) :
    Report Error Registers :=
  (program fs text).andThen fun p => (p.run limit threshold).mapError .execution

def runFile (fs : FileSystem) (path : String) (limit : StepLimit) (threshold : Threshold) :
    Report Error Registers :=
  ((Report.of ((fs.readSource path).mapError .read)).andThen fun text =>
    run fs text limit threshold).after [.running path]

end Source

end RegisterMachine
