/-
  The command: it runs one file and prints the registers.

      [-s N | --step-limit N | --unlimited] [-v | --verbose] [--] file

  An option may be given once.  A long option takes its value after an equals
  sign or as the next argument, a short one also right after its letter, and
  short flags may share one dash.  After `--` every argument is a file.

  These are all the forms that are read: an option cannot be abbreviated, and help
  and version are not asked for.  The environment may ask for a threshold by the
  name of one level; a filter for single modules is not read.

  * `CommandLine.read` reads the arguments into `Options`;
  * `CommandLine.run` is the whole command, with its `Outcome`.
-/
import RegisterMachine.Source

namespace RegisterMachine.CommandLine

/-! ## Arguments -/

/-- One piece of what the arguments ask for. -/
inductive Item where
  | file (path : String)
  | stepLimit (text : String)
  | unlimited
  | verbose
  deriving DecidableEq, Repr

/-- What one argument means. -/
inductive Meaning where
  | items (items : List Item)
  /-- Items, and then a step limit whose value is the next argument. -/
  | awaiting (items : List Item)
  /-- The mark that only files follow. -/
  | onlyFiles
  | unknown
  deriving DecidableEq, Repr

/-- The value of an option, which equals signs may precede. -/
def optionValue (text : List Char) : Item :=
  .stepLimit (String.ofList (text.dropWhile (· == '=')))

/-- The letters after a single dash, once the items in `seen` are read. -/
def shortOptions (seen : List Item) : List Char → Meaning
  | [] => .items seen
  | 's' :: [] => .awaiting seen
  | 's' :: value => .items (seen ++ [optionValue value])
  | 'v' :: rest => shortOptions (seen ++ [.verbose]) rest
  | _ => .unknown

/-- A long option, without its dashes. -/
def longOption (text : List Char) : Meaning :=
  let name := String.ofList (text.takeWhile (· != '='))
  let value := text.dropWhile (· != '=')
  if name = "step-limit" then
    if value = [] then .awaiting [] else .items [optionValue value]
  else if name = "unlimited" then .items [.unlimited]
  else if name = "verbose" then .items [.verbose]
  else .unknown

def meaning (argument : String) : Meaning :=
  match argument.toList with
  | ['-', '-'] => .onlyFiles
  | '-' :: '-' :: rest => longOption (rest.dropWhile (· == '-'))
  | ['-'] => .items [.file argument]
  | '-' :: rest => shortOptions [] rest
  | _ => .items [.file argument]

/-- Whether an argument may be the value of the option before it. -/
def mayBeValue (argument : String) : Bool :=
  argument = "-" || argument.toList.head? != some '-'

/-- The items of arguments, the first of which is the value of a step limit if
    `awaiting`. -/
def items (awaiting : Bool) : List String → Option (List Item)
  | [] => if awaiting then none else some []
  | argument :: rest =>
    if awaiting then
      if mayBeValue argument then (items false rest).map (.stepLimit argument :: ·) else none
    else match meaning argument with
      | .items found => (items false rest).map (found ++ ·)
      | .awaiting found => (items true rest).map (found ++ ·)
      | .onlyFiles => some (rest.map .file)
      | .unknown => none

/-! ## Options -/

structure Options where
  path : String
  limit : StepLimit
  verbose : Bool
  deriving DecidableEq, Repr

def maxStepLimit : Nat :=
  UInt64.size - 1

/-- The number in the text of a step limit: decimal digits, after a plus sign at
    most. -/
def stepLimit? (text : String) : Option Nat :=
  let digits := match text.toList with
    | '+' :: rest => rest
    | rest => rest
  (Text.Radix.decimal.number? digits).filter (· ≤ maxStepLimit)

/-- The step limit of items: at most one limit, or none at all. -/
def limitOf (items : List Item) : Option StepLimit :=
  let texts := items.filterMap fun
    | .stepLimit text => some text
    | _ => none
  match texts, items.count .unlimited with
  | [], 0 => some .standard
  | [], 1 => some none
  | [text], 0 => (stepLimit? text).map some
  | _, _ => none

/-- The options of items: one file, and no option twice. -/
def ofItems (items : List Item) : Option Options :=
  let paths := items.filterMap fun
    | .file path => some path
    | _ => none
  match paths, limitOf items with
  | [path], some limit =>
    if items.count .verbose ≤ 1 then some ⟨path, limit, .verbose ∈ items⟩ else none
  | _, _ => none

/-- The options of arguments, if they are in order. -/
def read (arguments : List String) : Option Options :=
  (items false arguments).bind ofItems

/-! ## The command -/

/-- The threshold of a name, in either case.  Nothing but a single level has one. -/
def threshold? (name : String) : Option Threshold :=
  match name.toLower with
  | "off" => some none
  | "error" => some (some .error)
  | "warn" => some (some .warn)
  | "info" => some (some .info)
  | "debug" => some (some .debug)
  | "trace" => some (some .trace)
  | _ => none

/-- The threshold of a run: the one asked for by name, else as the options
    say. -/
def Options.threshold (options : Options) (asked : Option String) : Threshold :=
  (asked.bind threshold?).getD (some (if options.verbose then .debug else .warn))

structure Outcome where
  exitCode : Nat
  stdout : String
  stderr : String
  events : List Event
  deriving DecidableEq, Repr

/-- The messages for an error, from the outermost cause to the innermost. -/
def causes : Error → List String
  | .expansion (.failedInclude name cause) =>
    [(ExpansionError.failedInclude name cause).message, cause.message]
  | e => [e.message]

/-- A cause with its number in columns of five. -/
def numbered (causes : List String) : List String :=
  causes.zipIdx.map fun (cause, index) =>
    String.ofList ((Nat.toDigits 10 index).leftpad 5 ' ') ++ ": " ++ cause

/-- The text about a run that failed.  Only several causes are numbered. -/
def failureText (path : String) (e : Error) : String :=
  let lines := match causes e with
    | [cause] => ["    " ++ cause]
    | several => numbered several
  s!"Error: failed to run {path}\n\nCaused by:\n" ++ String.join (lines.map (· ++ "\n"))

def Options.run (options : Options) (fs : FileSystem) (asked : Option String) : Outcome :=
  let threshold := options.threshold asked
  let report := Source.runFile fs options.path options.limit threshold
  match report.result with
  | .ok registers => ⟨0, registers.text ++ "\n", "", report.shown threshold⟩
  | .error e => ⟨1, "", failureText options.path e, report.shown threshold⟩

/-- The whole command: its arguments, the files, and the threshold asked for in
    the environment.  There is no outcome if the arguments are not in order. -/
def run (fs : FileSystem) (arguments : List String) (asked : Option String) : Option Outcome :=
  (read arguments).map fun options => options.run fs asked

end RegisterMachine.CommandLine
