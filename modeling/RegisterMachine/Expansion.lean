/-
  Expansion: definitions are carried out and files are included.

  A definition takes effect from the next line on; the names in its value are
  replaced once, when it is made.  An inclusion gives the lines of its file,
  which share the definitions of the line's own text.  Every other line, and
  every definition, gives one line.

  * `Definitions.substitute` replaces the defined names among tokens;
  * `Expansion.ofLines` expands lines, given what an inclusion expands to;
  * `Expansion.ofSource` expands a text in a file system.  A file that is being
    included may not be included again, so only as many inclusions can be open
    as there are names to include.
-/
import RegisterMachine.Event
import RegisterMachine.FileSystem
import RegisterMachine.SourceLine

namespace RegisterMachine

/-! ## Errors -/

/-- Why a text cannot be expanded. -/
inductive ExpansionError where
  | failedInclude (name : String) (cause : ReadError)
  | duplicateDefine (name : String) (old new : List String)
  | emptyDefine
  | defineWithoutValue (name : String)
  | emptyInclude
  | recursiveInclude (name : String)
  deriving DecidableEq, Repr

def ExpansionError.message : ExpansionError → String
  | failedInclude name _ => s!"failed to include `{name}`"
  | duplicateDefine name old new =>
    "`" ++ name ++ "` is already defined as `" ++ String.intercalate " " old ++
      "`, cannot redefine as `" ++ String.intercalate " " new ++ "`"
  | emptyDefine => "empty %define"
  | defineWithoutValue name => s!"%define `{name}` has no value"
  | emptyInclude => "%include without a file name"
  | recursiveInclude name => s!"`{name}` includes itself"

/-! ## Definitions -/

/-- Names with the tokens that replace them, the latest first. -/
abbrev Definitions := List (String × List String)

namespace Definitions

def value? (definitions : Definitions) (name : String) : Option (List String) :=
  definitions.lookup name

def substitute (definitions : Definitions) (tokens : List String) : List String :=
  tokens.flatMap fun token => (definitions.value? token).getD [token]

/-- The definition that the words after the directive make. -/
def entry (definitions : Definitions) :
    List String → Except ExpansionError (String × List String)
  | [] => .error .emptyDefine
  | [name] => .error (.defineWithoutValue name)
  | name :: words =>
    let new := definitions.substitute words
    match definitions.value? name with
    | some old => .error (.duplicateDefine name old new)
    | none => .ok (name, new)

end Definitions

/-! ## Expansion -/

/-- The expanded lines of a text, and the definitions after it.  Those made
    before an error are kept. -/
structure Expansion where
  definitions : Definitions
  report : Report ExpansionError (List (List String))

namespace Expansion

def ok (definitions : Definitions) (lines : List (List String)) : Expansion :=
  ⟨definitions, .of (.ok lines)⟩

def error (definitions : Definitions) (e : ExpansionError) : Expansion :=
  ⟨definitions, .of (.error e)⟩

def after (expansion : Expansion) (events : List Event) : Expansion :=
  { expansion with report := expansion.report.after events }

/-- Goes on with the definitions of an expansion, unless it failed. -/
def andThen (expansion : Expansion) (next : Definitions → Expansion) : Expansion :=
  match expansion.report.result with
  | .error _ => expansion
  | .ok lines =>
    let later := next expansion.definitions
    ⟨later.definitions, expansion.report.events ++ later.report.events,
      later.report.result.map (lines ++ ·)⟩

/-- Expands one line, where `inclusion` expands an inclusion. -/
def ofLine (inclusion : String → Definitions → Expansion) (definitions : Definitions) :
    SourceLine → Expansion
  | .code tokens => ok definitions [definitions.substitute tokens]
  | .inclusion file => inclusion file definitions
  | .definition words =>
    match definitions.entry words with
    | .error e => error definitions e
    | .ok (name, value) => (ok ((name, value) :: definitions) [[]]).after [.defined name value]

/-- Expands lines, each with the definitions that the earlier ones leave. -/
def ofLines (inclusion : String → Definitions → Expansion) (definitions : Definitions) :
    List SourceLine → Expansion
  | [] => ok definitions []
  | line :: rest =>
    (ofLine inclusion definitions line).andThen fun later => ofLines inclusion later rest

/-- Expands the inclusion of a file while the files in `opened` are being
    included, at most `depth` inclusions deep. -/
def ofFile (fs : FileSystem) :
    (depth : Nat) → (opened : List String) → String → Definitions → Expansion
  | 0, _, name, definitions =>
    error definitions (if name = "" then .emptyInclude else .recursiveInclude name)
  | depth + 1, opened, name, definitions =>
    if name = "" then error definitions .emptyInclude
    else if name ∈ opened then error definitions (.recursiveInclude name)
    else match fs.read name with
      | .error cause => (error definitions (.failedInclude name cause)).after [.including name]
      | .ok text =>
        (ofLines (ofFile fs depth (name :: opened)) definitions (SourceLine.ofText text)).after
          [.including name]

/-- The files that the texts of a file system include. -/
def includedFiles (fs : FileSystem) : List String :=
  fs.contents.flatMap fun text => (SourceLine.ofText text).filterMap SourceLine.includedFile?

/-- A bound for the number of open inclusions: the first is in the text itself,
    the others are in files, each with a name of its own. -/
def depth (fs : FileSystem) : Nat :=
  (includedFiles fs).length + 1

/-- Expands a source, from the definitions that earlier sources left. -/
def ofSource (fs : FileSystem) (definitions : Definitions) (source : String) : Expansion :=
  ofLines (ofFile fs (depth fs) []) definitions (SourceLine.ofText source)

end Expansion

end RegisterMachine
