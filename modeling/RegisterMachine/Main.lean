/-
  The command as a program: it reads the files that the arguments lead to,
  takes the threshold asked for from the environment, and writes what
  `Options.run` says.
-/
import RegisterMachine.CommandLine

namespace RegisterMachine.CommandLine

/-- Why the system has no text at a path.  Its code for a directory, 21, comes
    with either sign. -/
def readErrorOf : IO.Error → ReadError
  | .inappropriateType _ code _ =>
    if code = 21 ∨ code = 0 - 21 then .isDirectory else .notDirectory
  | .noFileOrDirectory .. => .notFound
  | e => .other e.toString

/-- The text at a path of the system. -/
def readPath (path : String) : IO (Except ReadError String) := do
  try
    let bytes ← IO.FS.readBinFile path
    match String.fromUTF8? bytes with
    | some text => return .ok text
    | none => return .error .notText
  catch e => return .error (readErrorOf e)

/-- The answers for some paths and for every file that their texts include. -/
partial def readAll (table : List (String × Except ReadError String)) :
    List String → IO (List (String × Except ReadError String))
  | [] => return table
  | path :: rest => do
    if (table.lookup path).isSome then readAll table rest
    else
      let answer ← readPath path
      let included := match answer with
        | .ok text => (SourceLine.ofText text).filterMap SourceLine.includedFile?
        | .error _ => []
      readAll ((path, answer) :: table) (included ++ rest)

def usage : String :=
  "usage: [-s N | --step-limit N | --unlimited] [-v | --verbose] [--] file"

def main (arguments : List String) : IO UInt32 := do
  match read arguments with
  | none =>
    IO.eprintln usage
    return 1
  | some options =>
    let table ← readAll [] [options.path, options.path ++ ".asm"]
    let asked ← IO.getEnv "RUST_LOG"
    let outcome := options.run (FileSystem.ofTable table) asked
    for event in outcome.events do
      IO.eprintln s!"[{event.level.name}] {event.message}"
    IO.print outcome.stdout
    IO.eprint outcome.stderr
    return outcome.exitCode.toUInt32

end RegisterMachine.CommandLine

def main (arguments : List String) : IO UInt32 :=
  RegisterMachine.CommandLine.main arguments
