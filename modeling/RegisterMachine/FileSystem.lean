/-
  File systems, as far as reading text goes.

  * `FileSystem` answers each path with a text or the reason why there is none;
    all its texts are in one finite list;
  * `FileSystem.ofTable` answers the paths of a table.
-/

namespace RegisterMachine

/-- Why a path has no text. -/
inductive ReadError where
  | notFound
  | isDirectory
  /-- A file stands where the path needs a directory. -/
  | notDirectory
  /-- The bytes of the file are not UTF-8. -/
  | notText
  /-- Anything else that the system may say. -/
  | other (text : String)
  deriving DecidableEq, Repr

def ReadError.message : ReadError → String
  | notFound => "No such file or directory (os error 2)"
  | isDirectory => "Is a directory (os error 21)"
  | notDirectory => "Not a directory (os error 20)"
  | notText => "stream did not contain valid UTF-8"
  | other text => text

/-- The texts that can be read, by path.  Different paths may lead to one text. -/
structure FileSystem where
  read : String → Except ReadError String
  contents : List String
  mem_contents : ∀ {path text}, read path = .ok text → text ∈ contents

namespace FileSystem

/-- The file system of a table; a path outside of it is not found. -/
def ofTable (table : List (String × Except ReadError String)) : FileSystem where
  read path := (table.lookup path).getD (.error .notFound)
  contents := table.filterMap fun entry => entry.2.toOption
  mem_contents := by
    intro path text h
    cases ht : table.lookup path with
    | none => simp [ht] at h
    | some answer =>
      simp only [ht, Option.getD_some] at h
      obtain ⟨before, rest, rfl, -⟩ := List.lookup_eq_some_iff.1 ht
      simp [h, Except.toOption]

/-- The text of a source, with the extension `.asm` if the path alone is not
    found. -/
def readSource (fs : FileSystem) (path : String) : Except ReadError String :=
  match fs.read path with
  | .error .notFound => fs.read (path ++ ".asm")
  | answer => answer

end FileSystem

end RegisterMachine
