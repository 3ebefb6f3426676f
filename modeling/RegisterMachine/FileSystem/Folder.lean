/-
  A folder in memory, and how paths are followed in it.

  A path is followed from the folder, part by part: an empty part and `.` stay,
  `..` goes up, any other part must name a file or a directory.  A path that
  goes on after a file fails, and so does one that ends at a directory.
  Nothing but directories is known outside of the folder.

  * `Folder.read` follows a path, `Folder.fileSystem` reads what it finds;
  * `Folder.ofEntries` makes a folder with every directory on the way.
-/
import RegisterMachine.FileSystem

namespace RegisterMachine

/-- A place in a folder: the names on the way to it. -/
abbrev Place := List String

/-- Files and directories by place. -/
structure Folder where
  files : List (Place × ByteArray) := []
  directories : List Place := []

namespace Folder

/-- The parts of a path, between its slashes. -/
def parts (path : String) : List String :=
  (path.toList.splitOn '/').map String.ofList

/-- The directory above a place, `none` outside of the folder. -/
def parent : Option Place → Option Place
  | none | some [] => none
  | some place => some place.dropLast

/-- Follows the parts of a path from a directory, `none` outside of the folder. -/
def follow (folder : Folder) (here : Option Place) : List String → Except ReadError ByteArray
  | [] => .error .isDirectory
  | part :: rest =>
    if part = "" ∨ part = "." then folder.follow here rest
    else if part = ".." then folder.follow (parent here) rest
    else match here with
      | none => .error .notFound
      | some place =>
        match folder.files.lookup (place ++ [part]) with
        | some bytes => if rest = [] then .ok bytes else .error .notDirectory
        | none =>
          if place ++ [part] ∈ folder.directories then folder.follow (some (place ++ [part])) rest
          else .error .notFound

/-- The bytes at a path.  A path that starts with a slash starts outside of the
    folder, and the empty path leads nowhere. -/
def read (folder : Folder) (path : String) : Except ReadError ByteArray :=
  match parts path with
  | [""] => .error .notFound
  | "" :: rest => folder.follow none rest
  | rest => folder.follow (some []) rest

theorem mem_files_of_follow {folder : Folder} {here : Option Place} {path : List String}
    {bytes : ByteArray} (h : folder.follow here path = .ok bytes) :
    bytes ∈ folder.files.map Prod.snd := by
  induction path generalizing here with
  | nil => cases h
  | cons part rest ih =>
    unfold follow at h
    split at h
    · exact ih h
    split at h
    · exact ih h
    split at h
    · cases h
    split at h
    · rename_i found
      split at h
      · cases h
        obtain ⟨before, after, hf, -⟩ := List.lookup_eq_some_iff.1 found
        simp [hf]
      · cases h
    · split at h
      · exact ih h
      · cases h

theorem mem_files_of_read {folder : Folder} {path : String} {bytes : ByteArray}
    (h : folder.read path = .ok bytes) : bytes ∈ folder.files.map Prod.snd := by
  unfold read at h
  split at h
  · cases h
  · exact mem_files_of_follow h
  · exact mem_files_of_follow h

def fileSystem (folder : Folder) : FileSystem where
  read path :=
    match folder.read path with
    | .error e => .error e
    | .ok bytes =>
      match String.fromUTF8? bytes with
      | some text => .ok text
      | none => .error .notText
  contents := folder.files.filterMap fun entry => String.fromUTF8? entry.2
  mem_contents := by
    intro path text h
    split at h
    · cases h
    · rename_i bytes hr
      split at h
      · rename_i hb
        cases h
        obtain ⟨entry, he, rfl⟩ := List.mem_map.1 (mem_files_of_read hr)
        exact List.mem_filterMap.2 ⟨entry, he, hb⟩
      · cases h

/-- The place that the parts of a path name, from the folder. -/
def place (path : String) : Place :=
  (parts path).foldl
    (fun here part =>
      if part = "" ∨ part = "." then here
      else if part = ".." then here.dropLast
      else here ++ [part])
    []

/-- A place and all places above it. -/
def upwards (place : Place) : List Place :=
  (List.range (place.length + 1)).map place.take

/-- The folder of some files and directories, with the directories above them. -/
def ofEntries (files : List (String × ByteArray)) (directories : List String) : Folder where
  files := files.map fun entry => (place entry.1, entry.2)
  directories :=
    files.flatMap (fun entry => upwards (place entry.1).dropLast) ++
      directories.flatMap fun path => upwards (place path)

end Folder

end RegisterMachine
