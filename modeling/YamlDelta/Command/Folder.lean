/-
Files by name.

A folder lists what is in it, with names relative to it and a slash between the parts of a
longer name.  Finding a file walks the parts of a path one after the other: empty parts and
single dots stay where they are, two dots lead back up, and every part before the last has
to be a folder.  What lies outside the folder is not known to it and counts as empty.
-/

namespace YamlDelta.Command

/-- Why a file cannot be read as text. -/
inductive FileFault where
  | missing
  | isDirectory
  | notDirectory
  | notText
  | other (reason : String)
deriving Repr, DecidableEq

/-- The reason in words, with the number that the system gives it. -/
def FileFault.message : FileFault → String
  | missing => "No such file or directory (os error 2)"
  | isDirectory => "Is a directory (os error 21)"
  | notDirectory => "Not a directory (os error 20)"
  | notText => "stream did not contain valid UTF-8"
  | other reason => reason

/-- What a name in a folder stands for. -/
inductive Entry where
  | file (bytes : List UInt8)
  | folder
deriving Repr, DecidableEq

/-- Names and what they stand for. -/
structure Folder where
  entries : List (String × Entry)

/-- A place reached on the way along a path. -/
inductive Location where
  /-- Inside the folder, below these names. -/
  | inside (names : List String)
  | outside
  | atFile (bytes : List UInt8)

namespace Folder

/-- The entry below some names. -/
def entry? (f : Folder) (names : List String) : Option Entry :=
  f.entries.lookup ("/".intercalate names)

/-- Follow one part of a path. -/
def follow (f : Folder) (l : Location) (part : String) : Except FileFault Location :=
  match l with
  | .atFile _ => .error .notDirectory
  | .outside => if part == "" || part == "." || part == ".." then .ok .outside else .error .missing
  | .inside names =>
    if part == "" || part == "." then .ok (.inside names)
    else if part == ".." then .ok (if names.isEmpty then .outside else .inside names.dropLast)
    else
      match f.entry? (names ++ [part]) with
      | none => .error .missing
      | some .folder => .ok (.inside (names ++ [part]))
      | some (.file bytes) => .ok (.atFile bytes)

/-- The place that a path leads to.  A path that begins with a slash starts outside. -/
def locate (f : Folder) (path : String) : Except FileFault Location :=
  match path.splitOn "/" with
  | "" :: parts@(_ :: _) => parts.foldlM f.follow .outside
  | parts => parts.foldlM f.follow (.inside [])

/-- The bytes of the file that a path leads to. -/
def read (f : Folder) (path : String) : Except FileFault (List UInt8) := do
  match ← f.locate path with
  | .atFile bytes => .ok bytes
  | .inside _ | .outside => .error .isDirectory

end Folder

end YamlDelta.Command
