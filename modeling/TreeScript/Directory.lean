/-!
# Directories

A `Directory` holds the files and directories below the working directory. A
path is walked part by part, from the working directory or from the root, and
each step starts in a directory that is there (`Directory.walk`). Of what lies
outside of the working directory, `Directory.system` knows the names that every
system has.
-/

namespace TreeScript

/-- A file with its content, or a directory. -/
inductive Entry where
  | file (content : ByteArray)
  | directory

/-- Entries below a directory, each with the parts of its path. Of two entries
with one path, the first counts. -/
structure Directory where
  entries : List (List String × Entry)

/-- Why a file cannot be read or written. -/
inductive FileFault where
  | notFound
  | isDirectory
  | notDirectory
  | nameTooLong
  /-- The path holds a character that ends a path. -/
  | holdsNul
  deriving DecidableEq, Repr

def FileFault.message : FileFault → String
  | .notFound => "No such file or directory (os error 2)"
  | .isDirectory => "Is a directory (os error 21)"
  | .notDirectory => "Not a directory (os error 20)"
  | .nameTooLong => "File name too long (os error 36)"
  | .holdsNul => "file name contained an unexpected NUL byte"

/-- The parts of a path. -/
def pathParts (path : String) : List String :=
  (path.toList.splitOn '/').map String.ofList

/-! ## Places -/

/-- Where a walk along a path stands. The working directory is taken to lie two
levels below the root. -/
inductive Place where
  /-- At the given parts below the working directory. -/
  | inside (parts : List String)
  /-- In the directory that holds the working directory. -/
  | parent
  /-- At the given parts below the root. -/
  | system (parts : List String)

namespace Place

/-- The place that one part of a path leads to. Only the way back to the root is
known from the parent of the working directory. -/
def step : Place → String → Option Place
  | place, "" => some place
  | place, "." => some place
  | .inside parts, ".." => some (if parts = [] then .parent else .inside parts.dropLast)
  | .parent, ".." => some (.system [])
  | .system parts, ".." => some (.system parts.dropLast)
  | .inside parts, part => some (.inside (parts ++ [part]))
  | .parent, _ => none
  | .system parts, part => some (.system (parts ++ [part]))

/-- The places that the parts of a path lead to, one after the other. -/
def visited (place : Place) : List String → List Place
  | [] => []
  | part :: parts =>
    match place.step part with
    | some next => next :: next.visited parts
    | none => []

/-- The parts of a place below the working directory. -/
def parts? : Place → Option (List String)
  | .inside parts => some parts
  | _ => none

end Place

namespace Directory

/-! ## Entries -/

/-- A directory with entries under the given paths, of which a later one takes the
place of an earlier one, and with all directories on the way to them. -/
def ofList (entries : List (String × Entry)) : Directory :=
  let walks := entries.map fun (path, entry) =>
    (((Place.inside []).visited (pathParts path)).filterMap Place.parts?, entry)
  ⟨walks.reverse.filterMap (fun (walk, entry) => walk.getLast?.map (·, entry)) ++
    walks.flatMap fun (walk, _) => walk.map (·, .directory)⟩

/-- The entry at a path of which the parts are known. -/
def get? (d : Directory) (path : List String) : Option Entry :=
  if path = [] then some .directory else d.entries.lookup path

/-- What every system has below its root: the directories of the first level, and
a file that is always empty. -/
def system : Directory :=
  ⟨(["dev", "null"], .file .empty) ::
    ["bin", "boot", "dev", "etc", "home", "lib", "media", "mnt", "opt", "proc", "root", "run",
      "sbin", "srv", "sys", "tmp", "usr", "var"].map fun name => ([name], .directory)⟩

/-- What is found at a place. -/
def at? (d : Directory) : Place → Option Entry
  | .inside parts => d.get? parts
  | .parent => some .directory
  | .system parts => system.get? parts

/-! ## Walks -/

/-- The number of bytes that one part of a path may have. -/
def nameLimit : Nat :=
  255

/-- The number of bytes that a path may have. -/
def pathLimit : Nat :=
  4095

/-- Walks along the parts of a path. Every part has to be looked up in a
directory. -/
def walk (d : Directory) : List String → Place → Except FileFault Entry
  | [], place =>
    match d.at? place with
    | some entry => .ok entry
    | none => .error .notFound
  | part :: parts, place =>
    match d.at? place with
    | some .directory =>
      if part.utf8ByteSize > nameLimit then .error .nameTooLong
      else match place.step part with
        | some place => d.walk parts place
        | none => .error .notFound
    | some (.file _) => .error .notDirectory
    | none => .error .notFound

/-- The entry that a path names. What is wrong with the path as a whole is found
before any part of it is looked up. -/
def find (d : Directory) (path : String) : Except FileFault Entry :=
  if path.toList.contains '\x00' then .error .holdsNul
  else if path.utf8ByteSize > pathLimit then .error .nameTooLong
  else if path = "" then .error .notFound
  else d.walk (pathParts path)
    (if ['/'].isPrefixOf path.toList then .system [] else .inside [])

/-! ## Reading and writing -/

/-- The content of the file that a path names. -/
def read (d : Directory) (path : String) : Except FileFault ByteArray := do
  match ← d.find path with
  | .file content => return content
  | .directory => throw .isDirectory

/-- Gives a file of the working directory its content. -/
def put (d : Directory) (name : String) (content : ByteArray) : Directory :=
  ⟨([name], .file content) :: d.entries.filter (·.1 ≠ [name])⟩

/-- Makes an empty file in the working directory, or empties the one that is
there. -/
def create (d : Directory) (name : String) : Except FileFault Directory :=
  match d.get? [name] with
  | some .directory => .error .isDirectory
  | _ => .ok (d.put name .empty)

end Directory

end TreeScript
