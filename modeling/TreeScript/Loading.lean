import TreeScript.Directory
import TreeScript.Document.Message
import TreeScript.Document.Tree
import TreeScript.Machine

/-!
# Loading trees

A tree comes from a document, and a document may come from a file. A `LoadError`
says which of the two went wrong. Loading leaves records as a run does.
-/

namespace TreeScript

inductive LoadError where
  /-- The file could not be read. -/
  | unreadable (fault : FileFault)
  /-- The document holds no tree. -/
  | malformed (error : Document.Error)
  deriving DecidableEq

/-- The wording of an error. For a document it ends with the fault, and leaves its place out. -/
def LoadError.message : LoadError → String
  | .unreadable fault => s!"Failed to read syntax tree: {fault.message}"
  | .malformed error => s!"Malformed syntax tree: {error.message}"

/-- Loads the tree in a document. -/
def loadTree (bytes : ByteArray) (journal : Journal) : Except LoadError Node × Journal :=
  ((Document.decode bytes).mapError .malformed, journal.note (.decoding bytes.size))

/-- Loads the tree in a file, of which the content is given as far as it can be
read. -/
def loadFile (path : String) (content : Except FileFault ByteArray) (journal : Journal) :
    Except LoadError Node × Journal :=
  let journal := journal.note (.readingFile path)
  match content with
  | .error fault => (.error (.unreadable fault), journal)
  | .ok bytes => loadTree bytes (journal.note (.fileRead bytes.size path))

/-- Where a tree comes from: a document, or a program that has built it. -/
inductive Source where
  | document (bytes : ByteArray)
  | tree (root : Node)

def Source.load (source : Source) (journal : Journal) : Except LoadError Node × Journal :=
  match source with
  | .document bytes => loadTree bytes journal
  | .tree root => (.ok root, journal)

/-- Loads trees in turn, up to the first that fails. -/
def loadAll : List Source → Journal → Except LoadError (List Node) × Journal
  | [], journal => (.ok [], journal)
  | source :: sources, journal =>
    match source.load journal with
    | (.error e, journal) => (.error e, journal)
    | (.ok root, journal) =>
      match loadAll sources journal with
      | (.error e, journal) => (.error e, journal)
      | (.ok roots, journal) => (.ok (root :: roots), journal)

end TreeScript
