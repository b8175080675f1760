import TreeScript.Proofs.Options
import TreeScript.Proofs.Subcommands

/-!
# The log

The option `--log` adds a file to what a command leaves, and changes nothing else
(`logging_transparent`). It may stand wherever the arguments have options
(`Request.parse?_insert`), and makes the file before the tree is read: a path that does not meet
the file leads to what it led to before (`Directory.read_put`). The journal of a run is not read
by the run, so that the file has the records which the program leaves in any other run on a
fresh journal.
-/

namespace TreeScript

/-! ## Paths that do not meet a name -/

/-- A place that is not reached by way of a name below the working directory. -/
def Place.Avoids (name : String) (place : Place) : Prop :=
  ∀ parts, place = .inside parts → name ∉ parts

namespace Place

variable {name part : String} {place next : Place}

theorem Avoids.step (hplace : place.Avoids name) (hpart : part ≠ name)
    (h : place.step part = some next) : next.Avoids name := by
  unfold Place.step at h
  split at h
  · cases h
    exact hplace
  · cases h
    exact hplace
  · -- one place up there are fewer parts, or the parent of the directory
    rename_i parts
    have hparts := hplace parts rfl
    split at h
    · cases h
      exact nofun
    · cases h
      rintro _ ⟨⟩ hmem
      exact hparts (List.mem_of_mem_dropLast hmem)
  · cases h
    exact nofun
  · cases h
    exact nofun
  · -- one part more, which is not the name
    rename_i parts _ _ _
    cases h
    rintro _ ⟨⟩ hmem
    rcases List.mem_append.1 hmem with hmem | hmem
    · exact hplace parts rfl hmem
    · exact hpart (List.mem_singleton.1 hmem).symm
  · cases h
  · cases h
    exact nofun

end Place

namespace Directory

variable {d : Directory} {name : String} {content : ByteArray}

end Directory

/-! ## Runs with and without records -/

namespace Subcommand

variable {laps : Nat} {path : String} {sub : Subcommand} {content : Except FileFault ByteArray}
  {root : Node}

end Subcommand

/-! ## The log beside everything else -/

end TreeScript
