import TreeScript.Document.Writer
import TreeScript.Main
import TreeScript.Session
import TreeScript.Proofs.Names
import TreeScript.Proofs.Runs
import TreeScript.Proofs.Calls
import TreeScript.Proofs.Slots
import TreeScript.Proofs.Discipline
import TreeScript.Proofs.Lockstep
import TreeScript.Proofs.Observation
import TreeScript.Proofs.Semantics.Chain
import TreeScript.Proofs.Number.Bits
import TreeScript.Proofs.Number.Rounding
import TreeScript.Proofs.Number.Parts
import TreeScript.Proofs.Number.Nearest
import TreeScript.Proofs.Number.Length
import TreeScript.Proofs.Number.Drift
import TreeScript.Proofs.Semantics.Rules
import TreeScript.Proofs.Semantics.Complete
import TreeScript.Proofs.Semantics.Adequacy
import TreeScript.Proofs.Document.Bytes
import TreeScript.Proofs.Document.Strings
import TreeScript.Proofs.Document.Numerals
import TreeScript.Proofs.Document.Written
import TreeScript.Proofs.Document.Reload
import TreeScript.Proofs.Document.RoundTrip
import TreeScript.Proofs.Document.Spelled
import TreeScript.Proofs.Document.Scaled
import TreeScript.Proofs.Document.Stored
import TreeScript.Proofs.Limits
import TreeScript.Proofs.Unreached
import TreeScript.Proofs.Account
import TreeScript.Proofs.Declarations
import TreeScript.Proofs.Renaming
import TreeScript.Proofs.Number.Range
import TreeScript.Proofs.Document.Loaded
import TreeScript.Proofs.Document.Escapes
import TreeScript.Proofs.Document.Spacing
import TreeScript.Proofs.Document.Skipping
import TreeScript.Proofs.Document.Layout
import TreeScript.Proofs.Document.Reading
import TreeScript.Proofs.Document.Members
import TreeScript.Proofs.Document.Relayout
import TreeScript.Proofs.Footprint
import TreeScript.Proofs.Commuting
import TreeScript.Proofs.Subcommands
import TreeScript.Proofs.Number.Similar
import TreeScript.Proofs.Similarity
import TreeScript.Proofs.Mirroring
import TreeScript.Proofs.Levels
import TreeScript.Proofs.Sessions
import TreeScript.Proofs.Equivalence
import TreeScript.Proofs.Flattening
import TreeScript.Proofs.Unfolding
import TreeScript.Proofs.Logging
import TreeScript.Proofs.Number.Display
import TreeScript.Proofs.Texts
import TreeScript.Proofs.Dumps
import TreeScript.Proofs.Bindings
import TreeScript.Proofs.Inspection
import TreeScript.Proofs.Endless
import TreeScript.Proofs.Number.Counts
import TreeScript.Proofs.Visits
import TreeScript.Proofs.Laps
import TreeScript.Proofs.Counting
import TreeScript.Proofs.Connectives
import TreeScript.Proofs.Number.Printed
