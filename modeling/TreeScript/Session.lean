import TreeScript.Evaluation
import TreeScript.Loading

/-!
# Sessions

An embedding program works on scopes step by step: it binds and looks up names,
runs trees, opens a scope around some steps, or tries steps on a copy. A step
that fails does not end the session. `Step.perform` gives the report of a step
and the scopes after it.
-/

namespace TreeScript

/-- What an embedding program can do with its scopes. -/
inductive Step where
  | declare (name : String)
  | define (name : String) (value : Value)
  | get (name : String)
  | assign (name : String) (value : Value)
  /-- Runs a tree, with or without the records of a whole program. -/
  | run (source : Source) (asProgram : Bool) (sink : Sink)
  /-- Loads trees, and evaluates one after the other with one sink, also after
  errors. -/
  | evaluateEach (sources : List Source) (sink : Sink)
  /-- Performs steps in a scope of their own. -/
  | within (steps : List Step)
  /-- Performs steps on a copy of the scopes. -/
  | fork (steps : List Step)

/-- How a step ended. -/
inductive Outcome where
  | done
  | value (value : Value)
  | failed (error : RuntimeError)
  | notLoaded (error : LoadError)
  | ran (result : Except RuntimeError Value) (output : ByteArray)
  | evaluated (results : List (Except RuntimeError Value)) (output : ByteArray)

/-- A step's outcome, the scopes after it, and the records that it left. -/
inductive Report where
  | plain (outcome : Outcome) (scopes : Scopes) (log : List Record)
  /-- Steps in a scope of their own, with the records from opening and closing it. -/
  | within (opening : List Record) (inner : List Report) (scopes : Scopes) (log : List Record)
  | fork (inner : List Report) (scopes : Scopes)

namespace Report

def scopes : Report → Scopes
  | .plain _ scopes _ => scopes
  | .within _ _ scopes _ => scopes
  | .fork _ scopes => scopes

def log : Report → List Record
  | .plain _ _ log => log
  | .within _ _ _ log => log
  | .fork _ _ => []

end Report

/-- Evaluates trees in turn, each also after errors of those before it. -/
def evaluateEach (laps : Nat) :
    List Node → Machine → Option (List (Except RuntimeError Value) × Machine)
  | [], m => some ([], m)
  | root :: roots, m =>
    match root.evaluate laps m with
    | none => none
    | some (result, m) =>
      match evaluateEach laps roots m with
      | none => none
      | some (results, m) => some (result :: results, m)

namespace Step

/-- The report of a step that is over, and the scopes it leaves. -/
def settle (outcome : Outcome) (m : Machine) : Report × Scopes :=
  (.plain outcome m.scopes m.journal.records, m.scopes)

/-- Performs an action of the embedding program itself. -/
def host {α : Type} (action : Action α) (outcome : α → Outcome) (m : Machine) :
    Option (Report × Scopes) :=
  match action m with
  | none => none
  | some (.ok a, m) => some (settle (outcome a) m)
  | some (.error e, m) => some (settle (.failed e) m)

/-- Loads and runs a tree. -/
def runSource (laps : Nat) (source : Source) (asProgram : Bool) (m : Machine) :
    Option (Report × Scopes) :=
  match source.load m.journal with
  | (.error e, journal) => some (settle (.notLoaded e) { m with journal := journal })
  | (.ok root, journal) =>
    let action := if asProgram then root.runProgram laps else root.evaluate laps
    match action { m with journal := journal } with
    | none => none
    | some (result, m) => some (settle (.ran result m.sink.written) m)

/-- Loads trees, and evaluates them if all could be loaded. -/
def evaluateSources (laps : Nat) (sources : List Source) (m : Machine) :
    Option (Report × Scopes) :=
  match loadAll sources m.journal with
  | (.error e, journal) => some (settle (.notLoaded e) { m with journal := journal })
  | (.ok roots, journal) =>
    match TreeScript.evaluateEach laps roots { m with journal := journal } with
    | none => none
    | some (results, m) => some (settle (.evaluated results m.sink.written) m)

mutual

/-- Performs a step. The journal is the one that each step starts with. -/
def perform (laps : Nat) (journal : Journal) : Step → Scopes → Option (Report × Scopes)
  | .declare name, scopes =>
    host (Action.declare name) (fun _ => .done) ⟨scopes, .unlimited, journal⟩
  | .define name value, scopes =>
    host (Action.define name value) (fun _ => .done) ⟨scopes, .unlimited, journal⟩
  | .get name, scopes =>
    host (Action.get name) .value ⟨scopes, .unlimited, journal⟩
  | .assign name value, scopes =>
    host (Action.assign name value) (fun _ => .done) ⟨scopes, .unlimited, journal⟩
  | .run source asProgram sink, scopes =>
    runSource laps source asProgram ⟨scopes, sink, journal⟩
  | .evaluateEach sources sink, scopes =>
    evaluateSources laps sources ⟨scopes, sink, journal⟩
  | .within steps, scopes =>
    let inner := scopes.push
    let opening := (journal.note (.scopePushed inner.depth)).records
    match performAll laps journal steps inner with
    | none => none
    | some (reports, inner) =>
      let scopes := inner.pop
      let log := (journal.note (.scopePopped scopes.depth)).records
      some (.within opening reports scopes log, scopes)
  | .fork steps, scopes =>
    match performAll laps journal steps scopes with
    | none => none
    | some (reports, _) => some (.fork reports scopes, scopes)

/-- Performs steps in turn. -/
def performAll (laps : Nat) (journal : Journal) :
    List Step → Scopes → Option (List Report × Scopes)
  | [], scopes => some ([], scopes)
  | step :: steps, scopes =>
    match perform laps journal step scopes with
    | none => none
    | some (report, scopes) =>
      match performAll laps journal steps scopes with
      | none => none
      | some (reports, scopes) => some (report :: reports, scopes)

end

end Step

end TreeScript
