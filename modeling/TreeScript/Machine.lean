import TreeScript.Journal
import TreeScript.Scopes.Basic
import TreeScript.Sink

/-!
# Runs

A run works on a `Machine`: the open scopes, the sink it prints to, and the
journal it leaves records in. An `Action` is a step of a run. It ends with a
result or an error, and the machine keeps what happened before an error. An
action may also be cut off, when a loop has used up the laps it was given; then
there is no outcome.
-/

namespace TreeScript

/-- What a run works on. -/
structure Machine where
  scopes : Scopes
  sink : Sink
  journal : Journal

/-- A step of a run, with `none` for a run that is cut off. -/
def Action (α : Type) : Type :=
  Machine → Option (Except RuntimeError α × Machine)

namespace Action

variable {α β : Type}

def pure (a : α) : Action α :=
  fun m => some (.ok a, m)

/-- Goes on with the result, unless there is none. -/
def bind (first : Action α) (next : α → Action β) : Action β :=
  fun m =>
    match first m with
    | none => none
    | some (.error e, m) => some (.error e, m)
    | some (.ok a, m) => next a m

instance : Monad Action where
  pure := Action.pure
  bind := Action.bind

/-- A result goes on to the next action. -/
theorem bind_ok {first : Action α} {next : α → Action β} {m m' : Machine} {a : α}
    (h : first m = some (.ok a, m')) : (first >>= next) m = next a m' := by
  show bind first next m = _
  simp [bind, h]

/-- An error skips the next action. -/
theorem bind_error {first : Action α} {next : α → Action β} {m m' : Machine}
    {e : RuntimeError} (h : first m = some (.error e, m')) :
    (first >>= next) m = some (.error e, m') := by
  show bind first next m = _
  simp [bind, h]

/-- A run that is cut off stays so. -/
theorem bind_none {first : Action α} {next : α → Action β} {m : Machine}
    (h : first m = none) : (first >>= next) m = none := by
  show bind first next m = _
  simp [bind, h]

theorem bind_pure_comp (x : Action α) : bind x pure = x := by
  funext m
  unfold bind
  split <;> simp_all [pure]

theorem bind_assoc_apply {γ : Type} (x : Action α) (f : α → Action β) (g : β → Action γ) :
    bind (bind x f) g = bind x fun a => bind (f a) g := by
  funext m
  unfold bind
  cases x m with
  | none => rfl
  | some p =>
    obtain ⟨r, m⟩ := p
    cases r <;> rfl

instance : LawfulMonad Action :=
  LawfulMonad.mk' Action bind_pure_comp (fun _ _ => rfl) bind_assoc_apply

/-- Leaves a record. -/
def note (r : Record) : Action Unit :=
  fun m => some (.ok (), { m with journal := m.journal.note r })

/-- Ends the run with an error. Every error leaves a record when it arises. -/
def fail (e : RuntimeError) : Action α :=
  fun m => some (.error e, { m with journal := m.journal.note (.errorCreated e) })

/-- The result if there is one, and an error otherwise. -/
def ofOption (e : RuntimeError) : Option α → Action α
  | some a => pure a
  | none => fail e

/-- Binds a name to the unit in the innermost scope. -/
def declare (name : String) : Action Unit :=
  fun m => some (.ok (), { m with scopes := m.scopes.declare name })

/-- Binds a name in the innermost scope. -/
def define (name : String) (value : Value) : Action Unit :=
  fun m => some (.ok (), { m with scopes := m.scopes.define name value })

/-- Looks a name up. -/
def get (name : String) : Action Value :=
  fun m => ofOption (.undefinedVariable name) (m.scopes.get? name) m

/-- Rebinds a name where it is bound. -/
def assign (name : String) (value : Value) : Action Unit :=
  fun m =>
    match m.scopes.assign? name value with
    | some scopes => some (.ok (), { m with scopes := scopes })
    | none => fail (.undefinedVariable name) m

/-- Opens a scope. -/
def push : Action Unit :=
  fun m =>
    let scopes := m.scopes.push
    some (.ok (), { m with scopes := scopes, journal := m.journal.note (.scopePushed scopes.depth) })

/-- Closes the innermost scope. -/
def pop : Action Unit :=
  fun m =>
    let scopes := m.scopes.pop
    some (.ok (), { m with scopes := scopes, journal := m.journal.note (.scopePopped scopes.depth) })

/-- Runs an action in a scope of its own, which is closed also after an error. -/
def inScope (body : Action α) : Action α :=
  bind push fun _ m =>
    match body m with
    | none => none
    | some (result, m) => bind pop (fun _ m => some (result, m)) m

/-- Writes the text of a value, and ends the line. It makes no difference that the sink may be
given the text and the end of the line one after the other (`print_eq`). -/
def print (value : Value) : Action Unit :=
  fun m =>
    match m.sink.write (value.text ++ "\n") with
    | (sink, none) => some (.ok (), { m with sink := sink })
    | (sink, some reason) => fail (.outputFailed reason) { m with sink := sink }

/-- A sink that is given a line in two pieces is left as by one write, and fails alike. -/
theorem print_eq (value : Value) (m : Machine) : print value m =
    match m.sink.write value.text with
    | (sink, some reason) => fail (.outputFailed reason) { m with sink := sink }
    | (sink, none) =>
      match sink.write "\n" with
      | (sink, none) => some (.ok (), { m with sink := sink })
      | (sink, some reason) => fail (.outputFailed reason) { m with sink := sink } := by
  unfold print
  rw [Sink.write_append]
  rcases m.sink.write value.text with ⟨sink, _ | reason⟩ <;> rfl

/-- Repeats a body as long as the condition holds, and counts the laps. The first number bounds
the laps that this loop may take. The count is a natural number, and only a record shows it: to
fill a counter of 64 bits, a loop with a lap every nanosecond takes more than five centuries. -/
def repeatWhile (condition : Action Bool) (body : Action Unit) : Nat → Nat → Action Nat
  | 0, _, _ => none
  | laps + 1, count, m =>
    match condition m with
    | none => none
    | some (.error e, m) => some (.error e, m)
    | some (.ok false, m) => some (.ok count, m)
    | some (.ok true, m) =>
      match body m with
      | none => none
      | some (.error e, m) => some (.error e, m)
      | some (.ok (), m) => repeatWhile condition body laps (count + 1) m

end Action

end TreeScript
