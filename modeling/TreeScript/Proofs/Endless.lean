import TreeScript.Proofs.Calls
import TreeScript.Proofs.Commuting

/-!
# Loops without an end

A condition that binds no name, and names nothing that the body may bind, tests the same in
every lap. If it holds once, no run of the loop ends in a value, whatever the sink
(`Node.whileLoop_endless`). The loop ends with an error of a lap, or of a print.

That the condition holds is known of one sink without a limit. `Action.UnlessFull S x y`
compares a run there with one on any other sink, which does the same unless a print fails on
it. Only the names of `S` have to be bound alike, and the laps keep those of the condition so
(`Calling.repeatWhile_endless`).
-/

namespace TreeScript

namespace Action

open Scopes

variable {α : Type} {S : Set String}

/-- The second action does on any sink, unless it fails to print, what the first does on one
without a limit, from scopes that agree on the names of a set. -/
def UnlessFull (S : Set String) (x y : Action α) : Prop :=
  ∀ m₁ m₂ r m₂', m₁.sink.capacity = none → m₁.scopes.AgreeOn S m₂.scopes →
    y m₂ = some (r, m₂') → (∃ e, r = .error e ∧ e.kind = .output) ∨
      ∃ m₁', x m₁ = some (r, m₁') ∧ m₁'.sink.capacity = none ∧ m₁'.scopes.AgreeOn S m₂'.scopes

namespace UnlessFull

theorem bind {β : Type} {x y : Action α} {f g : α → Action β} (hx : UnlessFull S x y)
    (hf : ∀ a, UnlessFull S (f a) (g a)) : UnlessFull S (x >>= f) (y >>= g) := by
  intro m₁ m₂ r m₂' hsink hscopes h
  rcases bind_eq_some_iff.1 h with ⟨e, hy, rfl⟩ | ⟨a, n₂, hy, hg⟩
  · rcases hx m₁ m₂ _ m₂' hsink hscopes hy with ⟨e', he, hkind⟩ | ⟨m₁', hx', hm'⟩
    · cases he
      exact .inl ⟨e, rfl, hkind⟩
    · exact .inr ⟨m₁', bind_error hx', hm'⟩
  · rcases hx m₁ m₂ _ n₂ hsink hscopes hy with ⟨e, he, -⟩ | ⟨n₁, hx', hsink', hscopes'⟩
    · cases he
    · rw [bind_ok hx']
      exact hf a n₁ n₂ r m₂' hsink' hscopes' hg

theorem inScope {x y : Action α} (h : UnlessFull S x y) :
    UnlessFull S (inScope x) (inScope y) := by
  intro m₁ m₂ r m₂' hsink hscopes hr
  obtain ⟨n₂, hy, rfl⟩ := inScope_eq_some_iff.1 hr
  rcases h m₁.opened m₂.opened r n₂ hsink hscopes.push hy with he | ⟨n₁, hx, hsink', hscopes'⟩
  · exact .inl he
  · exact .inr ⟨n₁.closed, inScope_eq_some_iff.2 ⟨n₁, hx, rfl⟩, hsink', hscopes'.pop⟩

theorem print (value : Value) : UnlessFull S (print value) (print value) := by
  intro m₁ m₂ r m₂' hsink hscopes h
  have hx : Action.print value m₁ = some (.ok (), { m₁ with
      sink := ⟨m₁.sink.written ++ (value.text ++ "\n").toUTF8, none, m₁.sink.whenFull⟩ }) := by
    simp only [Action.print, Sink.write_of_capacity_eq_none hsink]
  unfold Action.print at h
  split at h
  · cases h
    exact .inr ⟨_, hx, rfl, hscopes⟩
  · cases h
    exact .inl ⟨_, rfl, rfl⟩

theorem get {name : String} (hname : name ∈ S) : UnlessFull S (get name) (get name) := by
  intro m₁ m₂ r m₂' hsink hscopes h
  unfold Action.get at h ⊢
  rw [hscopes.get?_eq hname]
  cases hv : m₂.scopes.get? name <;> rw [hv] at h <;> cases h <;>
    exact .inr ⟨_, rfl, hsink, hscopes⟩

theorem assign {name : String} (hname : name ∈ S) (value : Value) :
    UnlessFull S (assign name value) (assign name value) := by
  intro m₁ m₂ r m₂' hsink hscopes h
  have hrel := hscopes.assign? hname value
  unfold Action.assign at h ⊢
  generalize m₁.scopes.assign? name value = a, m₂.scopes.assign? name value = b at hrel h
  cases hrel with
  | none => cases h; exact .inr ⟨_, rfl, hsink, hscopes⟩
  | some hs => cases h; exact .inr ⟨_, rfl, hsink, hs⟩

end UnlessFull

theorem touching_unlessFull (S : Set String) : Touching (UnlessFull S) S True where
  pure _ _ _ _ _ hsink hscopes h := by cases h; exact .inr ⟨_, rfl, hsink, hscopes⟩
  bind := UnlessFull.bind
  note _ _ _ _ _ _ hsink hscopes h := by cases h; exact .inr ⟨_, rfl, hsink, hscopes⟩
  fail _ _ _ _ _ _ hsink hscopes h := by cases h; exact .inr ⟨_, rfl, hsink, hscopes⟩
  cutOff _ _ _ _ _ _ h := by cases h
  inScope := UnlessFull.inScope
  declare name _ _ _ _ _ hsink hscopes h := by
    cases h; exact .inr ⟨_, rfl, hsink, hscopes.define name .unit⟩
  get _ hname := .get hname
  assign _ hname value := .assign hname value
  print _ value := .print value

/-- However an action ends from a machine, it ends with an error of a kind. -/
def OnlyFails (P : RuntimeError → Prop) (x : Action α) (m : Machine) : Prop :=
  ∀ r m', x m = some (r, m') → ∃ e, r = .error e ∧ P e

/-- What only fails is not gone on from. -/
theorem OnlyFails.bind {β : Type} {P : RuntimeError → Prop} {x : Action α} {m : Machine}
    (h : OnlyFails P x m) (f : α → Action β) : OnlyFails P (x >>= f) m := by
  intro r m' hr
  rcases bind_eq_some_iff.1 hr with ⟨e, hx, rfl⟩ | ⟨a, m₁, hx, -⟩
  · obtain ⟨e', he, hP⟩ := h _ _ hx
    cases he
    exact ⟨e, rfl, hP⟩
  · obtain ⟨e, he, -⟩ := h _ _ hx
    cases he

end Action

namespace Calling

/-- A loop whose condition holds wherever an invariant does, unless it fails, ends with an error
of the condition or of a lap. -/
theorem repeatWhile_endless {c : Calling Bool} {b : Calling Unit} {I : Machine → Prop}
    {Q : RuntimeError → Prop}
    (hc : ∀ m r m', I m → c.run m = some (r, m') →
      (r = .ok true ∧ I m') ∨ ∃ e, r = .error e ∧ Q e)
    (hb : ∀ m m', I m → b.run m = some (.ok (), m') → I m') :
    ∀ (laps count : Nat) {m : Machine}, I m → Action.OnlyFails (fun e => Q e ∨
      ∃ m₁ m₂, b.run m₁ = some (.error e, m₂) ∧
        b.calls m₁ ⊆ (repeatWhile c b laps count).calls m) (repeatWhile c b laps count).run m
  | 0, _, _, _ => fun _ _ h => by cases h
  | laps + 1, count, m, hm => by
    intro r m' h
    unfold repeatWhile at h ⊢
    rcases Action.bind_eq_some_iff.1 h with ⟨e, hcond, rfl⟩ | ⟨holds, m₁, hcond, hrest⟩
    · rcases hc m _ m' hm hcond with ⟨hok, -⟩ | ⟨e', he, hQ⟩
      · cases hok
      · cases he
        exact ⟨e, rfl, .inl hQ⟩
    obtain ⟨rfl, hm₁⟩ : holds = true ∧ I m₁ := by
      rcases hc m _ m₁ hm hcond with ⟨hok, hm₁⟩ | ⟨e, he, -⟩
      · exact ⟨Except.ok.inj hok, hm₁⟩
      · cases he
    rw [calls_bind_of_ok hcond]
    rcases Action.bind_eq_some_iff.1 hrest with ⟨e, hbody, rfl⟩ | ⟨⟨⟩, m₂, hbody, hloop⟩
    · exact ⟨e, rfl, .inr ⟨m₁, m', hbody, fun call h =>
        List.mem_append_right _ (calls_subset_bind b _ m₁ h)⟩⟩
    · obtain ⟨e, rfl, hQ | ⟨m₃, m₄, herror, hcalls⟩⟩ :=
        repeatWhile_endless hc hb laps (count + 1) (hb m₁ m₂ hm₁ hbody) _ _ hloop
      · exact ⟨e, rfl, .inl hQ⟩
      · refine ⟨e, rfl, .inr ⟨m₃, m₄, herror, fun call h => List.mem_append_right _ ?_⟩⟩
        show call ∈ (b >>= fun _ => repeatWhile c b laps (count + 1)).calls m₁
        rw [calls_bind_of_ok hbody]
        exact List.mem_append_right _ (hcalls h)

end Calling

namespace Node

open Calling Scopes

variable {c b : Node}

/-- A condition that binds nothing, and that holds with a sink without a limit, holds wherever
its names are bound alike, unless it fails to print. -/
theorem condition_holds (hc : c.writes = []) {s : Scopes} {j : Journal} {m₀ : Machine}
    (hholds : c.Returns ⟨s, .unlimited, j⟩ (.ok (.boolean true)) m₀) {laps : Nat} {m m' : Machine}
    {r : Except RuntimeError Bool} (hm : s.AgreeOn {x | x ∈ c.names} m.scopes)
    (h : Action.condition .loop (c.evaluate laps) m = some (r, m')) :
    (r = .ok true ∧ s.AgreeOn {x | x ∈ c.names} m'.scopes) ∨
      ∃ e, r = .error e ∧ e.kind = .output := by
  have hfollows := (Action.touching_unlessFull {x | x ∈ c.names}).evaluate laps (n := c)
    (fun _ hx => hx) fun _ => trivial
  -- on a sink without a limit the condition returns in one way only
  have hvalue : ∀ {r' m''}, c.evaluate laps m = some (r', m'') →
      (∃ e, r' = .error e ∧ e.kind = .output) ∨ r' = .ok (.boolean true) := fun {r' m''} h' => by
    rcases hfollows ⟨s, .unlimited, j⟩ m r' m'' rfl hm h' with he | ⟨m₁, h₁, -⟩
    · exact .inl he
    · exact .inr (Returns.unique ⟨laps, h₁⟩ hholds).1
  rcases Action.bind_eq_some_iff.1 h with ⟨e, h', rfl⟩ | ⟨v, m'', h', hv⟩
  · rcases hvalue h' with ⟨e', he, hkind⟩ | hok
    · cases he
      exact .inr ⟨e, rfl, hkind⟩
    · cases hok
  · rcases hvalue h' with ⟨e, he, -⟩ | hok
    · cases he
    · cases hok
      cases hv
      have hkept : m.scopes.AgreeOn {x | x ∉ c.writes} m'.scopes := Returns.agreeOn_compl ⟨laps, h'⟩
      exact .inl ⟨rfl, hm.trans (hkept.mono fun x _ => by simp [hc])⟩

/-- A lap leaves the bindings alone that the body does not make. -/
theorem lap_agreeOn {S : Set String} (hS : ∀ x ∈ S, x ∉ b.writes) {laps : Nat} {m m' : Machine}
    {r : Except RuntimeError Unit}
    (h : Action.inScope (do let _ ← b.evaluate laps) m = some (r, m')) :
    m.scopes.AgreeOn S m'.scopes := by
  obtain ⟨m₁, hbody, rfl⟩ := Action.inScope_eq_some_iff.1 h
  have hkept : ∀ {r'}, b.evaluate laps m.opened = some (r', m₁) →
      m.scopes.AgreeOn S m₁.scopes.pop := fun {r'} h' => by
    have hpushed : m.scopes.push.AgreeOn {x | x ∉ b.writes} m₁.scopes :=
      Returns.agreeOn_compl ⟨laps, h'⟩
    exact (hpushed.mono hS).pop
  rcases Action.bind_eq_some_iff.1 hbody with ⟨e, h', -⟩ | ⟨v, m₂, h', hpure⟩
  · exact hkept h'
  · cases hpure
    exact hkept h'

/-- An error of a lap is the error of an evaluation of the body. -/
theorem exists_call_of_lap {laps : Nat} {m m' : Machine} {e : RuntimeError}
    (h : (lapping laps c b).run m = some (.error e, m')) :
    ∃ call ∈ (lapping laps c b).calls m, call.place = 1 ∧
      ∃ m₁, b.evaluate laps call.start = some (.error e, m₁) := by
  obtain ⟨m₁, hbody, -⟩ := Action.inScope_eq_some_iff.1 h
  refine ⟨⟨1, m.opened⟩, calls_subset_bind _ _ _ List.mem_cons_self, rfl, m₁, ?_⟩
  rcases Action.bind_eq_some_iff.1 hbody with ⟨e', h', he⟩ | ⟨v, m₂, -, hpure⟩
  · cases he
    exact h'
  · cases hpure

/-- A loop never ends in a value if its condition declares and assigns nothing, and names nothing
that the body declares or assigns to, and holds once in these scopes with a sink without a limit.
Where the loop ends on any sink at all, it ends with the error of an evaluation of its body, or
because a print failed. -/
theorem whileLoop_endless (hc : c.writes = []) (hb : ∀ x ∈ c.names, x ∉ b.writes) {s : Scopes}
    {j : Journal} {m₀ : Machine} (hholds : c.Returns ⟨s, .unlimited, j⟩ (.ok (.boolean true)) m₀)
    {laps : Nat} {w : Sink} {j' : Journal} {r : Except RuntimeError Value} {m' : Machine}
    (h : (whileLoop c b).evaluate laps ⟨s, w, j'⟩ = some (r, m')) :
    ∃ e, r = .error e ∧ (e.kind = .output ∨ ∃ call ∈ (whileLoop c b).calls laps ⟨s, w, j'⟩,
      call.place = 1 ∧ ∃ m₁, b.evaluate laps call.start = some (.error e, m₁)) := by
  have hloop : Action.OnlyFails (fun e => e.kind = .output ∨
      ∃ call ∈ (whileLoop c b).calls laps ⟨s, w, j'⟩, call.place = 1 ∧
        ∃ m₁, b.evaluate laps call.start = some (.error e, m₁))
      (looping laps c b laps 0).run ((whileLoop c b).entered ⟨s, w, j'⟩) := by
    intro r' m₁ hrun
    obtain ⟨e, he, hkind | ⟨m₂, m₃, hlap, hcalls⟩⟩ := Calling.repeatWhile_endless
      (I := fun m => s.AgreeOn {x | x ∈ c.names} m.scopes) (Q := fun e => e.kind = .output)
      (fun _ _ _ hm h => condition_holds hc hholds hm h)
      (fun _ _ hm h => hm.trans (lap_agreeOn hb h)) laps 0 (.refl s) _ _ hrun
    · exact ⟨e, he, .inl hkind⟩
    · obtain ⟨call, hcall, hplace, herror⟩ := exists_call_of_lap hlap
      exact ⟨e, he, .inr ⟨call, calls_subset_bind _ _ _ (hcalls hcall), hplace, herror⟩⟩
  rw [evaluate_eq_bind] at h
  exact ((hloop.bind _).bind _) _ _ h

/-- A condition that prints, and a body that changes another name in the first lap and fails in
the second one. -/
theorem whileLoop_endless_second_lap :
    let c : Node := .print (.identifier "go")
    let b : Node := .ifElse (.identifier "first")
      (.assign (.identifier "first") (.literal (.boolean false))) (.identifier "q")
    let globals : Frame := (Frame.empty.insert "go" (.boolean true)).insert "first" (.boolean true)
    let m : Machine := ⟨⟨globals, []⟩, .limited 12 .refuses, .off⟩
    let m₀ : Machine := ⟨⟨globals, []⟩, ⟨"true\n".toUTF8, none, .refuses⟩, .off⟩
    let m' : Machine := ⟨⟨globals.insert "first" (.boolean false), []⟩,
      ⟨"true\ntrue\n".toUTF8, some 12, .refuses⟩, .off⟩
    c.writes = [] ∧ (∀ x ∈ c.names, x ∉ b.writes) ∧
      c.Returns ⟨⟨globals, []⟩, .unlimited, .off⟩ (.ok (.boolean true)) m₀ ∧
      (whileLoop c b).evaluate 2 m = some (.error (.undefinedVariable "q"), m') ∧
      ∃ call ∈ (whileLoop c b).calls 2 m, call.place = 1 ∧
        ∃ m₁, b.evaluate 2 call.start = some (.error (.undefinedVariable "q"), m₁) := by
  intro c b globals m m₀ m'
  have hc : c.writes = [] := rfl
  have hb : ∀ x ∈ c.names, x ∉ b.writes := by decide
  have hholds : c.Returns ⟨⟨globals, []⟩, .unlimited, .off⟩ (.ok (.boolean true)) m₀ :=
    ⟨0, by cbv⟩
  have h : (whileLoop c b).evaluate 2 m = some (.error (.undefinedVariable "q"), m') := by cbv
  obtain ⟨e, he, hkind | hcall⟩ := whileLoop_endless hc hb hholds h
  · cases he
    cases hkind
  · cases he
    exact ⟨hc, hb, hholds, h, hcall⟩

end Node

end TreeScript
