import TreeScript.Proofs.Bindings
import TreeScript.Proofs.Flattening
import TreeScript.Proofs.Laps
import TreeScript.Proofs.Number.Counts

/-!
# Counting loops

`Node.counting limit body` runs a body for the numbers from zero up to a limit, with the variable
`i` for the number. A body that does not bind this name itself runs as often as the limit says,
each time with the next number, if all its evaluations end in values (`Node.counting_runs`).

The loop stands in the scope that declares `i`, and a lap runs the body two scopes further in.
Whatever the body does there, it leaves those two without the name, so that the assignment after
it goes to the slot of the loop's own scope (`Node.exists_lap`). Numbers count exactly up to
`2 ^ 53`, and for a larger limit the assignment would stop to change anything.
-/

open Filter

namespace TreeScript

namespace Action

variable {α β : Type} {s s' s'' : Scopes}

/-- An action that ends in a value from the given scopes, and leaves other scopes. It does not
depend on the sink, and does not print. -/
def Leads (x : Action α) (s : Scopes) (a : α) (s' : Scopes) : Prop :=
  ∀ w j, ∃ j', x ⟨s, w, j⟩ = some (.ok a, ⟨s', w, j'⟩)

namespace Leads

theorem pure (a : α) (s : Scopes) : Leads (Pure.pure a) s a s :=
  fun _ j => ⟨j, rfl⟩

theorem note (r : Record) (s : Scopes) : Leads (note r) s () s :=
  fun _ _ => ⟨_, rfl⟩

theorem bind {x : Action α} {f : α → Action β} {a : α} {b : β} (hx : Leads x s a s')
    (hf : Leads (f a) s' b s'') : Leads (x >>= f) s b s'' := by
  intro w j
  obtain ⟨j₁, h₁⟩ := hx w j
  obtain ⟨j₂, h₂⟩ := hf w j₁
  exact ⟨j₂, (bind_ok h₁).trans h₂⟩

theorem visiting {x : Action Value} {v : Value} (kind : Node.Kind) (h : Leads x s v s') :
    Leads (visiting kind x) s v s' :=
  (note _ s).bind (h.bind ((note _ s').bind (pure v s')))

theorem numberOperands (op : Operator) (x y : Float) (s : Scopes) :
    Leads (numberOperands op (.number x) (.number y)) s (x, y) s :=
  (note _ s).bind (pure (x, y) s)

theorem declare (name : String) (s : Scopes) : Leads (declare name) s () (s.declare name) :=
  fun _ j => ⟨j, rfl⟩

theorem get {name : String} {v : Value} (h : s.get? name = some v) : Leads (get name) s v s :=
  fun _ j => ⟨j, get_of_some h⟩

theorem assign {name : String} {v : Value} (h : s.assign? name v = some s') :
    Leads (assign name v) s () s' := by
  intro w j
  unfold Action.assign
  exact ⟨j, by simp only [h]⟩

end Leads

end Action

namespace Node

open TreeScript.Action Number Scopes

/-- Whether the number is below a limit. -/
def belowLimit (limit : Float) : Node :=
  .binary (.comparison .less) (.identifier "i") (.literal (.number limit))

/-- Goes on to the next number. -/
def countOn : Node :=
  .assign (.identifier "i") (.binary (.arithmetic .add) (.identifier "i") (.literal (.number 1)))

/-- The loop over a body that goes on to the next number after it. -/
def countingLoop (limit : Float) (body : Node) : Node :=
  .whileLoop (belowLimit limit) (.block [body, countOn])

/-- Runs a body for the numbers from zero up to a limit. -/
def counting (limit : Float) (body : Node) : Node :=
  .block [.var "i", .assign (.identifier "i") (.literal (.number 0)), countingLoop limit body]

/-! ## The parts -/

section

variable {s t : Scopes} {x limit : Float} {laps : Nat}

theorem leads_identifier {name : String} {v : Value} (h : s.get? name = some v) (laps : Nat) :
    Leads ((identifier name).evaluate laps) s v s := by
  rw [evaluate]
  exact (Leads.get h).visiting _

theorem leads_literal (v : Value) (s : Scopes) (laps : Nat) :
    Leads ((literal v).evaluate laps) s v s := by
  rw [evaluate]
  exact (Leads.pure v s).visiting _

theorem leads_var (name : String) (s : Scopes) (laps : Nat) :
    Leads ((var name).evaluate laps) s .unit (s.declare name) := by
  rw [evaluate]
  exact ((Leads.declare name s).bind ((Leads.note _ _).bind (.pure Value.unit _))).visiting _

theorem leads_assign {name : String} {value : Node} {v : Value} {s' : Scopes}
    (hvalue : Leads (value.evaluate laps) s v s') (h : s'.assign? name v = some t) :
    Leads ((assign (.identifier name) value).evaluate laps) s v t := by
  rw [evaluate]
  exact (hvalue.bind ((Leads.assign h).bind ((Leads.note _ t).bind (.pure v t)))).visiting _

/-- A declaration, and an assignment of a literal to its name. -/
theorem exists_leads_declared (name : String) (v : Value) (s : Scopes) (laps : Nat) :
    ∃ t, t.Finds 0 name v ∧ Leads (evaluateAll laps .unit
      [.var name, .assign (.identifier name) (.literal v)]) s v t := by
  have hdeclared : (s.declare name).Finds 0 name .unit :=
    ⟨(slot_define s name .unit 0 name).trans (if_pos ⟨rfl, rfl⟩),
      fun j hj => absurd hj (Nat.not_lt_zero j)⟩
  obtain ⟨t, ht, hrebinds⟩ := hdeclared.exists_assign v
  refine ⟨t, hrebinds.finds hdeclared, ?_⟩
  simp only [evaluateAll]
  exact (leads_var name s laps).bind
    ((leads_assign (leads_literal v _ laps) ht).bind (.pure v t))

theorem leads_belowLimit (h : s.get? "i" = some (.number x)) (limit : Float) (laps : Nat) :
    Leads ((belowLimit limit).evaluate laps) s (.boolean (Comparison.less.holds x limit)) s := by
  have hless : Leads (comparison .less (.number x) (.number limit)) s
      (.boolean (Comparison.less.holds x limit)) s :=
    (Leads.numberOperands _ x limit s).bind (.pure _ s)
  rw [belowLimit, evaluate]
  exact ((Leads.note _ s).bind ((leads_identifier h laps).bind
    ((leads_literal _ s laps).bind hless))).visiting _

theorem leads_countOn (h : s.get? "i" = some (.number x))
    (ht : s.assign? "i" (.number (x + 1)) = some t) (laps : Nat) :
    Leads (countOn.evaluate laps) s (.number (x + 1)) t := by
  have hadd : Leads (arithmetic .add (.number x) (.number 1)) s (.number (x + 1)) s :=
    (Leads.numberOperands _ x 1 s).bind (.pure _ s)
  refine leads_assign ?_ ht
  rw [evaluate]
  exact ((Leads.note _ s).bind ((leads_identifier h laps).bind
    ((leads_literal _ s laps).bind hadd))).visiting _

end

end Node

/-! ## The counter -/

open Number

/-- Frame `i` is the innermost one with the counter, and has it at a natural number. -/
def Scopes.CountsAt (s : Scopes) (i k : ℕ) : Prop :=
  ∃ x, s.Finds i "i" (.number x) ∧ Exactly x k

namespace Node

open TreeScript.Action

variable {limit : Float} {b : Node} {N : ℕ}

/-- A lap of a body that ends in a value counts on by one. -/
theorem exists_lap (hb : "i" ∉ b.writes) {k : ℕ} (hk : k + 1 ≤ 2 ^ 53) {s : Scopes}
    (hs : s.CountsAt 0 k) {m m₁ : Machine} (hm : m.scopes = s.push) {v : Value}
    (hbody : b.Returns (inside [b, countOn] m) (.ok v) m₁) :
    ∃ v' m₂, (block [b, countOn]).Returns m (.ok v') m₂ ∧ m₂.closed.scopes.CountsAt 0 (k + 1) := by
  obtain ⟨x, hfinds, hx⟩ := hs
  have hinside : (inside [b, countOn] m).scopes = s.push.push := congrArg Scopes.push hm
  -- the body leaves the counter alone, and no other one is nearer
  have hkept := hbody.agreeOn_compl
  rw [hinside] at hkept
  have hfinds₁ : m₁.scopes.Finds 2 "i" (.number x) := hkept.finds hb hfinds.push.push
  obtain ⟨t, ht, hrebinds⟩ := hfinds₁.exists_assign (.number (x + 1))
  have hdepth : t.depth = s.depth + 2 := hrebinds.depth.trans hkept.depth.symm
  have hpos := s.one_le_depth
  have hpop : t.pop.depth + 1 = t.depth := Scopes.depth_pop (by omega)
  have hfinds₂ : t.pop.pop.Finds 0 "i" (.number (x + 1)) :=
    ((hrebinds.finds hfinds₁).pop (by omega)).pop (by omega)
  obtain ⟨laps, hbody⟩ := hbody
  obtain ⟨j, hcount⟩ := leads_countOn (Scopes.get?_eq_some_iff.2 ⟨2, hfinds₁⟩) ht laps m₁.sink
    m₁.journal
  have hall : evaluateAll laps .unit [b, countOn] (inside [b, countOn] m) =
      some (.ok (.number (x + 1)), ⟨t, m₁.sink, j⟩) :=
    (Action.bind_ok hbody).trans ((Action.bind_ok hcount).trans rfl)
  exact ⟨_, _, ⟨laps, evaluate_block_of_ok hall⟩, x + 1, hfinds₂, hx.add exactly_one hk⟩

theorem returns_belowLimit (hlimit : Exactly limit N) {s : Scopes} {k : ℕ}
    (hs : s.CountsAt 0 k) (w : Sink) (j : Journal) : ∃ j',
      (belowLimit limit).Returns ⟨s, w, j⟩ (.ok (.boolean (decide (k < N)))) ⟨s, w, j'⟩ := by
  obtain ⟨x, hfinds, hx⟩ := hs
  obtain ⟨j', htest⟩ := leads_belowLimit (Scopes.get?_eq_some_iff.2 ⟨0, hfinds⟩) limit 0 w j
  rw [hx.holds_less hlimit] at htest
  exact ⟨j', 0, htest⟩

/-- A loop that starts at zero takes laps up to its limit, where they all end in values. -/
theorem exists_laps (hlimit : Exactly limit N) (hN : N ≤ 2 ^ 53) (hb : "i" ∉ b.writes)
    {m : Machine} (hm : m.scopes.CountsAt 0 0)
    (h : ∀ laps, ∀ s ∈ (countingLoop limit b).starts laps 1 m,
      ∃ v m', b.Returns (inside [b, countOn] s) (.ok v) m') :
    ∀ k ≤ N, ∃ starts m', Laps (belowLimit limit) (block [b, countOn])
      ((countingLoop limit b).entered m) starts m' ∧ m'.scopes.CountsAt 0 k ∧
        List.Forall₂ (fun s i => s.scopes.CountsAt 1 i) starts (List.range k)
  | 0, _ => ⟨[], _, .none, hm, .nil⟩
  | k + 1, hk => by
    obtain ⟨starts, ⟨s, w, j⟩, hlaps, hs, hstarts⟩ := exists_laps hlimit hN hb hm h k (by omega)
    obtain ⟨j', htest⟩ := returns_belowLimit hlimit hs w j
    rw [decide_eq_true (Nat.lt_of_succ_le hk)] at htest
    -- the next lap starts in some run, and so is one of those that end in values
    obtain ⟨laps, hmem⟩ := (hlaps.goes_on htest).exists
    obtain ⟨v, m₁, hbody⟩ := h laps _ hmem
    obtain ⟨v', m₂, hblock, hm₂⟩ := exists_lap hb (by omega) hs rfl hbody
    refine ⟨_, _, hlaps.next htest hblock, hm₂, ?_⟩
    obtain ⟨x, hfinds, hx⟩ := hs
    rw [List.range_succ]
    exact List.rel_append hstarts (.cons ⟨x, hfinds.push, hx⟩ .nil)

/-- The declaration of the counter, and the assignment that makes it zero. -/
theorem exists_zero (m : Machine) : ∃ v m₁, m₁.scopes.CountsAt 0 0 ∧ ∀ laps, evaluateAll laps .unit
    [.var "i", .assign (.identifier "i") (.literal (.number 0))] m = some (.ok v, m₁) := by
  obtain ⟨s, w, j⟩ := m
  obtain ⟨t, ht, hall⟩ := exists_leads_declared "i" (.number 0) s 0
  obtain ⟨j', h⟩ := hall w j
  refine ⟨.number 0, ⟨t, w, j'⟩, ⟨0, ht, exactly_zero⟩, fun laps => ?_⟩
  exact compositional_extends.evaluateAll _ _
    (fun n _ => evaluate_extends (Nat.zero_le laps) n) _ _ h

/-- The visits of the body are the laps of the loop, each in the scope of its block. -/
theorem visits_counting {laps : Nat} {m m₁ : Machine} {v : Value}
    (h : evaluateAll laps .unit [.var "i", .assign (.identifier "i") (.literal (.number 0))]
      (inside [.var "i", .assign (.identifier "i") (.literal (.number 0)), countingLoop limit b] m) =
        some (.ok v, m₁)) :
    (counting limit b).visits laps [2, 1, 0] m =
      ((countingLoop limit b).starts laps 1 m₁).map (inside [b, countOn]) := by
  have hloop : (counting limit b).starts laps 2 m = [m₁] :=
    starts_block (Nat.lt_succ_self 2) h
  have hbody : ∀ s, (block [b, countOn]).starts laps 0 s = [inside [b, countOn] s] := fun s =>
    starts_block (v := .unit) Nat.two_pos rfl
  show ((counting limit b).starts laps 2 m).flatMap (fun m =>
    ((countingLoop limit b).starts laps 1 m).flatMap fun m =>
      ((block [b, countOn]).starts laps 0 m).flatMap fun m => [m]) = _
  simp only [hloop, hbody, List.flatMap_singleton]
  exact List.map_eq_flatMap.symm

/-- A counting loop ends, and its body is evaluated once for each number below the limit, in this
order and with the counter at this number, if the body does not bind the name of the counter and
each of its evaluations in the run ends in a value. -/
theorem counting_runs (hlimit : Exactly limit N) (hN : N ≤ 2 ^ 53) (hb : "i" ∉ b.writes)
    {m : Machine} (h : ∀ laps, ∀ s ∈ (counting limit b).visits laps [2, 1, 0] m,
      ∃ v m', b.Returns s (.ok v) m') :
    ∃ m' bound, ∀ laps ≥ bound, (counting limit b).evaluate laps m = some (.ok .unit, m') ∧
      List.Forall₂ (fun s k => ∃ x, s.scopes.get? "i" = some (.number x) ∧ Exactly x k)
        ((counting limit b).visits laps [2, 1, 0] m) (List.range N) := by
  obtain ⟨v, m₁, hm₁, hzero⟩ := exists_zero (inside [.var "i",
    .assign (.identifier "i") (.literal (.number 0)), countingLoop limit b] m)
  have hvisits := fun laps => visits_counting (hzero laps)
  simp only [hvisits, List.forall_mem_map, List.forall₂_map_left_iff] at h ⊢
  obtain ⟨starts, ⟨s, w, j⟩, hlaps, hs, hstarts⟩ := exists_laps hlimit hN hb hm₁ h N (le_refl N)
  obtain ⟨j', htest⟩ := returns_belowLimit hlimit hs w j
  rw [decide_eq_false (Nat.lt_irrefl N)] at htest
  obtain ⟨m₂, hends⟩ : ∃ m₂, ∀ᶠ laps in atTop,
      (countingLoop limit b).evaluate laps m₁ = some (.ok .unit, m₂) ∧
        (countingLoop limit b).starts laps 1 m₁ = starts := hlaps.ends htest
  obtain ⟨bound, hbound⟩ := eventually_atTop.1 hends
  refine ⟨{ m₂.closed with journal := m₂.closed.journal.note (.nodeLeft .block .unit) }, bound,
    fun laps hle => ?_⟩
  obtain ⟨hloop, hall⟩ := hbound laps hle
  constructor
  · refine evaluate_block_of_ok ?_
    exact (congrFun (evaluateAll_append laps _ [_, _] _) _).trans
      ((bind_ok (hzero laps)).trans ((bind_ok hloop).trans rfl))
  · rw [hall]
    refine hstarts.imp fun s k hs => ?_
    obtain ⟨x, hfinds, hx⟩ := hs
    exact ⟨x, Scopes.get?_eq_some_iff.2 ⟨2, hfinds.push⟩, hx⟩

/-- A body with a variable of its own runs twice, also with a full sink. -/
theorem counting_runs_twice :
    let b : Node := .block [.var "j", .assign (.identifier "j") (.literal (.boolean true))]
    let m : Machine := ⟨.initial, .limited 0 .refuses, .off⟩
    Exactly 2 2 ∧ 2 ≤ 2 ^ 53 ∧ "i" ∉ b.writes ∧
      (∀ laps, ∀ s ∈ (counting 2 b).visits laps [2, 1, 0] m, ∃ v m', b.Returns s (.ok v) m') ∧
      ∃ m' bound, ∀ laps ≥ bound, (counting 2 b).evaluate laps m = some (.ok .unit, m') ∧
        List.Forall₂ (fun s k => ∃ x, s.scopes.get? "i" = some (.number x) ∧ Exactly x k)
          ((counting 2 b).visits laps [2, 1, 0] m) [0, 1] := by
  intro b m
  have hlimit : Exactly 2 2 :=
    ⟨⟨false, 2 ^ 52, -51⟩, by decide +kernel, rfl, by norm_num [Finite.magnitude]⟩
  have hb : "i" ∉ b.writes := by decide
  have hends : ∀ s, ∃ v m', b.Returns s (.ok v) m' := fun s => by
    obtain ⟨t, -, hall⟩ := exists_leads_declared "j" (.boolean true) s.scopes.push 0
    obtain ⟨j', h⟩ := hall s.sink (inside [.var "j",
      .assign (.identifier "j") (.literal (.boolean true))] s).journal
    exact ⟨_, _, 0, evaluate_block_of_ok h⟩
  have hvisits : ∀ laps, ∀ s ∈ (counting 2 b).visits laps [2, 1, 0] m,
      ∃ v m', b.Returns s (.ok v) m' := fun _ s _ => hends s
  exact ⟨hlimit, by norm_num, hb, hvisits, counting_runs hlimit (by norm_num) hb hvisits⟩

end Node

end TreeScript
