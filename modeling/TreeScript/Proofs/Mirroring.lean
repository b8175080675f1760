import TreeScript.Proofs.Discipline
import TreeScript.Proofs.Lockstep
import TreeScript.Proofs.Semantics.Judgments
import TreeScript.Proofs.Similarity

/-!
# Runs up to the sign of zero

Similar trees run alongside each other on similar scopes (`Node.Similar.mirrors`): operators and
conditions find the same kinds and truth values, and the guard of division finds a zero of
either sign. What two such runs come to is `Node.returns_alike`. They end alike, and the lines
that they print differ at most in the sign of a zero.

A sink holds bytes and no values. The values that were printed are those that a journal tells
of, if it was fresh at the start (`Node.Prints`), and `Machine.Tells` keeps the two together.
-/

namespace TreeScript

/-! ## Machines -/

/-- The value that a record tells was printed. -/
def Record.printed? : Record → Option Value
  | .printed value => some value
  | _ => none

/-- The values that a journal tells were printed, in order. -/
def Journal.printed (j : Journal) : List Value :=
  j.records.filterMap Record.printed?

/-- A line for each value. -/
def lines (values : List Value) : String :=
  String.join (values.map fun value => value.text ++ "\n")

/-- The values that a node prints, as a journal tells that was fresh at the start. -/
def Node.Prints (n : Node) (m : Machine) (values : List Value) : Prop :=
  ∃ r m', n.Returns { m with journal := .fresh } r m' ∧ m'.journal.printed = values

theorem lines_append_singleton (values : List Value) (value : Value) :
    lines (values ++ [value]) = lines values ++ (value.text ++ "\n") := by
  simp [lines, String.join_append]

/-- The journal keeps records, and the sink has got the lines of the values in them after
what it held at first. -/
structure Machine.Tells (w : Sink) (m : Machine) : Prop where
  kept : ∃ rs, m.journal = ⟨some rs⟩
  sink : m.sink = w.printed (lines m.journal.printed)

/-- Similar scopes, and journals that tell of similar values. -/
structure Machine.Similar (w w' : Sink) (m m' : Machine) : Prop where
  scopes : m.scopes.Similar m'.scopes
  values : List.Forall₂ Value.Similar m.journal.printed m'.journal.printed
  left : m.Tells w
  right : m'.Tells w'

theorem Journal.printed_note {r : Record} (hr : r.printed? = none) (rs : List Record) :
    (Journal.note ⟨some rs⟩ r).printed = (⟨some rs⟩ : Journal).printed := by
  simp [printed, hr]

theorem Journal.printed_note_printed (value : Value) (rs : List Record) :
    (Journal.note ⟨some rs⟩ (.printed value)).printed =
      (⟨some rs⟩ : Journal).printed ++ [value] := by
  simp [printed, Record.printed?]

namespace Machine

variable {w w' : Sink} {m m' : Machine}

theorem Tells.note (h : m.Tells w) {r : Record} (hr : r.printed? = none) (s : Scopes) :
    Tells w ⟨s, m.sink, m.journal.note r⟩ := by
  obtain ⟨⟨rs, hrs⟩, hsink⟩ := h
  refine ⟨⟨r :: rs, by rw [hrs]; rfl⟩, ?_⟩
  rw [hsink, hrs, Journal.printed_note hr]

/-- A record of a value keeps up with the line that was printed for it. -/
theorem Tells.print (h : m.Tells w) (value : Value) :
    Tells w ⟨m.scopes, m.sink.printed (value.text ++ "\n"), m.journal.note (.printed value)⟩ := by
  obtain ⟨⟨rs, hrs⟩, hsink⟩ := h
  refine ⟨⟨.printed value :: rs, by rw [hrs]; rfl⟩, ?_⟩
  dsimp only
  rw [hsink, hrs, Journal.printed_note_printed, lines_append_singleton, ← Sink.printed_append]

/-- Similar scopes are enough where nothing was printed yet. -/
theorem similar_fresh {s t : Scopes} (h : s.Similar t) (w w' : Sink) :
    Similar w w' ⟨s, w, .fresh⟩ ⟨t, w', .fresh⟩ := by
  have htells : ∀ (w : Sink) (s : Scopes), Tells w ⟨s, w, .fresh⟩ := fun w s =>
    ⟨⟨[], rfl⟩, (Sink.printed_empty w).symm⟩
  exact ⟨h, .nil, htells w s, htells w' t⟩

theorem Similar.rebound (h : m.Similar w w' m') {s s' : Scopes} (hs : s.Similar s') :
    Similar w w' { m with scopes := s } { m' with scopes := s' } :=
  ⟨hs, h.values, ⟨h.left.kept, h.left.sink⟩, ⟨h.right.kept, h.right.sink⟩⟩

theorem Similar.note (h : m.Similar w w' m') {r r' : Record} (hr : r.printed? = none)
    (hr' : r'.printed? = none) : Similar w w' { m with journal := m.journal.note r }
      { m' with journal := m'.journal.note r' } := by
  refine ⟨h.scopes, ?_, h.left.note hr _, h.right.note hr' _⟩
  obtain ⟨rs, hrs⟩ := h.left.kept
  obtain ⟨rs', hrs'⟩ := h.right.kept
  have hvalues := h.values
  rw [hrs, hrs'] at hvalues
  rwa [hrs, hrs', Journal.printed_note hr, Journal.printed_note hr']

theorem Similar.print (h : m.Similar w w' m') {v v' : Value} (hv : v.Similar v') :
    Similar w w' ⟨m.scopes, m.sink.printed (v.text ++ "\n"), m.journal.note (.printed v)⟩
      ⟨m'.scopes, m'.sink.printed (v'.text ++ "\n"), m'.journal.note (.printed v')⟩ := by
  refine ⟨h.scopes, ?_, h.left.print v, h.right.print v'⟩
  obtain ⟨rs, hrs⟩ := h.left.kept
  obtain ⟨rs', hrs'⟩ := h.right.kept
  have hvalues := h.values
  rw [hrs, hrs'] at hvalues
  rw [hrs, hrs', Journal.printed_note_printed, Journal.printed_note_printed]
  exact List.rel_append hvalues (.cons hv .nil)

theorem Similar.opened (h : m.Similar w w' m') : Similar w w' m.opened m'.opened :=
  (h.rebound h.scopes.push).note rfl rfl

theorem Similar.closed (h : m.Similar w w' m') : Similar w w' m.closed m'.closed :=
  (h.rebound h.scopes.pop).note rfl rfl

end Machine

/-! ## Runs -/

namespace Action

variable {α α' β β' : Type} {Q : α → α' → Prop} {Q' : β → β' → Prop} {w w' : Sink}

/-- From similar machines both actions are cut off, or both end on similar machines, in values
in `Q` or in one and the same error. -/
abbrev Mirrors (w w' : Sink) (Q : α → α' → Prop) (x : Action α) (y : Action α') : Prop :=
  Coupled Q Eq (Machine.Similar w w') x y

theorem mirrors_pure {a : α} {a' : α'} (h : Q a a') :
    Mirrors w w' Q (Pure.pure a) (Pure.pure a') :=
  fun _ _ hm => .some ⟨.ok h, hm⟩

theorem mirrors_note {r r' : Record} (hr : r.printed? = none) (hr' : r'.printed? = none) :
    Mirrors w w' Eq (note r) (note r') :=
  fun _ _ hm => .some ⟨.ok rfl, hm.note hr hr'⟩

theorem mirrors_fail (e : RuntimeError) :
    Mirrors w w' Q (fail e : Action α) (fail e : Action α') :=
  fun _ _ hm => .some ⟨.error rfl, hm.note rfl rfl⟩

theorem mirrors_ofOption (e : RuntimeError) {a : Option α} {a' : Option α'}
    (h : Option.Rel Q a a') : Mirrors w w' Q (ofOption e a) (ofOption e a') := by
  cases h with
  | none => exact mirrors_fail e
  | some h => exact mirrors_pure h

theorem mirrors_declare (name : String) : Mirrors w w' Eq (declare name) (declare name) :=
  fun _ _ hm => .some ⟨.ok rfl, hm.rebound (hm.scopes.define name .unit)⟩

theorem mirrors_get (name : String) : Mirrors w w' Value.Similar (get name) (get name) :=
  fun m m' hm => mirrors_ofOption _ (hm.scopes.get? name) m m' hm

theorem mirrors_assign (name : String) {v v' : Value} (hv : v.Similar v') :
    Mirrors w w' Eq (assign name v) (assign name v') := by
  intro m m' hm
  have hrel := hm.scopes.assign? name hv
  unfold assign
  generalize m.scopes.assign? name v = a, m'.scopes.assign? name v' = a' at hrel
  cases hrel with
  | none => exact mirrors_fail _ m m' hm
  | some hs => exact .some ⟨.ok rfl, hm.rebound hs⟩

/-- A print and its record, on sinks without a limit. -/
theorem mirrors_print (hw : w.capacity = none) (hw' : w'.capacity = none) {v v' : Value}
    (hv : v.Similar v') : Mirrors w w' Value.Similar
      (do print v; note (.printed v); return v) (do print v'; note (.printed v'); return v') := by
  have hprint : ∀ {w : Sink} {m : Machine} {v : Value}, w.capacity = none → m.Tells w →
      (do print v; note (.printed v); return v : Action Value) m = some (.ok v,
        ⟨m.scopes, m.sink.printed (v.text ++ "\n"), m.journal.note (.printed v)⟩) := by
    intro w m v hw hm
    have hcapacity : m.sink.capacity = none := by rw [hm.sink]; exact hw
    have hwrite : print v m =
        some (.ok (), { m with sink := m.sink.printed (v.text ++ "\n") }) := by
      unfold print
      rw [Sink.write_of_capacity_eq_none hcapacity, Sink.printed, hcapacity]
    rw [bind_ok hwrite]
    rfl
  intro m m' hm
  rw [hprint hw hm.left, hprint hw' hm.right]
  exact .some ⟨.ok hv, hm.print hv⟩

namespace Mirrors

theorem bind {x : Action α} {y : Action α'} {f : α → Action β} {g : α' → Action β'}
    (hx : Mirrors w w' Q x y) (hf : ∀ a a', Q a a' → Mirrors w w' Q' (f a) (g a')) :
    Mirrors w w' Q' (x >>= f) (y >>= g) :=
  Coupled.bind hx hf

theorem inScope {x : Action α} {y : Action α'} (h : Mirrors w w' Q x y) :
    Mirrors w w' Q (inScope x) (inScope y) :=
  Coupled.inScope h (fun _ _ hm => hm.opened) fun _ _ hm => hm.closed

theorem repeatWhile {c c' : Action Bool} {b b' : Action Unit} (hc : Mirrors w w' Eq c c')
    (hb : Mirrors w w' Eq b b') : ∀ laps count,
      Mirrors w w' Eq (Action.repeatWhile c b laps count) (Action.repeatWhile c' b' laps count)
  | 0, _ => fun _ _ _ => .none
  | laps + 1, count => by
    rw [repeatWhile_succ, repeatWhile_succ]
    refine hc.bind ?_
    rintro holds _ rfl
    cases holds with
    | false => exact mirrors_pure rfl
    | true => exact hb.bind fun _ _ _ => repeatWhile hc hb laps (count + 1)

theorem visiting {x y : Action Value} (kind : Node.Kind) (h : Mirrors w w' Value.Similar x y) :
    Mirrors w w' Value.Similar (Action.visiting kind x) (Action.visiting kind y) :=
  (mirrors_note rfl rfl).bind fun _ _ _ => h.bind fun _ _ hv =>
    (mirrors_note rfl rfl).bind fun _ _ _ => mirrors_pure hv

theorem condition {x y : Action Value} (construct : Construct)
    (h : Mirrors w w' Value.Similar x y) :
    Mirrors w w' Eq (Action.condition construct x) (Action.condition construct y) := by
  refine h.bind fun v v' hv => ?_
  rw [hv.kind_eq, hv.asBoolean?_eq]
  exact mirrors_ofOption _ (by cases v'.asBoolean? <;> constructor; rfl)

end Mirrors

/-! ### Operators -/

variable {v v' u u' : Value}

theorem mirrors_numberOperands (op : Operator) (hv : v.Similar v') (hu : u.Similar u') :
    Mirrors w w' (fun p q => Number.Similar p.1 q.1 ∧ Number.Similar p.2 q.2)
      (numberOperands op v u) (numberOperands op v' u') := by
  refine (mirrors_note rfl rfl).bind fun _ _ _ => ?_
  cases hv with
  | number hx =>
    cases hu with
    | number hy => exact mirrors_pure ⟨hx, hy⟩
    | boolean | string | unit => exact mirrors_fail _
  | boolean | string | unit => cases hu <;> exact mirrors_fail _

/-- The guard of division finds a zero of either sign. -/
theorem mirrors_arithmetic (op : Arithmetic) (hv : v.Similar v') (hu : u.Similar u') :
    Mirrors w w' Value.Similar (arithmetic op v u) (arithmetic op v' u') := by
  refine (mirrors_numberOperands _ hv hu).bind ?_
  rintro ⟨x, y⟩ ⟨x', y'⟩ ⟨hx, hy⟩
  dsimp only at hx hy ⊢
  rw [hy.beq_eq (.refl 0)]
  split
  · exact (mirrors_note rfl rfl).bind fun _ _ _ => mirrors_fail _
  · rename_i hguard
    refine mirrors_pure (.number (hx.apply (fun hop => ?_) hy))
    rw [hy.beq_eq (.refl 0)]
    simpa [hop] using hguard

theorem mirrors_comparison (op : Comparison) (hv : v.Similar v') (hu : u.Similar u') :
    Mirrors w w' Value.Similar (comparison op v u) (comparison op v' u') := by
  refine (mirrors_numberOperands _ hv hu).bind ?_
  rintro ⟨x, y⟩ ⟨x', y'⟩ ⟨hx, hy⟩
  dsimp only at hx hy ⊢
  rw [hx.holds_eq op hy]
  exact mirrors_pure (.boolean _)

theorem mirrors_booleanOperand (op : Connective) (hv : v.Similar v') :
    Mirrors w w' Eq (booleanOperand op v) (booleanOperand op v') := by
  unfold booleanOperand
  rw [hv.kind_eq, hv.asBoolean?_eq]
  exact mirrors_ofOption _ (by cases v'.asBoolean? <;> constructor; rfl)

theorem mirrors_connective (op : Connective) (hv : v.Similar v') {x y : Action Value}
    (h : Mirrors w w' Value.Similar x y) :
    Mirrors w w' Value.Similar (connective op v x) (connective op v' y) := by
  refine (mirrors_booleanOperand op hv).bind ?_
  rintro a _ rfl
  split
  · exact (mirrors_note rfl rfl).bind fun _ _ _ => mirrors_pure (.boolean a)
  · refine h.bind fun b b' hb => (mirrors_booleanOperand op hb).bind ?_
    rintro b _ rfl
    exact mirrors_pure (.boolean b)

theorem Mirrors.binary {x x' y y' : Action Value} (op : Operator)
    (hx : Mirrors w w' Value.Similar x x') (hy : Mirrors w w' Value.Similar y y') :
    Mirrors w w' Value.Similar (Action.binary op x y) (Action.binary op x' y') := by
  refine (mirrors_note rfl rfl).bind fun _ _ _ => hx.bind fun a a' ha => ?_
  cases op with
  | arithmetic op => exact hy.bind fun b b' hb => mirrors_arithmetic op ha hb
  | comparison op => exact hy.bind fun b b' hb => mirrors_comparison op ha hb
  | equal =>
    refine hy.bind fun b b' hb => ?_
    rw [ha.equal_eq hb]
    exact mirrors_pure (.boolean _)
  | notEqual =>
    refine hy.bind fun b b' hb => ?_
    rw [ha.equal_eq hb]
    exact mirrors_pure (.boolean _)
  | connective op => exact mirrors_connective op ha hy

theorem mirrors_assignTo {t t' : Node} (ht : t.Similar t') (hv : v.Similar v') :
    Mirrors w w' Value.Similar (assignTo t v) (assignTo t' v') := by
  cases ht with
  | identifier x =>
    exact (mirrors_assign x hv).bind fun _ _ _ =>
      (mirrors_note rfl rfl).bind fun _ _ _ => mirrors_pure hv
  | _ => exact mirrors_fail _

theorem mirrors_evaluateAll {laps : Nat} {ns ns' : List Node} (h : List.Forall₂ (fun n n' =>
    Mirrors w w' Value.Similar (n.evaluate laps) (n'.evaluate laps)) ns ns') (hv : v.Similar v') :
    Mirrors w w' Value.Similar (Node.evaluateAll laps v ns) (Node.evaluateAll laps v' ns') := by
  induction h generalizing v v' with
  | nil => exact mirrors_pure hv
  | cons hn _ ih =>
    simp only [Node.evaluateAll]
    exact hn.bind fun _ _ hu => ih hu

end Action

namespace Node

open TreeScript.Action

variable {w w' : Sink}

/-- Similar trees mirror each other on sinks without a limit. -/
theorem Similar.mirrors (hw : w.capacity = none) (hw' : w'.capacity = none) (laps : Nat)
    {a b : Node} (h : a.Similar b) :
    Mirrors w w' Value.Similar (a.evaluate laps) (b.evaluate laps) := by
  induction a generalizing b with
  | literal v =>
    cases h with
    | literal hv =>
      simp only [Node.evaluate]
      exact (mirrors_pure hv).visiting _
  | print n ih =>
    cases h with
    | print hn =>
      simp only [Node.evaluate]
      exact ((ih hn).bind fun _ _ hv => mirrors_print hw hw' hv).visiting _
  | binary op l r ihl ihr =>
    cases h with
    | binary hl hr =>
      simp only [Node.evaluate]
      exact ((ihl hl).binary op (ihr hr)).visiting _
  | ifThen t n iht ihn =>
    cases h with
    | ifThen ht hn =>
      simp only [Node.evaluate]
      refine (((iht ht).condition _).bind ?_).visiting _
      rintro holds _ rfl
      cases holds with
      | false => exact mirrors_pure .unit
      | true => exact (mirrors_note rfl rfl).bind fun _ _ _ => (ihn hn).inScope
  | ifElse t n e iht ihn ihe =>
    cases h with
    | ifElse ht hn he =>
      simp only [Node.evaluate]
      refine (((iht ht).condition _).bind ?_).visiting _
      rintro holds _ rfl
      cases holds with
      | false => exact (mirrors_note rfl rfl).bind fun _ _ _ => (ihe he).inScope
      | true => exact (mirrors_note rfl rfl).bind fun _ _ _ => (ihn hn).inScope
  | whileLoop t n iht ihn =>
    cases h with
    | whileLoop ht hn =>
      simp only [Node.evaluate]
      have hlap := ((ihn hn).bind fun _ _ _ => mirrors_pure (Q := Eq) (a := ()) rfl).inScope
      exact ((((iht ht).condition _).repeatWhile hlap laps 0).bind fun _ _ _ =>
        (mirrors_note rfl rfl).bind fun _ _ _ => mirrors_pure .unit).visiting _
  | block ns ih =>
    cases h with
    | @block _ ns' hns =>
      have hall : List.Forall₂ (fun n n' : Node =>
          Mirrors w w' Value.Similar (n.evaluate laps) (n'.evaluate laps)) ns ns' := by
        induction hns with
        | nil => exact .nil
        | cons hn _ ihns =>
          rw [List.forall_mem_cons] at ih
          exact .cons (ih.1 hn) (ihns ih.2)
      simp only [Node.evaluate]
      exact ((mirrors_note rfl rfl).bind fun _ _ _ =>
        (mirrors_evaluateAll hall .unit).inScope).visiting _
  | var x =>
    cases h
    simp only [Node.evaluate]
    exact ((mirrors_declare x).bind fun _ _ _ =>
      (mirrors_note rfl rfl).bind fun _ _ _ => mirrors_pure .unit).visiting _
  | identifier x =>
    cases h
    simp only [Node.evaluate]
    exact (mirrors_get x).visiting _
  | assign t n _ ihn =>
    cases h with
    | assign ht hn =>
      simp only [Node.evaluate]
      exact ((ihn hn).bind fun _ _ hv => mirrors_assignTo ht hv).visiting _
  | inspect n ih =>
    cases h with
    | inspect hn =>
      simp only [Node.evaluate]
      exact (ih hn).visiting _

/-- A run does not depend on the journal. -/
theorem Returns.exists_journal {n : Node} {m m₁ : Machine} {r : Except RuntimeError Value}
    (h : n.Returns m r m₁) (j : Journal) :
    ∃ j₁, n.Returns { m with journal := j } r { m₁ with journal := j₁ } := by
  obtain ⟨-, rs, hany, -⟩ := h.discipline
  exact ⟨_, hany j⟩

/-- Similar trees on similar scopes return on both sides or on neither. The results are alike,
the scopes similar again, and the printed lines the same but for the sign of a zero. -/
theorem returns_alike {a b : Node} (hab : a.Similar b) {m m' : Machine}
    (hscopes : m.scopes.Similar m'.scopes) (hm : m.sink.capacity = none)
    (hm' : m'.sink.capacity = none) :
    ((∃ r m₁, a.Returns m r m₁) ↔ ∃ r' m₁', b.Returns m' r' m₁') ∧
      ∀ r m₁ r' m₁', a.Returns m r m₁ → b.Returns m' r' m₁' →
        Ends Value.Similar Eq r r' ∧ m₁.scopes.Similar m₁'.scopes ∧
        ∃ vs vs', a.Prints m vs ∧ b.Prints m' vs' ∧
          m₁.sink = m.sink.printed (lines vs) ∧ m₁'.sink = m'.sink.printed (lines vs') ∧
          List.Forall₂ (fun v v' => v.Similar v' ∧ (v.text = v'.text ∨
            v.equal (.number 0) = true ∧ v'.equal (.number 0) = true ∧
              (v.text = "0" ∧ v'.text = "-0" ∨ v.text = "-0" ∧ v'.text = "0"))) vs vs' := by
  have hstart := Machine.similar_fresh hscopes m.sink m'.sink
  refine ⟨⟨?_, ?_⟩, fun r m₁ r' m₁' h h' => ?_⟩
  · rintro ⟨r, m₁, h⟩
    obtain ⟨_, laps, hrun⟩ := h.exists_journal .fresh
    obtain ⟨r', _, hrun', -⟩ := (hab.mirrors hm hm' laps).exists_right hstart hrun
    obtain ⟨_, h'⟩ := Returns.exists_journal ⟨laps, hrun'⟩ m'.journal
    exact ⟨r', _, h'⟩
  · rintro ⟨r', m₁', h'⟩
    obtain ⟨_, laps, hrun'⟩ := h'.exists_journal .fresh
    obtain ⟨⟨r, _⟩, hrun⟩ := (hab.mirrors hm hm' laps).exists_left hstart hrun'
    obtain ⟨_, h⟩ := Returns.exists_journal ⟨laps, hrun⟩ m.journal
    exact ⟨r, _, h⟩
  · obtain ⟨_, laps, hrun⟩ := h.exists_journal .fresh
    obtain ⟨_, hfresh'⟩ := h'.exists_journal .fresh
    obtain ⟨_, _, hrun', hr, hsimilar⟩ := (hab.mirrors hm hm' laps).exists_right hstart hrun
    obtain ⟨rfl, rfl⟩ := Returns.unique ⟨laps, hrun'⟩ hfresh'
    exact ⟨hr, hsimilar.scopes, _, _, ⟨r, _, ⟨laps, hrun⟩, rfl⟩, ⟨_, _, hfresh', rfl⟩,
      hsimilar.left.sink, hsimilar.right.sink, hsimilar.values.imp fun _ _ hv => ⟨hv, hv.text⟩⟩

/-- Both zeros are printed, as they are and after they met other operands, before one of them
divides. -/
theorem returns_alike_zeros :
    let zeros : Float → Node := fun zero => .block [.print (.identifier "x"),
      .print (.binary (.arithmetic .multiply) (.literal (.number zero)) (.literal (.number 2))),
      .print (.binary (.arithmetic .subtract) (.literal (.number 1)) (.identifier "x")),
      .ifElse (.binary .equal (.identifier "x") (.literal (.number 0)))
        (.binary (.arithmetic .divide) (.literal (.number 1)) (.identifier "x")) (.identifier "q")]
    let m : Machine := ⟨⟨Frame.empty.insert "x" (.number 0.0), []⟩, .unlimited, .off⟩
    let m' : Machine := ⟨⟨Frame.empty.insert "x" (.number (-0.0)), []⟩, .unlimited, .off⟩
    (zeros 0.0).Similar (zeros (-0.0)) ∧ m.scopes.Similar m'.scopes ∧ m.sink.capacity = none ∧
      m'.sink.capacity = none ∧ ∃ m₁ m₁',
        (zeros 0.0).Returns m (.error .divisionByZero) m₁ ∧
        (zeros (-0.0)).Returns m' (.error .divisionByZero) m₁' ∧
        m₁.sink.written = "0\n0\n1\n".toUTF8 ∧ m₁'.sink.written = "-0\n-0\n1\n".toUTF8 ∧
        m₁.scopes.Similar m₁'.scopes ∧
        ∃ vs vs', (zeros 0.0).Prints m vs ∧ (zeros (-0.0)).Prints m' vs' ∧
          List.Forall₂ Value.Similar vs vs' := by
  intro zeros m m'
  have hzero : (Value.number 0.0).Similar (.number (-0.0)) :=
    .number (.zeros (.inl rfl) (.inr rfl))
  have hrefl : ∀ x : Float, (Value.number x).Similar (.number x) := fun x => .number (.refl x)
  have hzeros : (zeros 0.0).Similar (zeros (-0.0)) :=
    .block (.cons (.print (.identifier _)) (.cons (.print (.binary (.literal hzero)
      (.literal (hrefl 2)))) (.cons (.print (.binary (.literal (hrefl 1)) (.identifier _)))
        (.cons (.ifElse (.binary (.identifier _) (.literal (hrefl 0)))
          (.binary (.literal (hrefl 1)) (.identifier _)) (.identifier _)) .nil))))
  have hempty : Frame.empty.Similar Frame.empty := fun _ => .none
  have hscopes : m.scopes.Similar m'.scopes := .cons (hempty.insert "x" hzero) .nil
  have hreturns : ∀ {n : Node} {m : Machine} {r : Except RuntimeError Value} {out : ByteArray},
      (n.evaluate 0 m).map (fun p => (p.1, p.2.sink.written)) = some (r, out) →
        ∃ m₁, n.Returns m r m₁ ∧ m₁.sink.written = out := by
    intro n m r out h
    obtain ⟨⟨_, m₁⟩, hrun, heq⟩ := Option.map_eq_some_iff.1 h
    cases heq
    exact ⟨m₁, ⟨0, hrun⟩, rfl⟩
  obtain ⟨m₁, hrun, hout⟩ := @hreturns (zeros 0.0) m (.error .divisionByZero)
    "0\n0\n1\n".toUTF8 (by simp only [zeros, m]; decide +kernel)
  obtain ⟨m₁', hrun', hout'⟩ := @hreturns (zeros (-0.0)) m' (.error .divisionByZero)
    "-0\n-0\n1\n".toUTF8 (by simp only [zeros, m']; decide +kernel)
  obtain ⟨-, halike⟩ := returns_alike hzeros hscopes rfl rfl
  obtain ⟨-, hs, vs, vs', hvs, hvs', -, -, hvalues⟩ := halike _ _ _ _ hrun hrun'
  exact ⟨hzeros, hscopes, rfl, rfl, m₁, m₁', hrun, hrun', hout, hout', hs, vs, vs', hvs, hvs',
    hvalues.imp fun _ _ hv => hv.1⟩

end Node

end TreeScript
