import TreeScript.Proofs.Calls
import TreeScript.Proofs.Discipline

/-!
# What the records tell

The records of a run are an account of it. They have the error that the run ends with
and no other, the depths of the stack of scopes, and for every node that is evaluated
where that starts and where it ends.

`Node.Raises` follows an error from the node that is evaluated down to the node that
raises it, along the calls that fail. There is one way to do so (`Node.Raises.unique`),
and the nodes on it are the ones whose evaluation the records start and do not end
(`Node.evaluate_accounts`). The account passes from the parts of an action to the whole
(`Calling.congruence_accounts`), and from there through the tree.
-/

namespace TreeScript

/-! ## Reading records -/

namespace Record

/-- The error that has arisen. -/
def error? : Record → Option RuntimeError
  | .errorCreated e => some e
  | _ => none

def opensScope : Record → Bool
  | .scopePushed _ => true
  | _ => false

def closesScope : Record → Bool
  | .scopePopped _ => true
  | _ => false

/-- The kinds of the nodes whose evaluation has started and not ended, the innermost
first, from those before the record. Only the innermost may end. -/
def visit (stack : List Node.Kind) : Record → Option (List Node.Kind)
  | .nodeEntered kind => some (kind :: stack)
  | .nodeLeft kind _ =>
    match stack with
    | innermost :: rest => if innermost = kind then some rest else none
    | [] => none
  | _ => some stack

/-- What the records start and do not end, from the outside in, if starts and ends match. -/
def unclosed (rs : List Record) : Option (List Node.Kind) :=
  (rs.foldlM visit []).map List.reverse

end Record

/-- At any time the stack is as deep as at the start and the scopes opened since, less
those closed. -/
theorem Nested.depthAfter_of_prefix {d : Nat} {rs : List Record} (h : Nested d rs) :
    ∀ {before : List Record}, before <+: rs → d ≤ depthAfter d before ∧
      depthAfter d before + before.countP Record.closesScope =
        d + before.countP Record.opensScope := by
  induction h with
  | nil =>
    intro before hb
    obtain rfl := List.prefix_nil.1 hb
    exact ⟨Nat.le_refl _, rfl⟩
  | @quiet d r rs hr _ ih =>
    intro before hb
    rcases List.prefix_cons_iff.1 hb with rfl | ⟨before, rfl, hrest⟩
    · exact ⟨Nat.le_refl _, rfl⟩
    · have hopens : ¬r.opensScope = true := by
        cases r <;> simp_all [Record.opensScope, Record.depth?]
      have hcloses : ¬r.closesScope = true := by
        cases r <;> simp_all [Record.closesScope, Record.depth?]
      rw [depthAfter_cons, hr, List.countP_cons_of_neg hopens, List.countP_cons_of_neg hcloses]
      exact ih hrest
  | @scope d inner rest hinner _ ihi ihr =>
    intro before hb
    rcases List.prefix_cons_iff.1 hb with rfl | ⟨before, rfl, after, hafter⟩
    · exact ⟨Nat.le_refl _, rfl⟩
    rw [depthAfter_cons, List.countP_cons_of_neg Bool.false_ne_true, List.countP_cons_of_pos rfl]
    show d ≤ depthAfter (d + 1) before ∧ depthAfter (d + 1) before + _ = _
    -- the records end inside the scope or after it was closed
    rcases List.append_eq_append_iff.1 hafter with ⟨mid, rfl, -⟩ | ⟨mid, rfl, hmid⟩
    · obtain ⟨hle, heq⟩ := ihi (List.prefix_append before mid)
      omega
    · obtain ⟨-, hinner'⟩ := ihi (List.prefix_refl inner)
      rw [hinner.depthAfter_eq] at hinner'
      rw [depthAfter_append, hinner.depthAfter_eq, List.countP_append, List.countP_append]
      rcases List.prefix_cons_iff.1 (⟨after, hmid.symm⟩ : mid <+: _) with rfl | ⟨mid, rfl, hrest⟩
      · exact ⟨Nat.le_succ d, by simp only [depthAfter, List.foldl_nil, List.countP_nil]; omega⟩
      · obtain ⟨hle, heq⟩ := ihr hrest
        rw [depthAfter_cons, List.countP_cons_of_pos rfl,
          List.countP_cons_of_neg Bool.false_ne_true]
        exact ⟨hle, by simp only [Record.depth?, Option.getD_some]; omega⟩

/-- A journal that was fresh has the records made in it. -/
theorem Journal.noteAll_fresh (rs : List Record) : (Journal.fresh.noteAll rs).records = rs := by
  have h : ∀ rs' : List Record,
      ((⟨some rs'⟩ : Journal).noteAll rs).records = rs'.reverse ++ rs := by
    induction rs with
    | nil => exact fun rs' => (List.append_nil _).symm
    | cons r rs ih =>
      intro rs'
      rw [show (⟨some rs'⟩ : Journal).noteAll (r :: rs) = (⟨some (r :: rs')⟩ : Journal).noteAll rs
        from rfl, ih, List.reverse_cons, List.append_assoc]
      rfl
  exact h []

/-! ## Errors and where they come from -/

namespace Node

/-- The evaluation of the first node fails as that of the last one does, which fails
itself, with every one of its calls ended well. Between them stand the nodes above the
last one, from the first one down. -/
inductive Raises (laps : Nat) (e : RuntimeError) : Node → Machine → List Node → Node → Prop
  | itself {n : Node} {m m' : Machine} :
    n.evaluate laps m = some (.error e, m') →
      (∀ c ∈ n.calls laps m, ∃ value m₁,
        n.childEvaluation laps c.place c.start = some (.ok value, m₁)) →
      Raises laps e n m [] n
  | call {n child raiser : Node} {m m' : Machine} {c : Call} {above : List Node} :
    n.evaluate laps m = some (.error e, m') → c ∈ n.calls laps m →
      n.children[c.place]? = some child → Raises laps e child c.start above raiser →
      Raises laps e n m (n :: above) raiser

end Node

namespace Calling

variable {α β : Type}

/-- The records of an action with the given calls, by how it ends. With a value, there is
no error in them, and what they start they end, and every call has ended well. With an
error, that is the one in them. Then it is an allowed one, or the last call has failed,
and what that call has started and not ended is what the action has. -/
inductive Account (allowed : RuntimeError → Prop) (child : Nat → Action Value)
    (above : Call → RuntimeError → List Node.Kind → Prop) :
    Except RuntimeError α → List Call → List Record → Prop
  | done {a : α} {calls : List Call} {rs : List Record} :
    rs.filterMap Record.error? = [] → (∀ stack, rs.foldlM Record.visit stack = some stack) →
      (∀ c ∈ calls, ∃ value m, child c.place c.start = some (.ok value, m)) →
      Account allowed child above (.ok a) calls rs
  | failed {e : RuntimeError} {calls : List Call} {rs : List Record} :
    rs.filterMap Record.error? = [e] → (∀ stack, rs.foldlM Record.visit stack = some stack) →
      (∀ c ∈ calls, ∃ value m, child c.place c.start = some (.ok value, m)) → allowed e →
      Account allowed child above (.error e) calls rs
  | passed {e : RuntimeError} {calls : List Call} {c : Call} {rs : List Record}
    {kinds : List Node.Kind} :
    rs.filterMap Record.error? = [e] →
      (∀ stack, rs.foldlM Record.visit stack = some (kinds.reverse ++ stack)) →
      (∀ c ∈ calls, ∃ value m, child c.place c.start = some (.ok value, m)) →
      above c e kinds → Account allowed child above (.error e) (calls ++ [c]) rs

variable {allowed : RuntimeError → Prop} {child : Nat → Action Value}
  {above : Call → RuntimeError → List Node.Kind → Prop}

theorem Account.nil (a : α) : Account allowed child above (.ok a) [] [] :=
  .done rfl (fun _ => rfl) fun _ hc => absurd hc List.not_mem_nil

theorem Account.error {e : RuntimeError} (he : allowed e) :
    Account allowed child above (.error e : Except RuntimeError α) [] [.errorCreated e] :=
  .failed rfl (fun _ => rfl) (fun _ hc => absurd hc List.not_mem_nil) he

/-- Records without an error and with all that they start ended may come before. -/
theorem Account.after {r : Except RuntimeError α} {calls calls' : List Call}
    {rs rs' : List Record} {b : β} (h : Account allowed child above (.ok b) calls rs)
    (h' : Account allowed child above r calls' rs') :
    Account allowed child above r (calls ++ calls') (rs ++ rs') := by
  cases h with
  | done herrors hvisit hcalls =>
    have hvisit' : ∀ stack, (rs ++ rs').foldlM Record.visit stack =
        rs'.foldlM Record.visit stack := fun stack => by
      rw [List.foldlM_append, hvisit]
      rfl
    have hboth : ∀ {ends : List Call}, (∀ c ∈ ends, ∃ value m,
        child c.place c.start = some (.ok value, m)) → ∀ c ∈ calls ++ ends, ∃ value m,
          child c.place c.start = some (.ok value, m) := fun hends c hc =>
      (List.mem_append.1 hc).elim (hcalls c) (hends c)
    cases h' with
    | done herrors' hv hcalls' =>
      exact .done (by rw [List.filterMap_append, herrors, herrors']; rfl)
        (fun stack => (hvisit' stack).trans (hv stack)) (hboth hcalls')
    | failed herrors' hv hcalls' hallowed =>
      exact .failed (by rw [List.filterMap_append, herrors, herrors']; rfl)
        (fun stack => (hvisit' stack).trans (hv stack)) (hboth hcalls') hallowed
    | passed herrors' hv hcalls' habove =>
      rw [← List.append_assoc]
      exact .passed (by rw [List.filterMap_append, herrors, herrors']; rfl)
        (fun stack => (hvisit' stack).trans (hv stack)) (hboth hcalls') habove

/-- Every run of an action makes the same records from any journal, and they account
for it. -/
def Accounts (allowed : RuntimeError → Prop) (child : Nat → Action Value)
    (above : Call → RuntimeError → List Node.Kind → Prop) (x : Calling α) : Prop :=
  ∀ m r m', x.run m = some (r, m') → ∃ rs,
    (∀ j, x.run { m with journal := j } = some (r, { m' with journal := j.noteAll rs })) ∧
      Account allowed child above r (x.calls m) rs

theorem accounts_fail (e : RuntimeError) (he : allowed e) :
    Accounts allowed child above (silent (Action.fail e : Action α)) := by
  intro m r m' h
  cases h
  exact ⟨[_], fun _ => rfl, .error he⟩

theorem Accounts.bind {x : Calling α} {f : α → Calling β} (hx : Accounts allowed child above x)
    (hf : ∀ a, Accounts allowed child above (f a)) : Accounts allowed child above (x >>= f) := by
  intro m r m' h
  rcases Action.bind_eq_some_iff.1 h with ⟨e, h₁, rfl⟩ | ⟨a, m₁, h₁, h₂⟩
  · obtain ⟨rs, hrs, haccount⟩ := hx _ _ _ h₁
    have hcalls : (x >>= f).calls m = x.calls m := by
      show x.calls m ++ _ = _
      rw [h₁, List.append_nil]
    rw [hcalls]
    refine ⟨rs, fun j => Action.bind_error (hrs j), ?_⟩
    generalize x.calls m = calls at haccount ⊢
    cases haccount with
    | failed herrors hvisit hends he => exact .failed herrors hvisit hends he
    | passed herrors hvisit hends habove => exact .passed herrors hvisit hends habove
  · obtain ⟨rs, hrs, haccount⟩ := hx _ _ _ h₁
    obtain ⟨rs', hrs', haccount'⟩ := hf a _ _ _ h₂
    rw [calls_bind_of_ok h₁]
    refine ⟨rs ++ rs', fun j => ?_, haccount.after haccount'⟩
    rw [Journal.noteAll_append]
    exact (Action.bind_ok (hrs j)).trans (hrs' _)

theorem Accounts.inScope {x : Calling α} (h : Accounts allowed child above x) :
    Accounts allowed child above (inScope x) := by
  intro m r m' hrun
  obtain ⟨m₁, h₁, rfl⟩ := Action.inScope_eq_some_iff.1 hrun
  obtain ⟨rs, hrs, haccount⟩ := h _ _ _ h₁
  refine ⟨.scopePushed m.scopes.push.depth :: (rs ++ [.scopePopped m₁.scopes.pop.depth]),
    fun j => Action.inScope_eq_some_iff.2 ⟨_, hrs _, ?_⟩, ?_⟩
  · rw [← List.cons_append, Journal.noteAll_append]
    rfl
  · have herrors : (Record.scopePushed m.scopes.push.depth ::
        (rs ++ [.scopePopped m₁.scopes.pop.depth])).filterMap Record.error? =
          rs.filterMap Record.error? := by
      rw [List.filterMap_cons_none rfl, List.filterMap_append]
      exact List.append_nil _
    have hvisit : ∀ stack, (Record.scopePushed m.scopes.push.depth ::
        (rs ++ [.scopePopped m₁.scopes.pop.depth])).foldlM Record.visit stack =
          rs.foldlM Record.visit stack := by
      intro stack
      show (rs ++ [_]).foldlM Record.visit stack = _
      rw [List.foldlM_append]
      cases rs.foldlM Record.visit stack <;> rfl
    show Account allowed child above r (x.calls m.opened) _
    generalize x.calls m.opened = calls at haccount
    cases haccount with
    | done he hv hends => exact .done (herrors.trans he) (fun s => (hvisit s).trans (hv s)) hends
    | failed he hv hends hallowed =>
      exact .failed (herrors.trans he) (fun s => (hvisit s).trans (hv s)) hends hallowed
    | passed he hv hends habove =>
      exact .passed (herrors.trans he) (fun s => (hvisit s).trans (hv s)) hends habove

/-- A record that is no part of the account. -/
theorem accounts_note {r : Record} (hr : r.Inner) :
    Accounts allowed child above (silent (Action.note r)) := by
  intro m _ m' h
  cases h
  refine ⟨[r], fun _ => rfl, .done ?_ (fun stack => ?_) fun c hc => absurd hc List.not_mem_nil⟩
  · cases r <;> first | rfl | exact hr.elim
  · cases r <;> first | rfl | exact hr.elim

/-- The account passes from the parts of an action to the whole. -/
theorem congruence_accounts (allowed : RuntimeError → Prop) (child : Nat → Action Value)
    (above : Call → RuntimeError → List Node.Kind → Prop) :
    Congruence allowed fun x _ => Accounts allowed child above x where
  pure _ m _ _ h := by
    cases h
    exact ⟨[], fun _ => rfl, .nil _⟩
  bind := Accounts.bind
  inScope := Accounts.inScope
  note _ := accounts_note
  fail := accounts_fail
  cutOff _ _ _ h := by cases h
  declare _ _ _ _ h := by
    cases h
    exact ⟨[], fun _ => rfl, .nil _⟩
  print value he m r m' h := by
    simp only [run_silent, Action.print] at h ⊢
    split at h
    · cases h
      exact ⟨[], fun _ => rfl, .nil _⟩
    · cases h
      exact ⟨[_], fun _ => rfl, .error (he _)⟩
  get name he m r m' h := by
    simp only [run_silent, Action.get] at h ⊢
    cases hv : m.scopes.get? name with
    | none =>
      rw [hv] at h
      cases h
      exact ⟨[_], fun _ => rfl, .error he⟩
    | some value =>
      rw [hv] at h
      cases h
      exact ⟨[], fun _ => rfl, .nil _⟩
  assign name value he m r m' h := by
    simp only [run_silent, Action.assign] at h ⊢
    cases hs : m.scopes.assign? name value with
    | none =>
      rw [hs] at h
      cases h
      exact ⟨[_], fun _ => rfl, .error he⟩
    | some scopes =>
      rw [hs] at h
      cases h
      exact ⟨[], fun _ => rfl, .nil _⟩

end Calling

namespace Node

open Calling

/-- The kinds of the nodes from a call of a node down to the one that raises an error. -/
def Descent (laps : Nat) (n : Node) (c : Call) (e : RuntimeError) (kinds : List Kind) : Prop :=
  ∃ child above raiser, n.children[c.place]? = some child ∧
    child.Raises laps e c.start above raiser ∧ raiser.kind.raises e.kind = true ∧
      kinds = (above ++ [raiser]).map kind

/-- What the records tell of the evaluation of a node. -/
inductive Accounted (laps : Nat) (n : Node) (m : Machine) :
    Except RuntimeError Value → List Record → Prop
  | done {value : Value} {rs : List Record} : rs.filterMap Record.error? = [] →
    (∀ stack, rs.foldlM Record.visit stack = some stack) → Accounted laps n m (.ok value) rs
  | failed {e : RuntimeError} {rs : List Record} {above : List Node} {raiser : Node} :
    rs.filterMap Record.error? = [e] →
      (∀ stack, rs.foldlM Record.visit stack =
        some (((above ++ [raiser]).map kind).reverse ++ stack)) →
      n.Raises laps e m above raiser → raiser.kind.raises e.kind = true →
      Accounted laps n m (.error e) rs

/-- The evaluation of a node makes the same records from any journal, and they tell of it. -/
def Accounts (laps : Nat) (n : Node) : Prop :=
  ∀ m r m', n.evaluate laps m = some (r, m') → ∃ rs,
    (∀ j, n.evaluate laps { m with journal := j } =
      some (r, { m' with journal := j.noteAll rs })) ∧ Accounted laps n m r rs

/-- The account of the work of a node, from those of its children. -/
theorem work_accounts {laps : Nat} {n : Node} (h : ∀ child ∈ n.children, child.Accounts laps) :
    Calling.Accounts (fun e => n.kind.raises e.kind = true) (n.childEvaluation laps)
      (n.Descent laps) (n.work laps (n.childEvaluation laps)) := by
  refine @Congruence.work _ _ (congruence_accounts _ _ _) laps _ (n.childEvaluation laps) n
    (fun _ he => he) fun place m r m' hrun => ?_
  cases hchild : n.children[place]? with
  | none => simp [childEvaluation, hchild] at hrun
  | some child =>
    have hevaluation : (call (n.childEvaluation laps) place).run = child.evaluate laps := by
      simp only [run_call, childEvaluation, hchild]
    rw [hevaluation] at hrun ⊢
    obtain ⟨rs, hrs, haccounted⟩ := h child (List.mem_of_getElem? hchild) _ _ _ hrun
    refine ⟨rs, hrs, ?_⟩
    cases haccounted with
    | @done value _ herrors hvisit =>
      refine .done herrors hvisit fun c hc => ⟨value, m', ?_⟩
      obtain rfl := List.mem_singleton.1 hc
      exact (congrFun hevaluation m).trans hrun
    | failed herrors hvisit hraises hkind =>
      show Account _ _ _ _ ([] ++ [⟨place, m⟩]) rs
      exact .passed herrors hvisit (by simp) ⟨_, _, _, hchild, hraises, hkind, rfl⟩

theorem accounts (laps : Nat) : ∀ n : Node, n.Accounts laps :=
  induct_children fun n h m r m' hrun => by
    rcases evaluate_eq_some_iff.1 hrun with ⟨e, hwork, rfl⟩ | ⟨value, m₁, hwork, rfl, rfl⟩
    · obtain ⟨rs, hrs, haccount⟩ := work_accounts h _ _ _ hwork
      refine ⟨.nodeEntered n.kind :: rs,
        fun j => evaluate_eq_some_iff.2 (.inl ⟨e, hrs _, rfl⟩), ?_⟩
      generalize hcalls : (n.work laps (n.childEvaluation laps)).calls (n.entered m) = calls
        at haccount
      have hcalls : n.calls laps m = calls := hcalls
      cases haccount with
      | failed herrors hvisit hends he =>
        have hvisit' : ∀ stack, (Record.nodeEntered n.kind :: rs).foldlM Record.visit stack =
            some ((([] ++ [n]).map kind).reverse ++ stack) := fun stack => hvisit (n.kind :: stack)
        exact .failed herrors hvisit' (.itself hrun (hcalls ▸ hends)) he
      | @passed _ calls c _ kinds herrors hvisit _ hdescent =>
        obtain ⟨child, above, raiser, hchild, hraises, he, rfl⟩ := hdescent
        have hvisit' : ∀ stack, (Record.nodeEntered n.kind :: rs).foldlM Record.visit stack =
            some (((n :: above ++ [raiser]).map kind).reverse ++ stack) := fun stack => by
          refine (hvisit (n.kind :: stack)).trans ?_
          rw [List.cons_append, List.map_cons, List.reverse_cons, List.append_assoc]
          rfl
        exact .failed herrors hvisit' (.call hrun (by simp [hcalls]) hchild hraises) he
    · obtain ⟨rs, hrs, haccount⟩ := work_accounts h _ _ _ hwork
      refine ⟨.nodeEntered n.kind :: (rs ++ [.nodeLeft n.kind value]),
        fun j => evaluate_eq_some_iff.2 (.inr ⟨value, _, hrs _, rfl, ?_⟩), ?_⟩
      · rw [← List.cons_append, Journal.noteAll_append]
        rfl
      · cases haccount with
        | done herrors hvisit _ =>
          refine .done ?_ fun stack => ?_
          · rw [List.filterMap_cons_none rfl, List.filterMap_append, herrors]
            rfl
          · show (rs ++ [_]).foldlM Record.visit (n.kind :: stack) = _
            rw [List.foldlM_append, hvisit]
            simp [Record.visit]

theorem Raises.evaluate {laps : Nat} {e : RuntimeError} {n raiser : Node} {m : Machine}
    {above : List Node} (h : n.Raises laps e m above raiser) :
    ∃ m', n.evaluate laps m = some (.error e, m') := by
  cases h with
  | itself h _ => exact ⟨_, h⟩
  | call h _ _ _ => exact ⟨_, h⟩

/-- At most one call of a node fails. -/
theorem call_unique {laps : Nat} {n : Node} {m m' : Machine} {r : Except RuntimeError Value}
    (h : n.evaluate laps m = some (r, m')) {c c' : Call} (hc : c ∈ n.calls laps m)
    (hc' : c' ∈ n.calls laps m)
    (hfails : ∀ value m₁, n.childEvaluation laps c.place c.start ≠ some (.ok value, m₁))
    (hfails' : ∀ value m₁, n.childEvaluation laps c'.place c'.start ≠ some (.ok value, m₁)) :
    c = c' := by
  obtain ⟨r', m₁, hwork⟩ : ∃ r' m₁,
      (n.work laps (n.childEvaluation laps)).run (n.entered m) = some (r', m₁) := by
    rcases evaluate_eq_some_iff.1 h with ⟨e, hwork, -⟩ | ⟨value, m₁, hwork, -⟩
    · exact ⟨_, _, hwork⟩
    · exact ⟨_, _, hwork⟩
  obtain ⟨rs, -, haccount⟩ := work_accounts (fun child _ => accounts laps child) _ _ _ hwork
  have hends : ∀ {ends : List Call} {c : Call}, (∀ value m₁,
      n.childEvaluation laps c.place c.start ≠ some (.ok value, m₁)) → (∀ c ∈ ends, ∃ value m₁,
        n.childEvaluation laps c.place c.start = some (.ok value, m₁)) → c ∉ ends :=
    fun hfails hends hc => by
      obtain ⟨value, m₁, hok⟩ := hends _ hc
      exact hfails value m₁ hok
  unfold calls at hc hc'
  generalize (n.work laps (n.childEvaluation laps)).calls (n.entered m) = calls
    at haccount hc hc'
  cases haccount with
  | done _ _ hall => exact absurd hc (hends hfails hall)
  | failed _ _ hall _ => exact absurd hc (hends hfails hall)
  | passed _ _ hall _ =>
    -- the calls before the last one have ended well
    have hlast : c = _ := List.mem_singleton.1
      ((List.mem_append.1 hc).resolve_left (hends hfails hall))
    have hlast' : c' = _ := List.mem_singleton.1
      ((List.mem_append.1 hc').resolve_left (hends hfails' hall))
    exact hlast.trans hlast'.symm

theorem Raises.not_ok {laps : Nat} {e : RuntimeError} {n child raiser : Node} {c : Call}
    {above : List Node} (hchild : n.children[c.place]? = some child)
    (h : child.Raises laps e c.start above raiser) (value : Value) (m₁ : Machine) :
    n.childEvaluation laps c.place c.start ≠ some (.ok value, m₁) := by
  obtain ⟨m', h⟩ := h.evaluate
  simp [childEvaluation, hchild, h]

/-- An error is raised in one place, and there is one way to it. -/
theorem Raises.unique {laps : Nat} {e : RuntimeError} {n raiser : Node} {m : Machine}
    {above : List Node} (h : n.Raises laps e m above raiser) :
    ∀ {above' : List Node} {raiser' : Node}, n.Raises laps e m above' raiser' →
      above' = above ∧ raiser' = raiser := by
  induction h with
  | itself _ hends =>
    intro above' raiser' h'
    cases h' with
    | itself => exact ⟨rfl, rfl⟩
    | call _ hc hchild hraises =>
      obtain ⟨value, m₁, hok⟩ := hends _ hc
      exact absurd hok (hraises.not_ok hchild value m₁)
  | call h hc hchild hraises ih =>
    intro above' raiser' h'
    cases h' with
    | itself _ hends =>
      obtain ⟨value, m₁, hok⟩ := hends _ hc
      exact absurd hok (hraises.not_ok hchild value m₁)
    | call _ hc' hchild' hraises' =>
      obtain rfl := call_unique h hc hc' (hraises.not_ok hchild) (hraises'.not_ok hchild')
      obtain rfl := Option.some.inj (hchild'.symm.trans hchild)
      obtain ⟨rfl, rfl⟩ := ih hraises'
      exact ⟨rfl, rfl⟩

/-! ## Records of whole runs -/

/-- What the records of a run say is so. -/
structure Truthful (laps : Nat) (n : Node) (m : Machine) (r : Except RuntimeError Value)
    (m' : Machine) (rs : List Record) : Prop where
  /-- The stack is never less deep than at the start, and by the last record of a scope
  it is as deep as the scopes opened and closed so far say. -/
  depth : ∀ before, before <+: rs → m.scopes.depth ≤ depthAfter m.scopes.depth before ∧
    depthAfter m.scopes.depth before + before.countP Record.closesScope =
      m.scopes.depth + before.countP Record.opensScope
  /-- Every scope opened is closed. -/
  balanced : rs.countP Record.closesScope = rs.countP Record.opensScope ∧
    m'.scopes.depth = m.scopes.depth
  ok : ∀ value, r = .ok value →
    rs.filterMap Record.error? = [] ∧ Record.unclosed rs = some []
  error : ∀ e, r = .error e → rs.filterMap Record.error? = [e] ∧
    ∃ above raiser, n.Raises laps e m above raiser ∧ raiser.kind.raises e.kind = true ∧
      Record.unclosed rs = some ((above ++ [raiser]).map kind)

/-- A run makes the same records from any journal, and they tell the truth about its
error, its scopes and its visits to nodes. -/
theorem evaluate_accounts {laps : Nat} {n : Node} {m m' : Machine}
    {r : Except RuntimeError Value} (h : n.evaluate laps m = some (r, m')) :
    ∃ rs, (∀ j, n.evaluate laps { m with journal := j } =
      some (r, { m' with journal := j.noteAll rs })) ∧ n.Truthful laps m r m' rs := by
  obtain ⟨rs, hrs, hwithin, hnested⟩ :=
    evaluate_retraces laps n (List.Subset.refl _) (List.Subset.refl _) _ _ _ h
  obtain ⟨rs', hrs', haccounted⟩ := accounts laps n _ _ _ h
  -- both found the records of this run
  obtain rfl : rs = rs' := by
    have hrun := (hrs .fresh).symm.trans (hrs' .fresh)
    rw [Option.some.injEq, Prod.mk.injEq, Machine.mk.injEq] at hrun
    rw [← Journal.noteAll_fresh rs, hrun.2.2.2, Journal.noteAll_fresh]
  refine ⟨rs, hrs, fun before hb => hnested.depthAfter_of_prefix hb, ⟨?_, hwithin.depth⟩, ?_, ?_⟩
  · have hend := (hnested.depthAfter_of_prefix (List.prefix_refl rs)).2
    rw [hnested.depthAfter_eq] at hend
    omega
  · rintro value rfl
    cases haccounted with
    | done herrors hvisit =>
      exact ⟨herrors, by rw [Record.unclosed, hvisit]; rfl⟩
  · rintro e rfl
    cases haccounted with
    | failed herrors hvisit hraises hkind =>
      refine ⟨herrors, _, _, hraises, hkind, ?_⟩
      rw [Record.unclosed, hvisit, List.append_nil, Option.map_some, List.reverse_reverse]

/-- A sum of two units in a loop, after a print. -/
theorem evaluate_accounts_failing_loop :
    let n : Node := .block [.print (.literal .unit), .whileLoop (.literal (.boolean true))
      (.binary (.arithmetic .add) (.literal .unit) (.literal .unit))]
    let e : RuntimeError := .notNumbers (.arithmetic .add) .unit .unit
    let m : Machine := ⟨.initial, .unlimited, .off⟩
    let m' : Machine := ⟨.initial, ⟨"none\n".toUTF8, none, .refuses⟩, .off⟩
    n.evaluate 1 m = some (.error e, m') ∧
      ∃ rs, (∀ j, n.evaluate 1 { m with journal := j } =
        some (.error e, { m' with journal := j.noteAll rs })) ∧
          n.Truthful 1 m (.error e) m' rs := by
  have h : (Node.block [.print (.literal .unit), .whileLoop (.literal (.boolean true))
      (.binary (.arithmetic .add) (.literal .unit) (.literal .unit))]).evaluate 1
      ⟨.initial, .unlimited, .off⟩ = some (.error (.notNumbers (.arithmetic .add) .unit .unit),
        ⟨.initial, ⟨"none\n".toUTF8, none, .refuses⟩, .off⟩) := by cbv
  exact ⟨h, evaluate_accounts h⟩

end Node

end TreeScript
