import TreeScript.Value

/-!
# Frames

A frame holds the variables of one scope. Its bindings stand in the order of
their names and each name is bound once, so two frames that bind the same names
to the same values are equal (`Frame.ext_get?`). `Frame.get?_insert` says what
a binding does to every lookup.
-/

namespace TreeScript

/-- The variables of one scope, in the order of their names. -/
structure Frame where
  bindings : List (String × Value)
  ascending : bindings.Pairwise (·.1 < ·.1)

namespace Frame

/-- Binds a name in its place, over an earlier binding if there is one. -/
def insertInto (name : String) (value : Value) :
    List (String × Value) → List (String × Value)
  | [] => [(name, value)]
  | (other, old) :: rest =>
    if name < other then (name, value) :: (other, old) :: rest
    else if name = other then (name, value) :: rest
    else (other, old) :: insertInto name value rest

theorem eq_or_mem_of_mem_insertInto {name : String} {value : Value} {p : String × Value}
    {bindings : List (String × Value)} (h : p ∈ insertInto name value bindings) :
    p = (name, value) ∨ p ∈ bindings := by
  induction bindings with
  | nil => simpa [insertInto] using h
  | cons b rest ih =>
    unfold insertInto at h
    split at h
    · simpa using h
    · split at h
      · simp only [List.mem_cons] at h ⊢
        exact h.imp_right Or.inr
      · simp only [List.mem_cons] at h ⊢
        rcases h with h | h
        · exact Or.inr (Or.inl h)
        · exact (ih h).imp_right Or.inr

theorem lt_or_lt_of_ne {x y : String} (h : x ≠ y) : x < y ∨ y < x :=
  (String.le_total x y).imp (fun hle => Std.lt_of_le_of_ne hle h)
    fun hle => Std.lt_of_le_of_ne hle (Ne.symm h)

theorem pairwise_insertInto (name : String) (value : Value) {bindings : List (String × Value)}
    (h : bindings.Pairwise (·.1 < ·.1)) :
    (insertInto name value bindings).Pairwise (·.1 < ·.1) := by
  induction bindings with
  | nil => simp [insertInto]
  | cons b rest ih =>
    obtain ⟨hb, hrest⟩ := List.pairwise_cons.1 h
    unfold insertInto
    split
    · rename_i hlt
      refine List.pairwise_cons.2 ⟨fun p hp => ?_, h⟩
      rcases List.mem_cons.1 hp with rfl | hp
      · exact hlt
      · exact String.lt_trans hlt (hb p hp)
    · rename_i hlt
      split
      · rename_i heq
        refine List.pairwise_cons.2 ⟨fun p hp => ?_, hrest⟩
        show name < p.1
        rw [heq]
        exact hb p hp
      · rename_i hne
        refine List.pairwise_cons.2 ⟨fun p hp => ?_, ih hrest⟩
        rcases eq_or_mem_of_mem_insertInto hp with rfl | hp
        · exact (lt_or_lt_of_ne hne).resolve_left hlt
        · exact hb p hp

/-- A frame without variables. -/
def empty : Frame :=
  ⟨[], List.Pairwise.nil⟩

/-- Binds a name to a value. -/
def insert (f : Frame) (name : String) (value : Value) : Frame :=
  ⟨insertInto name value f.bindings, pairwise_insertInto name value f.ascending⟩

/-- The value that a name is bound to. -/
def get? (f : Frame) (name : String) : Option Value :=
  f.bindings.lookup name

/-- Whether a name is bound. -/
def binds (f : Frame) (name : String) : Bool :=
  (f.get? name).isSome

@[simp] theorem get?_empty (name : String) : empty.get? name = none :=
  rfl

theorem lookup_cons_eq_ite (x : String) (b : String × Value) (rest : List (String × Value)) :
    (b :: rest).lookup x = if x = b.1 then some b.2 else rest.lookup x := by
  obtain ⟨y, w⟩ := b
  by_cases h : x = y
  · simp [h]
  · have h' : (x == y) = false := by simpa using h
    rw [List.lookup_cons, h', if_neg h]

theorem lookup_insertInto (name : String) (value : Value) (x : String)
    (bindings : List (String × Value)) :
    (insertInto name value bindings).lookup x =
      if x = name then some value else bindings.lookup x := by
  induction bindings with
  | nil => simp [insertInto, lookup_cons_eq_ite]
  | cons b rest ih =>
    unfold insertInto
    split
    · simp only [lookup_cons_eq_ite]
    · split
      · rename_i heq
        subst heq
        simp only [lookup_cons_eq_ite]
        split <;> rfl
      · rename_i hne
        simp only [lookup_cons_eq_ite, ih]
        by_cases hx : x = b.1
        · simp [hx, Ne.symm hne]
        · simp [hx]

/-- A binding changes the lookup of its own name and no other. -/
@[simp] theorem get?_insert (f : Frame) (name : String) (value : Value) (x : String) :
    (f.insert name value).get? x = if x = name then some value else f.get? x :=
  lookup_insertInto name value x f.bindings

theorem lookup_eq_none_of_forall_lt {x : String} {bindings : List (String × Value)}
    (h : ∀ p ∈ bindings, x < p.1) : bindings.lookup x = none := by
  induction bindings with
  | nil => rfl
  | cons b rest ih =>
    have hb : x ≠ b.1 := Std.ne_of_lt (h b (List.mem_cons_self ..))
    rw [lookup_cons_eq_ite, if_neg hb]
    exact ih fun p hp => h p (List.mem_cons_of_mem _ hp)

theorem eq_of_lookup_eq {as bs : List (String × Value)}
    (ha : as.Pairwise (·.1 < ·.1)) (hb : bs.Pairwise (·.1 < ·.1))
    (h : ∀ x, as.lookup x = bs.lookup x) : as = bs := by
  induction as generalizing bs with
  | nil =>
    cases bs with
    | nil => rfl
    | cons b bs => simpa [lookup_cons_eq_ite] using h b.1
  | cons a as ih =>
    cases bs with
    | nil => simpa [lookup_cons_eq_ite] using h a.1
    | cons b bs =>
      obtain ⟨ha', has⟩ := List.pairwise_cons.1 ha
      obtain ⟨hb', hbs⟩ := List.pairwise_cons.1 hb
      have hname : a.1 = b.1 := by
        refine Classical.byContradiction fun hne => ?_
        rcases lt_or_lt_of_ne hne with hlt | hlt
        · have := h a.1
          rw [lookup_cons_eq_ite, if_pos rfl, lookup_cons_eq_ite, if_neg hne,
            lookup_eq_none_of_forall_lt fun p hp => String.lt_trans hlt (hb' p hp)] at this
          cases this
        · have := h b.1
          rw [lookup_cons_eq_ite, if_neg (Ne.symm hne), lookup_cons_eq_ite, if_pos rfl,
            lookup_eq_none_of_forall_lt fun p hp => String.lt_trans hlt (ha' p hp)] at this
          cases this
      have hvalue : a.2 = b.2 := by
        simpa [lookup_cons_eq_ite, hname] using h a.1
      have hrest : as = bs := by
        refine ih has hbs fun x => ?_
        by_cases hx : x = a.1
        · subst hx
          rw [lookup_eq_none_of_forall_lt ha', lookup_eq_none_of_forall_lt (hname ▸ hb')]
        · have := h x
          rwa [lookup_cons_eq_ite, if_neg hx, lookup_cons_eq_ite, if_neg (hname ▸ hx)] at this
      exact List.cons_eq_cons.2 ⟨Prod.ext hname hvalue, hrest⟩

/-- A frame is determined by its lookups. -/
theorem ext_get? {f g : Frame} (h : ∀ x, f.get? x = g.get? x) : f = g := by
  obtain ⟨as, ha⟩ := f
  obtain ⟨bs, hb⟩ := g
  obtain rfl : as = bs := eq_of_lookup_eq ha hb h
  rfl

end Frame

end TreeScript
