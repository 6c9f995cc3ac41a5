import Mathlib.Data.List.Basic

/-!
# Transition systems and their runs

A system has states, actions, and a partial step function : an action that is not
enabled has no result, and choosing the actions is choosing the schedule. A run is a
list of actions taken one after the other (`System.run`). `System.Visits` is the states
a run goes through and `System.Takes` the actions it takes, each with the state it was
taken in.

`System.Reachable.invariant` proves a property of every reachable state from one step.
`System.visits_invariant` is the same rule for the states of one run whose steps meet a
condition, and `System.Takes.visits` gives the states on both sides of a step. For a run
that is given, `System.passes` computes whether its steps meet one.

`System.restrict` takes out the steps that do not meet a condition. With a measure that
every step decreases, runs have a bounded length (`System.run_length_le`). With one that
some step decreases, as long as a state is not final, a run to a final state exists
(`System.exists_run_of_measure`).
-/

namespace NetCentric

/-- States, actions, and what an enabled action does. -/
structure System (σ α : Type*) where
  /-- The states a run starts in. -/
  Init : σ → Prop
  /-- The state after an action, if the action is enabled. -/
  step : σ → α → Option σ

namespace System

variable {σ α : Type*} (S : System σ α)

/-- The state after the actions `as`, if each is enabled when its turn comes. -/
def run (s : σ) : List α → Option σ
  | [] => some s
  | a :: as => (S.step s a).bind fun t => run t as

@[simp] theorem run_nil (s : σ) : S.run s [] = some s :=
  rfl

theorem run_cons (s : σ) (a : α) (as : List α) :
    S.run s (a :: as) = (S.step s a).bind fun t => S.run t as :=
  rfl

theorem run_cons_eq_some {s t : σ} {a : α} {as : List α} :
    S.run s (a :: as) = some t ↔ ∃ u, S.step s a = some u ∧ S.run u as = some t := by
  rw [run_cons, Option.bind_eq_some_iff]

theorem run_append (s : σ) (as bs : List α) :
    S.run s (as ++ bs) = (S.run s as).bind fun t => S.run t bs := by
  induction as generalizing s with
  | nil => rfl
  | cons a as ih => simp only [List.cons_append, run_cons, Option.bind_assoc, ih]

/-- Some run from an initial state ends in `t`. -/
def Reachable (t : σ) : Prop :=
  ∃ s as, S.Init s ∧ S.run s as = some t

variable {S}

/-- A property that one step preserves holds after a run. -/
theorem run_invariant {I : σ → Prop} (hstep : ∀ s a t, I s → S.step s a = some t → I t)
    {s t : σ} {as : List α} (hs : I s) (h : S.run s as = some t) : I t := by
  induction as generalizing s with
  | nil =>
    obtain rfl := Option.some.inj h
    exact hs
  | cons a as ih =>
    obtain ⟨u, hu, ht⟩ := S.run_cons_eq_some.1 h
    exact ih (hstep s a u hs hu) ht

/-- A property of the initial states that one step preserves holds in every reachable
state. -/
theorem Reachable.invariant {I : σ → Prop} (hinit : ∀ s, S.Init s → I s)
    (hstep : ∀ s a t, I s → S.step s a = some t → I t) {t : σ} (h : S.Reachable t) : I t := by
  obtain ⟨s, as, hs, hrun⟩ := h
  exact run_invariant hstep (hinit s hs) hrun

theorem Reachable.run {s t : σ} {as : List α} (h : S.Reachable s) (hrun : S.run s as = some t) :
    S.Reachable t := by
  obtain ⟨s₀, bs, hs₀, hbs⟩ := h
  exact ⟨s₀, bs ++ as, hs₀, by rw [run_append, hbs, Option.bind_some, hrun]⟩

theorem Reachable.step {s t : σ} {a : α} (h : S.Reachable s) (hstep : S.step s a = some t) :
    S.Reachable t := by
  have hrun : S.run s [a] = some t := S.run_cons_eq_some.2 ⟨t, hstep, rfl⟩
  exact h.run hrun

/-! ## Fewer steps -/

/-- The system whose steps meet `P`. -/
def restrict (S : System σ α) (P : σ → α → Prop) [∀ s a, Decidable (P s a)] : System σ α where
  Init := S.Init
  step s a := if P s a then S.step s a else none

theorem restrict_step {P : σ → α → Prop} [∀ s a, Decidable (P s a)] {s t : σ} {a : α} :
    (S.restrict P).step s a = some t ↔ P s a ∧ S.step s a = some t := by
  simp [restrict]

theorem Reachable.of_restrict {P : σ → α → Prop} [∀ s a, Decidable (P s a)] {t : σ}
    (h : (S.restrict P).Reachable t) : S.Reachable t := by
  have hstep : ∀ s a u, S.Reachable s → (S.restrict P).step s a = some u → S.Reachable u :=
    fun s a u hs hu => hs.step (restrict_step.1 hu).2
  exact Reachable.invariant (S := S.restrict P) (fun s hs => ⟨s, [], hs, rfl⟩) hstep h

/-! ## Measures -/

/-- A run is no longer than a measure that all its steps decrease. -/
theorem run_length_le {I : σ → Prop} {μ : σ → ℕ}
    (hstep : ∀ s a t, I s → S.step s a = some t → I t ∧ μ t < μ s) {s t : σ} {as : List α}
    (hs : I s) (h : S.run s as = some t) : as.length + μ t ≤ μ s := by
  induction as generalizing s with
  | nil =>
    obtain rfl := Option.some.inj h
    simp
  | cons a as ih =>
    obtain ⟨u, hu, ht⟩ := S.run_cons_eq_some.1 h
    obtain ⟨hI, hlt⟩ := hstep s a u hs hu
    have hrest := ih hI ht
    rw [List.length_cons]
    omega

/-- If every state that is not final (`F`) has a step that decreases the measure, some run
leads to a final state. -/
theorem exists_run_of_measure {I F : σ → Prop} {μ : σ → ℕ}
    (hstep : ∀ s, I s → ¬F s → ∃ a t, S.step s a = some t ∧ I t ∧ μ t < μ s) {s : σ}
    (hs : I s) : ∃ as t, S.run s as = some t ∧ I t ∧ F t := by
  induction hμ : μ s using Nat.strongRecOn generalizing s with
  | ind k ih =>
    by_cases hfinal : F s
    · exact ⟨[], s, rfl, hs, hfinal⟩
    obtain ⟨a, u, hu, hI, hlt⟩ := hstep s hs hfinal
    obtain ⟨as, t, ht, hres⟩ := ih (μ u) (hμ ▸ hlt) hI rfl
    exact ⟨a :: as, t, S.run_cons_eq_some.2 ⟨u, hu, ht⟩, hres⟩

/-! ## The states and the steps of one run -/

variable (S) in
/-- The run `as` from `s` goes through `t`. -/
inductive Visits : σ → List α → σ → Prop
  | here (s : σ) (as : List α) : Visits s as s
  | later {s u t : σ} {a : α} {as : List α} : S.step s a = some u → Visits u as t →
      Visits s (a :: as) t

variable (S) in
/-- The run `as` from `s` takes the action `b` in the state `t`. -/
inductive Takes : σ → List α → σ → α → Prop
  | here (s : σ) (a : α) (as : List α) : Takes s (a :: as) s a
  | later {s u t : σ} {a b : α} {as : List α} : S.step s a = some u → Takes u as t b →
      Takes s (a :: as) t b

theorem visits_last {s t : σ} {as : List α} (h : S.run s as = some t) : S.Visits s as t := by
  induction as generalizing s with
  | nil =>
    obtain rfl := Option.some.inj h
    exact .here s []
  | cons a as ih =>
    obtain ⟨u, hu, ht⟩ := S.run_cons_eq_some.1 h
    exact .later hu (ih ht)

theorem takes_cons {s t : σ} {a b : α} {as : List α} : S.Takes s (b :: as) t a ↔
    t = s ∧ a = b ∨ ∃ u, S.step s b = some u ∧ S.Takes u as t a := by
  constructor
  · intro h
    cases h with
    | here => exact .inl ⟨rfl, rfl⟩
    | later hu h => exact .inr ⟨_, hu, h⟩
  · rintro (⟨rfl, rfl⟩ | ⟨u, hu, h⟩)
    · exact .here _ _ _
    · exact .later hu h

theorem Takes.mem {s t : σ} {a : α} {as : List α} (h : S.Takes s as t a) : a ∈ as := by
  induction h with
  | here => exact List.mem_cons_self
  | later _ _ ih => exact List.mem_cons_of_mem _ ih

/-- A step of a run is enabled, and the run goes through the states before and after. -/
theorem Takes.visits {s t r : σ} {a : α} {as : List α} (h : S.Takes s as t a)
    (hrun : S.run s as = some r) :
    ∃ u, S.step t a = some u ∧ S.Visits s as t ∧ S.Visits s as u := by
  induction h with
  | here s a as =>
    obtain ⟨u, hu, -⟩ := S.run_cons_eq_some.1 hrun
    exact ⟨u, hu, .here _ _, .later hu (.here _ _)⟩
  | later hb _ ih =>
    obtain ⟨u, hu, hr⟩ := S.run_cons_eq_some.1 hrun
    obtain rfl := Option.some.inj (hb.symm.trans hu)
    obtain ⟨v, hv, ht, hv'⟩ := ih hr
    exact ⟨v, hv, .later hb ht, .later hb hv'⟩

variable (S) in
/-- Every step of the run passes the test. -/
def passes (test : σ → α → Bool) (s : σ) : List α → Bool
  | [] => true
  | a :: as => test s a && (S.step s a).all fun t => passes test t as

theorem Takes.of_passes {test : σ → α → Bool} {s t : σ} {a : α} {as : List α}
    (h : S.Takes s as t a) (hpasses : S.passes test s as = true) : test t a = true := by
  induction h with
  | here => exact (Bool.and_eq_true_iff.1 hpasses).1
  | later hu _ ih =>
    have hrest := (Bool.and_eq_true_iff.1 hpasses).2
    rw [hu] at hrest
    exact ih hrest

/-- A property that every step of the run preserves when it meets `P` holds in all the
states the run goes through, if all its steps meet `P`. -/
theorem visits_invariant {I : σ → Prop} {P : σ → α → Prop}
    (hstep : ∀ s a t, I s → P s a → S.step s a = some t → I t) {s t : σ} {as : List α}
    (hs : I s) (hP : ∀ u a, S.Takes s as u a → P u a) (h : S.Visits s as t) : I t := by
  induction h with
  | here => exact hs
  | later hu _ ih =>
    exact ih (hstep _ _ _ hs (hP _ _ (.here _ _ _)) hu) fun v b hv => hP v b (.later hu hv)

end System

end NetCentric
