import NetCentric.Program

/-!
# Programs with faults

A program that watches for faults in `φ` is one that can also end with a fault
(`Prog γ (φ ⊕ ε) α`). `Prog.lift` is a program that has none.

`Follows R p q` says that `p` is `q` as far as it goes : a fault stops it after the first
calls of `q`, and without one it makes the calls of `q` and comes out the same, with
values that `R` relates. `Follows.bind` composes it, so a program is compared with its
watched version part by part, and what is proved of the runs without a fault holds of `q`
(`Follows.calls_eq`).
-/

namespace NetCentric

namespace Prog

variable {γ φ ε α β : Type}

/-- A program that cannot fault. -/
def lift (p : Prog γ ε α) : Prog γ (φ ⊕ ε) α :=
  ⟨p.calls, p.result.mapError .inr⟩

/-- End with a fault. -/
def fault (f : φ) : Prog γ (φ ⊕ ε) α :=
  stop (.inl f)

/-- No fault occurs. -/
def FaultFree (p : Prog γ (φ ⊕ ε) α) : Prop :=
  ∀ f, p.result ≠ .error (.inl f)

@[simp] theorem calls_lift (p : Prog γ ε α) : (lift p : Prog γ (φ ⊕ ε) α).calls = p.calls :=
  rfl

theorem result_lift_of_ok {p : Prog γ ε α} {a : α} (h : p.result = .ok a) :
    (lift p : Prog γ (φ ⊕ ε) α).result = .ok a := by
  rw [lift, h]
  rfl

@[simp] theorem lift_pure (a : α) : (lift (pure a : Prog γ ε α) : Prog γ (φ ⊕ ε) α) = pure a :=
  rfl

@[simp] theorem fault_bind (f : φ) (k : α → Prog γ (φ ⊕ ε) β) :
    (fault f : Prog γ (φ ⊕ ε) α) >>= k = fault f :=
  rfl

/-! ## No fault -/

theorem not_faultFree_fault (f : φ) : ¬(fault f : Prog γ (φ ⊕ ε) α).FaultFree :=
  fun h => h f rfl

theorem faultFree_lift (p : Prog γ ε α) : (lift p : Prog γ (φ ⊕ ε) α).FaultFree := by
  intro f h
  cases hr : p.result <;> simp [lift, hr, Except.mapError] at h

theorem FaultFree.bind {p : Prog γ (φ ⊕ ε) α} {k : α → Prog γ (φ ⊕ ε) β} (hp : p.FaultFree)
    (hk : ∀ a, p.result = .ok a → (k a).FaultFree) : (p >>= k).FaultFree := by
  intro f h
  rcases result_bind_eq_error.1 h with h | ⟨a, ha, h⟩
  · exact hp f h
  · exact hk a ha f h

/-- No fault in a sequence, so none in its first part. -/
theorem FaultFree.left {p : Prog γ (φ ⊕ ε) α} {k : α → Prog γ (φ ⊕ ε) β}
    (h : (p >>= k).FaultFree) : p.FaultFree :=
  fun f hf => h f (result_bind_error hf)

/-- No fault in a sequence, so none behind a first part that returns. -/
theorem FaultFree.of_bind {p : Prog γ (φ ⊕ ε) α} {k : α → Prog γ (φ ⊕ ε) β}
    (h : (p >>= k).FaultFree) {a : α} (ha : p.result = .ok a) : (k a).FaultFree :=
  fun f hf => h f (result_bind_eq_error.2 (.inr ⟨a, ha, hf⟩))

/-! ## A watched program -/

/-- `p` does what `q` does, up to a fault. -/
inductive Follows (R : α → β → Prop) (p : Prog γ (φ ⊕ ε) α) (q : Prog γ ε β) : Prop
  | fault {f : φ} : p.result = .error (.inl f) → p.calls <+: q.calls → Follows R p q
  | ok {a : α} {b : β} : p.result = .ok a → q.result = .ok b → p.calls = q.calls → R a b →
      Follows R p q
  | error {e : ε} : p.result = .error (.inr e) → q.result = .error e → p.calls = q.calls →
      Follows R p q

namespace Follows

variable {α' β' : Type} {R : α → β → Prop} {S : α' → β' → Prop}

/-- A fault follows anything. -/
theorem of_fault (f : φ) (q : Prog γ ε β) : Follows R (Prog.fault f) q :=
  .fault rfl List.nil_prefix

theorem of_pure {a : α} {b : β} (h : R a b) :
    Follows R (pure a : Prog γ (φ ⊕ ε) α) (pure b) :=
  .ok rfl rfl rfl h

theorem of_lift (q : Prog γ ε β) : Follows (φ := φ) Eq (lift q) q := by
  cases h : q.result with
  | ok b => exact .ok (result_lift_of_ok h) h rfl rfl
  | error e => exact .error (by rw [lift, h]; rfl) h rfl

theorem bind {p : Prog γ (φ ⊕ ε) α} {q : Prog γ ε β} {k : α → Prog γ (φ ⊕ ε) α'}
    {l : β → Prog γ ε β'} (h : Follows R p q) (hk : ∀ a b, R a b → Follows S (k a) (l b)) :
    Follows S (p >>= k) (q >>= l) := by
  cases h with
  | fault hp hcalls =>
    refine .fault (result_bind_error hp) ?_
    rw [calls_bind_error hp]
    exact hcalls.trans (calls_prefix_bind q l)
  | error hp hq hcalls =>
    refine .error (result_bind_error hp) (result_bind_error hq) ?_
    rw [calls_bind_error hp, calls_bind_error hq, hcalls]
  | @ok a b hp hq hcalls hR =>
    have hpk := calls_bind_ok (f := k) hp
    have hql := calls_bind_ok (f := l) hq
    cases hk a b hR with
    | fault hr hcalls' =>
      refine .fault (by rw [result_bind_of_ok hp, hr]) ?_
      rw [hpk, hql, hcalls]
      exact (List.prefix_append_right_inj _).2 hcalls'
    | ok hr hr' hcalls' hS =>
      refine .ok (by rw [result_bind_of_ok hp, hr]) (by rw [result_bind_of_ok hq, hr']) ?_ hS
      rw [hpk, hql, hcalls, hcalls']
    | error hr hr' hcalls' =>
      refine .error (by rw [result_bind_of_ok hp, hr]) (by rw [result_bind_of_ok hq, hr']) ?_
      rw [hpk, hql, hcalls, hcalls']

/-- Without a fault the calls are the same. -/
theorem calls_eq {p : Prog γ (φ ⊕ ε) α} {q : Prog γ ε β} (h : Follows R p q)
    (hp : p.FaultFree) : p.calls = q.calls := by
  cases h with
  | fault hf => exact absurd hf (hp _)
  | ok _ _ hcalls => exact hcalls
  | error _ _ hcalls => exact hcalls

end Follows

end Prog

end NetCentric
