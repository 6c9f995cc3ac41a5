import Mathlib.Data.List.Basic

/-!
# Programs that make calls

`Prog γ ε α` is a computation that makes calls in `γ`, in order, and then returns a
value in `α` or ends with `ε`. The answers of the environment are parameters of the
computation, so one `Prog` is one run and its `calls` are what the run does to the
outside. A sequence stops at the first part that ends.

`result_bind_ok` and `calls_bind_ok` take a sequence apart, and `forall_calls_bind` is
the rule for a property of all the calls of a run.
-/

namespace NetCentric

/-- The calls of one run, and how it comes out. -/
structure Prog (γ ε α : Type) where
  calls : List γ
  result : Except ε α

namespace Prog

variable {γ ε α β : Type}

/-- Make the call `c`. -/
def call (c : γ) : Prog γ ε Unit :=
  ⟨[c], .ok ()⟩

/-- Make the calls `cs`. -/
def callAll (cs : List γ) : Prog γ ε Unit :=
  ⟨cs, .ok ()⟩

/-- End with `e`. -/
def stop (e : ε) : Prog γ ε α :=
  ⟨[], .error e⟩

/-- Go on with `f` unless `p` ended. -/
def andThen (p : Prog γ ε α) (f : α → Prog γ ε β) : Prog γ ε β :=
  match p.result with
  | .ok a => ⟨p.calls ++ (f a).calls, (f a).result⟩
  | .error e => ⟨p.calls, .error e⟩

/-- Go on with `f`, or with `g` if `p` ended. -/
def handle {δ : Type} (p : Prog γ ε α) (f : α → Prog γ δ β) (g : ε → Prog γ δ β) : Prog γ δ β :=
  match p.result with
  | .ok a => ⟨p.calls ++ (f a).calls, (f a).result⟩
  | .error e => ⟨p.calls ++ (g e).calls, (g e).result⟩

instance : Monad (Prog γ ε) where
  pure a := ⟨[], .ok a⟩
  bind := andThen

@[simp] theorem calls_pure (a : α) : (pure a : Prog γ ε α).calls = [] :=
  rfl

@[simp] theorem result_pure (a : α) : (pure a : Prog γ ε α).result = .ok a :=
  rfl

@[simp] theorem calls_call (c : γ) : (call c : Prog γ ε Unit).calls = [c] :=
  rfl

@[simp] theorem result_call (c : γ) : (call c : Prog γ ε Unit).result = .ok () :=
  rfl

@[simp] theorem calls_callAll (cs : List γ) : (callAll cs : Prog γ ε Unit).calls = cs :=
  rfl

@[simp] theorem result_callAll (cs : List γ) : (callAll cs : Prog γ ε Unit).result = .ok () :=
  rfl

@[simp] theorem calls_stop (e : ε) : (stop e : Prog γ ε α).calls = [] :=
  rfl

@[simp] theorem result_stop (e : ε) : (stop e : Prog γ ε α).result = .error e :=
  rfl

theorem bind_def (p : Prog γ ε α) (f : α → Prog γ ε β) : p >>= f = p.andThen f :=
  rfl

@[simp] theorem pure_bind (a : α) (f : α → Prog γ ε β) : (pure a : Prog γ ε α) >>= f = f a :=
  rfl

@[simp] theorem stop_bind (e : ε) (f : α → Prog γ ε β) : (stop e : Prog γ ε α) >>= f = stop e :=
  rfl

@[simp] theorem calls_call_bind (c : γ) (f : Unit → Prog γ ε β) :
    ((call c : Prog γ ε Unit) >>= f).calls = c :: (f ()).calls :=
  rfl

@[simp] theorem result_call_bind (c : γ) (f : Unit → Prog γ ε β) :
    ((call c : Prog γ ε Unit) >>= f).result = (f ()).result :=
  rfl

@[simp] theorem calls_callAll_bind (cs : List γ) (f : Unit → Prog γ ε β) :
    ((callAll cs : Prog γ ε Unit) >>= f).calls = cs ++ (f ()).calls :=
  rfl

@[simp] theorem result_callAll_bind (cs : List γ) (f : Unit → Prog γ ε β) :
    ((callAll cs : Prog γ ε Unit) >>= f).result = (f ()).result :=
  rfl

theorem calls_bind_ok {p : Prog γ ε α} {f : α → Prog γ ε β} {a : α} (h : p.result = .ok a) :
    (p >>= f).calls = p.calls ++ (f a).calls := by
  simp only [bind_def, andThen, h]

theorem calls_bind_error {p : Prog γ ε α} {f : α → Prog γ ε β} {e : ε}
    (h : p.result = .error e) : (p >>= f).calls = p.calls := by
  simp only [bind_def, andThen, h]

theorem result_bind_error {p : Prog γ ε α} {f : α → Prog γ ε β} {e : ε}
    (h : p.result = .error e) : (p >>= f).result = .error e := by
  simp only [bind_def, andThen, h]

theorem result_bind_of_ok {p : Prog γ ε α} {f : α → Prog γ ε β} {a : α} (h : p.result = .ok a) :
    (p >>= f).result = (f a).result := by
  simp only [bind_def, andThen, h]

theorem handle_of_ok {δ : Type} {p : Prog γ ε α} {f : α → Prog γ δ β} {g : ε → Prog γ δ β} {a : α}
    (h : p.result = .ok a) : p.handle f g = ⟨p.calls ++ (f a).calls, (f a).result⟩ := by
  simp only [handle, h]

theorem handle_of_error {δ : Type} {p : Prog γ ε α} {f : α → Prog γ δ β} {g : ε → Prog γ δ β}
    {e : ε} (h : p.result = .error e) :
    p.handle f g = ⟨p.calls ++ (g e).calls, (g e).result⟩ := by
  simp only [handle, h]

/-- A sequence starts with the calls of its first part. -/
theorem calls_prefix_bind (p : Prog γ ε α) (f : α → Prog γ ε β) : p.calls <+: (p >>= f).calls := by
  cases h : p.result with
  | ok a =>
    rw [calls_bind_ok h]
    exact List.prefix_append _ _
  | error e =>
    simp only [calls_bind_error h, List.prefix_rfl]

/-- A sequence returns if both parts do. -/
theorem result_bind_ok {p : Prog γ ε α} {f : α → Prog γ ε β} {b : β} :
    (p >>= f).result = .ok b ↔ ∃ a, p.result = .ok a ∧ (f a).result = .ok b := by
  cases h : p.result with
  | ok a => simp [result_bind_of_ok h]
  | error e => simp [result_bind_error h]

/-- A sequence ends early if one of its parts does. -/
theorem result_bind_eq_error {p : Prog γ ε α} {f : α → Prog γ ε β} {e : ε} :
    (p >>= f).result = .error e ↔
      p.result = .error e ∨ ∃ a, p.result = .ok a ∧ (f a).result = .error e := by
  cases h : p.result with
  | ok a => simp [result_bind_of_ok h]
  | error e' => simp [result_bind_error h]

/-- Every call of a sequence has a property if every call of its parts does. -/
theorem forall_calls_bind {P : γ → Prop} {p : Prog γ ε α} {f : α → Prog γ ε β}
    (hp : ∀ c ∈ p.calls, P c) (hf : ∀ a, p.result = .ok a → ∀ c ∈ (f a).calls, P c) :
    ∀ c ∈ (p >>= f).calls, P c := by
  cases h : p.result with
  | ok a =>
    intro c hc
    rw [calls_bind_ok h] at hc
    rcases List.mem_append.1 hc with hc | hc
    · exact hp c hc
    · exact hf a h c hc
  | error e =>
    rw [calls_bind_error h]
    exact hp

end Prog

end NetCentric
