import NetCentric.Transition
import NetCentric.Threads
import Mathlib.Data.List.Count
import Mathlib.Logic.Relation

/-!
# Straight-line processes and their critical sections

Any number of processes share a memory `σ` and a semaphore. A process has memory `κ` of its
own and a list of instructions : operations on the shared memory and its own, each in one
step, and `wait` and `post` on the semaphore. `sections` is the program of a process that
does all its operations between a `wait` and the next `post`.

`Follows.step` : with a semaphore of value one, the processes follow the ones that do each
section in a single step (`atomic`), so that what they leave when all have ended is what the
sections leave in some order (`ended_atomic`), and every such order is possible
(`leads_atomic`). `step_remaining` and `Follows.exists_step` : each step takes one of the
instructions that are left, and as long as there are any some process can take a step.
-/

open Finset

namespace NetCentric

namespace Sections

/-- An instruction of a process. -/
inductive Instr (ο : Type*)
  | wait
  | post
  | op (o : ο)
  deriving DecidableEq

variable {ι ο σ κ : Type*} [DecidableEq ι]

/-- The semaphore, the shared memory, and for each process its own memory and the instructions
it has left. -/
structure State (ι ο σ κ : Type*) where
  sem : ℕ
  shared : σ
  own : ι → κ
  left : ι → List (Instr ο)

/-- The process `i` takes its next step, where `exec` is what an operation does. -/
def step (exec : ι → ο → σ × κ → σ × κ) (s : State ι ο σ κ) (i : ι) : Option (State ι ο σ κ) :=
  match s.left i with
  | [] => none
  | .wait :: is =>
    if 0 < s.sem then some { s with sem := s.sem - 1, left := Function.update s.left i is }
    else none
  | .post :: is => some { s with sem := s.sem + 1, left := Function.update s.left i is }
  | .op o :: is =>
    let r := exec i o (s.shared, s.own i)
    some { s with
      shared := r.1
      own := Function.update s.own i r.2
      left := Function.update s.left i is }

/-- The processes, from the states that meet `Init`. -/
def processes (exec : ι → ο → σ × κ → σ × κ) (Init : State ι ο σ κ → Prop) :
    System (State ι ο σ κ) ι where
  Init := Init
  step := step exec

/-- All processes have come to their ends. -/
def Ended (s : State ι ο σ κ) : Prop :=
  ∀ i, s.left i = []

/-! ## One step -/

variable {exec : ι → ο → σ × κ → σ × κ} {Init : State ι ο σ κ → Prop} {s t : State ι ο σ κ}
  {i : ι} {is : List (Instr ο)}

theorem step_wait (h : s.left i = .wait :: is) : step exec s i =
    if 0 < s.sem then some { s with sem := s.sem - 1, left := Function.update s.left i is }
    else none := by
  simp only [step, h]

theorem step_post (h : s.left i = .post :: is) : step exec s i =
    some { s with sem := s.sem + 1, left := Function.update s.left i is } := by
  simp only [step, h]

theorem step_op {o : ο} (h : s.left i = .op o :: is) : step exec s i = some { s with
    shared := (exec i o (s.shared, s.own i)).1
    own := Function.update s.own i (exec i o (s.shared, s.own i)).2
    left := Function.update s.left i is } := by
  simp only [step, h]

/-- A step is an instruction of the process that takes it. -/
theorem step_cases (h : step exec s i = some t) : ∃ is,
    s.left i = .wait :: is ∧ 0 < s.sem ∧
      t = { s with sem := s.sem - 1, left := Function.update s.left i is } ∨
    s.left i = .post :: is ∧
      t = { s with sem := s.sem + 1, left := Function.update s.left i is } ∨
    ∃ o, s.left i = .op o :: is ∧ t = { s with
      shared := (exec i o (s.shared, s.own i)).1
      own := Function.update s.own i (exec i o (s.shared, s.own i)).2
      left := Function.update s.left i is } := by
  cases hleft : s.left i with
  | nil => simp [step, hleft] at h
  | cons x is =>
    refine ⟨is, ?_⟩
    cases x with
    | wait =>
      rw [step_wait hleft, Option.ite_none_right_eq_some] at h
      exact .inl ⟨rfl, h.1, (Option.some.inj h.2).symm⟩
    | post =>
      rw [step_post hleft] at h
      exact .inr (.inl ⟨rfl, (Option.some.inj h).symm⟩)
    | op o =>
      rw [step_op hleft] at h
      exact .inr (.inr ⟨o, rfl, (Option.some.inj h).symm⟩)

/-- What an operation does to the process that takes it, and that it leaves the others. -/
theorem step_op_spec {o : ο} (h : s.left i = .op o :: is) (hstep : step exec s i = some t) :
    t.shared = (exec i o (s.shared, s.own i)).1 ∧ t.own i = (exec i o (s.shared, s.own i)).2 ∧
      t.left i = is ∧ ∀ j ≠ i, t.own j = s.own j ∧ t.left j = s.left j := by
  obtain rfl := Option.some.inj ((step_op h).symm.trans hstep)
  exact ⟨rfl, Function.update_self .., Function.update_self .., fun _ hj =>
    ⟨Function.update_of_ne hj .., Function.update_of_ne hj ..⟩⟩

theorem step_op_sem {o : ο} (h : s.left i = .op o :: is) (hstep : step exec s i = some t) :
    t.sem = s.sem := by
  obtain rfl := Option.some.inj ((step_op h).symm.trans hstep)
  rfl

theorem step_wait_spec (h : s.left i = .wait :: is) (hstep : step exec s i = some t) :
    0 < s.sem ∧ t.sem = s.sem - 1 ∧ t.shared = s.shared ∧ t.own = s.own ∧ t.left i = is ∧
      ∀ j ≠ i, t.left j = s.left j := by
  rw [step_wait h, Option.ite_none_right_eq_some] at hstep
  obtain ⟨hsem, ht⟩ := hstep
  obtain rfl := Option.some.inj ht
  exact ⟨hsem, rfl, rfl, rfl, Function.update_self .., fun _ hj => Function.update_of_ne hj ..⟩

theorem step_post_spec (h : s.left i = .post :: is) (hstep : step exec s i = some t) :
    t.sem = s.sem + 1 ∧ t.shared = s.shared ∧ t.own = s.own ∧ t.left i = is ∧
      ∀ j ≠ i, t.left j = s.left j := by
  obtain rfl := Option.some.inj ((step_post h).symm.trans hstep)
  exact ⟨rfl, rfl, rfl, Function.update_self .., fun _ hj => Function.update_of_ne hj ..⟩

/-- A step takes one instruction off the process. -/
theorem step_left (h : step exec s i = some t) :
    ∃ x is, s.left i = x :: is ∧ t.left = Function.update s.left i is := by
  obtain ⟨is, ⟨hleft, -, rfl⟩ | ⟨hleft, rfl⟩ | ⟨o, hleft, rfl⟩⟩ := step_cases h
  · exact ⟨_, is, hleft, rfl⟩
  · exact ⟨_, is, hleft, rfl⟩
  · exact ⟨_, is, hleft, rfl⟩

/-- Some run leads from the one state to the other. -/
def Leads (exec : ι → ο → σ × κ → σ × κ) : State ι ο σ κ → State ι ο σ κ → Prop :=
  Relation.ReflTransGen fun s t => ∃ i, step exec s i = some t

theorem Leads.refl (s : State ι ο σ κ) : Leads exec s s :=
  Relation.ReflTransGen.refl

theorem Leads.single (h : step exec s i = some t) : Leads exec s t :=
  Relation.ReflTransGen.single ⟨i, h⟩

theorem Leads.trans {u : State ι ο σ κ} (hst : Leads exec s t) (htu : Leads exec t u) :
    Leads exec s u :=
  Relation.ReflTransGen.trans hst htu

theorem Leads.reachable (h : Leads exec s t) (hs : (processes exec Init).Reachable s) :
    (processes exec Init).Reachable t := by
  induction h with
  | refl => exact hs
  | tail _ hstep ih =>
    obtain ⟨i, hi⟩ := hstep
    exact ih.step hi

/-! ## The instructions that are left -/

/-- The instructions that are left. -/
def remaining [Fintype ι] (s : State ι ο σ κ) : ℕ :=
  ∑ i, (s.left i).length

theorem step_remaining [Fintype ι] (h : step exec s i = some t) :
    remaining t + 1 = remaining s := by
  obtain ⟨x, is, hleft, hupdate⟩ := step_left h
  have hsum := Threads.sum_update List.length s.left i is
  rw [hleft, List.length_cons] at hsum
  rw [remaining, remaining, hupdate]
  omega

/-! ## Sections in a single step -/

/-- The program of the sections `secs`. -/
def sections (secs : List (List ο)) : List (Instr ο) :=
  secs.flatMap fun ops => .wait :: ops.map .op ++ [.post]

@[simp] theorem sections_nil : sections ([] : List (List ο)) = [] :=
  rfl

theorem sections_cons (ops : List ο) (secs : List (List ο)) :
    sections (ops :: secs) = .wait :: (ops.map .op ++ .post :: sections secs) := by
  simp [sections]

/-- The operations of a section, one after the other. -/
def execAll (exec : ι → ο → σ × κ → σ × κ) (i : ι) (m : σ × κ) (ops : List ο) : σ × κ :=
  ops.foldl (fun m o => exec i o m) m

/-- The shared memory, and for each process its own memory and the sections it has left. -/
structure Atomic (ι ο σ κ : Type*) where
  shared : σ
  own : ι → κ
  todo : ι → List (List ο)

/-- The process `i` does its next section. -/
def atomicStep (exec : ι → ο → σ × κ → σ × κ) (u : Atomic ι ο σ κ) (i : ι) :
    Option (Atomic ι ο σ κ) :=
  match u.todo i with
  | [] => none
  | ops :: secs =>
    let r := execAll exec i (u.shared, u.own i) ops
    some ⟨r.1, Function.update u.own i r.2, Function.update u.todo i secs⟩

/-- The processes whose sections are single steps, from any state. -/
def atomic (exec : ι → ο → σ × κ → σ × κ) : System (Atomic ι ο σ κ) ι where
  Init _ := True
  step := atomicStep exec

theorem atomicStep_cons {u : Atomic ι ο σ κ} {ops : List ο} {secs : List (List ο)}
    (h : u.todo i = ops :: secs) : atomicStep exec u i =
      some ⟨(execAll exec i (u.shared, u.own i) ops).1,
        Function.update u.own i (execAll exec i (u.shared, u.own i) ops).2,
        Function.update u.todo i secs⟩ := by
  simp only [atomicStep, h]

/-- A step of the atomic processes is a section. -/
theorem atomicStep_cases {u v : Atomic ι ο σ κ} (h : atomicStep exec u i = some v) :
    ∃ ops secs, u.todo i = ops :: secs ∧ v.shared = (execAll exec i (u.shared, u.own i) ops).1 ∧
      v.own = Function.update u.own i (execAll exec i (u.shared, u.own i) ops).2 ∧
      v.todo = Function.update u.todo i secs := by
  cases htodo : u.todo i with
  | nil => simp [atomicStep, htodo] at h
  | cons ops secs =>
    obtain rfl := Option.some.inj ((atomicStep_cons htodo).symm.trans h)
    exact ⟨ops, secs, rfl, rfl, rfl, rfl⟩

/-- The processes as they start, with their own memories and their sections. -/
def start (sem : ℕ) (u : Atomic ι ο σ κ) : State ι ο σ κ where
  sem := sem
  shared := u.shared
  own := u.own
  left i := sections (u.todo i)

omit [DecidableEq ι] in
@[simp] theorem start_left (sem : ℕ) (u : Atomic ι ο σ κ) (i : ι) :
    (start sem u).left i = sections (u.todo i) :=
  rfl

/-- The processes are where the atomic ones are, but for the one that is in a section. -/
inductive Follows (exec : ι → ο → σ × κ → σ × κ) : State ι ο σ κ → Atomic ι ο σ κ → Prop
  /-- No process is in a section. -/
  | outside (u : Atomic ι ο σ κ) : Follows exec (start 1 u) u
  /-- `k` has done the operations `done` of its section. -/
  | inside {s : State ι ο σ κ} {u : Atomic ι ο σ κ} (k : ι) (done ops : List ο)
      (secs : List (List ο)) (sem : s.sem = 0) (todo : u.todo k = (done ++ ops) :: secs)
      (memory : (s.shared, s.own k) = execAll exec k (u.shared, u.own k) done)
      (left : s.left k = ops.map .op ++ .post :: sections secs)
      (others : ∀ j ≠ k, s.own j = u.own j ∧ s.left j = sections (u.todo j)) : Follows exec s u

variable {u v : Atomic ι ο σ κ}

/-- A process enters its section. -/
theorem Follows.enter {ops : List ο} {secs : List (List ο)} (h : u.todo i = ops :: secs) :
    Follows exec { start 1 u with
      sem := 0
      left := Function.update (start 1 u).left i (ops.map .op ++ .post :: sections secs) } u :=
  .inside i [] ops secs rfl h rfl (Function.update_self ..) fun _ hj =>
    ⟨rfl, Function.update_of_ne hj _ _⟩

/-- The process in the section leaves it, and the section is done. -/
theorem leave_eq {k : ι} {done : List ο} {secs : List (List ο)} (hsem : s.sem = 0)
    (hmemory : (s.shared, s.own k) = execAll exec k (u.shared, u.own k) done)
    (hothers : ∀ j ≠ k, s.own j = u.own j ∧ s.left j = sections (u.todo j)) :
    { s with sem := s.sem + 1, left := Function.update s.left k (sections secs) } =
      start 1 ⟨(execAll exec k (u.shared, u.own k) done).1,
        Function.update u.own k (execAll exec k (u.shared, u.own k) done).2,
        Function.update u.todo k secs⟩ := by
  have hown : s.own = Function.update u.own k (s.own k) := by
    funext j
    by_cases hj : j = k
    · subst hj
      rw [Function.update_self]
    · rw [Function.update_of_ne hj, (hothers j hj).1]
  have hleft : Function.update s.left k (sections secs) =
      fun j => sections (Function.update u.todo k secs j) := by
    funext j
    by_cases hj : j = k
    · subst hj
      rw [Function.update_self, Function.update_self]
    · rw [Function.update_of_ne hj, Function.update_of_ne hj, (hothers j hj).2]
  rw [← hmemory, start, hleft, hsem, ← hown]

/-- A step is no step of the atomic processes, or the section it ends. -/
theorem Follows.step (hf : Follows exec s u) (h : step exec s i = some t) :
    ∃ v, (v = u ∨ atomicStep exec u i = some v) ∧ Follows exec t v := by
  cases hf with
  | outside =>
    cases htodo : u.todo i with
    | nil => simp [Sections.step, htodo] at h
    | cons ops secs =>
      have hleft : (start 1 u).left i = .wait :: (ops.map .op ++ .post :: sections secs) := by
        rw [start_left, htodo, sections_cons]
      rw [step_wait hleft, if_pos (by simp [start])] at h
      obtain rfl := Option.some.inj h
      exact ⟨u, .inl rfl, .enter htodo⟩
  | inside k done ops secs hsem htodo hmemory hleft hothers =>
    by_cases hik : i = k
    · subst hik
      cases ops with
      | nil =>
        rw [step_post hleft] at h
        obtain rfl := Option.some.inj h
        rw [List.append_nil] at htodo
        refine ⟨_, .inr (atomicStep_cons htodo), ?_⟩
        rw [leave_eq hsem hmemory hothers]
        exact .outside _
      | cons o ops =>
        rw [step_op hleft] at h
        obtain rfl := Option.some.inj h
        refine ⟨u, .inl rfl, .inside i (done ++ [o]) ops secs hsem (by simp [htodo]) ?_
          (Function.update_self ..) fun j hj => ⟨?_, ?_⟩⟩
        · dsimp only
          rw [Function.update_self, execAll, List.foldl_concat, ← execAll, ← hmemory]
        · rw [← (hothers j hj).1]
          exact Function.update_of_ne hj ..
        · rw [← (hothers j hj).2]
          exact Function.update_of_ne hj ..
    · -- the semaphore is taken
      have hnext := (hothers i hik).2
      cases htodo' : u.todo i with
      | nil => simp [Sections.step, hnext, htodo'] at h
      | cons ops' secs' =>
        rw [htodo', sections_cons] at hnext
        rw [step_wait hnext, if_neg (by omega)] at h
        cases h

/-- A run does whole sections one after the other, and some operations of one more. -/
theorem Follows.run {as : List ι} (hf : Follows exec s u)
    (h : (processes exec Init).run s as = some t) :
    ∃ order v, (atomic exec).run u order = some v ∧ Follows exec t v := by
  induction as generalizing s u with
  | nil =>
    obtain rfl := Option.some.inj h
    exact ⟨[], u, rfl, hf⟩
  | cons a as ih =>
    obtain ⟨s', hs', ht⟩ := System.run_cons_eq_some _ |>.1 h
    obtain ⟨u', rfl | hu', hf'⟩ := hf.step hs'
    · exact ih hf' ht
    · obtain ⟨order, v, hv, hfv⟩ := ih hf' ht
      exact ⟨a :: order, v, System.run_cons_eq_some _ |>.2 ⟨u', hu', hv⟩, hfv⟩

omit [DecidableEq ι] in
/-- Processes at their ends have done all sections. -/
theorem Follows.ended (hf : Follows exec s u) (h : Ended s) :
    s = start 1 u ∧ ∀ i, u.todo i = [] := by
  cases hf with
  | outside =>
    refine ⟨rfl, fun i => ?_⟩
    have hnil := h i
    cases htodo : u.todo i with
    | nil => rfl
    | cons ops secs =>
      rw [start_left, htodo, sections_cons] at hnil
      cases hnil
  | inside k done ops secs hsem htodo hmemory hleft hothers =>
    have hnil := h k
    rw [hleft] at hnil
    simp at hnil

/-- The process in the section can take a step, and any process that has one to do if there is
none. -/
theorem Follows.exists_step (hf : Follows exec s u) (h : ¬Ended s) :
    ∃ i t, Sections.step exec s i = some t := by
  cases hf with
  | outside =>
    obtain ⟨i, hi⟩ := not_forall.1 h
    cases htodo : u.todo i with
    | nil => simp [htodo] at hi
    | cons ops secs =>
      have hleft : (start 1 u).left i = .wait :: (ops.map .op ++ .post :: sections secs) := by
        rw [start_left, htodo, sections_cons]
      exact ⟨i, _, by rw [step_wait hleft, if_pos (by simp [start])]⟩
  | inside k done ops secs hsem htodo hmemory hleft hothers =>
    cases ops with
    | nil => exact ⟨k, _, step_post hleft⟩
    | cons o ops => exact ⟨k, _, step_op hleft⟩

/-- From everywhere a run leads to the end. -/
theorem Follows.exists_run_ended [Fintype ι] (hf : Follows exec s u) :
    ∃ as t, (processes exec Init).run s as = some t ∧ Ended t := by
  obtain ⟨as, t, ht, -, hended⟩ := System.exists_run_of_measure (S := processes exec Init)
    (I := fun s => ∃ u, Follows exec s u) (F := Ended) (μ := remaining) (fun s hs hended => by
      obtain ⟨u, hf⟩ := hs
      obtain ⟨i, t, ht⟩ := hf.exists_step hended
      obtain ⟨v, -, hfv⟩ := hf.step ht
      exact ⟨i, t, ht, ⟨v, hfv⟩, by have := step_remaining ht; omega⟩) ⟨u, hf⟩
  exact ⟨as, t, ht, hended⟩

/-- What the processes leave at their ends is what the sections leave in some order. -/
theorem ended_atomic {as : List ι} (h : (processes exec Init).run (start 1 u) as = some t)
    (hended : Ended t) :
    ∃ order v, (atomic exec).run u order = some v ∧ (∀ i, v.todo i = []) ∧
      t = start 1 v := by
  obtain ⟨order, v, hv, hf⟩ := (Follows.outside u).run h
  obtain ⟨rfl, htodo⟩ := hf.ended hended
  exact ⟨order, v, hv, htodo, rfl⟩

/-! ## Every order -/

/-- The operations of a process, one step each. -/
theorem leads_ops {ops : List ο} (h : s.left i = ops.map .op ++ is) : Leads exec s { s with
    shared := (execAll exec i (s.shared, s.own i) ops).1
    own := Function.update s.own i (execAll exec i (s.shared, s.own i) ops).2
    left := Function.update s.left i is } := by
  induction ops generalizing s with
  | nil =>
    have hleft : Function.update s.left i is = s.left := by
      rw [← show s.left i = is from h, Function.update_eq_self]
    simpa [execAll, hleft] using Leads.refl s
  | cons o ops ih =>
    refine (Leads.single (step_op h)).trans ?_
    simpa [execAll] using ih (s := { s with
      shared := (exec i o (s.shared, s.own i)).1
      own := Function.update s.own i (exec i o (s.shared, s.own i)).2
      left := Function.update s.left i (ops.map .op ++ is) }) (Function.update_self ..)

theorem exists_leads_ops {ops : List ο} (h : s.left i = ops.map .op ++ is) :
    ∃ t, Leads exec s t ∧ t.shared = (execAll exec i (s.shared, s.own i) ops).1 ∧
      t.own i = (execAll exec i (s.shared, s.own i) ops).2 ∧ t.left i = is ∧
      ∀ j ≠ i, t.own j = s.own j ∧ t.left j = s.left j :=
  ⟨_, leads_ops h, rfl, Function.update_self .., Function.update_self .., fun _ hj =>
    ⟨Function.update_of_ne hj .., Function.update_of_ne hj ..⟩⟩

theorem exists_leads_wait {n : ℕ} (h : s.left i = .wait :: is) (hsem : s.sem = n + 1) :
    ∃ t, Leads exec s t ∧ t.sem = n ∧ t.shared = s.shared ∧ t.left i = is ∧
      ∀ j ≠ i, t.left j = s.left j :=
  ⟨_, .single ((step_wait h).trans (if_pos (by omega))), by simp [hsem], rfl,
    Function.update_self .., fun _ hj => Function.update_of_ne hj ..⟩

theorem exists_leads_post (h : s.left i = .post :: is) :
    ∃ t, Leads exec s t ∧ t.shared = s.shared ∧ t.left i = is ∧ ∀ j ≠ i, t.left j = s.left j :=
  ⟨_, .single (step_post h), rfl, Function.update_self .., fun _ hj =>
    Function.update_of_ne hj ..⟩

/-- A section whose steps follow each other. -/
theorem leads_section {ops : List ο} {secs : List (List ο)} (h : u.todo i = ops :: secs)
    (sem : ℕ) : Leads exec (start (sem + 1) u)
      (start (sem + 1) ⟨(execAll exec i (u.shared, u.own i) ops).1,
        Function.update u.own i (execAll exec i (u.shared, u.own i) ops).2,
        Function.update u.todo i secs⟩) := by
  have hleft : (start (sem + 1) u).left i =
      .wait :: (ops.map .op ++ .post :: sections secs) := by
    rw [start_left, h, sections_cons]
  have hsections : (fun j => sections (Function.update u.todo i secs j)) =
      Function.update (start (sem + 1) u).left i (sections secs) := by
    funext j
    by_cases hj : j = i
    · subst hj
      simp
    · simp [hj]
  have hwait : Leads exec (start (sem + 1) u) { start (sem + 1) u with
      sem := sem
      left := Function.update (start (sem + 1) u).left i
        (ops.map .op ++ .post :: sections secs) } :=
    .single ((step_wait hleft).trans (if_pos (Nat.succ_pos sem)))
  refine hwait.trans ((leads_ops (Function.update_self ..)).trans
    (.trans (.single (step_post (Function.update_self ..))) ?_))
  simpa [start, hsections] using Leads.refl _

/-- The processes can do the sections in every order. -/
theorem leads_atomic {order : List ι}
    (h : (atomic exec).run u order = some v) (sem : ℕ) :
    Leads exec (start (sem + 1) u) (start (sem + 1) v) := by
  induction order generalizing u with
  | nil =>
    obtain rfl := Option.some.inj h
    exact .refl _
  | cons i order ih =>
    obtain ⟨w, hw, hv⟩ := System.run_cons_eq_some _ |>.1 h
    cases htodo : u.todo i with
    | nil => simp [atomic, atomicStep, htodo] at hw
    | cons ops secs =>
      obtain rfl := Option.some.inj ((atomicStep_cons htodo).symm.trans hw)
      exact (leads_section htodo sem).trans (ih hv)

/-- The order has a process as often as it has done sections. -/
theorem count_add_length {order : List ι}
    (h : (atomic exec).run u order = some v) (i : ι) :
    order.count i + (v.todo i).length = (u.todo i).length := by
  induction order generalizing u with
  | nil =>
    obtain rfl := Option.some.inj h
    simp
  | cons j order ih =>
    obtain ⟨w, hw, hv⟩ := System.run_cons_eq_some _ |>.1 h
    obtain ⟨ops, secs, htodo, -, -, hupdate⟩ := atomicStep_cases hw
    have hrest := ih hv
    rw [hupdate] at hrest
    by_cases hij : j = i
    · subst hij
      rw [List.count_cons_self, htodo, List.length_cons]
      rw [Function.update_self] at hrest
      omega
    · rw [List.count_cons_of_ne hij]
      rwa [Function.update_of_ne (Ne.symm hij)] at hrest

/-! ## Two processes -/

/-- The processes after a `fork`. -/
inductive Side
  | parent
  | child
  deriving DecidableEq

instance : Fintype Side :=
  ⟨{.parent, .child}, fun i => by cases i <;> simp⟩

theorem ended_side {s : State Side ο σ κ} (hparent : s.left .parent = [])
    (hchild : s.left .child = []) : Ended s
  | .parent => hparent
  | .child => hchild

/-- Two processes with a section each can do them in two orders. -/
theorem order_side {order : List Side} (hparent : order.count .parent = 1)
    (hchild : order.count .child = 1) :
    order = [.parent, .child] ∨ order = [.child, .parent] := by
  match order with
  | [] => cases hparent
  | [.parent] => cases hchild
  | [.child] => cases hparent
  | [.parent, .parent] => cases hchild
  | [.child, .child] => cases hparent
  | [.parent, .child] => exact .inl rfl
  | [.child, .parent] => exact .inr rfl
  | a :: b :: c :: order => cases a <;> cases b <;> cases c <;> simp at hparent hchild

end Sections

end NetCentric
