import NetCentric.PartialSum

/-!
# Failed creations in Homework 2, levels 1 and 2

`PartialSum` lets every `pthread_create` of `main.c` succeed. Here `ret k` is what the
creation of thread `k` returns : 0, or a positive error number, and then no thread is
started. `main` compares the results of `pthread_create` and `pthread_join` with `< 0`, so
it goes on after a failed creation, and comes to `pthread_join` with a `tid` that was not
set. This is undefined (`Process.Undefined`), and the model follows the process no further.

`Inv` keeps which threads are there. A sum is printed only if all of them are
(`Inv.printed_eq`), and then the process goes on until it has printed it (`Inv.goes_on`).
`handles_iff` : the program reports a failure or prints the right sum if and only if no
creation fails.
-/

open Finset

namespace NetCentric

/-- Whatever the order of the steps, the program ends by reporting a failure or by
printing `sum`. It has printed nothing else in any state, and in every state it can go
on until it has done one of the two. -/
structure Handles {σ α : Type*} (S : System σ α) (exited : σ → Prop) (printed : σ → ℤ → Prop)
    (sum : ℤ) : Prop where
  right : ∀ s, S.Reachable s → ∀ out, printed s out → out = sum
  ends : ∀ s, S.Reachable s → ∃ as t, S.run s as = some t ∧ (exited t ∨ ∃ out, printed t out)

namespace ThreadCreation

open PartialSum (Thread Main State Action Core chunk)

/-- The process, until `exit(EXIT_FAILURE)`. -/
inductive Process (m : ℕ)
  | running (s : State m)
  | exited

variable {m : ℕ}

/-- What `pthread_join` returns for a thread, unless it blocks. At `.new` the `tid` is not
set, and there is no result to go on with. -/
def pthreadJoin : Thread → Option ℤ
  | .done => some 0
  | _ => none

/-- The main thread, from the first loop on. -/
def main (n : ℕ) (ret : Fin m → ℕ) (s : State m) : Option (Process m) :=
  match s.main with
  | .create i =>
    if (ret i : ℤ) < 0 then some .exited
    else if ret i = 0 then some (.running { s.put i .copy with main := .setFrom (i + 1) })
    else some (.running { s with main := .setFrom (i + 1) })
  | .join i =>
    if h : i < m then
      (pthreadJoin (s.thread ⟨i, h⟩)).map fun err =>
        if err < 0 then .exited else .running { s with main := .join (i + 1) }
    else some (.running { s with main := .report })
  | _ => (PartialSum.main n s).map .running

/-- One step of the process. -/
def step (n : ℕ) (ret : Fin m → ℕ) (p : Process m) (a : Action m) : Option (Process m) :=
  match p with
  | .exited => none
  | .running s =>
    match s.main, a with
    | .done _, _ => none
    | _, .thread k => (PartialSum.computePartialSum s k).map .running
    | _, .main => main n ret s

/-- The program with the arguments `n` and `m`. -/
def createThreads (n : ℕ) (ret : Fin m → ℕ) : System (Process m) (Action m) where
  Init p := ∃ thisBounds, p = .running (PartialSum.init thisBounds)
  step := step n ret

/-- The final sum has been printed. -/
def Process.Printed (p : Process m) (sum : ℤ) : Prop :=
  ∃ s, p = .running s ∧ s.main = .done sum

/-- `main` joins a thread by a `tid` that its creation has not set. -/
def Process.Undefined (p : Process m) : Prop :=
  ∃ s, p = .running s ∧ ∃ i : Fin m, s.main = .join i ∧ s.thread i = .new

/-! ## What a step can do -/

variable {n : ℕ} {ret : Fin m → ℕ}

/-- No error number is negative, so no failure is reported. -/
theorem main_cases {s : State m} {q : Process m} (h : main n ret s = some q) :
    (∃ i : Fin m, s.main = .create i ∧ ret i = 0 ∧
        q = .running { s.put i .copy with main := .setFrom (i + 1) }) ∨
      (∃ i : Fin m, s.main = .create i ∧ ret i ≠ 0 ∧
        q = .running { s with main := .setFrom (i + 1) }) ∨
      (∃ i : Fin m, s.main = .join i ∧ s.thread i = .done ∧
        q = .running { s with main := .join (i + 1) }) ∨
      (∃ i, s.main = .join i ∧ m ≤ i ∧ q = .running { s with main := .report }) ∨
      ((∀ i, s.main ≠ .create i) ∧ (∀ i, s.main ≠ .join i) ∧
        ∃ t, PartialSum.main n s = some t ∧ q = .running t) := by
  unfold main at h
  cases hm : s.main <;> simp only [hm] at h
  case create i =>
    have hnonneg : ¬(ret i : ℤ) < 0 := by omega
    rw [if_neg hnonneg] at h
    by_cases hret : ret i = 0 <;> simp_all
  case join i =>
    split at h
    case isTrue hi =>
      right; right; left
      cases hth : s.thread ⟨i, hi⟩ <;> simp only [hth, pthreadJoin] at h <;>
        simp only [Option.map_none, Option.map_some, lt_irrefl, if_false, reduceCtorEq,
          Option.some.injEq] at h
      exact ⟨⟨i, hi⟩, rfl, hth, h.symm⟩
    case isFalse hi => simp_all
  all_goals
    obtain ⟨t, ht, rfl⟩ := Option.map_eq_some_iff.1 h
    simp [ht]

theorem step_cases {p q : Process m} {a : Action m} (h : step n ret p a = some q) :
    ∃ s, p = .running s ∧ (∀ sum, s.main ≠ .done sum) ∧
      ((∃ k t, a = .thread k ∧ PartialSum.computePartialSum s k = some t ∧ q = .running t) ∨
        a = .main ∧ main n ret s = some q) := by
  cases p with
  | exited => cases h
  | running s =>
    refine ⟨s, rfl, ?_⟩
    cases a with
    | thread k =>
      cases hm : s.main <;> simp only [step, hm] at h <;> simp_all [eq_comm]
    | main => cases hm : s.main <;> simp_all [step]

/-! ## The invariant -/

/-- The creations `main` is through with. -/
def created : Main m → ℕ
  | .setFrom i => i
  | .setTo i | .create i => i
  | .join _ | .report | .done _ => m

/-- The threads `main` has joined. -/
def joined : Main m → ℕ
  | .join i => i
  | .report | .done _ => m
  | _ => 0

/-- The bounds `main` is setting. -/
def Setting (n : ℕ) (s : State m) : Main m → Prop
  | .setTo i => (s.thisBounds i).from_ = (chunk n m i).from_
  | .create i => s.thisBounds i = chunk n m i
  | .join i => i ≤ m
  | _ => True

/-- The threads whose creation failed are not there, and the others keep to their
chunks. -/
structure Inv (n : ℕ) (ret : Fin m → ℕ) (s : State m) : Prop extends Core n s where
  setting : Setting n s s.main
  bounds : ∀ k : Fin m, k < created s.main → s.thisBounds k = chunk n m k
  new : ∀ k : Fin m, s.thread k = .new ↔ created s.main ≤ k ∨ ret k ≠ 0
  joined : ∀ k : Fin m, k < joined s.main → s.thread k = .done
  printed : ∀ sum, s.main = .done sum → sum = s.totalSum

variable {s t : State m}

theorem inv_init (thisBounds : Fin m → PartialSum.Bounds) :
    Inv n ret (PartialSum.init thisBounds) :=
  ⟨PartialSum.core_init thisBounds, trivial, fun _ hk => absurd hk (Nat.not_lt_zero _),
    fun _ => ⟨fun _ => .inl (Nat.zero_le _), fun _ => rfl⟩,
    fun _ hk => absurd hk (Nat.not_lt_zero _), fun _ h => absurd h (by simp [PartialSum.init])⟩

theorem Inv.computePartialSum {k : Fin m} (hI : Inv n ret s) (hrun : ∀ sum, s.main ≠ .done sum)
    (h : PartialSum.computePartialSum s k = some t) : Inv n ret t := by
  obtain ⟨hnew, hdone, ⟨p, hp, hthread⟩, hbounds, hmain⟩ := PartialSum.computePartialSum_frame h
  have hcore := hI.toCore.computePartialSum (fun _ => ?_) h
  · refine ⟨hcore, ?_, ?_, fun j => ?_, fun j hj => ?_, fun sum hd => ?_⟩
    · have hset := hI.setting
      rw [hmain]
      cases hm : s.main <;> simp_all [Setting]
    · rw [hmain, hbounds]
      exact hI.bounds
    · rw [hmain, ← hI.new j, hthread]
      by_cases hj : j = k
      · simp [hj, hp, hnew]
      · rw [Function.update_of_ne hj]
    · rw [hmain] at hj
      have hjdone := hI.joined j hj
      have hne : j ≠ k := fun hjk => hdone (hjk ▸ hjdone)
      rw [hthread, Function.update_of_ne hne, hjdone]
    · exact absurd (hmain ▸ hd) (hrun sum)
  · exact hI.bounds k (Nat.lt_of_not_le fun hle => hnew ((hI.new k).2 (.inl hle)))

theorem lt_of_lt_succ {i k : Fin m} (hk : (k : ℕ) < i + 1) (hne : k ≠ i) : (k : ℕ) < i :=
  lt_of_le_of_ne (Nat.lt_succ_iff.1 hk) fun h => hne (Fin.ext h)

/-- `main` is through with the creation of thread `i`, which is there if it has not
failed. -/
theorem Inv.create (hI : Inv n ret s) {i : Fin m} (hm : s.main = .create i) (hcore : Core n t)
    (hmain : t.main = .setFrom (i + 1)) (hbounds : t.thisBounds = s.thisBounds)
    (hother : ∀ k ≠ i, t.thread k = s.thread k) (hi : t.thread i = .new ↔ ret i ≠ 0) :
    Inv n ret t := by
  obtain ⟨-, hset, hb, hnew, -, -⟩ := hI
  rw [hm] at hset hb hnew
  refine ⟨hcore, ?_, fun k hk => ?_, fun k => ?_, fun k hk => ?_, fun _ h => ?_⟩ <;>
    rw [hmain] at *
  · trivial
  · rw [hbounds]
    by_cases hki : k = i
    · exact hki ▸ hset
    · exact hb k (lt_of_lt_succ hk hki)
  · simp only [created] at hnew ⊢
    by_cases hki : k = i
    · simp [hki, hi]
    · have hne : (k : ℕ) ≠ i := fun h => hki (Fin.ext h)
      rw [hother k hki, hnew k]
      omega
  · exact absurd hk (Nat.not_lt_zero _)
  · cases h

/-- A step of `main` that neither creates nor joins a thread. -/
theorem Inv.set (hI : Inv n ret s) (hcreate : ∀ i, s.main ≠ .create i)
    (hjoin : ∀ i, s.main ≠ .join i) (h : PartialSum.main n s = some t) : Inv n ret t := by
  obtain ⟨hcore, hset, hbounds, hnew, hjoined, hpr⟩ := hI
  have hnone : ∀ k : Fin m, (k : ℕ) < 0 → s.thread k = .done :=
    fun k hk => absurd hk (Nat.not_lt_zero _)
  rcases PartialSum.main_cases h with ⟨i, hm, rfl⟩ | ⟨i, hm, hi, rfl⟩ | ⟨i, hm, rfl⟩ |
    ⟨i, hm, -⟩ | ⟨i, hm, -⟩ | ⟨i, hm, -⟩ | ⟨hm, rfl⟩
  · rw [hm] at hbounds hnew
    refine ⟨hcore.congr rfl ⟨rfl, rfl, rfl⟩, by simp [Setting, chunk], fun k hk => ?_, hnew,
      hnone, fun _ h => absurd h (by simp)⟩
    have hne : k ≠ i := fun hki => by simp [hki, created] at hk
    simp only [Function.update_of_ne hne]
    exact hbounds k hk
  · rw [hm] at hbounds hnew
    refine ⟨hcore.congr rfl ⟨rfl, rfl, rfl⟩, Nat.zero_le m,
      fun k _ => hbounds k (k.2.trans_le hi), fun k => (hnew k).trans ?_, hnone,
      fun _ h => absurd h (by simp)⟩
    have hk := k.2
    simp only [created]
    omega
  · rw [hm] at hset hbounds hnew
    have hfrom : (s.thisBounds i).from_ = (chunk n m i).from_ := hset
    refine ⟨hcore.congr rfl ⟨rfl, rfl, rfl⟩, ?_, fun k hk => ?_, hnew, hnone,
      fun _ h => absurd h (by simp)⟩
    · simp only [Setting, Function.update_self, hfrom]
      rfl
    · have hne : k ≠ i := fun hki => by simp [hki, created] at hk
      simp only [Function.update_of_ne hne]
      exact hbounds k hk
  · exact absurd hm (hcreate i)
  · exact absurd hm (hjoin i)
  · exact absurd hm (hjoin i)
  · rw [hm] at hbounds hnew hjoined
    exact ⟨hcore.congr rfl ⟨rfl, rfl, rfl⟩, trivial, hbounds, hnew, hjoined,
      fun sum h => (Main.done.inj h).symm⟩

theorem Inv.main (hI : Inv n ret s) {q : Process m} (h : main n ret s = some q) :
    ∃ t, q = .running t ∧ Inv n ret t := by
  have hinv := hI
  obtain ⟨hcore, hset, hbounds, hnew, hjoined, hpr⟩ := hI
  rcases main_cases h with ⟨i, hm, hret, rfl⟩ | ⟨i, hm, hret, rfl⟩ | ⟨i, hm, hth, rfl⟩ |
    ⟨i, hm, hi, rfl⟩ | ⟨hnot, hjoin, t, ht, rfl⟩
  · have hi : s.thread i = .new := (hnew i).2 (.inl (by rw [hm]; exact le_rfl))
    refine ⟨_, rfl, hinv.create hm ((hcore.create hi).congr rfl ⟨rfl, rfl, rfl⟩) rfl rfl
      (fun k hk => ?_) ?_⟩
    · simp only [State.put, Function.update_of_ne hk]
    · simp [State.put, hret]
  · have hi : s.thread i = .new := (hnew i).2 (.inl (by rw [hm]; exact le_rfl))
    exact ⟨_, rfl, hinv.create hm (hcore.congr rfl ⟨rfl, rfl, rfl⟩) rfl rfl (fun _ _ => rfl)
      (iff_of_true hi hret)⟩
  · rw [hm] at hset hbounds hnew hjoined
    refine ⟨_, rfl, hcore.congr rfl ⟨rfl, rfl, rfl⟩, i.2, hbounds, hnew, fun k hk => ?_,
      fun _ h => absurd h (by simp)⟩
    by_cases hki : k = i
    · exact hki ▸ hth
    · exact hjoined k (lt_of_lt_succ hk hki)
  · rw [hm] at hset hbounds hnew hjoined
    exact ⟨_, rfl, hcore.congr rfl ⟨rfl, rfl, rfl⟩, trivial, hbounds, hnew,
      fun k hk => hjoined k (k.2.trans_le hi), fun _ h => absurd h (by simp)⟩
  · exact ⟨t, rfl, hinv.set hnot hjoin ht⟩

theorem Inv.step (hI : Inv n ret s) {a : Action m} {q : Process m}
    (h : step n ret (.running s) a = some q) : ∃ t, q = .running t ∧ Inv n ret t := by
  obtain ⟨u, hu, hrun, ⟨k, t, -, ht, rfl⟩ | ⟨-, hmain⟩⟩ := step_cases h
  · obtain rfl := Process.running.inj hu
    exact ⟨t, rfl, hI.computePartialSum hrun ht⟩
  · obtain rfl := Process.running.inj hu
    exact hI.main hmain

theorem inv_of_reachable {p : Process m} (h : (createThreads n ret).Reachable p) :
    ∃ s, p = .running s ∧ Inv n ret s := by
  refine h.invariant (I := fun p => ∃ s, p = .running s ∧ Inv n ret s) ?_ ?_
  · rintro _ ⟨thisBounds, rfl⟩
    exact ⟨_, rfl, inv_init thisBounds⟩
  · rintro _ a q ⟨s, rfl, hI⟩ hstep
    exact hI.step hstep

/-! ## The sum that is printed -/

/-- A sum is printed only if every thread was created, and it is the right one. -/
theorem Inv.printed_eq (hI : Inv n ret s) (hm : 0 < m) {sum : ℤ} (hd : s.main = .done sum) :
    (∀ k, ret k = 0) ∧ sum = BoundedBuffer.sumSquares n := by
  have hnew := hI.new
  have hjoined := hI.joined
  rw [hd] at hnew hjoined
  have hdone : ∀ k, s.thread k = .done := fun k => hjoined k k.2
  refine ⟨fun k => ?_, (hI.printed sum hd).trans (hI.total_eq hm hdone)⟩
  by_contra hret
  have hk := (hnew k).2 (.inr hret)
  rw [hdone k] at hk
  cases hk

/-! ## With every thread there, every run ends -/

/-- The steps a thread with these bounds has left, from its creation on. -/
def threadLeft (b : PartialSum.Bounds) : Thread → ℕ
  | .new => 7 * (b.to_ + 1 - b.from_) + 4
  | .copy => 7 * (b.to_ + 1 - b.from_) + 3
  | .start _ => 7 * (b.to_ + 1 - b.from_) + 2
  | .test _ i => 7 * (b.to_ + 1 - i) + 1
  | .lock _ i => 7 * (b.to_ + 1 - i)
  | .load _ i => 7 * (b.to_ + 1 - i) - 1
  | .store _ i _ => 7 * (b.to_ + 1 - i) - 2
  | .print _ i => 7 * (b.to_ + 1 - i) - 3
  | .unlock _ i => 7 * (b.to_ + 1 - i) - 4
  | .incr _ i => 7 * (b.to_ + 1 - i) - 5
  | .done => 0

/-- The steps `main` has left. -/
def mainLeft : Main m → ℕ
  | .setFrom i => 3 * (m - i) + m + 3
  | .setTo i => 3 * (m - i) + m + 2
  | .create i => 3 * (m - i) + m + 1
  | .join i => m - i + 2
  | .report => 1
  | .done _ => 0

/-- A bound on the steps left. -/
def left (n : ℕ) (s : State m) : ℕ :=
  ∑ k : Fin m, threadLeft (chunk n m k) (s.thread k) + mainLeft s.main

/-- A step of one thread that brings it nearer to its end. -/
theorem left_put {k : Fin m} {p q : Thread} (hk : s.thread k = q)
    (hthread : t.thread = Function.update s.thread k p) (hmain : t.main = s.main)
    (hlt : threadLeft (chunk n m k) p < threadLeft (chunk n m k) q) : left n t < left n s := by
  have hsum := Threads.sum_update_at (fun (k : Fin m) th => threadLeft (chunk n m k) th)
    s.thread k p
  rw [← hthread, hk] at hsum
  simp only [left, hmain]
  omega

theorem Inv.left_computePartialSum (hI : Inv n ret s) {k : Fin m}
    (h : PartialSum.computePartialSum s k = some t) : left n t < left n s := by
  have hok := hI.ok k
  rcases PartialSum.computePartialSum_cases h with ⟨hk, rfl⟩ | ⟨b, hk, rfl⟩ |
    ⟨b, i, hk, hle, rfl⟩ | ⟨b, i, hk, hlt, rfl⟩ | ⟨b, i, hk, hm, rfl⟩ | ⟨b, i, hk, rfl⟩ |
    ⟨b, i, sum, hk, rfl⟩ | ⟨b, i, hk, rfl⟩ | ⟨b, i, hk, rfl⟩ | ⟨b, i, hk, rfl⟩
  all_goals
    rw [hk] at hok
    refine left_put hk rfl rfl ?_
    simp only [Thread.Ok] at hok
    simp only [threadLeft]
  case inl => omega
  case inr.inl =>
    rw [hok]
    omega
  all_goals
    obtain ⟨rfl, hfrom, hto⟩ := hok
    omega

theorem Inv.left_main (hI : Inv n ret s)
    (h : ThreadCreation.main n ret s = some (.running t)) : left n t < left n s := by
  have hnew := hI.new
  rcases main_cases h with ⟨i, hm, -, ht⟩ | ⟨i, hm, -, ht⟩ | ⟨i, hm, -, ht⟩ | ⟨i, hm, hi, ht⟩ |
    ⟨hcreate, hjoin, u, hu, ht⟩ <;> obtain rfl := Process.running.inj ht
  case inl =>
    rw [hm] at hnew
    have hlt : left n (s.put i .copy) < left n s :=
      left_put ((hnew i).2 (.inl le_rfl)) rfl rfl (Nat.lt_succ_self _)
    refine lt_of_le_of_lt (Nat.add_le_add_left ?_ _) hlt
    simp only [State.put, hm, mainLeft]
    omega
  case inr.inr.inr.inr =>
    rcases PartialSum.main_cases hu with ⟨i, hm, rfl⟩ | ⟨i, hm, hi, rfl⟩ | ⟨i, hm, rfl⟩ |
      ⟨i, hm, -⟩ | ⟨i, hm, -⟩ | ⟨i, hm, -⟩ | ⟨hm, rfl⟩
    case inr.inr.inr.inl => exact absurd hm (hcreate i)
    case inr.inr.inr.inr.inl => exact absurd hm (hjoin i)
    case inr.inr.inr.inr.inr.inl => exact absurd hm (hjoin i)
    all_goals
      refine Nat.add_lt_add_left ?_ _
      simp only [hm, mainLeft]
      omega
  all_goals
    refine Nat.add_lt_add_left ?_ _
    simp only [hm, mainLeft]
    omega

/-- A thread that has been created can go on, unless it waits for the mutex. -/
theorem computePartialSum_blocked {k : Fin m} (hnew : s.thread k ≠ .new)
    (hdone : s.thread k ≠ .done) (h : PartialSum.computePartialSum s k = none) :
    s.mutex = true := by
  unfold PartialSum.computePartialSum at h
  cases hk : s.thread k <;> simp only [hk] at h <;> simp_all

/-- If some thread has not returned, some thread can go on. -/
theorem Inv.thread_goes_on (hI : Inv n ret s) {k : Fin m} (hnew : s.thread k ≠ .new)
    (hdone : s.thread k ≠ .done) : ∃ j, (PartialSum.computePartialSum s j).isSome := by
  by_cases hk : PartialSum.computePartialSum s k = none
  · -- the holder of the mutex is not blocked
    have hmutex := hI.mutex
    rw [computePartialSum_blocked hnew hdone hk] at hmutex
    obtain ⟨j, -, hj⟩ := exists_ne_zero_of_sum_ne_zero (by rw [hmutex]; decide)
    refine ⟨j, ?_⟩
    cases hth : s.thread j <;> simp_all [Thread.holds, PartialSum.computePartialSum]
  · exact ⟨k, Option.isSome_iff_ne_none.2 hk⟩

/-- With every thread created, the process goes on until it has printed the sum. -/
theorem Inv.goes_on (hI : Inv n ret s) (hret : ∀ k, ret k = 0) (hrun : ∀ sum, s.main ≠ .done sum) :
    ∃ a t, ThreadCreation.step n ret (.running s) a = some (.running t) ∧ Inv n ret t ∧
      left n t < left n s := by
  have hgo : (ThreadCreation.main n ret s).isSome → ∃ a t,
      ThreadCreation.step n ret (.running s) a = some (.running t) ∧ Inv n ret t ∧
        left n t < left n s := by
    intro hsome
    obtain ⟨q, hq⟩ := Option.isSome_iff_exists.1 hsome
    obtain ⟨t, rfl, ht⟩ := hI.main hq
    refine ⟨.main, t, ?_, ht, hI.left_main hq⟩
    cases hm : s.main <;> simp_all [ThreadCreation.step]
  cases hm : s.main with
  | done sum => exact absurd hm (hrun sum)
  | join i =>
    by_cases hi : i < m
    · by_cases hth : s.thread ⟨i, hi⟩ = .done
      · exact hgo (by simp [ThreadCreation.main, hm, hi, hth, pthreadJoin])
      · have hnew : s.thread ⟨i, hi⟩ ≠ .new := by simp [hI.new, hm, created, hret, hi]
        obtain ⟨k, hk⟩ := hI.thread_goes_on hnew hth
        obtain ⟨t, ht⟩ := Option.isSome_iff_exists.1 hk
        refine ⟨.thread k, t, ?_, hI.computePartialSum hrun ht, hI.left_computePartialSum ht⟩
        simp [ThreadCreation.step, hm, ht]
    · exact hgo (by simp [ThreadCreation.main, hm, hi])
  | create i =>
    refine hgo ?_
    simp only [ThreadCreation.main, hm]
    split_ifs <;> rfl
  | setFrom i =>
    refine hgo ?_
    by_cases hi : i < m <;> simp [ThreadCreation.main, PartialSum.main, hm, hi]
  | _ => exact hgo (by simp [ThreadCreation.main, PartialSum.main, hm])

def Process.left (n : ℕ) : Process m → ℕ
  | running s => ThreadCreation.left n s
  | exited => 0

/-- With every thread created, the process can go on from every state until it has printed
a sum. -/
theorem exists_printed (hret : ∀ k, ret k = 0) {p : Process m}
    (h : (createThreads n ret).Reachable p) :
    ∃ as q, (createThreads n ret).run p as = some q ∧ ∃ sum, q.Printed sum := by
  obtain ⟨as, q, hrun, -, hq⟩ := System.exists_run_of_measure (S := createThreads n ret)
    (I := fun p => ∃ s, p = .running s ∧ Inv n ret s) (F := fun p => ∃ sum, p.Printed sum)
    (μ := Process.left n) (fun p ⟨s, hp, hI⟩ hnot => by
      subst hp
      obtain ⟨a, t, hstep, ht, hlt⟩ := hI.goes_on hret fun sum hd => hnot ⟨sum, s, rfl, hd⟩
      exact ⟨a, .running t, hstep, ⟨t, rfl, ht⟩, hlt⟩) (inv_of_reachable h)
  exact ⟨as, q, hrun, hq⟩

theorem printed_eq (hm : 0 < m) {p : Process m} (h : (createThreads n ret).Reachable p)
    {sum : ℤ} (hp : p.Printed sum) :
    (∀ k, ret k = 0) ∧ sum = BoundedBuffer.sumSquares n := by
  obtain ⟨s, hs, hd⟩ := hp
  obtain ⟨t, ht, hI⟩ := inv_of_reachable h
  obtain rfl := Process.running.inj (hs.symm.trans ht)
  exact hI.printed_eq hm hd

/-- `main.c` reports no failure. -/
theorem not_exited {p : Process m} (h : (createThreads n ret).Reachable p) : p ≠ .exited := by
  obtain ⟨s, rfl, -⟩ := inv_of_reachable h
  intro hexit
  cases hexit

/-- `main.c` prints the right sum, or reports a failure, if and only if no creation
fails. -/
theorem handles_iff (hm : 0 < m) :
    Handles (createThreads n ret) (fun p => p = .exited) Process.Printed
      (BoundedBuffer.sumSquares n) ↔ ∀ k, ret k = 0 := by
  constructor
  · intro h
    have hstart : (createThreads n ret).Reachable (.running (PartialSum.init fun _ => ⟨0, 0⟩)) :=
      ⟨_, [], ⟨_, rfl⟩, rfl⟩
    obtain ⟨as, q, hrun, hexit | ⟨sum, hq⟩⟩ := h.ends _ hstart
    · exact absurd hexit (not_exited (hstart.run hrun))
    · exact (printed_eq hm (hstart.run hrun) hq).1
  · intro hret
    refine ⟨fun p hp sum hprinted => (printed_eq hm hp hprinted).2, fun p hp => ?_⟩
    obtain ⟨as, q, hrun, hq⟩ := exists_printed hret hp
    exact ⟨as, q, hrun, .inr hq⟩

end ThreadCreation

end NetCentric
