import NetCentric.BufferSum
import Mathlib.Order.Interval.Finset.Nat
import Mathlib.Order.Interval.Multiset

/-!
# The sum of squares of Homework 2, levels 1 and 2

`main.c` cuts `1, …, n` into one chunk for each thread, and each thread
(`computePartialSum`) adds the squares of its chunk to `totalSum`, one at a time under
`totalSum_mutex`. `main` writes the bounds of thread `k` into `thisBounds[k]`, creates the
thread, and after the last creation joins all of them.

Every statement is one step, and `totalSum += i * i` is a load and a store, so a run of
`sumThreads` is an interleaving of the threads. `pthread_mutex_lock` and `pthread_join`
are disabled while they block. The creations succeed. `added` is the integers whose
squares have been stored, in order, which no statement reads. `Core` is the part of the
invariant that the threads keep by themselves, whatever `main` does.

`partial_sums` : the chunks meet exactly (`sum_chunks`), and no update is lost, so after
the joins every integer from `1` to `n` is added once.
-/

open Finset

namespace NetCentric

namespace PartialSum

/-- The struct `bounds`. -/
structure Bounds where
  from_ : ℕ
  to_ : ℕ
  deriving DecidableEq

/-- The statement of `computePartialSum` a thread runs next, with its locals. -/
inductive Thread
  /-- Not created yet. -/
  | new
  /-- `myBounds = *((bounds *) boundsArg)`. -/
  | copy
  /-- `usleep`, then `i = myBounds.from`. -/
  | start (myBounds : Bounds)
  /-- `i <= myBounds.to`. -/
  | test (myBounds : Bounds) (i : ℕ)
  /-- `pthread_mutex_lock(&totalSum_mutex)`. -/
  | lock (myBounds : Bounds) (i : ℕ)
  /-- The load of `totalSum += i * i`. -/
  | load (myBounds : Bounds) (i : ℕ)
  /-- The store of `totalSum += i * i`, `sum` being what the load saw. -/
  | store (myBounds : Bounds) (i : ℕ) (sum : ℤ)
  /-- `printf`. -/
  | print (myBounds : Bounds) (i : ℕ)
  /-- `pthread_mutex_unlock(&totalSum_mutex)`. -/
  | unlock (myBounds : Bounds) (i : ℕ)
  /-- `i++`. -/
  | incr (myBounds : Bounds) (i : ℕ)
  /-- Returned. -/
  | done
  deriving DecidableEq

/-- The statement `main` runs next, from the first loop on. -/
inductive Main (m : ℕ)
  /-- `thisBounds[i].from = i * n / numThreads + 1`, if `i < numThreads`. -/
  | setFrom (i : ℕ)
  /-- `thisBounds[i].to = (i + 1) * n / numThreads`. -/
  | setTo (i : Fin m)
  /-- `pthread_create`. -/
  | create (i : Fin m)
  /-- `pthread_join(tid[i], NULL)`, if `i < numThreads`. -/
  | join (i : ℕ)
  /-- The `printf` of the final sum. -/
  | report
  /-- Returned after printing `sum`. -/
  | done (sum : ℤ)

/-- The shared state, the threads, and the integers added so far. -/
structure State (m : ℕ) where
  totalSum : ℤ
  /-- `totalSum_mutex` is locked. -/
  mutex : Bool
  thisBounds : Fin m → Bounds
  thread : Fin m → Thread
  main : Main m
  added : List ℕ

variable {m : ℕ}

/-- The state before the first loop, for what `malloc` left in `thisBounds`. -/
def init (thisBounds : Fin m → Bounds) : State m where
  totalSum := 0
  mutex := false
  thisBounds := thisBounds
  thread := fun _ => .new
  main := .setFrom 0
  added := []

/-- Thread `k` goes on at `p`. -/
def State.put (s : State m) (k : Fin m) (p : Thread) : State m :=
  { s with thread := Function.update s.thread k p }

/-- Thread `k`. -/
def computePartialSum (s : State m) (k : Fin m) : Option (State m) :=
  match s.thread k with
  | .new => none
  | .copy => some (s.put k (.start (s.thisBounds k)))
  | .start b => some (s.put k (.test b b.from_))
  | .test b i => some (s.put k (if i ≤ b.to_ then .lock b i else .done))
  | .lock b i => if s.mutex then none else some { s.put k (.load b i) with mutex := true }
  | .load b i => some (s.put k (.store b i s.totalSum))
  | .store b i sum =>
    some { s.put k (.print b i) with totalSum := sum + i * i, added := s.added ++ [i] }
  | .print b i => some (s.put k (.unlock b i))
  | .unlock b i => some { s.put k (.incr b i) with mutex := false }
  | .incr b i => some (s.put k (.test b (i + 1)))
  | .done => none

/-- The main thread, from the first loop on. -/
def main (n : ℕ) (s : State m) : Option (State m) :=
  match s.main with
  | .setFrom i =>
    if h : i < m then
      some { s with
        main := .setTo ⟨i, h⟩
        thisBounds := Function.update s.thisBounds ⟨i, h⟩
          { s.thisBounds ⟨i, h⟩ with from_ := i * n / m + 1 } }
    else some { s with main := .join 0 }
  | .setTo i =>
    some { s with
      main := .create i
      thisBounds := Function.update s.thisBounds i
        { s.thisBounds i with to_ := (i + 1) * n / m } }
  | .create i => some { s.put i .copy with main := .setFrom (i + 1) }
  | .join i =>
    if h : i < m then
      if s.thread ⟨i, h⟩ = .done then some { s with main := .join (i + 1) } else none
    else some { s with main := .report }
  | .report => some { s with main := .done s.totalSum }
  | .done _ => none

/-- One step of one thread. -/
inductive Action (m : ℕ)
  | thread (k : Fin m)
  | main

/-- One step of the process, which ends when `main` returns. -/
def step (n : ℕ) (s : State m) (a : Action m) : Option (State m) :=
  match s.main, a with
  | .done _, _ => none
  | _, .thread k => computePartialSum s k
  | _, .main => main n s

/-- The program with the arguments `n` and `m`. -/
def sumThreads (n m : ℕ) : System (State m) (Action m) where
  Init s := ∃ thisBounds, s = init thisBounds
  step := step n

/-! ## What a step can do -/

theorem step_cases {n : ℕ} {s t : State m} {a : Action m} (h : step n s a = some t) :
    (∀ sum, s.main ≠ .done sum) ∧
      ((∃ k, a = .thread k ∧ computePartialSum s k = some t) ∨
        a = .main ∧ main n s = some t) := by
  cases a with
  | thread k => cases hm : s.main <;> simp_all [step]
  | main => cases hm : s.main <;> simp_all [step]

/-- What a step of thread `k` does. -/
theorem computePartialSum_cases {s t : State m} {k : Fin m}
    (h : computePartialSum s k = some t) :
    (s.thread k = .copy ∧ t = s.put k (.start (s.thisBounds k))) ∨
      (∃ b, s.thread k = .start b ∧ t = s.put k (.test b b.from_)) ∨
      (∃ b i, s.thread k = .test b i ∧ i ≤ b.to_ ∧ t = s.put k (.lock b i)) ∨
      (∃ b i, s.thread k = .test b i ∧ b.to_ < i ∧ t = s.put k .done) ∨
      (∃ b i, s.thread k = .lock b i ∧ s.mutex = false ∧
        t = { s.put k (.load b i) with mutex := true }) ∨
      (∃ b i, s.thread k = .load b i ∧ t = s.put k (.store b i s.totalSum)) ∨
      (∃ b i sum, s.thread k = .store b i sum ∧ t = { s.put k (.print b i) with
        totalSum := sum + i * i
        added := s.added ++ [i] }) ∨
      (∃ b i, s.thread k = .print b i ∧ t = s.put k (.unlock b i)) ∨
      (∃ b i, s.thread k = .unlock b i ∧ t = { s.put k (.incr b i) with mutex := false }) ∨
      (∃ b i, s.thread k = .incr b i ∧ t = s.put k (.test b (i + 1))) := by
  unfold computePartialSum at h
  cases hk : s.thread k <;> simp only [hk] at h
  case test b i => by_cases hle : i ≤ b.to_ <;> simp_all
  case lock => split at h <;> simp_all
  all_goals simp_all

/-- What a step of `main` does. -/
theorem main_cases {n : ℕ} {s t : State m} (h : main n s = some t) :
    (∃ i : Fin m, s.main = .setFrom i ∧ t = { s with
        main := .setTo i
        thisBounds := Function.update s.thisBounds i
          { s.thisBounds i with from_ := i * n / m + 1 } }) ∨
      (∃ i, s.main = .setFrom i ∧ m ≤ i ∧ t = { s with main := .join 0 }) ∨
      (∃ i : Fin m, s.main = .setTo i ∧ t = { s with
        main := .create i
        thisBounds := Function.update s.thisBounds i
          { s.thisBounds i with to_ := (i + 1) * n / m } }) ∨
      (∃ i : Fin m, s.main = .create i ∧
        t = { s.put i .copy with main := .setFrom (i + 1) }) ∨
      (∃ i : Fin m, s.main = .join i ∧ s.thread i = .done ∧
        t = { s with main := .join (i + 1) }) ∨
      (∃ i, s.main = .join i ∧ m ≤ i ∧ t = { s with main := .report }) ∨
      (s.main = .report ∧ t = { s with main := .done s.totalSum }) := by
  unfold main at h
  cases hm : s.main <;> simp only [hm] at h
  case setFrom i =>
    split at h
    case isTrue hi => exact .inl ⟨⟨i, hi⟩, rfl, (Option.some.inj h).symm⟩
    case isFalse hi => exact .inr (.inl ⟨i, rfl, Nat.le_of_not_lt hi, (Option.some.inj h).symm⟩)
  case join i =>
    split at h
    case isTrue hi =>
      split at h
      case isTrue hdone =>
        exact .inr (.inr (.inr (.inr (.inl ⟨⟨i, hi⟩, rfl, hdone, (Option.some.inj h).symm⟩))))
      case isFalse => cases h
    case isFalse hi => simp_all
  all_goals simp_all

/-! ## The chunks -/

/-- The bounds of thread `k`. -/
def chunk (n m k : ℕ) : Bounds :=
  ⟨k * n / m + 1, (k + 1) * n / m⟩

theorem chunk_le (n m k : ℕ) : (chunk n m k).from_ ≤ (chunk n m k).to_ + 1 :=
  Nat.succ_le_succ (Nat.div_le_div_right (Nat.mul_le_mul_right n (Nat.le_succ k)))

/-- With no more threads than integers, no chunk is empty. -/
theorem chunk_nonempty {n m : ℕ} (hm : 0 < m) (hle : m ≤ n) (k : ℕ) :
    (chunk n m k).from_ ≤ (chunk n m k).to_ := by
  have hdiv : k * n / m + 1 = (k * n + m) / m := (Nat.add_div_right _ hm).symm
  rw [chunk, hdiv, Nat.succ_mul]
  exact Nat.div_le_div_right (Nat.add_le_add_left hle _)

theorem Ico_succ {a b : ℕ} (h : a ≤ b) :
    Multiset.Ico a (b + 1) = Multiset.Ico a b + {b} := by
  rw [← Multiset.Ico_add_Ico_eq_Ico h (Nat.le_succ b)]
  simp [Multiset.Ico]

/-- The chunks meet exactly : together they are `1, …, n`. -/
theorem sum_chunks {n m : ℕ} (hm : 0 < m) :
    ∑ k : Fin m, Multiset.Ico (chunk n m k).from_ ((chunk n m k).to_ + 1) =
      Multiset.Ico 1 (n + 1) := by
  have hprefix : ∀ j, ∑ k ∈ range j, Multiset.Ico (chunk n m k).from_ ((chunk n m k).to_ + 1) =
      Multiset.Ico 1 (j * n / m + 1) := by
    intro j
    induction j with
    | zero => simp
    | succ j ih =>
      rw [sum_range_succ, ih]
      exact Multiset.Ico_add_Ico_eq_Ico (Nat.succ_le_succ (Nat.zero_le _)) (chunk_le n m j)
  rw [Fin.sum_univ_eq_sum_range fun k => Multiset.Ico (chunk n m k).from_ ((chunk n m k).to_ + 1),
    hprefix, Nat.mul_div_cancel_left n hm]

/-! ## The invariant -/

/-- The next integer that a thread with these bounds adds. -/
def Thread.next (b : Bounds) : Thread → ℕ
  | new | copy | start _ => b.from_
  | test _ i | lock _ i | load _ i | store _ i _ => i
  | print _ i | unlock _ i | incr _ i => i + 1
  | done => b.to_ + 1

/-- The thread has the bounds it was created for, and its counter is inside them. -/
def Thread.Ok (b : Bounds) : Thread → Prop
  | new | copy | done => True
  | start c => c = b
  | test c i => c = b ∧ b.from_ ≤ i ∧ i ≤ b.to_ + 1
  | lock c i | load c i | store c i _ | print c i | unlock c i | incr c i =>
    c = b ∧ b.from_ ≤ i ∧ i ≤ b.to_

/-- In the critical section. -/
def Thread.holds : Thread → ℕ
  | load _ _ | store _ _ _ | print _ _ | unlock _ _ => 1
  | _ => 0

/-- A loaded copy is current. -/
def Thread.Current (totalSum : ℤ) : Thread → Prop
  | store _ _ sum => sum = totalSum
  | _ => True

/-- What `main` has set, created and joined. -/
def Started (n : ℕ) (s : State m) : Main m → Prop
  | .setFrom i => (∀ k : Fin m, k < i → s.thisBounds k = chunk n m k) ∧
      ∀ k : Fin m, i ≤ k → s.thread k = .new
  | .setTo i => (s.thisBounds i).from_ = (chunk n m i).from_ ∧
      (∀ k < i, s.thisBounds k = chunk n m k) ∧ ∀ k, i ≤ k → s.thread k = .new
  | .create i => (∀ k ≤ i, s.thisBounds k = chunk n m k) ∧ ∀ k, i ≤ k → s.thread k = .new
  | .join i => (∀ k, s.thisBounds k = chunk n m k) ∧ ∀ k : Fin m, k < i → s.thread k = .done
  | .report | .done _ => ∀ k, s.thread k = .done

/-- What the threads keep to, whatever `main` has done. -/
structure Core (n : ℕ) (s : State m) : Prop where
  ok : ∀ k, (s.thread k).Ok (chunk n m k)
  mutex : ∑ k, (s.thread k).holds = s.mutex.toNat
  current : ∀ k, (s.thread k).Current s.totalSum
  /-- The integers added are those each thread is through with. -/
  added : (s.added : Multiset ℕ) =
    ∑ k : Fin m, Multiset.Ico (chunk n m k).from_ ((s.thread k).next (chunk n m k))
  total : s.totalSum = ((s.added.map fun i => i * i).sum : ℕ)

/-- The invariant. -/
structure Inv (n : ℕ) (s : State m) : Prop extends Core n s where
  started : Started n s s.main
  printed : ∀ sum, s.main = .done sum → sum = s.totalSum

variable {n : ℕ} {s t : State m}

theorem core_init (thisBounds : Fin m → Bounds) : Core n (init thisBounds) := by
  constructor <;> simp [init, Thread.Ok, Thread.holds, Thread.Current, Thread.next]

theorem inv_init (thisBounds : Fin m → Bounds) : Inv n (init thisBounds) :=
  ⟨core_init thisBounds, ⟨fun _ hk => absurd hk (Nat.not_lt_zero _), fun _ _ => rfl⟩,
    fun _ h => absurd h (by simp [init])⟩

/-- A thread that is about to copy its bounds finds them. -/
theorem Started.bounds (h : Started n s s.main) {k : Fin m} (hk : s.thread k = .copy) :
    s.thisBounds k = chunk n m k := by
  have hnew : s.thread k ≠ .new := by simp [hk]
  cases hm : s.main with
  | setFrom i =>
    rw [hm] at h
    exact h.1 k (Nat.lt_of_not_le fun hle => hnew (h.2 k hle))
  | setTo i =>
    rw [hm] at h
    exact h.2.1 k (lt_of_not_ge fun hle => hnew (h.2.2 k hle))
  | create i =>
    rw [hm] at h
    exact h.1 k (le_of_not_ge fun hle => hnew (h.2 k hle))
  | join i =>
    rw [hm] at h
    exact h.1 k
  | report =>
    rw [hm] at h
    simp [h k] at hk
  | done sum =>
    rw [hm] at h
    simp [h k] at hk

/-- A step of a thread that runs changes none of it. -/
theorem Started.put (h : Started n s s.main) {k : Fin m} {p : Thread}
    (hnew : s.thread k ≠ .new) (hdone : s.thread k ≠ .done)
    (hthread : t.thread = Function.update s.thread k p) (hbounds : t.thisBounds = s.thisBounds)
    (hmain : t.main = s.main) : Started n t t.main := by
  have hkeep : ∀ {q : Thread} {j}, s.thread j = q → s.thread k ≠ q → t.thread j = q := by
    intro q j hj hq
    have hne : j ≠ k := fun hjk => hq (hjk ▸ hj)
    rw [hthread, Function.update_of_ne hne, hj]
  rw [hmain]
  cases hm : s.main <;> rw [hm] at h <;> simp only [Started, hbounds] at h ⊢
  case setFrom i => exact ⟨h.1, fun j hj => hkeep (h.2 j hj) hnew⟩
  case setTo i => exact ⟨h.1, h.2.1, fun j hj => hkeep (h.2.2 j hj) hnew⟩
  case create i => exact ⟨h.1, fun j hj => hkeep (h.2 j hj) hnew⟩
  case join i => exact ⟨h.1, fun j hj => hkeep (h.2 j hj) hdone⟩
  all_goals exact fun j => hkeep (h j) hdone

/-- A step of `main` that starts no thread. -/
theorem Core.congr (hC : Core n s) (hthread : t.thread = s.thread)
    (hrest : t.mutex = s.mutex ∧ t.totalSum = s.totalSum ∧ t.added = s.added) : Core n t := by
  obtain ⟨hmutex, htotal, hadded⟩ := hrest
  obtain ⟨hok, hmut, hcur, hadd, htot⟩ := hC
  constructor <;> rw [hthread] at * <;> simp_all

/-- Two threads in the critical section are the same one. -/
theorem Core.exclusive (hC : Core n s) {j k : Fin m} (hj : (s.thread j).holds = 1)
    (hk : (s.thread k).holds = 1) : j = k := by
  refine Threads.sum_le_one_unique (w := Thread.holds) (f := s.thread) ?_ (by omega) (by omega)
  rw [hC.mutex]
  exact Bool.toNat_le _

/-- The mutex is locked while a thread is in the critical section. -/
theorem Core.locked (hC : Core n s) {k : Fin m} (hk : (s.thread k).holds = 1) :
    s.mutex = true := by
  have hle := Threads.le_sum Thread.holds s.thread k
  rw [hC.mutex, hk] at hle
  cases hm : s.mutex with
  | true => rfl
  | false =>
    rw [hm] at hle
    exact absurd hle (by decide)

theorem Thread.current_of_not_holds {p : Thread} (h : p.holds ≠ 1) (totalSum : ℤ) :
    p.Current totalSum := by
  cases p <;> simp_all [Thread.holds, Thread.Current]

/-- A step of one thread keeps to it if it balances the mutex and the integers added, and
moves `totalSum` only under the mutex. -/
theorem Core.put (hC : Core n s) {k : Fin m} {p : Thread}
    (hthread : t.thread = Function.update s.thread k p) (hok : p.Ok (chunk n m k))
    (hmutex : t.mutex.toNat + (s.thread k).holds = s.mutex.toNat + p.holds)
    (hcur : p.Current t.totalSum)
    (hadded : (t.added : Multiset ℕ) +
        Multiset.Ico (chunk n m k).from_ ((s.thread k).next (chunk n m k)) =
      s.added + Multiset.Ico (chunk n m k).from_ (p.next (chunk n m k)))
    (htotal : t.totalSum = ((t.added.map fun i => i * i).sum : ℕ))
    (hother : t.totalSum = s.totalSum ∨ (s.thread k).holds = 1) : Core n t := by
  have hholds := Threads.sum_update Thread.holds s.thread k p
  have hico := Threads.sum_update_at
    (fun (k : Fin m) th => Multiset.Ico (chunk n m k).from_ (th.next (chunk n m k))) s.thread k p
  have hmut := hC.mutex
  rw [← hthread] at hholds hico
  rw [← hC.added, ← hadded] at hico
  refine ⟨fun j => ?_, by omega, fun j => ?_, (add_right_cancel hico).symm, htotal⟩
  · by_cases hj : j = k
    · rw [hj, hthread, Function.update_self]
      exact hok
    · rw [hthread, Function.update_of_ne hj]
      exact hC.ok j
  · by_cases hj : j = k
    · rw [hj, hthread, Function.update_self]
      exact hcur
    rw [hthread, Function.update_of_ne hj]
    rcases hother with htot | hk
    · rw [htot]
      exact hC.current j
    · exact Thread.current_of_not_holds (fun h => hj (hC.exclusive h hk)) _

/-- A step of one thread that adds nothing. -/
theorem Core.move (hC : Core n s) {k : Fin m} {p q : Thread} (hk : s.thread k = q)
    (mutex : Bool) (hok : p.Ok (chunk n m k))
    (hmutex : mutex.toNat + q.holds = s.mutex.toNat + p.holds) (hcur : p.Current s.totalSum)
    (hnext : q.next (chunk n m k) = p.next (chunk n m k)) :
    Core n { s.put k p with mutex := mutex } := by
  subst hk
  exact hC.put rfl hok hmutex hcur (by rw [hnext]; rfl) hC.total (.inl rfl)

/-- A thread that starts has added nothing. -/
theorem Core.create (hC : Core n s) {k : Fin m} (hk : s.thread k = .new) :
    Core n (s.put k .copy) :=
  hC.move hk s.mutex trivial rfl trivial rfl

theorem Core.computePartialSum {k : Fin m} (hC : Core n s)
    (hbounds : s.thread k = .copy → s.thisBounds k = chunk n m k)
    (h : computePartialSum s k = some t) : Core n t := by
  have hok := hC.ok k
  rcases computePartialSum_cases h with ⟨hk, rfl⟩ | ⟨b, hk, rfl⟩ | ⟨b, i, hk, hle, rfl⟩ |
    ⟨b, i, hk, hlt, rfl⟩ | ⟨b, i, hk, hm, rfl⟩ | ⟨b, i, hk, rfl⟩ | ⟨b, i, sum, hk, rfl⟩ |
    ⟨b, i, hk, rfl⟩ | ⟨b, i, hk, rfl⟩ | ⟨b, i, hk, rfl⟩ <;> rw [hk] at hok
  · exact hC.move hk s.mutex (hbounds hk) rfl trivial rfl
  · obtain rfl : b = chunk n m k := hok
    exact hC.move hk s.mutex ⟨rfl, le_rfl, chunk_le n m k⟩ rfl trivial rfl
  · obtain ⟨rfl, hfrom, -⟩ := hok
    exact hC.move hk s.mutex ⟨rfl, hfrom, hle⟩ rfl trivial rfl
  · obtain ⟨rfl, -, hle⟩ := hok
    obtain rfl : i = (chunk n m k).to_ + 1 := le_antisymm hle hlt
    exact hC.move hk s.mutex trivial rfl trivial rfl
  · exact hC.move hk true hok (by simp [hm, Thread.holds]) trivial rfl
  · exact hC.move hk s.mutex hok rfl rfl rfl
  · -- the copy that was loaded is still what `totalSum` holds
    have hsum : sum = s.totalSum := by
      have hcur := hC.current k
      rwa [hk] at hcur
    refine hC.put (k := k) rfl hok (by simp [hk, Thread.holds, State.put]) trivial ?_ ?_
      (.inr (by rw [hk]; rfl))
    · simp only [hk, Thread.next, Ico_succ hok.2.1, ← Multiset.coe_add, Multiset.coe_singleton]
      ac_rfl
    · simp [hsum, hC.total]
  · exact hC.move hk s.mutex hok rfl trivial rfl
  · have hlocked : s.mutex = true := hC.locked (k := k) (by rw [hk]; rfl)
    exact hC.move hk false hok (by simp [hlocked, Thread.holds]) trivial rfl
  · exact hC.move hk s.mutex ⟨hok.1, Nat.le_succ_of_le hok.2.1, Nat.succ_le_succ hok.2.2⟩ rfl
      trivial rfl

/-- A thread that takes a step has been created and has not returned, and its step is of no
other thread and not of `main`. -/
theorem computePartialSum_frame {k : Fin m} (h : computePartialSum s k = some t) :
    s.thread k ≠ .new ∧ s.thread k ≠ .done ∧
      (∃ p, p ≠ .new ∧ t.thread = Function.update s.thread k p) ∧
      t.thisBounds = s.thisBounds ∧ t.main = s.main := by
  rcases computePartialSum_cases h with ⟨hk, rfl⟩ | ⟨b, hk, rfl⟩ | ⟨b, i, hk, -, rfl⟩ |
    ⟨b, i, hk, -, rfl⟩ | ⟨b, i, hk, -, rfl⟩ | ⟨b, i, hk, rfl⟩ | ⟨b, i, sum, hk, rfl⟩ |
    ⟨b, i, hk, rfl⟩ | ⟨b, i, hk, rfl⟩ | ⟨b, i, hk, rfl⟩ <;>
    exact ⟨by simp [hk], by simp [hk], ⟨_, by simp, rfl⟩, rfl, rfl⟩

theorem Inv.computePartialSum {k : Fin m} (hI : Inv n s) (hrun : ∀ sum, s.main ≠ .done sum)
    (h : computePartialSum s k = some t) : Inv n t := by
  obtain ⟨hnew, hdone, ⟨p, -, hthread⟩, hbounds, hmain⟩ := computePartialSum_frame h
  exact ⟨hI.toCore.computePartialSum hI.started.bounds h,
    hI.started.put hnew hdone hthread hbounds hmain,
    fun sum hd => absurd (hmain ▸ hd) (hrun sum)⟩

theorem Inv.main (hI : Inv n s) (h : main n s = some t) : Inv n t := by
  obtain ⟨hC, hst, hpr⟩ := hI
  rcases main_cases h with ⟨i, hm, rfl⟩ | ⟨i, hm, hi, rfl⟩ | ⟨i, hm, rfl⟩ | ⟨i, hm, rfl⟩ |
    ⟨i, hm, hdone, rfl⟩ | ⟨i, hm, hi, rfl⟩ | ⟨hm, rfl⟩ <;> rw [hm] at hst
  · refine ⟨hC.congr rfl ⟨rfl, rfl, rfl⟩, ⟨by simp [chunk], fun k hk => ?_, hst.2⟩,
      fun sum h => absurd h (by simp)⟩
    simp only [Function.update_of_ne hk.ne]
    exact hst.1 k hk
  · exact ⟨hC.congr rfl ⟨rfl, rfl, rfl⟩,
      ⟨fun k => hst.1 k (k.2.trans_le hi), fun k hk => absurd hk (Nat.not_lt_zero _)⟩,
      fun sum h => absurd h (by simp)⟩
  · refine ⟨hC.congr rfl ⟨rfl, rfl, rfl⟩, ⟨fun k hk => ?_, hst.2.2⟩,
      fun sum h => absurd h (by simp)⟩
    rcases hk.lt_or_eq with hlt | rfl
    · simp only [Function.update_of_ne hlt.ne]
      exact hst.2.1 k hlt
    · simp only [Function.update_self, hst.1]
      rfl
  · refine ⟨(hC.create (hst.2 i le_rfl)).congr rfl ⟨rfl, rfl, rfl⟩,
      ⟨fun k hk => hst.1 k (Nat.lt_succ_iff.1 hk), fun k hk => ?_⟩,
      fun sum h => absurd h (by simp)⟩
    have hne : k ≠ i := fun hki => by simp [hki] at hk
    simp only [State.put, Function.update_of_ne hne]
    exact hst.2 k (Nat.le_of_succ_le hk)
  · refine ⟨hC.congr rfl ⟨rfl, rfl, rfl⟩, ⟨hst.1, fun k hk => ?_⟩, fun sum h => absurd h (by simp)⟩
    rcases Nat.lt_succ_iff_lt_or_eq.1 hk with hlt | heq
    · exact hst.2 k hlt
    · exact Fin.ext heq ▸ hdone
  · exact ⟨hC.congr rfl ⟨rfl, rfl, rfl⟩, fun k => hst.2 k (k.2.trans_le hi),
      fun sum h => absurd h (by simp)⟩
  · exact ⟨hC.congr rfl ⟨rfl, rfl, rfl⟩, hst, fun sum h => (Main.done.inj h).symm⟩

theorem Inv.step {a : Action m} (hI : Inv n s) (h : step n s a = some t) : Inv n t := by
  obtain ⟨hrun, ⟨k, -, h⟩ | ⟨-, h⟩⟩ := step_cases h
  · exact hI.computePartialSum hrun h
  · exact hI.main h

theorem inv_of_reachable (h : (sumThreads n m).Reachable s) : Inv n s :=
  h.invariant (fun _ ⟨thisBounds, hs⟩ => hs ▸ inv_init thisBounds) fun _ _ _ hI hstep =>
    hI.step hstep

/-! ## The final sum -/

/-- The squares of `1, …, n`. -/
theorem sum_Ico_squares (n : ℕ) :
    (((Multiset.Ico 1 (n + 1)).map fun i => i * i).sum : ℕ) = BoundedBuffer.sumSquares n := by
  induction n with
  | zero => rfl
  | succ n ih =>
    rw [Ico_succ (Nat.le_add_left 1 n), Multiset.map_add, Multiset.sum_add, Nat.cast_add, ih,
      BoundedBuffer.sumSquares_succ]
    simp

theorem Thread.Ok.next_le {k : ℕ} {p : Thread} (h : p.Ok (chunk n m k)) :
    (chunk n m k).from_ ≤ p.next (chunk n m k) ∧
      p.next (chunk n m k) ≤ (chunk n m k).to_ + 1 := by
  have hchunk := chunk_le n m k
  cases p <;> simp_all [Thread.Ok, Thread.next] <;> omega

/-- No integer is added that is not one of `1, …, n`, and none twice. -/
theorem Core.added_le (hC : Core n s) (hm : 0 < m) :
    (s.added : Multiset ℕ) ≤ Multiset.Ico 1 (n + 1) := by
  rw [hC.added, ← sum_chunks hm]
  refine sum_le_sum fun k _ => ?_
  obtain ⟨hfrom, hto⟩ := (hC.ok k).next_le
  rw [← Multiset.Ico_add_Ico_eq_Ico hfrom hto]
  exact Multiset.le_add_right _ _

theorem Core.totalSum_le (hC : Core n s) (hm : 0 < m) :
    0 ≤ s.totalSum ∧ s.totalSum ≤ BoundedBuffer.sumSquares n := by
  obtain ⟨rest, hrest⟩ := Multiset.le_iff_exists_add.1 (hC.added_le hm)
  have hsum := sum_Ico_squares n
  rw [hrest, Multiset.map_add, Multiset.sum_add, Multiset.map_coe, Multiset.sum_coe] at hsum
  rw [hC.total, ← hsum]
  exact ⟨Int.natCast_nonneg _, Int.ofNat_le.2 (Nat.le_add_right _ _)⟩

theorem Core.fits (hC : Core n s) (hm : 0 < m) (hn : n ≤ 1000) : FitsInt s.totalSum := by
  obtain ⟨hnonneg, hle⟩ := hC.totalSum_le hm
  have hmax := BoundedBuffer.sumSquares_le hn
  refine fitsInt_of_nonneg hnonneg ?_
  simp only [INT_MAX]
  push_cast at hmax
  omega

/-- When every thread has returned, every integer has been added once. -/
theorem Core.added_eq (hC : Core n s) (hm : 0 < m) (hdone : ∀ k, s.thread k = .done) :
    (s.added : Multiset ℕ) = Multiset.Ico 1 (n + 1) := by
  rw [hC.added, ← sum_chunks hm]
  exact sum_congr rfl fun k _ => by rw [hdone k, Thread.next]

theorem Core.total_eq (hC : Core n s) (hm : 0 < m) (hdone : ∀ k, s.thread k = .done) :
    s.totalSum = BoundedBuffer.sumSquares n := by
  rw [hC.total, ← sum_Ico_squares, ← hC.added_eq hm hdone, Multiset.map_coe, Multiset.sum_coe]

/-- `main` is through its joins. -/
def Main.joined : Main m → Prop
  | report | done _ => True
  | _ => False

/-- After the joins every thread has returned. -/
theorem Inv.joined (hI : Inv n s) (hj : s.main.joined) (k : Fin m) : s.thread k = .done := by
  have hst := hI.started
  cases hmain : s.main <;> simp_all [Main.joined, Started]

/-- The sum of squares, for every schedule. `totalSum` and the addition to it fit an
`int`, and once `main` is through its joins the integers added are `1, …, n`, each once,
and `totalSum` is `1² + … + n²`, which is what `main` prints. -/
theorem partial_sums (hargs : BoundedBuffer.ArgsOk n m) (h : (sumThreads n m).Reachable s) :
    FitsInt s.totalSum ∧
      (∀ k b i sum, s.thread k = .store b i sum →
        FitsInt (i * i) ∧ FitsInt (sum + i * i)) ∧
      (s.main.joined →
        s.added.Perm (List.range' 1 n) ∧ s.totalSum = BoundedBuffer.sumSquares n) ∧
      ∀ sum, s.main = .done sum → sum = BoundedBuffer.sumSquares n := by
  have hm : 0 < m := by
    have := hargs.2
    omega
  have hn : n ≤ 1000 := by
    have := hargs.1
    omega
  have hI := inv_of_reachable h
  refine ⟨hI.fits hm hn, fun k b i sum hk => ?_,
    fun hj => ⟨?_, hI.total_eq hm (hI.joined hj)⟩, fun sum hd => ?_⟩
  · -- the state after the store is reachable
    have hrun : ∀ sum, s.main ≠ .done sum := by
      intro out hout
      have hst := hI.started
      rw [hout] at hst
      simp [hst k] at hk
    have hstep : computePartialSum s k = some { s.put k (.print b i) with
        totalSum := sum + i * i
        added := s.added ++ [i] } := by
      rw [PartialSum.computePartialSum, hk]
    have hfit := (hI.computePartialSum hrun hstep).fits hm hn
    have hcur : sum = s.totalSum := by
      have := hI.current k
      rwa [hk] at this
    have hsum : 0 ≤ sum := hcur ▸ (hI.totalSum_le hm).1
    have hsq := mul_self_nonneg (i : ℤ)
    have hmax : sum + i * i ≤ INT_MAX := hfit.2
    exact ⟨fitsInt_of_nonneg hsq (by omega), hfit⟩
  · have hadded := hI.added_eq hm (hI.joined hj)
    exact Multiset.coe_eq_coe.1 hadded
  · rw [hI.printed sum hd]
    exact hI.total_eq hm (hI.joined (by rw [hd]; trivial))

set_option maxRecDepth 8000 in
/-- With `10` integers and two threads, run one after the other. -/
theorem partial_sums_ten : ∃ s : State 2, (sumThreads 10 2).Reachable s ∧
    s.main = .done 385 ∧ (385 : ℤ) = BoundedBuffer.sumSquares 10 := by
  have hargs : BoundedBuffer.ArgsOk 10 2 := by decide
  have h : ∃ s : State 2, (sumThreads 10 2).Reachable s ∧ s.main = .done 385 := by
    refine ⟨_, ⟨init fun _ => ⟨0, 0⟩, List.replicate 7 .main ++ List.replicate 38 (.thread 0) ++
      List.replicate 38 (.thread 1) ++ List.replicate 4 .main, ⟨_, rfl⟩, rfl⟩, rfl⟩
  obtain ⟨s, hs, hd⟩ := h
  obtain ⟨-, -, -, hprinted⟩ := partial_sums hargs hs
  exact ⟨s, hs, hd, hprinted 385 hd⟩

end PartialSum

end NetCentric
