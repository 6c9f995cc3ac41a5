import NetCentric.BufferProgress
import NetCentric.ThreadCreation
import Mathlib.Data.Fin.VecNotation

/-!
# Failed creations in Homework 2, level 3

`level3Creating` is the runs of `level3` in which the creations return what they are given :
`producer` for the producer and `ret c` for consumer `c`, 0 or a positive error number.
`main` does not look at the result for the producer, and compares the others with `< 0`,
so it goes on whatever fails. Then it has ids that were not set, and joining or detaching a
thread by one of these is undefined (`State.Undefined`) : the model follows `main` no
further.

`Created` keeps which threads are there, and that `main` has joined and detached only these
(`Used`). So a sum is printed only if all of them were created, and then it is the right one
(`creating_printed`). With all of them there it is printed : some thread can go on, or `main`
can (`creating_goes_on`), and all steps but those of the wait loop decrease `State.left`.

`creation_failures` puts this beside `main.c`.
-/

open Finset

namespace NetCentric

namespace BoundedBuffer

variable {m : ℕ}

/-- What the creation `main` is at returns : `producer` for the producer, `ret c` for
consumer `c`. 0 is a success, and anything else an error number. -/
def answers (producer : ℕ) (ret : Fin m → ℕ) (s : State m) : Action m → Bool
  | .main ok =>
    match s.main with
    | .createProducer => ok == (producer == 0)
    | .createConsumer k => if h : k < m then ok == (ret ⟨k, h⟩ == 0) else true
    | _ => true
  | _ => true

/-- `level3` where the creations return `producer` and `ret`. -/
def level3Creating (n producer : ℕ) (ret : Fin m → ℕ) : System (State m) (Action m) :=
  (level3 n m).restrict fun s a => answers producer ret s a

/-! ## The threads that are there -/

/-- The consumers whose creation `main` is through with. -/
def created (m : ℕ) : Main → ℕ
  | .createProducer => 0
  | .createConsumer k => k
  | _ => m

/-- `main` joins or detaches a thread by an id that its creation has not set. -/
def State.Undefined (s : State m) : Prop :=
  s.main = .join ∧ s.producer = .new ∨ ∃ k : Fin m, s.main = .detach k ∧ s.consumer k = .new

/-- The threads `main` has joined and detached were created. -/
def Used (producer : ℕ) (ret : Fin m → ℕ) : Main → Prop
  | .wait => producer = 0
  | .detach k => producer = 0 ∧ ∀ c : Fin m, c < k → ret c = 0
  | .report | .done _ => producer = 0 ∧ ∀ c, ret c = 0
  | _ => True

/-- The threads whose creation failed are not there, and `main` has used no id of theirs. -/
structure Created (producer : ℕ) (ret : Fin m → ℕ) (s : State m) : Prop where
  producer_new : s.producer = .new ↔ s.main = .createProducer ∨ producer ≠ 0
  consumer_new : ∀ c : Fin m, s.consumer c = .new ↔ created m s.main ≤ c ∨ ret c ≠ 0
  used : Used producer ret s.main

variable {n producer : ℕ} {ret : Fin m → ℕ} {s t : State m}

theorem created_init : Created producer ret (init : State m) :=
  ⟨⟨fun _ => .inl rfl, fun _ => rfl⟩, fun _ => ⟨fun _ => .inl (Nat.zero_le _), fun _ => rfl⟩,
    trivial⟩

/-- The producer's steps are of no consumer and not of `main`. -/
theorem addToQueue_frame (h : addToQueue n s = some t) :
    s.producer ≠ .new ∧ t.producer ≠ .new ∧ t.consumer = s.consumer ∧ t.main = s.main := by
  rcases addToQueue_cases h with ⟨hp, rfl⟩ | ⟨hp, -, rfl⟩ | ⟨hp, -, rfl⟩ | ⟨hp, -, rfl⟩ |
    ⟨hp, rfl⟩ | ⟨hp, rfl⟩ | ⟨hp, rfl⟩ | ⟨hp, rfl⟩ <;>
    exact ⟨by simp [hp], by simp, rfl, rfl⟩

/-- A consumer's steps are of no other thread. -/
theorem computeSquares_frame {c : Fin m} (h : computeSquares s c = some t) :
    s.consumer c ≠ .new ∧
      (∃ p, p ≠ .new ∧ t.consumer = Function.update s.consumer c p) ∧
      t.producer = s.producer ∧ t.main = s.main := by
  rcases computeSquares_cases h with ⟨hc, -, rfl⟩ | ⟨hc, -, rfl⟩ | ⟨hc, rfl⟩ | ⟨v, hc, rfl⟩ |
    ⟨v, hc, rfl⟩ | ⟨v, w, hc, rfl⟩ | ⟨hc, rfl⟩ | ⟨hc, rfl⟩ | ⟨v, hc, rfl⟩ | ⟨hc, rfl⟩ |
    ⟨hc, rfl⟩ <;>
    exact ⟨by simp [hc], ⟨_, by simp, rfl⟩, rfl, rfl⟩

theorem Created.main {ok : Bool} (hC : Created producer ret s)
    (hans : answers producer ret s (.main ok)) (h : main n ok s = some t) :
    Created producer ret t := by
  obtain ⟨hprod, hcons, hused⟩ := hC
  rcases main_cases h with ⟨hm, rfl⟩ | ⟨k, hk, hm, rfl⟩ | ⟨k, hm, hk, rfl⟩ | ⟨hm, hdone, rfl⟩ |
    ⟨hm, -, rfl⟩ | ⟨hm, -, rfl⟩ | ⟨k, hm, hnew, rfl⟩ | ⟨k, hm, hk, rfl⟩ | ⟨hm, rfl⟩ <;>
    simp only [answers, hm] at hans <;> rw [hm] at hprod hcons hused
  · refine ⟨?_, hcons, trivial⟩
    by_cases hzero : producer = 0 <;> simp_all
  · refine ⟨by simpa [State.put] using hprod, fun c => ?_, trivial⟩
    simp only [created, State.put] at hcons ⊢
    by_cases hc : (c : ℕ) = k
    · obtain rfl : c = ⟨k, hk⟩ := Fin.ext hc
      by_cases hzero : ret ⟨k, hk⟩ = 0 <;> simp_all
    · have hne : c ≠ ⟨k, hk⟩ := fun hck => hc (congrArg Fin.val hck)
      rw [Function.update_of_ne hne, hcons c]
      omega
  · refine ⟨by simpa using hprod, fun c => (hcons c).trans ?_, trivial⟩
    have hc := c.2
    simp only [created]
    omega
  · -- a producer that has returned was created
    have hzero : producer = 0 := by simpa [hdone] using hprod
    exact ⟨by simpa using hprod, hcons, hzero⟩
  · exact ⟨by simpa [hm] using hprod, by simpa [hm] using hcons, by rw [hm]; exact hused⟩
  · exact ⟨by simpa using hprod, hcons, hused, fun c hc => absurd hc (Nat.not_lt_zero _)⟩
  · have hret : ret k = 0 := by simpa [hcons, created] using hnew
    refine ⟨by simpa using hprod, hcons, hused.1, fun c hc => ?_⟩
    rcases Nat.lt_succ_iff_lt_or_eq.1 hc with hlt | heq
    · exact hused.2 c hlt
    · exact Fin.ext heq ▸ hret
  · exact ⟨by simpa using hprod, hcons, hused.1, fun c => hused.2 c (c.2.trans_le hk)⟩
  · exact ⟨by simpa using hprod, hcons, hused⟩

theorem Created.step {a : Action m} (hC : Created producer ret s)
    (h : (level3Creating n producer ret).step s a = some t) : Created producer ret t := by
  obtain ⟨hans, hstep⟩ := System.restrict_step.1 h
  rcases step_cases hstep with ⟨-, h⟩ | ⟨c, -, h⟩ | ⟨ok, rfl, hmain⟩
  · obtain ⟨hold, hnew, hcons, hmain⟩ := addToQueue_frame h
    refine ⟨?_, fun c => by rw [hcons, hmain, hC.consumer_new c], hmain ▸ hC.used⟩
    rw [hmain, ← hC.producer_new]
    exact iff_of_false hnew hold
  · obtain ⟨hold, ⟨p, hp, hcons⟩, hprod, hmain⟩ := computeSquares_frame h
    refine ⟨by rw [hprod, hmain, hC.producer_new], fun d => ?_, hmain ▸ hC.used⟩
    rw [hmain, ← hC.consumer_new d, hcons]
    by_cases hd : d = c
    · simp [hd, hp, hold]
    · rw [Function.update_of_ne hd]
  · exact hC.main hans hmain

theorem created_of_reachable (h : (level3Creating n producer ret).Reachable s) :
    Created producer ret s :=
  h.invariant (fun _ hs => hs ▸ created_init) fun _ _ _ hC hstep => hC.step hstep

/-! ## The steps left -/

/-- The steps a consumer has left before it waits for the next item. -/
def Consumer.left : Consumer → ℕ
  | lock => 10
  | read => 9
  | advance _ => 8
  | load _ => 7
  | store _ _ => 6
  | print => 5
  | loadProcessed => 4
  | storeProcessed _ => 3
  | unlock => 2
  | post => 1
  | new | wait => 0

/-- The steps the producer has left, from its creation on. -/
def Producer.left (n i : ℕ) : Producer → ℕ
  | new => 6 * n + 3
  | start => 6 * n + 2
  | test => 6 * (n + 1 - i) + 1
  | wait => 6 * (n + 1 - i)
  | write => 6 * (n + 1 - i) - 1
  | advance => 6 * (n + 1 - i) - 2
  | post => 6 * (n + 1 - i) - 3
  | incr => 6 * (n + 1 - i) - 4
  | done => 0

/-- The steps `main` has left, apart from those of its wait loop that find items missing. -/
def Main.left (m : ℕ) : Main → ℕ
  | createProducer => 2 * m + 6
  | createConsumer k => m - k + m + 5
  | join => m + 4
  | wait => m + 3
  | detach k => m - k + 2
  | report => 1
  | done _ => 0

/-- The items no consumer has claimed. -/
def State.unclaimed (n : ℕ) (s : State m) : ℕ :=
  n - (s.taken.length + ∑ c, (s.consumer c).claims)

/-- A bound on the steps left : eleven for each item not claimed, and those of the
threads. -/
def State.left (n : ℕ) (s : State m) : ℕ :=
  11 * s.unclaimed n + ∑ c, (s.consumer c).left + s.producer.left n s.i + s.main.left m

theorem Conserved.left_addToQueue (hI : Conserved n s)
    (h : BoundedBuffer.addToQueue n s = some t) : t.left n < s.left n := by
  have hcnt := hI.counter
  rcases addToQueue_cases h with ⟨hp, rfl⟩ | ⟨hp, hle, rfl⟩ | ⟨hp, hle, rfl⟩ | ⟨hp, hr, rfl⟩ |
    ⟨hp, rfl⟩ | ⟨hp, rfl⟩ | ⟨hp, rfl⟩ | ⟨hp, rfl⟩
  all_goals
    refine Nat.add_lt_add_right (Nat.add_lt_add_left ?_ _) _
    simp only [hp, Producer.CounterOk] at hcnt
    simp only [hp, Producer.left]
    omega

/-- A step of one consumer that brings it nearer to its next wait, or claims an item. -/
theorem left_put {c : Fin m} {p q : Consumer} (hc : s.consumer c = q)
    (hcons : t.consumer = Function.update s.consumer c p)
    (hrest : t.producer = s.producer ∧ t.i = s.i ∧ t.main = s.main)
    (hle : t.taken.length + ∑ c, (t.consumer c).claims ≤ n)
    (hlt : p.left + 11 * (s.taken.length + q.claims) < q.left + 11 * (t.taken.length + p.claims)) :
    t.left n < s.left n := by
  obtain ⟨hprod, hi, hmain⟩ := hrest
  have hclaims := Threads.sum_update Consumer.claims s.consumer c p
  have hleft := Threads.sum_update Consumer.left s.consumer c p
  rw [← hcons, hc] at hclaims hleft
  simp only [State.left, State.unclaimed, hprod, hi, hmain]
  omega

/-- No more items are claimed and taken than posted. -/
theorem Conserved.claimed_le (hI : Conserved n s) :
    s.taken.length + ∑ c, (s.consumer c).claims ≤ n := by
  have hav := hI.available
  have hcnt := hI.counter
  cases hp : s.producer <;> simp only [hp, Producer.CounterOk, Producer.posted] at hcnt hav <;>
    omega

theorem Conserved.left_computeSquares (hI : Conserved n s) {c : Fin m}
    (h : BoundedBuffer.computeSquares s c = some t) : t.left n < s.left n := by
  have hle := (hI.computeSquares h).claimed_le
  rcases computeSquares_cases h with ⟨hc, ha, rfl⟩ | ⟨hc, hm, rfl⟩ | ⟨hc, rfl⟩ | ⟨v, hc, rfl⟩ |
    ⟨v, hc, rfl⟩ | ⟨v, w, hc, rfl⟩ | ⟨hc, rfl⟩ | ⟨hc, rfl⟩ | ⟨v, hc, rfl⟩ | ⟨hc, rfl⟩ | ⟨hc, rfl⟩
  all_goals
    refine left_put hc rfl ⟨rfl, rfl, rfl⟩ hle ?_
    simp [Consumer.left, Consumer.claims, State.put] <;> omega

theorem Conserved.left_main {ok : Bool} (hI : Conserved n s)
    (hspin : s.main = .wait → n ≤ s.processed) (h : BoundedBuffer.main n ok s = some t) :
    t.left n < s.left n := by
  have hcr := hI.created
  have hcnt := hI.counter
  rcases main_cases h with ⟨hm, rfl⟩ | ⟨k, hk, hm, rfl⟩ | ⟨k, hm, hk, rfl⟩ | ⟨hm, -, rfl⟩ |
    ⟨hm, hlt, -⟩ | ⟨hm, -, rfl⟩ | ⟨k, hm, hk, rfl⟩ | ⟨k, hm, hk, rfl⟩ | ⟨hm, rfl⟩
  · rw [hm] at hcr
    rw [hcr.1] at hcnt
    cases ok <;> simp [State.left, State.unclaimed, hm, hcr.1, Main.left, Producer.left] <;> omega
  · rw [hm] at hcr
    have hnew := hcr ⟨k, hk⟩ le_rfl
    have hclaims := Threads.sum_update Consumer.claims s.consumer ⟨k, hk⟩
      (if ok then .wait else .new)
    have hleft := Threads.sum_update Consumer.left s.consumer ⟨k, hk⟩
      (if ok then .wait else .new)
    rw [hnew] at hclaims hleft
    simp only [State.left, State.unclaimed, State.put, hm, Main.left]
    cases ok <;> simp_all [Consumer.claims, Consumer.left] <;> omega
  case inr.inr.inr.inr.inl => exact absurd (hspin hm) (not_le_of_gt hlt)
  all_goals
    refine Nat.add_lt_add_left ?_ _
    simp only [hm, Main.left]
    omega

/-! ## Where the program gets to -/

/-- The final sum has been printed. -/
def State.Printed (s : State m) (sum : ℤ) : Prop :=
  s.main = .done sum

theorem creating_step {a : Action m} (hans : answers producer ret s a) (h : step n s a = some t) :
    (level3Creating n producer ret).step s a = some t :=
  System.restrict_step.2 ⟨hans, h⟩

/-- A step of a thread, if one of them can go on. -/
theorem Conserved.thread_step (hI : Conserved n s) (hrun : ∀ sum, s.main ≠ .done sum)
    (h : (BoundedBuffer.addToQueue n s).isSome ∨ ∃ c, (BoundedBuffer.computeSquares s c).isSome) :
    ∃ a t, (level3Creating n producer ret).step s a = some t ∧ t.left n < s.left n := by
  rcases h with hsome | ⟨c, hsome⟩
  · obtain ⟨t, ht⟩ := Option.isSome_iff_exists.1 hsome
    exact ⟨.producer, t, creating_step rfl ((step_thread hrun).1.trans ht), hI.left_addToQueue ht⟩
  · obtain ⟨t, ht⟩ := Option.isSome_iff_exists.1 hsome
    exact ⟨.consumer c, t, creating_step rfl (((step_thread hrun).2 c).trans ht),
      hI.left_computeSquares ht⟩

/-- With all threads created, the process goes on until it has printed the sum. -/
theorem creating_goes_on (hm : 0 < m) (hprod : producer = 0) (hcons : ∀ c, ret c = 0)
    (h : (level3Creating n producer ret).Reachable s) (hrun : ∀ sum, s.main ≠ .done sum) :
    ∃ a t, (level3Creating n producer ret).step s a = some t ∧ t.left n < s.left n := by
  obtain ⟨⟨hI, -⟩, hS⟩ := sums_of_reachable h.of_restrict
  have hC := created_of_reachable h
  have hgo : ∀ ok, answers producer ret s (.main ok) → (s.main = .wait → n ≤ s.processed) →
      (main n ok s).isSome →
      ∃ a t, (level3Creating n producer ret).step s a = some t ∧ t.left n < s.left n := by
    intro ok hans hspin hsome
    obtain ⟨t, ht⟩ := Option.isSome_iff_exists.1 hsome
    refine ⟨.main ok, t, creating_step hans ?_, hI.left_main hspin ht⟩
    cases hm : s.main <;> simp_all [step]
  -- once `main` is through the creations, the threads are there
  have hthread : s.main ≠ .createProducer → created m s.main = m →
      s.producer ≠ .done ∨ s.processed < n →
      ∃ a t, (level3Creating n producer ret).step s a = some t ∧ t.left n < s.left n := by
    intro hmain hcr hleft
    refine hI.thread_step hrun (thread_goes_on hI hS ?_ ⟨⟨0, hm⟩, ?_⟩ hleft)
    · simp [hC.producer_new, hmain, hprod]
    · simp [hC.consumer_new, hcr, hcons, hm.ne']
  cases hm : s.main with
  | createProducer =>
    exact hgo (producer == 0) (by simp [answers, hm]) (by simp [hm]) (by simp [main, hm])
  | createConsumer k =>
    by_cases hk : k < m
    · exact hgo (ret ⟨k, hk⟩ == 0) (by simp [answers, hm, hk]) (by simp [hm])
        (by simp [main, hm, hk])
    · exact hgo true (by simp [answers, hm, hk]) (by simp [hm]) (by simp [main, hm, hk])
  | join =>
    by_cases hdone : s.producer = .done
    · exact hgo true (by simp [answers, hm]) (by simp [hm]) (by simp [main, hm, hdone])
    · exact hthread (by simp [hm]) (by simp [hm, created]) (.inl hdone)
  | wait =>
    by_cases hproc : s.processed < n
    · exact hthread (by simp [hm]) (by simp [hm, created]) (.inr hproc)
    · exact hgo true (by simp [answers, hm]) (fun _ => by omega) (by simp [main, hm, hproc])
  | detach k =>
    refine hgo true (by simp [answers, hm]) (by simp [hm]) ?_
    by_cases hk : k < m
    · have hnew : s.consumer ⟨k, hk⟩ ≠ .new := by simp [hC.consumer_new, hm, created, hcons, hk]
      simp [main, hm, hk, hnew]
    · simp [main, hm, hk]
  | report => exact hgo true (by simp [answers, hm]) (by simp [hm]) (by simp [main, hm])
  | done sum => exact absurd hm (hrun sum)

/-- A sum is printed only if every thread was created, and it is the right one. -/
theorem creating_printed (h : (level3Creating n producer ret).Reachable s) {sum : ℤ}
    (hp : s.Printed sum) : (producer = 0 ∧ ∀ c, ret c = 0) ∧ sum = sumSquares n := by
  obtain ⟨⟨hI, -⟩, hS⟩ := sums_of_reachable h.of_restrict
  have hused := (created_of_reachable h).used
  rw [hp] at hused
  have hpast := hS.past (by rw [hp]; trivial)
  exact ⟨hused, (hS.printed sum hp).trans (hS.total_eq hI hpast)⟩

/-- Level 3 prints the right sum, or reports a failure, if and only if no creation fails. -/
theorem creating_handles_iff (hm : 0 < m) :
    Handles (level3Creating n producer ret) (fun _ => False) State.Printed (sumSquares n) ↔
      producer = 0 ∧ ∀ c, ret c = 0 := by
  constructor
  · intro h
    have hstart : (level3Creating n producer ret).Reachable init := ⟨_, [], rfl, rfl⟩
    obtain ⟨as, t, hrun, hf | ⟨sum, hp⟩⟩ := h.ends init hstart
    · exact hf.elim
    · exact (creating_printed (hstart.run hrun) hp).1
  · rintro ⟨hprod, hcons⟩
    refine ⟨fun s hs sum hp => (creating_printed hs hp).2, fun s hs => ?_⟩
    obtain ⟨as, t, hrun, -, ht⟩ := System.exists_run_of_measure
      (S := level3Creating n producer ret) (I := (level3Creating n producer ret).Reachable)
      (F := fun s => ∃ sum, s.Printed sum) (μ := State.left n) (fun s hs hnot => by
        obtain ⟨a, t, hstep, hlt⟩ :=
          creating_goes_on hm hprod hcons hs fun sum hd => hnot ⟨sum, hd⟩
        exact ⟨a, t, hstep, hs.step hstep, hlt⟩) hs
    exact ⟨as, t, hrun, .inr ht⟩

/-- Failed creations, for every set of them and every schedule. Each program reports them
or prints the right sum if and only if there are none. With one, neither reports it, and
neither gets to print a sum. -/
theorem creation_failures (hargs : ArgsOk n m) :
    (∀ ret : Fin m → ℕ,
      (Handles (ThreadCreation.createThreads n ret) (fun p => p = .exited)
        ThreadCreation.Process.Printed (sumSquares n) ↔ ∀ k, ret k = 0) ∧
      ∀ p, (ThreadCreation.createThreads n ret).Reachable p → p ≠ .exited ∧
        ∀ sum, p.Printed sum → (∀ k, ret k = 0) ∧ sum = sumSquares n) ∧
    ∀ (producer : ℕ) (ret : Fin m → ℕ),
      (Handles (level3Creating n producer ret) (fun _ => False) State.Printed (sumSquares n) ↔
        producer = 0 ∧ ∀ c, ret c = 0) ∧
      ∀ s, (level3Creating n producer ret).Reachable s →
        ∀ sum, s.Printed sum → (producer = 0 ∧ ∀ c, ret c = 0) ∧ sum = sumSquares n := by
  have hm : 0 < m := by
    have := hargs.2
    omega
  refine ⟨fun ret => ⟨ThreadCreation.handles_iff hm, fun p hp => ?_⟩, fun producer ret =>
    ⟨creating_handles_iff hm, fun s hs sum hp => creating_printed hs hp⟩⟩
  exact ⟨ThreadCreation.not_exited hp, fun sum hprinted =>
    ThreadCreation.printed_eq hm hp hprinted⟩

/-- With `10` integers and two threads, where no creation fails, and where that of the first
consumer does. -/
theorem creation_failures_first :
    Handles (ThreadCreation.createThreads 10 ![0, 0]) (fun p => p = .exited)
      ThreadCreation.Process.Printed (sumSquares 10) ∧
    Handles (level3Creating 10 0 ![0, 0]) (fun _ => False) State.Printed (sumSquares 10) ∧
    ¬Handles (level3Creating 10 0 ![11, 0]) (fun _ => False) State.Printed (sumSquares 10) := by
  have hargs : ArgsOk 10 2 := by decide
  obtain ⟨hmain, hlevel3⟩ := creation_failures hargs
  exact ⟨(hmain ![0, 0]).1.2 (by decide), (hlevel3 0 ![0, 0]).1.2 (by decide),
    fun h => absurd ((hlevel3 0 ![11, 0]).1.1 h) (by decide)⟩

set_option maxRecDepth 8000 in
/-- `main.c` with `10` and two threads, where the second creation fails, and level 3, where
that of the producer does : `main` joins a thread that is not there. -/
theorem creation_failures_undefined : ArgsOk 10 2 ∧
    ((∃ p, (ThreadCreation.createThreads 10 ![0, 11]).Reachable p ∧ p.Undefined) ∧
      ¬Handles (ThreadCreation.createThreads 10 ![0, 11]) (fun p => p = .exited)
        ThreadCreation.Process.Printed (sumSquares 10)) ∧
    (∃ s, (level3Creating 10 11 ![0, 0]).Reachable s ∧ s.Undefined) ∧
      ¬Handles (level3Creating 10 11 ![0, 0]) (fun _ => False) State.Printed (sumSquares 10) := by
  refine ⟨by decide, ⟨⟨_, ⟨.running (PartialSum.init fun _ => ⟨0, 0⟩),
    List.replicate 7 .main ++ List.replicate 38 (.thread 0) ++ [.main],
    ⟨_, rfl⟩, rfl⟩, _, rfl, 1, rfl, rfl⟩, fun h => ?_⟩,
    ⟨_, ⟨init, [.main false, .main true, .main true, .main true], rfl, rfl⟩, .inl ⟨rfl, rfl⟩⟩,
    fun h => ?_⟩
  · exact absurd ((ThreadCreation.handles_iff (by decide)).1 h) (by decide)
  · exact absurd ((creating_handles_iff (by decide)).1 h).1 (by decide)

end BoundedBuffer

end NetCentric
