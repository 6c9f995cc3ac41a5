import NetCentric.BufferInvariant
import NetCentric.CInt
import Mathlib.Tactic.Linarith
import Mathlib.Tactic.Ring

/-!
# The final sum of the bounded buffer

A consumer adds the square of its value and then counts it, both under the mutex.
`BoundedBuffer.Sums` ties the two shared counters to the takes : what is missing from
`totalSum` is the squares of the consumers before their store, and what is missing from
`processed` is the consumers before theirs. A loaded copy is current while its holder has
the mutex.

`final_sum` : when `processed` has reached `n`, all `n` items are taken and counted, so
`totalSum` is `1² + … + n²`, and it stays so.
-/

open Finset

namespace NetCentric

namespace BoundedBuffer

/-- The square a consumer has read and not added. -/
def Consumer.square : Consumer → ℤ
  | advance val | load val | store val _ => val * val
  | _ => 0

/-- Read, and not counted in `processed`. -/
def Consumer.uncounted : Consumer → ℤ
  | advance _ | load _ | store _ _ | print | loadProcessed | storeProcessed _ => 1
  | _ => 0

/-- `1² + 2² + … + k²`. -/
def sumSquares (k : ℕ) : ℤ :=
  ∑ j ∈ range k, (j + 1 : ℤ) ^ 2

/-- `main` is through its wait loop. -/
def Main.pastWait : Main → Prop
  | detach _ | report | done _ => True
  | _ => False

/-- A loaded copy is current, and the value read is the last one taken. -/
def Consumer.Current (s : State m) : Consumer → Prop
  | store _ sum => sum = s.totalSum
  | storeProcessed count => count = s.processed
  | _ => True

/-- The two counters, up to the consumers in the critical section. -/
structure Sums (n : ℕ) (s : State m) : Prop where
  nonneg : 0 ≤ s.totalSum
  total : s.totalSum + ∑ c, (s.consumer c).square = sumSquares s.taken.length
  processed : s.processed + ∑ c, (s.consumer c).uncounted = s.taken.length
  current : ∀ c, (s.consumer c).Current s
  past : s.main.pastWait → n ≤ s.processed
  printed : ∀ sum, s.main = .done sum → sum = s.totalSum

variable {m n : ℕ} {s t : State m}

theorem sums_init : Sums n (init : State m) := by
  constructor <;> simp [init, Consumer.square, Consumer.uncounted, sumSquares, Consumer.Current,
    Main.pastWait]

/-- Two consumers in the critical section are the same one. -/
theorem Conserved.exclusive (hI : Conserved n s) {c d : Fin m} (hc : (s.consumer c).steady = 1)
    (hd : (s.consumer d).steady = 1) : c = d := by
  refine Threads.sum_le_one_unique (w := Consumer.steady) (f := s.consumer) ?_ (by omega) (by omega)
  have := hI.mutex
  have := Bool.toNat_le s.mutex
  omega

theorem sumSquares_succ (k : ℕ) : sumSquares (k + 1) = sumSquares k + (k + 1 : ℤ) * (k + 1) := by
  rw [sumSquares, sum_range_succ, ← sumSquares, sq]

/-- A consumer that holds no copy keeps it current whatever the counters do. -/
theorem Consumer.current_of_not_steady {p : Consumer} (h : p.steady ≠ 1) : p.Current t := by
  cases p <;> simp_all [Consumer.steady, Consumer.Current]

theorem Consumer.Current.congr {p : Consumer} (htotal : t.totalSum = s.totalSum)
    (hproc : t.processed = s.processed) (h : p.Current s) : p.Current t := by
  cases p <;> simp_all [Consumer.Current]

/-- A change of one consumer keeps the sums if it balances its own part, and moves a
counter only under the mutex. -/
theorem Sums.put (hS : Sums n s) (hI : Conserved n s) {c : Fin m} {p : Consumer}
    (hcons : t.consumer = Function.update s.consumer c p)
    (htotal : t.totalSum + p.square + sumSquares s.taken.length =
      s.totalSum + (s.consumer c).square + sumSquares t.taken.length)
    (hproc : t.processed + p.uncounted + s.taken.length =
      s.processed + (s.consumer c).uncounted + t.taken.length)
    (hnonneg : 0 ≤ t.totalSum) (hcur : p.Current t)
    (hother : t.totalSum = s.totalSum ∧ t.processed = s.processed ∨ (s.consumer c).steady = 1)
    (hpast : t.main.pastWait → n ≤ t.processed) (hdone : ∀ sum, t.main ≠ .done sum) :
    Sums n t := by
  have hsquare := Threads.sum_update Consumer.square s.consumer c p
  have huncounted := Threads.sum_update Consumer.uncounted s.consumer c p
  rw [← hcons] at hsquare huncounted
  have h1 := hS.total
  have h2 := hS.processed
  refine ⟨hnonneg, by linarith, by linarith, fun d => ?_, hpast, fun sum h => absurd h (hdone sum)⟩
  by_cases hd : d = c
  · rw [hd, hcons, Function.update_self]
    exact hcur
  rw [hcons, Function.update_of_ne hd]
  rcases hother with ⟨htot, hpro⟩ | hsteady
  · exact (hS.current d).congr htot hpro
  · exact Consumer.current_of_not_steady fun h => hd (hI.exclusive h hsteady)

/-- A process that has ended makes no step. -/
theorem step_running {a : Action m} (h : step n s a = some t) (sum : ℤ) : s.main ≠ .done sum := by
  intro hm
  simp [step, hm] at h

/-- A step of one consumer that leaves the counters and the values taken as they are. -/
theorem Sums.move (hS : Sums n s) (hI : Conserved n s) {c : Fin m} {p q : Consumer}
    (hc : s.consumer c = q) (hcons : t.consumer = Function.update s.consumer c p)
    (hsame : t.totalSum = s.totalSum ∧ t.processed = s.processed ∧ t.taken = s.taken)
    (hmain : t.main = s.main) (hsquare : p.square = q.square)
    (huncounted : p.uncounted = q.uncounted) (hcur : p.Current s)
    (hrun : ∀ sum, s.main ≠ .done sum) : Sums n t := by
  subst hc
  obtain ⟨htotal, hproc, htaken⟩ := hsame
  refine hS.put hI hcons (by rw [htotal, htaken, hsquare]) (by rw [hproc, htaken, huncounted])
    (htotal ▸ hS.nonneg) (hcur.congr htotal hproc) (.inl ⟨htotal, hproc⟩) ?_ (hmain ▸ hrun)
  rw [hmain, hproc]
  exact hS.past

theorem Sums.computeSquares {c : Fin m} (hS : Sums n s) (hI : Inv n s)
    (hrun : ∀ sum, s.main ≠ .done sum) (h : computeSquares s c = some t) : Sums n t := by
  have hcur := hS.current c
  have hC := hI.conserved
  rcases computeSquares_cases h with ⟨hc, ha, rfl⟩ | ⟨hc, hm, rfl⟩ | ⟨hc, rfl⟩ | ⟨v, hc, rfl⟩ |
    ⟨v, hc, rfl⟩ | ⟨v, w, hc, rfl⟩ | ⟨hc, rfl⟩ | ⟨hc, rfl⟩ | ⟨v, hc, rfl⟩ | ⟨hc, rfl⟩ | ⟨hc, rfl⟩
  · exact hS.move hC hc rfl ⟨rfl, rfl, rfl⟩ rfl rfl rfl trivial hrun
  · exact hS.move hC hc rfl ⟨rfl, rfl, rfl⟩ rfl rfl rfl trivial hrun
  · -- the value read is the next one
    obtain ⟨hhead, hwait⟩ := hC.read_head hc
    have hval : s.buffer s.head = s.taken.length + 1 := by rw [hhead, hI.slots.buffer _ hwait]
    refine hS.put hC (c := c) rfl ?_ ?_ hS.nonneg trivial (Or.inl ⟨rfl, rfl⟩) hS.past hrun
    · simp only [hc, Consumer.square, List.length_append, List.length_singleton, sumSquares_succ,
        hval, State.put]
      ring
    · simp only [hc, Consumer.uncounted, List.length_append, List.length_singleton, State.put]
      push_cast
      ring
  · exact hS.move hC hc rfl ⟨rfl, rfl, rfl⟩ rfl rfl rfl trivial hrun
  · exact hS.move hC hc rfl ⟨rfl, rfl, rfl⟩ rfl rfl rfl rfl hrun
  · rw [hc] at hcur
    have hw : w = s.totalSum := hcur
    refine hS.put hC (c := c) rfl ?_ (by simp [hc, Consumer.uncounted, State.put]) ?_
      trivial (Or.inr (by rw [hc]; rfl)) hS.past hrun
    · simp only [hc, Consumer.square, hw, State.put]
      ring
    · simp only [hw]
      exact add_nonneg hS.nonneg (mul_self_nonneg v)
  · exact hS.move hC hc rfl ⟨rfl, rfl, rfl⟩ rfl rfl rfl trivial hrun
  · exact hS.move hC hc rfl ⟨rfl, rfl, rfl⟩ rfl rfl rfl rfl hrun
  · rw [hc] at hcur
    have hv : v = s.processed := hcur
    refine hS.put hC (c := c) rfl (by simp [hc, Consumer.square, State.put]) ?_
      hS.nonneg trivial (Or.inr (by rw [hc]; rfl)) (fun hp => ?_) hrun
    · simp only [hc, Consumer.uncounted, hv, State.put]
      ring
    · have := hS.past hp
      simp only [hv]
      omega
  · exact hS.move hC hc rfl ⟨rfl, rfl, rfl⟩ rfl rfl rfl trivial hrun
  · exact hS.move hC hc rfl ⟨rfl, rfl, rfl⟩ rfl rfl rfl trivial hrun

theorem Sums.addToQueue (hS : Sums n s) (h : addToQueue n s = some t) : Sums n t := by
  rcases addToQueue_cases h with ⟨hp, rfl⟩ | ⟨hp, hle, rfl⟩ | ⟨hp, hle, rfl⟩ | ⟨hp, hr, rfl⟩ |
    ⟨hp, rfl⟩ | ⟨hp, rfl⟩ | ⟨hp, rfl⟩ | ⟨hp, rfl⟩
  all_goals
    exact ⟨hS.nonneg, hS.total, hS.processed, fun c => (hS.current c).congr rfl rfl, hS.past,
      hS.printed⟩

theorem Sums.main {ok : Bool} (hS : Sums n s) (hI : Conserved n s)
    (hrun : ∀ sum, s.main ≠ .done sum) (h : main n ok s = some t) : Sums n t := by
  have hcr := hI.created
  rcases main_cases h with ⟨hm, rfl⟩ | ⟨k, hk, hm, rfl⟩ | ⟨k, hm, hk, rfl⟩ | ⟨hm, -, rfl⟩ |
    ⟨-, -, rfl⟩ | ⟨hm, hle, rfl⟩ | ⟨k, hm, -, rfl⟩ | ⟨k, hm, -, rfl⟩ | ⟨hm, rfl⟩
  case inr.inl =>
    rw [hm] at hcr
    have hnew := hcr ⟨k, hk⟩ le_rfl
    refine hS.put hI (c := ⟨k, hk⟩) rfl ?_ ?_ hS.nonneg ?_ (Or.inl ⟨rfl, rfl⟩) (fun hp => hp.elim)
      (fun _ h => Main.noConfusion h) <;>
      cases ok <;> simp [hnew, Consumer.square, Consumer.uncounted, Consumer.Current, State.put]
  case inr.inr.inr.inr.inl => exact hS
  all_goals
    refine ⟨hS.nonneg, hS.total, hS.processed, fun c => (hS.current c).congr rfl rfl, fun hp => ?_,
      fun sum hd => ?_⟩
  all_goals
    have hpast := hS.past
    have hdone := hS.printed
    simp_all [Main.pastWait]

/-! ## Every reachable state -/

theorem sums_of_reachable (h : (level3 n m).Reachable s) : Inv n s ∧ Sums n s := by
  refine h.invariant (I := fun s => Inv n s ∧ Sums n s)
    (fun _ hs => hs ▸ ⟨inv_init, sums_init⟩) ?_
  rintro s a t ⟨hI, hS⟩ hstep
  have hrun := step_running hstep
  refine ⟨hI.step hstep, ?_⟩
  rcases step_cases hstep with ⟨-, h⟩ | ⟨c, -, h⟩ | ⟨ok, -, h⟩
  · exact hS.addToQueue h
  · exact hS.computeSquares hI hrun h
  · exact hS.main hI.conserved hrun h

theorem Consumer.uncounted_nonneg (p : Consumer) : 0 ≤ p.uncounted := by
  cases p <;> simp [Consumer.uncounted]

theorem Consumer.square_nonneg (p : Consumer) : 0 ≤ p.square := by
  cases p <;> simp [Consumer.square, mul_self_nonneg]

theorem Consumer.square_eq_zero {p : Consumer} (h : p.uncounted = 0) : p.square = 0 := by
  cases p <;> simp_all [Consumer.uncounted, Consumer.square]

/-- No more items are counted than taken. -/
theorem Sums.processed_le (hS : Sums n s) : s.processed ≤ s.taken.length := by
  have hnn : 0 ≤ ∑ c, (s.consumer c).uncounted :=
    sum_nonneg fun c _ => (s.consumer c).uncounted_nonneg
  have := hS.processed
  omega

/-- Once `n` items are counted, every square is added. -/
theorem Sums.total_eq (hS : Sums n s) (hI : Conserved n s) (hn : n ≤ s.processed) :
    s.totalSum = sumSquares n := by
  have hle := hS.processed_le
  have htaken := hI.taken_le
  have hlen : s.taken.length = n := by omega
  have hproc := hS.processed
  have hzero : ∑ c, (s.consumer c).uncounted = 0 := by
    have : 0 ≤ ∑ c, (s.consumer c).uncounted :=
      sum_nonneg fun c _ => (s.consumer c).uncounted_nonneg
    omega
  have hall := (sum_eq_zero_iff_of_nonneg fun c _ => (s.consumer c).uncounted_nonneg).1 hzero
  have hsq : ∑ c, (s.consumer c).square = 0 :=
    sum_eq_zero fun c hc => Consumer.square_eq_zero (hall c hc)
  have := hS.total
  rw [hsq, add_zero, hlen] at this
  exact this

theorem sumSquares_le {k N : ℕ} (h : k ≤ N) : sumSquares k ≤ N * (N * N : ℤ) := by
  have hterm : ∀ j ∈ range k, (j + 1 : ℤ) ^ 2 ≤ N * N := by
    intro j hj
    have hj' : (j + 1 : ℤ) ≤ N := by
      have := mem_range.1 hj
      omega
    rw [sq]
    exact mul_le_mul hj' hj' (by omega) (by omega)
  calc sumSquares k ≤ ∑ _j ∈ range k, (N * N : ℤ) := sum_le_sum hterm
    _ = k * (N * N : ℤ) := by rw [sum_const, card_range, nsmul_eq_mul]
    _ ≤ N * (N * N : ℤ) := mul_le_mul_of_nonneg_right (by omega) (mul_self_nonneg _)

/-- The arguments `main` admits. -/
def ArgsOk (n numThreads : ℕ) : Prop :=
  ¬(n < 10 ∨ 1000 < n) ∧ ¬(numThreads < 2 ∨ n / 2 < numThreads ∨ 100 < numThreads)

instance (n numThreads : ℕ) : Decidable (ArgsOk n numThreads) :=
  inferInstanceAs (Decidable (_ ∧ _))

/-- `totalSum` with a square still to be added fits an `int`. -/
theorem Sums.fits (hS : Sums n s) (hI : Conserved n s) (hn : n ≤ 1000) (c : Fin m) :
    s.totalSum + (s.consumer c).square ≤ INT_MAX := by
  have hone : (s.consumer c).square ≤ ∑ d, (s.consumer d).square :=
    single_le_sum (f := fun d => (s.consumer d).square)
      (fun d _ => (s.consumer d).square_nonneg) (mem_univ c)
  have hsum := sumSquares_le (hI.taken_le.trans hn)
  have := hS.total
  simp only [INT_MAX]
  push_cast at hsum
  linarith

theorem pastWait_run {as : List (Action m)} (hp : s.main.pastWait)
    (h : (level3 n m).run s as = some t) : t.main.pastWait := by
  refine System.run_invariant (I := fun s => s.main.pastWait) (fun s a t hs hstep => ?_) hp h
  rcases step_cases hstep with ⟨-, h⟩ | ⟨c, -, h⟩ | ⟨ok, -, h⟩
  · rcases addToQueue_cases h with ⟨-, rfl⟩ | ⟨-, -, rfl⟩ | ⟨-, -, rfl⟩ | ⟨-, -, rfl⟩ |
      ⟨-, rfl⟩ | ⟨-, rfl⟩ | ⟨-, rfl⟩ | ⟨-, rfl⟩ <;> exact hs
  · rcases computeSquares_cases h with ⟨-, -, rfl⟩ | ⟨-, -, rfl⟩ | ⟨-, rfl⟩ | ⟨v, -, rfl⟩ |
      ⟨v, -, rfl⟩ | ⟨v, w, -, rfl⟩ | ⟨-, rfl⟩ | ⟨-, rfl⟩ | ⟨v, -, rfl⟩ | ⟨-, rfl⟩ | ⟨-, rfl⟩ <;>
      exact hs
  · rcases main_cases h with ⟨hm, rfl⟩ | ⟨k, hk, hm, rfl⟩ | ⟨k, hm, hk, rfl⟩ | ⟨hm, -, rfl⟩ |
      ⟨-, -, rfl⟩ | ⟨hm, -, rfl⟩ | ⟨k, hm, -, rfl⟩ | ⟨k, hm, -, rfl⟩ | ⟨hm, rfl⟩ <;>
      simp_all [Main.pastWait]

/-- The final sum, for every schedule. `processed` stays at most `n`, no addition to
`totalSum` overflows, and once `main` is through its wait loop `totalSum` is
`1² + … + n²` in that state and in every later one, so that is what it prints. -/
theorem final_sum (hargs : ArgsOk n m) (h : (level3 n m).Reachable s) :
    s.processed ≤ n ∧ FitsInt s.totalSum ∧
      (∀ c val sum, s.consumer c = .store val sum →
        FitsInt (val * val) ∧ FitsInt (sum + val * val)) ∧
      (s.main.pastWait → s.totalSum = sumSquares n ∧
        ∀ as t, (level3 n m).run s as = some t → t.totalSum = s.totalSum) ∧
      ∀ sum, s.main = .done sum → sum = sumSquares n := by
  obtain ⟨hI, hS⟩ := sums_of_reachable h
  have hn : n ≤ 1000 := by
    have := hargs.1
    omega
  have htotal : ∀ {t : State m}, (level3 n m).Reachable t → t.main.pastWait →
      t.totalSum = sumSquares n := by
    intro t ht hp
    obtain ⟨hI', hS'⟩ := sums_of_reachable ht
    exact hS'.total_eq hI'.conserved (hS'.past hp)
  refine ⟨?_, fitsInt_of_nonneg hS.nonneg ?_, fun c val sum hc => ?_,
    fun hp => ⟨htotal h hp, fun as t hrun => ?_⟩, fun sum hd => ?_⟩
  · have := hS.processed_le
    have := hI.conserved.taken_le
    omega
  · have hsq : 0 ≤ ∑ c, (s.consumer c).square :=
      sum_nonneg fun c _ => (s.consumer c).square_nonneg
    have hle := sumSquares_le (hI.conserved.taken_le.trans hn)
    have := hS.total
    simp only [INT_MAX]
    push_cast at hle
    linarith
  · have hfit := hS.fits hI.conserved hn c
    have hsum : sum = s.totalSum := by
      have := hS.current c
      rwa [hc] at this
    rw [hc, Consumer.square] at hfit
    have h0 := hS.nonneg
    have hv := mul_self_nonneg val
    exact ⟨fitsInt_of_nonneg hv (by linarith), fitsInt_of_nonneg (by linarith) (by linarith)⟩
  · rw [htotal h hp, htotal (h.run hrun) (pastWait_run hp hrun)]
  · rw [hS.printed sum hd]
    exact htotal h (by rw [hd]; trivial)

/-- At a consumer's first store, with `10` items and two consumers. -/
theorem final_sum_first_store : ∃ s : State 2, (level3 10 2).Reachable s ∧
    s.consumer 0 = .store 1 0 ∧ s.processed ≤ 10 ∧ FitsInt (0 + 1 * 1) := by
  have hargs : ArgsOk 10 2 := by decide
  have h : ∃ s : State 2, (level3 10 2).Reachable s ∧ s.consumer 0 = .store 1 0 := by
    refine ⟨_, ⟨init, [.main true, .main true, .producer, .producer, .producer, .producer,
      .producer, .producer, .consumer 0, .consumer 0, .consumer 0, .consumer 0, .consumer 0],
      rfl, rfl⟩, rfl⟩
  obtain ⟨s, hs, hc⟩ := h
  obtain ⟨hle, -, hfits, -⟩ := final_sum hargs hs
  exact ⟨s, hs, hc, hle, (hfits 0 1 0 hc).2⟩

end BoundedBuffer

end NetCentric
