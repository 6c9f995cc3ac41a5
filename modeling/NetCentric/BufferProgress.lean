import NetCentric.BufferSum

/-!
# The bounded buffer does not deadlock

A thread of `level3` blocks on `remainingSpace`, on `availableItems` or on the mutex, and
nowhere else (`addToQueue_blocked`, `computeSquares_blocked`). If every consumer that is
there blocked, none would hold the mutex, so all would be at `availableItems` with no item
posted and not taken (`all_waiting`). The conservation laws then leave the producer all
eight slots, or all `n` items taken and counted (`thread_goes_on`).
-/

open Finset

namespace NetCentric

namespace BoundedBuffer

variable {m n : ℕ} {s : State m}

/-- `main` has created the producer and all the consumers. -/
def AllCreated (s : State m) : Prop :=
  s.producer ≠ .new ∧ ∀ c, s.consumer c ≠ .new

/-- The producer has returned, or it waits for space. -/
theorem addToQueue_blocked (hnew : s.producer ≠ .new) (h : addToQueue n s = none) :
    s.producer = .done ∨ s.producer = .wait ∧ s.remainingSpace = 0 := by
  unfold addToQueue at h
  cases hp : s.producer <;> simp only [hp] at h
  case test => split at h <;> simp_all
  case wait => split at h <;> simp_all
  all_goals simp_all

/-- A consumer waits for an item, or for the mutex. -/
theorem computeSquares_blocked {c : Fin m} (hnew : s.consumer c ≠ .new)
    (h : computeSquares s c = none) :
    s.consumer c = .wait ∧ s.availableItems = 0 ∨ s.consumer c = .lock ∧ s.mutex = true := by
  unfold computeSquares at h
  cases hc : s.consumer c <;> simp only [hc] at h
  case wait => split at h <;> simp_all
  case lock => split at h <;> simp_all
  all_goals simp_all

/-- If every consumer that has been created blocks, all of them wait for an item. -/
theorem all_waiting (hI : Conserved n s) (h : ∀ c, computeSquares s c = none) (c : Fin m) :
    s.consumer c = .new ∨ s.consumer c = .wait ∧ s.availableItems = 0 := by
  have hblocked : ∀ c, s.consumer c = .new ∨ s.consumer c = .wait ∧ s.availableItems = 0 ∨
      s.consumer c = .lock ∧ s.mutex = true := by
    intro c
    by_cases hnew : s.consumer c = .new
    · exact .inl hnew
    · exact .inr (computeSquares_blocked hnew (h c))
  -- a holder of the mutex would be at neither `sem_wait` nor `pthread_mutex_lock`
  have hlags : ∑ c, (s.consumer c).lags = 0 := sum_eq_zero fun c _ => by
    rcases hblocked c with hc | ⟨hc, -⟩ | ⟨hc, -⟩ <;> rw [hc] <;> rfl
  have hsteady : ∑ c, (s.consumer c).steady = 0 := sum_eq_zero fun c _ => by
    rcases hblocked c with hc | ⟨hc, -⟩ | ⟨hc, -⟩ <;> rw [hc] <;> rfl
  have hmutex : s.mutex = false := by
    have := hI.mutex
    rw [hlags, hsteady] at this
    simpa using this.symm
  rcases hblocked c with hc | hc | ⟨-, hlock⟩
  · exact .inl hc
  · exact .inr hc
  · rw [hmutex] at hlock
    exact absurd hlock Bool.false_ne_true

/-- With the producer and a consumer there, and something left to do, some thread can take
a step. -/
theorem thread_goes_on (hI : Conserved n s) (hS : Sums n s) (hprod : s.producer ≠ .new)
    (hcons : ∃ c, s.consumer c ≠ .new) (hleft : s.producer ≠ .done ∨ s.processed < n) :
    (addToQueue n s).isSome ∨ ∃ c, (computeSquares s c).isSome := by
  simp only [Option.isSome_iff_ne_none]
  by_contra hstuck
  simp only [not_or, not_not, not_exists] at hstuck
  obtain ⟨hadd, hall⟩ := hstuck
  have hwait := all_waiting hI hall
  have hclaims : ∑ c, (s.consumer c).claims = 0 := sum_eq_zero fun c _ => by
    rcases hwait c with hc | ⟨hc, -⟩ <;> rw [hc] <;> rfl
  have hreturns : ∑ c, (s.consumer c).returns = 0 := sum_eq_zero fun c _ => by
    rcases hwait c with hc | ⟨hc, -⟩ <;> rw [hc] <;> rfl
  have huncounted : ∑ c, (s.consumer c).uncounted = 0 := sum_eq_zero fun c _ => by
    rcases hwait c with hc | ⟨hc, -⟩ <;> rw [hc] <;> rfl
  obtain ⟨c, hc⟩ := hcons
  have hzero := ((hwait c).resolve_left hc).2
  have hcnt := hI.counter
  have hav := hI.available
  have hsp := hI.space
  have hpr := hS.processed
  rcases addToQueue_blocked hprod hadd with hp | ⟨hp, hspace⟩
  · have hproc := hleft.resolve_left fun hne => hne hp
    simp only [hp, Producer.CounterOk, Producer.posted] at hcnt hav
    omega
  · simp only [hp, Producer.posted, Producer.waited] at hav hsp
    omega

/-- A process that has not ended steps as its threads do. -/
theorem step_thread (hrun : ∀ sum, s.main ≠ .done sum) :
    step n s .producer = addToQueue n s ∧ ∀ c, step n s (.consumer c) = computeSquares s c := by
  cases hm : s.main <;> simp_all [step]

/-- With all threads created and items still to count, some thread can take a step. -/
theorem no_deadlock (hm : 1 ≤ m) (h : (level3 n m).Reachable s) (hcr : AllCreated s)
    (hproc : s.processed < n) :
    (step n s .producer).isSome ∨ ∃ c, (step n s (.consumer c)).isSome := by
  obtain ⟨⟨hI, -⟩, hS⟩ := sums_of_reachable h
  have hrun : ∀ sum, s.main ≠ .done sum := by
    intro sum hd
    have := hS.past (by rw [hd]; trivial)
    omega
  rw [(step_thread hrun).1]
  simp only [(step_thread hrun).2]
  exact thread_goes_on hI hS hcr.1 ⟨⟨0, hm⟩, hcr.2 _⟩ (.inr hproc)

/-- With `10` items and two consumers, where the producer waits for space and one consumer
for the mutex, which the other has. -/
theorem no_deadlock_full : ∃ s : State 2, (level3 10 2).Reachable s ∧
    (s.producer = .wait ∧ s.remainingSpace = 0) ∧ (s.consumer 1 = .lock ∧ s.mutex = true) ∧
    ((step 10 s .producer).isSome ∨ ∃ c, (step 10 s (.consumer c)).isSome) := by
  have h : ∃ s : State 2, (level3 10 2).Reachable s ∧
      (s.producer = .wait ∧ s.remainingSpace = 0) ∧ (s.consumer 1 = .lock ∧ s.mutex = true) ∧
      AllCreated s ∧ s.processed < (10 : ℕ) :=
    ⟨_, ⟨init, List.replicate 4 (.main true) ++ List.replicate 50 .producer ++
      [.consumer 0, .consumer 0, .consumer 1], rfl, rfl⟩, ⟨rfl, rfl⟩, ⟨rfl, rfl⟩,
      ⟨by decide, by decide⟩, by decide⟩
  obtain ⟨s, hs, hp, hc, hcr, hproc⟩ := h
  exact ⟨s, hs, hp, hc, no_deadlock (by decide) hs hcr hproc⟩

end BoundedBuffer

end NetCentric
