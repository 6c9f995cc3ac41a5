import NetCentric.QueueOrder

/-!
# No wake-up of the message queue is lost

The consumer unlocks and waits in one step, so between its test and its wait nobody
changes `workq` or `running`. Whoever changes them afterwards still has its signal to
send (`Awaited`). Without a spurious wake-up, then, a thread that cannot go on waits for
`qlock`, whose holder can go on, for a thread it joins, or for a message
(`no_lost_wakeup`).
-/

namespace NetCentric

namespace MessageQueue

variable {n : ℕ} {arg : Fin n → ℤ} {s t : State n} {as : List ℕ}

/-- While the consumer waits there is nothing for it, or a signal is still to come. -/
def Awaited (s : State n) : Prop :=
  s.consumer = .waiting →
    s.running = true ∧ s.workq = none ∨ (∃ k, s.enqueuer k = .signal) ∨
      s.stop = .unlock ∨ s.stop = .signal

theorem Consumer.signal_ne_waiting (p : Consumer) : p.signal ≠ .waiting := by
  cases p <;> simp [Consumer.signal]

/-- A thread at its signal stays there while another goes on. -/
theorem signal_of_put {k : Fin n} {p : Enqueuer} (hk : s.enqueuer k ≠ .signal)
    (h : ∃ j, s.enqueuer j = .signal) : ∃ j, (s.put k p).enqueuer j = .signal := by
  obtain ⟨j, hj⟩ := h
  have hne : j ≠ k := fun hjk => hk (hjk ▸ hj)
  exact ⟨j, (Function.update_of_ne hne _ _).trans hj⟩

/-- A step of thread `k` that changes neither `workq` nor `running` and sends no signal. -/
theorem Awaited.put (hA : Awaited s) (hw : s.consumer = .waiting) {k : Fin n}
    {p q : Enqueuer} (hk : s.enqueuer k = q) (hq : q ≠ .signal) :
    s.running = true ∧ s.workq = none ∨ (∃ j, (s.put k p).enqueuer j = .signal) ∨
      s.stop = .unlock ∨ s.stop = .signal := by
  rcases hA hw with hnone | hsignal | hstop
  · exact .inl hnone
  · exact .inr (.inl (signal_of_put (hk ▸ hq) hsignal))
  · exact .inr (.inr hstop)

theorem Awaited.processMsg (hI : Inv arg s as) (h : processMsg s = some t) : Awaited t := by
  intro hw
  have hok := hI.consumer
  rcases processMsg_cases h with ⟨hp | hp, hlock, rfl⟩ | ⟨hp, hr, hn, rfl⟩ | ⟨hp, hn, rfl⟩ |
    ⟨hp, rfl⟩ | ⟨hp, hr, hn, rfl⟩ | ⟨hp, hn, rfl⟩ | ⟨hp, rfl⟩ | ⟨mp, hp, hn, rfl⟩ |
    ⟨mp, c, hp, hc, rfl⟩ | ⟨mp, hp, rfl⟩ | ⟨mp, c, hp, hc, rfl⟩ | ⟨mp, hp, rfl⟩ | ⟨mp, hp, rfl⟩ |
    ⟨mp, hp, rfl⟩ <;> rw [hp] at hok
  -- it waits only after `pthread_cond_wait`, and that found the list empty
  all_goals first | exact .inl hok | cases hw

theorem Awaited.enqueueMsg {d : ℤ} {k : Fin n} {a : ℕ} {next : Option ℕ} {data : ℤ}
    (hA : Awaited s) (h : enqueueMsg d s k a next data = some t) : Awaited t := by
  intro hw
  rcases enqueueMsg_cases h with ⟨hk, rfl⟩ | ⟨hk, ha, rfl⟩ | ⟨m, c, hk, hc, rfl⟩ |
    ⟨m, c, hk, hc, rfl⟩ | ⟨m, hk, hlock, rfl⟩ | ⟨m, hk, hn, rfl⟩ | ⟨m, hk, hn, rfl⟩ |
    ⟨m, hk, rfl⟩ | ⟨m, l, hk, hn, rfl⟩ | ⟨m, l, c, hk, hc, hnext, rfl⟩ |
    ⟨m, l, c, hk, hc, hnext, rfl⟩ | ⟨m, l, c, l', hk, hc, hnext, rfl⟩ | ⟨m, l, c, hk, hc, rfl⟩ |
    ⟨hk, rfl⟩ | ⟨hk, rfl⟩
  · exact hA.put hw hk (by simp)
  · exact hA.put hw hk (by simp)
  · exact hA.put hw hk (by simp)
  · exact hA.put hw hk (by simp)
  · exact hA.put hw hk (by simp)
  · exact hA.put hw hk (by simp)
  · exact hA.put hw hk (by simp)
  · -- the message is linked, and the signal is next
    exact .inr (.inl ⟨k, Function.update_self _ _ _⟩)
  · exact hA.put hw hk (by simp)
  · exact hA.put hw hk (by simp)
  · exact hA.put hw hk (by simp)
  · exact hA.put hw hk (by simp)
  · exact .inr (.inl ⟨k, Function.update_self _ _ _⟩)
  · exact absurd hw s.consumer.signal_ne_waiting
  · exact hA.put hw hk (by simp)

theorem Awaited.stop (hA : Awaited s) (h : stop s = some t) : Awaited t := by
  intro hw
  rcases stop_cases h with ⟨hs, hlock, rfl⟩ | ⟨hs, rfl⟩ | ⟨hs, rfl⟩ | ⟨hs, rfl⟩
  · rcases hA hw with hnone | hsignal | hstop
    · exact .inl hnone
    · exact .inr (.inl hsignal)
    · simp [hs] at hstop
  · exact .inr (.inr (.inl rfl))
  · exact .inr (.inr (.inr rfl))
  · exact absurd hw s.consumer.signal_ne_waiting

theorem Awaited.main (hA : Awaited s) (hI : Inv arg s as) (h : main s = some t) : Awaited t := by
  intro hw
  have hst := hI.started
  rcases main_cases h with ⟨hm, rfl⟩ | ⟨k, hm, rfl⟩ | ⟨k, hm, hk, rfl⟩ | ⟨k, hm, hk, rfl⟩ |
    ⟨k, hm, hk, rfl⟩ | ⟨hm, rfl⟩ | ⟨hm, hs, rfl⟩ | ⟨hm, hc, rfl⟩ <;> rw [hm] at hst
  · cases hw
  · exact hA.put hw (hst.2.2.1 k le_rfl) (by simp)
  · exact hA hw
  · exact hA hw
  · exact hA hw
  · rcases hA hw with hnone | hsignal | hstop
    · exact .inl hnone
    · exact .inr (.inl hsignal)
    · simp [hst.2.2] at hstop
  · exact hA hw
  · exact hA hw

theorem Awaited.step {a : Action n} (hA : Awaited s) (hI : Inv arg s as)
    (h : step arg s a = some t) : Awaited t := by
  obtain ⟨-, ⟨-, h⟩ | ⟨-, hw, rfl⟩ | ⟨k, p, next, data, -, h⟩ | ⟨-, h⟩ | ⟨-, h⟩⟩ := step_cases h
  · exact Awaited.processMsg hI h
  · exact fun hw => nomatch hw
  · exact hA.enqueueMsg h
  · exact hA.stop h
  · exact hA.main hI h

theorem awaited_of_reachable (h : (messageQueue arg).Reachable s) :
    (∃ as, Inv arg s as) ∧ Awaited s :=
  h.invariant (I := fun s => (∃ as, Inv arg s as) ∧ Awaited s)
    (fun s hs => by
      obtain rfl : s = init := hs
      exact ⟨⟨[], inv_init⟩, fun hw => nomatch hw⟩)
    fun _ _ _ ⟨⟨_, hI⟩, hA⟩ hstep => ⟨hI.step hstep, hA.step hI hstep⟩

/-! ## Somebody can go on -/

/-- Some thread can take a step, without a spurious wake-up. -/
def CanGoOn (arg : Fin n → ℤ) (s : State n) : Prop :=
  ∃ a t, a ≠ .wake ∧ step arg s a = some t

theorem CanGoOn.consumer (hrun : s.main ≠ .done) (h : processMsg s ≠ none) : CanGoOn arg s := by
  obtain ⟨t, ht⟩ := Option.ne_none_iff_exists'.1 h
  refine ⟨.consumer, t, by simp, ?_⟩
  cases hm : s.main <;> simp_all [step]

theorem CanGoOn.enqueuer (hrun : s.main ≠ .done) {k : Fin n} {a : ℕ} {p : Option ℕ} {d : ℤ}
    (h : enqueueMsg (arg k) s k a p d ≠ none) : CanGoOn arg s := by
  obtain ⟨t, ht⟩ := Option.ne_none_iff_exists'.1 h
  refine ⟨.enqueuer k a p d, t, by simp, ?_⟩
  cases hm : s.main <;> simp_all [step]

theorem CanGoOn.stop (hrun : s.main ≠ .done) (h : stop s ≠ none) : CanGoOn arg s := by
  obtain ⟨t, ht⟩ := Option.ne_none_iff_exists'.1 h
  refine ⟨.stop, t, by simp, ?_⟩
  cases hm : s.main <;> simp_all [step]

theorem CanGoOn.main (hrun : s.main ≠ .done) (h : main s ≠ none) : CanGoOn arg s := by
  obtain ⟨t, ht⟩ := Option.ne_none_iff_exists'.1 h
  refine ⟨.main, t, by simp, ?_⟩
  cases hm : s.main <;> simp_all [step]

/-- The consumer blocks at a lock and on `qready`. -/
theorem Inv.processMsg_blocked (hI : Inv arg s as) (hnew : s.consumer ≠ .new)
    (h : MessageQueue.processMsg s = none) : s.consumer = .done ∨ s.consumer = .waiting ∨
      (s.consumer = .lock ∨ s.consumer = .woken) ∧ s.qlock ≠ none := by
  have hok := hI.consumer
  unfold MessageQueue.processMsg at h
  cases hp : s.consumer <;> rw [hp] at hok <;> simp only [hp] at h
  case lock => split at h <;> simp_all
  case woken => split at h <;> simp_all
  case take => exact absurd (Option.map_eq_none_iff.1 h) hok
  case advance mp =>
    have hlinked := hI.linked
    rw [show s.workq = some mp from hok] at hlinked
    obtain ⟨c, -, hc, -⟩ := hlinked.some_cases
    simp [hc] at h
  case print mp =>
    obtain ⟨c, hc, -⟩ := hok
    simp [hc] at h
  case printDone mp =>
    obtain ⟨c, hc, -⟩ := hok
    simp [hc] at h
  case free mp =>
    obtain ⟨c, hc, -⟩ := hok
    simp [hc] at h
  all_goals simp_all

/-- A thread `enqueue_msg` blocks at its lock, if `malloc` gives a free address. -/
theorem Inv.enqueueMsg_blocked (hI : Inv arg s as) {k : Fin n} {a : ℕ} {next : Option ℕ}
    {data : ℤ} (hnew : s.enqueuer k ≠ .new) (ha : s.heap a = none)
    (h : MessageQueue.enqueueMsg (arg k) s k a next data = none) :
    s.enqueuer k = .done ∨ ∃ m, s.enqueuer k = .lock m ∧ s.qlock ≠ none := by
  have hmine := hI.mine k
  have hwalk := hI.walk k
  have hin : ∀ {l}, l ∈ as → ∃ c, s.heap l = some c := fun hl => hI.linked.exists_cell hl
  unfold MessageQueue.enqueueMsg at h
  cases hk : s.enqueuer k <;> rw [hk] at hmine hwalk <;> simp only [hk] at h
  case setData m =>
    obtain ⟨c, hc, -⟩ := hmine
    simp [hc] at h
  case setNext m =>
    obtain ⟨c, hc, -⟩ := hmine
    simp [hc] at h
  case lock m => split at h <;> simp_all
  case setLast m => exact absurd (Option.map_eq_none_iff.1 h) hwalk
  case testLast m l =>
    obtain ⟨c, hc⟩ := hin hwalk
    simp [hc] at h
  case advance m l =>
    obtain ⟨c, hc⟩ := hin hwalk.1
    have hnext := hwalk.2 c hc
    simp [hc, hnext] at h
  case link m l =>
    obtain ⟨c, hc⟩ := hin hwalk.1
    simp [hc] at h
  all_goals simp_all

theorem stop_blocked (hnew : s.stop ≠ .new) (h : MessageQueue.stop s = none) :
    s.stop = .done ∨ s.stop = .lock ∧ s.qlock ≠ none := by
  unfold MessageQueue.stop at h
  cases hs : s.stop <;> simp only [hs] at h
  case lock => split at h <;> simp_all
  all_goals simp_all

/-- The thread that has the lock can go on. -/
theorem Inv.holder_goes_on (hI : Inv arg s as) (hrun : s.main ≠ .done) (hlock : s.qlock ≠ none) :
    CanGoOn arg s := by
  obtain ⟨g, hg⟩ := Option.ne_none_iff_exists'.1 hlock
  have hin := (hI.locked g).2 hg
  cases g with
  | consumer =>
    refine .consumer hrun fun h => ?_
    rcases hI.processMsg_blocked (fun hp => by simp [State.inside, hp, Consumer.inside] at hin) h
      with hp | hp | ⟨hp | hp, -⟩ <;> simp [State.inside, hp, Consumer.inside] at hin
  | enqueuer k =>
    obtain ⟨N, hN⟩ := hI.bound
    refine .enqueuer hrun (k := k) (a := N) (p := none) (d := 0) fun h => ?_
    rcases hI.enqueueMsg_blocked (fun hp => by simp [State.inside, hp, Enqueuer.inside] at hin)
      (hN N le_rfl) h with hp | ⟨m, hp, -⟩ <;> simp [State.inside, hp, Enqueuer.inside] at hin
  | stop =>
    refine .stop hrun fun h => ?_
    rcases stop_blocked (fun hp => by simp [State.inside, hp, Stop.inside] at hin) h with
      hp | ⟨hp, -⟩ <;> simp [State.inside, hp, Stop.inside] at hin

/-- A thread `enqueue_msg` that has not returned can go on, or the holder of the lock. -/
theorem Inv.enqueuer_goes_on (hI : Inv arg s as) (hrun : s.main ≠ .done) {k : Fin n}
    (hnew : s.enqueuer k ≠ .new) (hdone : s.enqueuer k ≠ .done) : CanGoOn arg s := by
  obtain ⟨N, hN⟩ := hI.bound
  by_cases h : MessageQueue.enqueueMsg (arg k) s k N none 0 = none
  · rcases hI.enqueueMsg_blocked hnew (hN N le_rfl) h with hp | ⟨m, -, hlock⟩
    · exact absurd hp hdone
    · exact hI.holder_goes_on hrun hlock
  · exact .enqueuer hrun h

theorem Inv.stop_goes_on (hI : Inv arg s as) (hrun : s.main ≠ .done) (hnew : s.stop ≠ .new)
    (hdone : s.stop ≠ .done) : CanGoOn arg s := by
  by_cases h : MessageQueue.stop s = none
  · rcases stop_blocked hnew h with hp | ⟨-, hlock⟩
    · exact absurd hp hdone
    · exact hI.holder_goes_on hrun hlock
  · exact .stop hrun h

/-- The wait of the consumer ends : in no reachable state have the other threads finished
while it waits with no signal delivered to it, and until all threads `enqueue_msg` and
`stop` have finished some thread can go on without a spurious wake-up. -/
theorem no_lost_wakeup (h : (messageQueue arg).Reachable s) :
    ¬((∀ k, s.enqueuer k = .done) ∧ s.stop = .done ∧ s.consumer = .waiting) ∧
      ((∃ k, s.enqueuer k ≠ .done) ∨ s.stop ≠ .done → CanGoOn arg s) := by
  obtain ⟨⟨as, hI⟩, hA⟩ := awaited_of_reachable h
  have hst := hI.started
  refine ⟨fun ⟨henq, hstop, hw⟩ => ?_, fun hleft => ?_⟩
  · have hrunning := hI.running
    rw [hstop] at hrunning
    rcases hA hw with ⟨hr, -⟩ | ⟨k, hk⟩ | hs | hs
    · exact Bool.false_ne_true (hrunning.symm.trans hr)
    · simp [henq k] at hk
    · simp [hstop] at hs
    · simp [hstop] at hs
  · have hrun : s.main ≠ .done := by
      intro hm
      rw [hm] at hst
      rcases hleft with ⟨k, hk⟩ | hs
      · exact hk (hst.2.1 k)
      · exact hs hst.2.2
    cases hm : s.main <;> rw [hm] at hst
    case join k =>
      by_cases hk : k < n
      · by_cases hdone : s.enqueuer ⟨k, hk⟩ = .done
        · exact .main hrun (by simp [main, hm, hk, hdone])
        · exact hI.enqueuer_goes_on hrun (hst.2.1 ⟨k, hk⟩) hdone
      · exact .main hrun (by simp [main, hm, hk])
    case joinStop =>
      by_cases hdone : s.stop = .done
      · exact .main hrun (by simp [main, hm, hdone])
      · exact hI.stop_goes_on hrun hst.2.2 hdone
    case joinConsumer =>
      rcases hleft with ⟨k, hk⟩ | hs
      · exact absurd (hst.2.1 k) hk
      · exact absurd hst.2.2 hs
    case create k =>
      refine .main hrun ?_
      by_cases hk : k < n <;> simp [main, hm, hk]
    case done => exact absurd hm hrun
    all_goals exact .main hrun (by simp [main, hm])

/-- The consumer waits, and the one message is not allocated yet. -/
theorem no_lost_wakeup_waiting : ∃ s : State 1, s.consumer = .waiting ∧
    (messageQueue fun _ => 2).Reachable s ∧ CanGoOn (fun _ => 2) s := by
  have h : ∃ s : State 1, (messageQueue fun _ => 2).Reachable s ∧ s.consumer = .waiting ∧
      s.stop ≠ .done := by
    refine ⟨_, ⟨init, List.replicate 3 .main ++ List.replicate 3 .consumer, rfl, rfl⟩, rfl,
      nofun⟩
  obtain ⟨s, hs, hw, hstop⟩ := h
  exact ⟨s, hw, hs, (no_lost_wakeup hs).2 (.inr hstop)⟩

end MessageQueue

end NetCentric
