import NetCentric.BoundedBuffer

/-!
# The invariant of the bounded buffer

Two conservation laws tie the semaphores to the threads in transit
(`BoundedBuffer.Conserved`). An item posted by the producer is in `availableItems`, or
claimed by a consumer that has not read yet, or taken. A slot is in `remainingSpace`, or
waited for by the producer, or held by a consumer that has read and not posted, up to
the takes. The mutex has one holder, `tail` follows the producer's counter, and `head`
the number of takes, one behind while a consumer is between its read and its update.

`BoundedBuffer.Slots` is what the laws give for the contents : the slots between the
takes and the writes hold the next values in order.

`buffer_safe` reads off the safety of the buffer : a slot the producer writes is not
full, a slot a consumer reads is full, and the values taken are `1, 2, …, k`.
-/

namespace NetCentric

namespace BoundedBuffer

/-! ## Where the threads are -/

/-- The `sem_wait`s on `remainingSpace` the producer is through. -/
def Producer.waited (i : ℕ) : Producer → ℕ
  | write | advance | post | incr => i
  | _ => i - 1

/-- The slots the producer has written. -/
def Producer.written (i : ℕ) : Producer → ℕ
  | advance | post | incr => i
  | _ => i - 1

/-- The updates of `tail` the producer has made. -/
def Producer.advanced (i : ℕ) : Producer → ℕ
  | post | incr => i
  | _ => i - 1

/-- The items the producer has posted. -/
def Producer.posted (i : ℕ) : Producer → ℕ
  | incr => i
  | _ => i - 1

/-- The loop counter at each statement of `addToQueue`. -/
def Producer.CounterOk (n i : ℕ) : Producer → Prop
  | new | start => i = 0
  | test => 1 ≤ i ∧ i ≤ n + 1
  | done => i = n + 1
  | _ => 1 ≤ i ∧ i ≤ n

/-- Through `sem_wait(&availableItems)`, and not read yet. -/
def Consumer.claims : Consumer → ℕ
  | lock | read => 1
  | _ => 0

/-- Between the read and the update of `head`. -/
def Consumer.lags : Consumer → ℕ
  | advance _ => 1
  | _ => 0

/-- In the critical section, with `head` up to date. -/
def Consumer.steady : Consumer → ℕ
  | read | load _ | store _ _ | print | loadProcessed | storeProcessed _ | unlock => 1
  | _ => 0

/-- Read, and not through `sem_post(&remainingSpace)`. -/
def Consumer.returns : Consumer → ℕ
  | advance _ | load _ | store _ _ | print | loadProcessed | storeProcessed _ | unlock
  | post => 1
  | _ => 0

/-- No thread runs before `main` has created it. -/
def Uncreated (s : State m) : Main → Prop
  | .createProducer => s.producer = .new ∧ ∀ c, s.consumer c = .new
  | .createConsumer k => ∀ c : Fin m, k ≤ c → s.consumer c = .new
  | _ => True

/-- The conservation laws. -/
structure Conserved (n : ℕ) (s : State m) : Prop where
  counter : s.producer.CounterOk n s.i
  mutex : ∑ c, (s.consumer c).lags + ∑ c, (s.consumer c).steady = s.mutex.toNat
  available : s.availableItems + ∑ c, (s.consumer c).claims + s.taken.length =
    s.producer.posted s.i
  space : s.remainingSpace + s.producer.waited s.i + ∑ c, (s.consumer c).returns =
    8 + s.taken.length
  tail : s.tail = s.producer.advanced s.i % 8
  head : (s.head + ∑ c, (s.consumer c).lags) % 8 = s.taken.length % 8
  head_lt : s.head < 8
  created : Uncreated s s.main

variable {m n : ℕ} {s t : State m}

/-! ## The conservation laws are kept -/

theorem conserved_init : Conserved n (init : State m) := by
  constructor <;> simp [init, Producer.CounterOk, Consumer.lags, Consumer.steady, Consumer.claims,
    Producer.posted, Producer.waited, Producer.advanced, Consumer.returns, BUFFER_SIZE, Uncreated]

/-- A thread that runs is one `main` has created, so the others are still to come. -/
theorem Uncreated.put {k : Main} {c : Fin m} {p : Consumer} (hold : s.consumer c ≠ .new)
    (hcons : t.consumer = Function.update s.consumer c p) (h : Uncreated s k) :
    Uncreated t k := by
  cases k with
  | createProducer => exact absurd (h.2 c) hold
  | createConsumer k =>
    intro d hd
    have hne : d ≠ c := fun hdc => hold (h c (hdc ▸ hd))
    rw [hcons, Function.update_of_ne hne]
    exact h d hd
  | _ => trivial

theorem Uncreated.producer {k : Main} (hp : s.producer ≠ .new) (hcons : t.consumer = s.consumer)
    (h : Uncreated s k) : Uncreated t k := by
  cases k with
  | createProducer => exact absurd h.1 hp
  | createConsumer k => exact fun c hc => hcons ▸ h c hc
  | _ => trivial

/-- A change of one consumer keeps the laws if it balances its own part in each. -/
theorem Conserved.put (hI : Conserved n s) {c : Fin m} {p : Consumer}
    (hcons : t.consumer = Function.update s.consumer c p)
    (hrest : t.producer = s.producer ∧ t.i = s.i ∧ t.tail = s.tail)
    (hcr : Uncreated t t.main)
    (hmutex : t.mutex.toNat + (s.consumer c).lags + (s.consumer c).steady =
      s.mutex.toNat + p.lags + p.steady)
    (havail : t.availableItems + p.claims + t.taken.length =
      s.availableItems + (s.consumer c).claims + s.taken.length)
    (hspace : t.remainingSpace + p.returns + s.taken.length =
      s.remainingSpace + (s.consumer c).returns + t.taken.length)
    (hhead : (t.head + p.lags + s.taken.length) % 8 =
      (s.head + (s.consumer c).lags + t.taken.length) % 8)
    (hlt : t.head < 8) : Conserved n t := by
  obtain ⟨hprod, hi, htail⟩ := hrest
  have hlags := Threads.sum_update Consumer.lags s.consumer c p
  have hsteady := Threads.sum_update Consumer.steady s.consumer c p
  have hclaims := Threads.sum_update Consumer.claims s.consumer c p
  have hreturns := Threads.sum_update Consumer.returns s.consumer c p
  have h1 := hI.mutex
  have h2 := hI.available
  have h3 := hI.space
  have h4 := hI.head
  rw [← hcons] at hlags hsteady hclaims hreturns
  exact ⟨by rw [hprod, hi]; exact hI.counter, by omega, by rw [hprod, hi]; omega,
    by rw [hprod, hi]; omega, by rw [htail, hprod, hi]; exact hI.tail, by omega, hlt, hcr⟩

/-- The mutex is locked while a consumer is in the critical section. -/
theorem Conserved.locked (hI : Conserved n s) {c : Fin m} (hc : (s.consumer c).steady = 1) :
    s.mutex = true := by
  have := Threads.le_sum Consumer.steady s.consumer c
  have := hI.mutex
  cases hm : s.mutex with
  | true => rfl
  | false =>
    simp only [hm, Bool.toNat_false] at this
    omega

theorem Conserved.computeSquares {c : Fin m} (hI : Conserved n s)
    (h : computeSquares s c = some t) : Conserved n t := by
  have hlt := hI.head_lt
  have hlocked := hI.locked (c := c)
  rcases computeSquares_cases h with ⟨hc, ha, rfl⟩ | ⟨hc, hm, rfl⟩ | ⟨hc, rfl⟩ | ⟨v, hc, rfl⟩ |
    ⟨v, hc, rfl⟩ | ⟨v, w, hc, rfl⟩ | ⟨hc, rfl⟩ | ⟨hc, rfl⟩ | ⟨v, hc, rfl⟩ | ⟨hc, rfl⟩ | ⟨hc, rfl⟩
  all_goals
    refine hI.put (c := c) rfl ⟨rfl, rfl, rfl⟩
      (Uncreated.put (s := s) (c := c) (by simp [hc]) rfl hI.created) ?_ ?_ ?_ ?_ ?_ <;>
      simp_all [Consumer.lags, Consumer.steady, Consumer.claims, Consumer.returns, State.put,
        BUFFER_SIZE] <;> omega

theorem Conserved.addToQueue (hI : Conserved n s) (h : addToQueue n s = some t) :
    Conserved n t := by
  obtain ⟨hcnt, hmut, hav, hsp, htl, hhd, hlt, hcr⟩ := hI
  rcases addToQueue_cases h with ⟨hp, rfl⟩ | ⟨hp, hle, rfl⟩ | ⟨hp, hle, rfl⟩ | ⟨hp, hr, rfl⟩ |
    ⟨hp, rfl⟩ | ⟨hp, rfl⟩ | ⟨hp, rfl⟩ | ⟨hp, rfl⟩
  all_goals
    simp only [hp, Producer.CounterOk, Producer.posted, Producer.waited, Producer.advanced]
      at hcnt hav hsp htl
    refine ⟨?_, hmut, ?_, ?_, ?_, hhd, hlt, Uncreated.producer (s := s) (by simp [hp]) rfl hcr⟩ <;>
      simp only [Producer.CounterOk, Producer.posted, Producer.waited, Producer.advanced,
        BUFFER_SIZE] <;> omega

theorem Conserved.main {ok : Bool} (hI : Conserved n s) (h : main n ok s = some t) :
    Conserved n t := by
  have hcr := hI.created
  rcases main_cases h with ⟨hm, rfl⟩ | ⟨k, hk, hm, rfl⟩ | ⟨k, hm, hk, rfl⟩ | ⟨hm, -, rfl⟩ |
    ⟨-, -, rfl⟩ | ⟨hm, -, rfl⟩ | ⟨k, hm, -, rfl⟩ | ⟨k, hm, -, rfl⟩ | ⟨hm, rfl⟩
  case inl =>
    rw [hm] at hcr
    obtain ⟨hcnt, hmut, hav, hsp, htl, hhd, hlt, -⟩ := hI
    rw [hcr.1] at hcnt hav hsp htl
    cases ok <;> exact ⟨hcnt, hmut, hav, hsp, htl, hhd, hlt, fun c _ => hcr.2 c⟩
  case inr.inl =>
    rw [hm] at hcr
    have hnew := hcr ⟨k, hk⟩ le_rfl
    refine hI.put (c := ⟨k, hk⟩) rfl ⟨rfl, rfl, rfl⟩ ?_ ?_ ?_ ?_ ?_ hI.head_lt
    · intro d hd
      have hne : d ≠ ⟨k, hk⟩ := fun hdk => by simp [hdk] at hd
      simp only [put_consumer, Function.update_of_ne hne]
      exact hcr d (by omega)
    all_goals
      cases ok <;> simp [hnew, State.put, Consumer.lags, Consumer.steady, Consumer.claims,
        Consumer.returns]
  case inr.inr.inr.inr.inl => exact hI
  all_goals
    obtain ⟨hcnt, hmut, hav, hsp, htl, hhd, hlt, -⟩ := hI
    exact ⟨hcnt, hmut, hav, hsp, htl, hhd, hlt, trivial⟩

theorem Conserved.step {a : Action m} (hI : Conserved n s) (h : step n s a = some t) :
    Conserved n t := by
  rcases step_cases h with ⟨-, h⟩ | ⟨c, -, h⟩ | ⟨ok, -, h⟩
  · exact hI.addToQueue h
  · exact hI.computeSquares h
  · exact hI.main h

/-! ## The contents of the buffer -/

/-- Item `j + 1` is written and not taken. -/
def Waiting (s : State m) (j : ℕ) : Prop :=
  s.taken.length ≤ j ∧ j < s.producer.written s.i

/-- The slots between the takes and the writes hold the next values, in order. -/
structure Slots (s : State m) : Prop where
  taken : s.taken = (List.range s.taken.length).map fun j : ℕ => (j + 1 : ℤ)
  buffer : ∀ j, Waiting s j → s.buffer (j % 8) = j + 1
  full : ∀ x, s.full x = true ↔ ∃ j, Waiting s j ∧ j % 8 = x

theorem slots_init : Slots (init : State m) := by
  constructor <;> simp [init, Waiting, Producer.written]

/-- The slot about to be written is free : fewer than eight items wait, and they are the
items before this one. -/
theorem Conserved.write_free (hI : Conserved n s) (hp : s.producer = .write) {j : ℕ}
    (hj : Waiting s j) : j % 8 ≠ s.tail := by
  have hcnt := hI.counter
  have hsp := hI.space
  have htl := hI.tail
  obtain ⟨hk, hw⟩ := hj
  simp only [hp, Producer.CounterOk, Producer.waited, Producer.advanced, Producer.written]
    at hcnt hsp htl hw
  omega

/-- A consumer about to read finds an item at `head`, the next one. -/
theorem Conserved.read_head (hI : Conserved n s) {c : Fin m} (hc : s.consumer c = .read) :
    s.head = s.taken.length % 8 ∧ Waiting s s.taken.length := by
  have hlag : ∑ c, (s.consumer c).lags = 0 := by
    have hle := Threads.le_sum Consumer.steady s.consumer c
    have hmut := hI.mutex
    have := Bool.toNat_le s.mutex
    rw [hc, Consumer.steady] at hle
    omega
  have hclaim : 1 ≤ ∑ c, (s.consumer c).claims := by
    have hle := Threads.le_sum Consumer.claims s.consumer c
    rwa [hc, Consumer.claims] at hle
  have hposted : s.producer.posted s.i ≤ s.producer.written s.i := by
    cases s.producer <;> simp [Producer.posted, Producer.written]
  have hhd := hI.head
  have hlt := hI.head_lt
  have hav := hI.available
  exact ⟨by omega, le_rfl, by omega⟩

/-- A step that neither reads nor writes a slot keeps the contents. -/
theorem Slots.frame (hS : Slots s) (htaken : t.taken = s.taken) (hbuffer : t.buffer = s.buffer)
    (hfull : t.full = s.full) (hw : t.producer.written t.i = s.producer.written s.i) :
    Slots t := by
  have hiff : ∀ j, Waiting t j ↔ Waiting s j := fun j => by rw [Waiting, Waiting, htaken, hw]
  refine ⟨by rw [htaken]; exact hS.taken, fun j hj => ?_, fun x => ?_⟩
  · rw [hbuffer]
    exact hS.buffer j ((hiff j).1 hj)
  · rw [hfull, hS.full]
    exact exists_congr fun j => and_congr (hiff j).symm Iff.rfl

/-- The producer's write adds the next item at a free slot. -/
theorem Slots.write (hS : Slots s) (hI : Conserved n s) (hp : s.producer = .write) :
    Slots { s with
      producer := .advance
      buffer := Function.update s.buffer s.tail s.i
      full := Function.update s.full s.tail true } := by
  have hfree := fun {j} => hI.write_free hp (j := j)
  have hcnt := hI.counter
  have htl := hI.tail
  have hle : s.taken.length ≤ s.i - 1 := by
    have hsp := hI.available
    simp only [hp, Producer.posted] at hsp
    omega
  have hsp := hI.space
  simp only [hp, Producer.CounterOk, Producer.advanced, Producer.waited] at hcnt htl hsp
  -- the waiting items after the write are those before and the item written
  have hiff : ∀ j, (s.taken.length ≤ j ∧ j < s.i) ↔ Waiting s j ∨ j = s.i - 1 := by
    intro j
    simp only [Waiting, hp, Producer.written]
    omega
  refine ⟨hS.taken, fun j hj => ?_, fun x => ?_⟩
  · rcases (hiff j).1 hj with h | rfl
    · simpa only [Function.update_of_ne (hfree h)] using hS.buffer j h
    · simp only [← htl, Function.update_self]
      omega
  · by_cases hx : x = s.tail
    · simp only [hx, Function.update_self, true_iff]
      exact ⟨s.i - 1, (hiff _).2 (Or.inr rfl), htl.symm⟩
    · simp only [Function.update_of_ne hx, hS.full]
      refine exists_congr fun j => and_congr_left fun hjx => ?_
      refine ⟨fun h => (hiff j).2 (Or.inl h), fun h => ?_⟩
      rcases (hiff j).1 h with h | rfl
      · exact h
      · exact absurd (hjx.symm.trans htl.symm) hx

/-- A read takes the next item off a full slot. -/
theorem Slots.read (hS : Slots s) (hI : Conserved n s) {c : Fin m} (hc : s.consumer c = .read)
    (p : Consumer) : Slots { s.put c p with
      full := Function.update s.full s.head false
      taken := s.taken ++ [s.buffer s.head] } := by
  obtain ⟨hhead, hwait⟩ := hI.read_head hc
  have hval : s.buffer s.head = s.taken.length + 1 := by rw [hhead, hS.buffer _ hwait]
  have hspan : ∀ {j}, Waiting s j → j < s.taken.length + 8 := by
    rintro j ⟨-, hj⟩
    have hsp := hI.space
    have : s.producer.written s.i ≤ s.producer.waited s.i := by
      cases s.producer <;> simp [Producer.waited, Producer.written]
    omega
  have hiff : ∀ j, Waiting s j ↔ (s.taken.length + 1 ≤ j ∧ j < s.producer.written s.i) ∨
      j = s.taken.length := by
    intro j
    have := hwait.2
    simp only [Waiting]
    omega
  refine ⟨?_, fun j hj => ?_, fun x => ?_⟩
  · simp only [List.length_append, List.length_singleton, List.range_succ, List.map_append,
      List.map_singleton, ← hS.taken, hval]
  · have hj' := hj
    simp only [Waiting, List.length_append, List.length_singleton] at hj'
    exact hS.buffer j ((hiff j).2 (Or.inl hj'))
  · simp only [Waiting, List.length_append, List.length_singleton]
    by_cases hx : x = s.head
    · simp only [hx, Function.update_self, Bool.false_eq_true, false_iff, not_exists, not_and]
      intro j hj hjx
      have := hspan ((hiff j).2 (Or.inl hj))
      omega
    · simp only [Function.update_of_ne hx, hS.full]
      refine exists_congr fun j => and_congr_left fun hjx => ?_
      refine ⟨fun h => ?_, fun h => (hiff j).2 (Or.inl h)⟩
      rcases (hiff j).1 h with h | rfl
      · exact h
      · exact absurd (hjx.symm.trans hhead.symm) hx

theorem Slots.step {a : Action m} (hS : Slots s) (hI : Conserved n s)
    (h : step n s a = some t) : Slots t := by
  rcases step_cases h with ⟨-, h⟩ | ⟨c, -, h⟩ | ⟨ok, -, h⟩
  · rcases addToQueue_cases h with ⟨hp, rfl⟩ | ⟨hp, hle, rfl⟩ | ⟨hp, hle, rfl⟩ | ⟨hp, hr, rfl⟩ |
      ⟨hp, rfl⟩ | ⟨hp, rfl⟩ | ⟨hp, rfl⟩ | ⟨hp, rfl⟩
    case inr.inr.inr.inr.inl => exact hS.write hI hp
    all_goals
      have hcnt := hI.counter
      refine hS.frame rfl rfl rfl ?_
      simp_all [Producer.written, Producer.CounterOk]
  · rcases computeSquares_cases h with ⟨hc, ha, rfl⟩ | ⟨hc, hm, rfl⟩ | ⟨hc, rfl⟩ | ⟨v, hc, rfl⟩ |
      ⟨v, hc, rfl⟩ | ⟨v, w, hc, rfl⟩ | ⟨hc, rfl⟩ | ⟨hc, rfl⟩ | ⟨v, hc, rfl⟩ | ⟨hc, rfl⟩ | ⟨hc, rfl⟩
    case inr.inr.inl => exact hS.read hI hc _
    all_goals exact hS.frame rfl rfl rfl rfl
  · rcases main_cases h with ⟨hm, rfl⟩ | ⟨k, hk, hm, rfl⟩ | ⟨k, hm, hk, rfl⟩ | ⟨hm, -, rfl⟩ |
      ⟨-, -, rfl⟩ | ⟨hm, -, rfl⟩ | ⟨k, hm, -, rfl⟩ | ⟨k, hm, -, rfl⟩ | ⟨hm, rfl⟩
    case inl =>
      have hnew := hI.created
      rw [hm] at hnew
      refine hS.frame rfl rfl rfl ?_
      rw [hnew.1]
      cases ok <;> rfl
    all_goals exact hS.frame rfl rfl rfl rfl

/-! ## Every reachable state -/

/-- The conservation laws and the contents of the buffer. -/
structure Inv (n : ℕ) (s : State m) : Prop where
  conserved : Conserved n s
  slots : Slots s

theorem inv_init : Inv n (init : State m) :=
  ⟨conserved_init, slots_init⟩

theorem Inv.step {a : Action m} (hI : Inv n s) (h : step n s a = some t) : Inv n t :=
  ⟨hI.conserved.step h, hI.slots.step hI.conserved h⟩

theorem inv_of_reachable (h : (level3 n m).Reachable s) : Inv n s :=
  h.invariant (fun _ hs => hs ▸ inv_init) fun _ _ _ hI hstep => hI.step hstep

/-- No more items are taken than the producer has posted, and it posts at most `n`. -/
theorem Conserved.taken_le (hI : Conserved n s) : s.taken.length ≤ n := by
  have hcnt := hI.counter
  have hav := hI.available
  cases hp : s.producer <;>
    simp only [hp, Producer.CounterOk, Producer.posted] at hcnt hav <;> omega

/-- Safety of the buffer, in every reachable state. The producer writes no slot that
holds a value not yet read, no consumer reads a slot not filled since it was last read,
and the values taken are `1, 2, …, k`, `k ≤ n`, each once. Both indices stay inside the
array. -/
theorem buffer_safe (h : (level3 n m).Reachable s) :
    (s.producer = .write → s.full s.tail = false) ∧
      (∀ c, s.consumer c = .read → s.full s.head = true) ∧
      s.head < BUFFER_SIZE ∧ s.tail < BUFFER_SIZE ∧
      s.taken = (List.range s.taken.length).map (fun j : ℕ => (j + 1 : ℤ)) ∧
      s.taken.length ≤ n ∧ s.taken.Nodup ∧ ∀ v ∈ s.taken, 1 ≤ v ∧ v ≤ n := by
  obtain ⟨hI, hS⟩ := inv_of_reachable h
  refine ⟨fun hp => ?_, fun c hc => ?_, hI.head_lt, ?_, hS.taken, hI.taken_le, ?_, fun v hv => ?_⟩
  · rw [Bool.eq_false_iff, Ne, hS.full]
    rintro ⟨j, hj, htail⟩
    exact hI.write_free hp hj htail
  · obtain ⟨hhead, hwait⟩ := hI.read_head hc
    exact (hS.full _).2 ⟨_, hwait, hhead.symm⟩
  · rw [hI.tail]
    exact Nat.mod_lt _ (by decide)
  · rw [hS.taken]
    refine List.nodup_range.map fun a b hab => ?_
    have : (a + 1 : ℤ) = b + 1 := hab
    omega
  · rw [hS.taken] at hv
    obtain ⟨j, hj, rfl⟩ := List.mem_map.1 hv
    have := hI.taken_le
    have := List.mem_range.1 hj
    omega

/-- With `10` items and two consumers, where the producer goes round the buffer for the
first time. One consumer has taken an item, and the other is about to. -/
theorem buffer_safe_round : ∃ s : State 2, (level3 10 2).Reachable s ∧
    s.producer = .write ∧ s.tail = 0 ∧ s.full s.tail = false ∧
    s.consumer 1 = .read ∧ s.full s.head = true ∧ s.taken = [1] := by
  have h : ∃ s : State 2, (level3 10 2).Reachable s ∧ s.producer = .write ∧ s.tail = 0 ∧
      s.consumer 1 = .read ∧ s.taken.length = 1 :=
    ⟨_, ⟨init, List.replicate 4 (.main true) ++ List.replicate 50 .producer ++
      List.replicate 11 (.consumer 0) ++ [.producer] ++ List.replicate 2 (.consumer 1),
      rfl, rfl⟩, rfl, rfl, rfl, rfl⟩
  obtain ⟨s, hs, hp, htail, hc, hlen⟩ := h
  obtain ⟨hwrite, hread, -, -, htaken, -⟩ := buffer_safe hs
  rw [hlen] at htaken
  exact ⟨s, hs, hp, htail, hwrite hp, hc, hread 1 hc, htaken⟩

end BoundedBuffer

end NetCentric
