import NetCentric.MessageQueue

/-!
# The messages are taken once each, in the order of the lock

`MessageQueue.Inv` describes a state with the addresses `as` of the list `workq`. The
messages taken, then those in the list, then the one its thread is about to link, are
the threads in the order they locked `qlock`. A cell that is not in the list belongs to
the thread that allocated it until that thread has linked it, and to the consumer after
it has unlinked it; by `owner` no two threads have the same cell.

`fifo` : the list is finite and acyclic and holds the messages linked and not taken, in
that order, and the consumer exits when `running` is 0 and every message is taken.
-/

namespace NetCentric

namespace MessageQueue

/-! ## Who has the lock -/

/-- Has `qlock`. -/
def Consumer.inside : Consumer → Bool
  | test | wait | testExit | exit | take | advance _ | unlock _ => true
  | _ => false

/-- Has `qlock`. -/
def Enqueuer.inside : Enqueuer → Bool
  | test _ | setHead _ | setLast _ | testLast _ _ | advance _ _ | link _ _ | signal | unlock => true
  | _ => false

/-- Has `qlock`. -/
def Stop.inside : Stop → Bool
  | clear | unlock => true
  | _ => false

variable {n : ℕ}

/-- The thread has `qlock`, by its own statement. -/
def State.inside (s : State n) : Holder n → Bool
  | .consumer => s.consumer.inside
  | .enqueuer k => (s.enqueuer k).inside
  | .stop => s.stop.inside

/-- The threads agree with `qlock`. -/
def State.Locked (s : State n) : Prop :=
  ∀ h, s.inside h = true ↔ s.qlock = some h

variable {arg : Fin n → ℤ} {s t : State n} {as : List ℕ}

/-- A step of the thread `h`. -/
theorem State.Locked.step (hs : s.Locked) (h : Holder n)
    (hother : ∀ g ≠ h, t.inside g = s.inside g ∧ (t.qlock = some g ↔ s.qlock = some g))
    (hself : t.inside h = true ↔ t.qlock = some h) : t.Locked := by
  intro g
  by_cases hg : g = h
  · rw [hg]
    exact hself
  · obtain ⟨hinside, hlock⟩ := hother g hg
    rw [hinside, hlock]
    exact hs g

/-! ## The messages of the threads -/

/-- Past the lock. -/
def Enqueuer.entered : Enqueuer → Bool
  | done => true
  | p => p.inside

/-- Past the lock and not linked. -/
def Enqueuer.pending : Enqueuer → Bool
  | test _ | setHead _ | setLast _ | testLast _ _ | advance _ _ | link _ _ => true
  | _ => false

/-- The thread that is past the lock and has not linked its message. -/
def State.pending (s : State n) : List (Fin n) :=
  match s.qlock with
  | some (.enqueuer k) => if (s.enqueuer k).pending then [k] else []
  | _ => []

/-- The owners of the cells at `as`. -/
def owners (heap : ℕ → Option (Msg n)) (as : List ℕ) : List (Fin n) :=
  as.filterMap fun a => (heap a).map Msg.owner

/-- The message the thread has allocated and not linked. -/
def Enqueuer.msg : Enqueuer → Option ℕ
  | setData m | setNext m | lock m | test m | setHead m | setLast m | testLast m _ | advance m _
  | link m _ => some m
  | _ => none

/-- What the thread has made of its message before it links it. -/
def Enqueuer.Mine (heap : ℕ → Option (Msg n)) (d : ℤ) (k : Fin n) : Enqueuer → Prop
  | setData m => ∃ c, heap m = some c ∧ c.owner = k
  | setNext m => ∃ c, heap m = some c ∧ c.owner = k ∧ c.data = toInt d
  | lock m | test m | setHead m | setLast m | testLast m _ | advance m _ | link m _ =>
    ∃ c, heap m = some c ∧ c.owner = k ∧ c.data = toInt d ∧ c.next = none
  | _ => True

/-- Where the thread is in the list. -/
def Enqueuer.Walk (s : State n) (as : List ℕ) : Enqueuer → Prop
  | setHead _ => s.workq = none
  | setLast _ => s.workq ≠ none
  | testLast _ l => l ∈ as
  | advance _ l => l ∈ as ∧ ∀ c, s.heap l = some c → c.next ≠ none
  | link _ l => l ∈ as ∧ ∀ c, s.heap l = some c → c.next = none
  | _ => True

/-- What the consumer knows. -/
def Consumer.Ok (arg : Fin n → ℤ) (s : State n) : Consumer → Prop
  | wait => s.running = true ∧ s.workq = none
  | testExit => ¬(s.running = true ∧ s.workq = none)
  | exit | done => s.running = false ∧ s.workq = none
  | take => s.workq ≠ none
  | advance mp => s.workq = some mp
  | unlock mp | print mp | sleep mp | printDone mp | free mp =>
    ∃ c, s.heap mp = some c ∧ c.owner ∈ s.taken ∧ c.data = toInt (arg c.owner)
  | _ => True

/-- The message the consumer has taken and not freed. -/
def Consumer.cell : Consumer → Option ℕ
  | unlock mp | print mp | sleep mp | printDone mp | free mp => some mp
  | _ => none

/-- The data of the message taken and not printed. -/
def Consumer.unprinted (heap : ℕ → Option (Msg n)) : Consumer → List ℤ
  | unlock mp | print mp => ((heap mp).map Msg.data).toList
  | _ => []

/-- `running` is cleared. -/
def Stop.cleared : Stop → Bool
  | unlock | signal | done => true
  | _ => false

/-- What `main` has created and joined. -/
def Started (s : State n) : Main → Prop
  | .createConsumer => s.consumer = .new ∧ (∀ k, s.enqueuer k = .new) ∧ s.stop = .new
  | .create i => s.consumer ≠ .new ∧ (∀ k : Fin n, k < i → s.enqueuer k ≠ .new) ∧
      (∀ k : Fin n, i ≤ k → s.enqueuer k = .new) ∧ s.stop = .new
  | .join i => s.consumer ≠ .new ∧ (∀ k, s.enqueuer k ≠ .new) ∧
      (∀ k : Fin n, k < i → s.enqueuer k = .done) ∧ s.stop = .new
  | .createStop => s.consumer ≠ .new ∧ (∀ k, s.enqueuer k = .done) ∧ s.stop = .new
  | .joinStop => s.consumer ≠ .new ∧ (∀ k, s.enqueuer k = .done) ∧ s.stop ≠ .new
  | .joinConsumer => s.consumer ≠ .new ∧ (∀ k, s.enqueuer k = .done) ∧ s.stop = .done
  | .done => s.consumer = .done ∧ (∀ k, s.enqueuer k = .done) ∧ s.stop = .done

/-- The invariant, with the addresses `as` of the list. -/
structure Inv (arg : Fin n → ℤ) (s : State n) (as : List ℕ) : Prop where
  linked : Linked Msg.next s.heap s.workq as
  locked : s.Locked
  order : s.order = s.taken ++ owners s.heap as ++ s.pending
  nodup : s.order.Nodup
  entered : ∀ k, k ∈ s.order ↔ (s.enqueuer k).entered = true
  data : ∀ a ∈ as, ∀ c, s.heap a = some c → c.data = toInt (arg c.owner)
  mine : ∀ k, (s.enqueuer k).Mine s.heap (arg k) k
  walk : ∀ k, (s.enqueuer k).Walk s as
  consumer : s.consumer.Ok arg s
  printed : s.taken.map (fun k => toInt (arg k)) = s.printed ++ s.consumer.unprinted s.heap
  running : s.running = !s.stop.cleared
  started : Started s s.main
  /-- Some address is free. -/
  bound : ∃ N, ∀ a, N ≤ a → s.heap a = none

theorem inv_init : Inv arg init [] := by
  constructor <;> simp [init, State.Locked, State.inside, Consumer.inside, Enqueuer.inside,
    Stop.inside, owners, State.pending, Enqueuer.entered, Enqueuer.Mine, Enqueuer.Walk,
    Consumer.Ok, Consumer.unprinted, Stop.cleared, Started]
  rintro (_ | _ | _) <;> rfl

/-! ## Frame lemmas -/

theorem mem_owners {heap : ℕ → Option (Msg n)} {k : Fin n} :
    k ∈ owners heap as ↔ ∃ a ∈ as, ∃ c, heap a = some c ∧ c.owner = k := by
  simp [owners]

theorem owners_congr {heap heap' : ℕ → Option (Msg n)} (h : ∀ a ∈ as, heap' a = heap a) :
    owners heap' as = owners heap as :=
  List.filterMap_congr fun a ha => by rw [h a ha]

theorem Enqueuer.Mine.congr {heap heap' : ℕ → Option (Msg n)} {d : ℤ} {k : Fin n}
    {p : Enqueuer} (h : p.Mine heap d k) (hheap : ∀ m, p.msg = some m → heap' m = heap m) :
    p.Mine heap' d k := by
  cases p <;> simp only [Enqueuer.Mine] at h ⊢
  all_goals
    rw [hheap _ rfl]
    exact h

theorem Enqueuer.Mine.cell {heap : ℕ → Option (Msg n)} {d : ℤ} {k : Fin n} {p : Enqueuer}
    (h : p.Mine heap d k) {m : ℕ} (hm : p.msg = some m) : ∃ c, heap m = some c ∧ c.owner = k := by
  cases p <;> simp only [Enqueuer.msg, Option.some.injEq, reduceCtorEq] at hm
  case setData => exact hm ▸ h
  all_goals
    obtain ⟨c, hc, howner, -⟩ := h
    exact ⟨c, hm ▸ hc, howner⟩

/-- A thread that has a message is not past linking it. -/
theorem Enqueuer.of_msg {p : Enqueuer} {m : ℕ} (h : p.msg = some m) :
    p.entered = false ∨ p.pending = true := by
  cases p <;> simp_all [Enqueuer.msg, Enqueuer.entered, Enqueuer.inside, Enqueuer.pending]

theorem Enqueuer.walk_of_outside {p : Enqueuer} (h : p.inside = false) (s : State n)
    (as : List ℕ) : p.Walk s as := by
  cases p <;> simp_all [Enqueuer.inside, Enqueuer.Walk]

theorem Enqueuer.inside_of_pending {p : Enqueuer} (h : p.pending = true) : p.inside = true := by
  cases p <;> simp_all [Enqueuer.inside, Enqueuer.pending]

theorem Enqueuer.entered_of_inside {p : Enqueuer} (h : p.inside = true) : p.entered = true := by
  cases p <;> simp_all [Enqueuer.inside, Enqueuer.entered]

theorem Enqueuer.inside_of_not_entered {p : Enqueuer} (h : p.entered = false) :
    p.inside = false := by
  cases p <;> simp_all [Enqueuer.inside, Enqueuer.entered]

theorem pending_eq_nil (h : ∀ k, s.qlock = some (.enqueuer k) → (s.enqueuer k).pending = false) :
    s.pending = [] := by
  unfold State.pending
  split
  case h_1 k hk => simp [h k hk]
  case h_2 => rfl

theorem pending_congr (hlock : ∀ k, t.qlock = some (.enqueuer k) ↔ s.qlock = some (.enqueuer k))
    (h : ∀ k, (t.enqueuer k).pending = (s.enqueuer k).pending) : t.pending = s.pending := by
  by_cases hs : ∃ k, s.qlock = some (.enqueuer k)
  · obtain ⟨k, hk⟩ := hs
    simp only [State.pending, (hlock k).2 hk, hk, h]
  · rw [pending_eq_nil fun k hk => absurd ⟨k, hk⟩ hs,
      pending_eq_nil fun k hk => absurd ⟨k, (hlock k).1 hk⟩ hs]

theorem Enqueuer.Walk.congr {p : Enqueuer} (h : p.Walk s as) (hworkq : t.workq = s.workq)
    (hheap : ∀ a ∈ as, t.heap a = s.heap a) : p.Walk t as := by
  cases p <;> simp only [Enqueuer.Walk, hworkq] at h ⊢ <;> try exact h
  all_goals exact ⟨h.1, by rw [hheap _ h.1]; exact h.2⟩

theorem Consumer.Ok.congr {p : Consumer} (h : p.Ok arg s) (hrunning : t.running = s.running)
    (hworkq : t.workq = s.workq) (htaken : t.taken = s.taken)
    (hheap : ∀ mp, p.cell = some mp → t.heap mp = s.heap mp) : p.Ok arg t := by
  cases p <;> simp only [Consumer.Ok, hrunning, hworkq, htaken] at h ⊢ <;> try exact h
  all_goals
    rw [hheap _ rfl]
    exact h

/-- What the consumer knows without the lock. -/
theorem Consumer.Ok.outside {p : Consumer} (h : p.Ok arg s) (hin : p.inside = false)
    (hdone : p ≠ .done) (htaken : t.taken = s.taken)
    (hheap : ∀ mp, p.cell = some mp → t.heap mp = s.heap mp) : p.Ok arg t := by
  cases p <;> simp only [Consumer.inside, reduceCtorEq, ne_eq, not_true_eq_false] at hin hdone
  all_goals first
    | trivial
    | rw [Consumer.Ok, hheap _ rfl, htaken]; exact h

theorem Consumer.unprinted_congr {p : Consumer} {heap heap' : ℕ → Option (Msg n)}
    (hheap : ∀ mp, p.cell = some mp → heap' mp = heap mp) :
    p.unprinted heap' = p.unprinted heap := by
  cases p <;> simp only [Consumer.unprinted]
  all_goals rw [hheap _ rfl]

/-- The consumer's message is one it has taken. -/
theorem Consumer.Ok.cell {p : Consumer} (h : p.Ok arg s) {mp : ℕ} (hcell : p.cell = some mp) :
    ∃ c, s.heap mp = some c ∧ c.owner ∈ s.taken ∧ c.data = toInt (arg c.owner) := by
  cases p <;> simp only [Consumer.cell, Option.some.injEq, reduceCtorEq] at hcell
  all_goals exact hcell ▸ h

/-- A step of thread `k` of `enqueue_msg` leaves the others where they are. -/
theorem inside_of_put {k : Fin n} {p : Enqueuer} {g : Holder n} (hg : g ≠ .enqueuer k)
    (hthread : t.enqueuer = Function.update s.enqueuer k p)
    (hcons : t.consumer.inside = s.consumer.inside) (hstop : t.stop = s.stop) :
    t.inside g = s.inside g := by
  cases g with
  | consumer => exact hcons
  | enqueuer j =>
    have hne : j ≠ k := fun hjk => hg (hjk ▸ rfl)
    simp only [State.inside, hthread, Function.update_of_ne hne]
  | stop => simp only [State.inside, hstop]

/-- A step of the consumer leaves the others where they are. -/
theorem inside_of_consumer {g : Holder n} (hg : g ≠ .consumer)
    (hthread : t.enqueuer = s.enqueuer) (hstop : t.stop = s.stop) : t.inside g = s.inside g := by
  cases g with
  | consumer => exact absurd rfl hg
  | enqueuer j => simp only [State.inside, hthread]
  | stop => simp only [State.inside, hstop]

/-- A property of all the threads `enqueue_msg` after a step of thread `k`. -/
theorem forall_put (P : Fin n → Enqueuer → Prop) {k : Fin n} {p : Enqueuer}
    (hthread : t.enqueuer = Function.update s.enqueuer k p) (hk : P k p)
    (hother : ∀ j ≠ k, P j (s.enqueuer j)) (j : Fin n) : P j (t.enqueuer j) := by
  by_cases hj : j = k
  · rw [hthread, hj, Function.update_self]
    exact hk
  · rw [hthread, Function.update_of_ne hj]
    exact hother j hj

theorem exists_free_update {heap : ℕ → Option (Msg n)} (h : ∃ N, ∀ a, N ≤ a → heap a = none)
    (b : ℕ) (x : Option (Msg n)) : ∃ N, ∀ a, N ≤ a → Function.update heap b x a = none := by
  obtain ⟨N, hN⟩ := h
  refine ⟨max N (b + 1), fun a ha => ?_⟩
  rw [Function.update_of_ne (by omega)]
  exact hN a (by omega)

/-- A step of a running thread `enqueue_msg`. -/
theorem Started.put (h : Started s s.main) {k : Fin n} {p : Enqueuer} {c : Consumer}
    (hnew : s.enqueuer k ≠ .new) (hdone : s.enqueuer k ≠ .done) (hp : p ≠ .new)
    (hrun : s.main ≠ .done) (hc : c = .new ↔ s.consumer = .new)
    (hthread : t.enqueuer = Function.update s.enqueuer k p) (hstop : t.stop = s.stop)
    (hcons : t.consumer = c) (hmain : t.main = s.main) : Started t t.main := by
  have hkeep : ∀ {q : Enqueuer} {j}, s.enqueuer j = q → s.enqueuer k ≠ q → t.enqueuer j = q := by
    intro q j hj hq
    have hne : j ≠ k := fun hjk => hq (hjk ▸ hj)
    rw [hthread, Function.update_of_ne hne, hj]
  have hnew' : ∀ {j}, s.enqueuer j ≠ .new → t.enqueuer j ≠ .new := by
    intro j hj
    by_cases hjk : j = k
    · rw [hthread, hjk, Function.update_self]
      exact hp
    · rw [hthread, Function.update_of_ne hjk]
      exact hj
  have hcons' : s.consumer ≠ .new → t.consumer ≠ .new := fun h h' => h (hc.1 (hcons ▸ h'))
  rw [hmain]
  cases hm : s.main <;> rw [hm] at h <;> simp only [Started, hstop] at h ⊢
  case createConsumer => exact absurd (h.2.1 k) hnew
  case create i =>
    exact ⟨hcons' h.1, fun j hj => hnew' (h.2.1 j hj), fun j hj => hkeep (h.2.2.1 j hj) hnew,
      h.2.2.2⟩
  case join i =>
    exact ⟨hcons' h.1, fun j => hnew' (h.2.1 j), fun j hj => hkeep (h.2.2.1 j hj) hdone,
      h.2.2.2⟩
  case done => exact absurd hm hrun
  all_goals exact absurd (h.2.1 k) hdone

/-- A step of the consumer. -/
theorem Started.consumer (h : Started s s.main) {p : Consumer} (hnew : s.consumer ≠ .new)
    (hp : p ≠ .new) (hrun : s.main ≠ .done) (hthread : t.enqueuer = s.enqueuer)
    (hstop : t.stop = s.stop) (hcons : t.consumer = p) (hmain : t.main = s.main) :
    Started t t.main := by
  rw [hmain]
  cases hm : s.main <;> rw [hm] at h <;> simp only [Started, hstop, hthread, hcons] at h ⊢
  case createConsumer => exact absurd h.1 hnew
  case done => exact absurd hm hrun
  all_goals exact ⟨hp, h.2⟩

/-- A step of `stop`. -/
theorem Started.halt (h : Started s s.main) {p : Stop} (hnew : s.stop ≠ .new)
    (hdone : s.stop ≠ .done) (hp : p ≠ .new) (hthread : t.enqueuer = s.enqueuer)
    (hstop : t.stop = p) (hcons : t.consumer = s.consumer) (hmain : t.main = s.main) :
    Started t t.main := by
  rw [hmain]
  cases hm : s.main <;> rw [hm] at h <;> simp only [Started, hstop, hthread, hcons] at h ⊢
  case createConsumer => exact absurd h.2.2 hnew
  case create => exact absurd h.2.2.2 hnew
  case join => exact absurd h.2.2.2 hnew
  case createStop => exact absurd h.2.2 hnew
  case joinStop => exact ⟨h.1, h.2.1, hp⟩
  all_goals exact absurd h.2.2 hdone

/-- Once `stop` has been created no thread `enqueue_msg` runs. -/
theorem Started.stopped (h : Started s s.main) (hstop : s.stop ≠ .new) (k : Fin n) :
    s.enqueuer k = .done := by
  cases hm : s.main <;> rw [hm] at h
  case createConsumer => exact absurd h.2.2 hstop
  case create => exact absurd h.2.2.2 hstop
  case join => exact absurd h.2.2.2 hstop
  case createStop => exact absurd h.2.2 hstop
  all_goals exact h.2.1 k

/-! ## One step -/

/-- Past the lock, and not about to link. -/
theorem Inv.linked_of_mem (hI : Inv arg s as) {k : Fin n}
    (hk : k ∈ s.taken ++ owners s.heap as) :
    (s.enqueuer k).entered = true ∧ (s.enqueuer k).pending = false := by
  have horder := hI.order
  have hmem : k ∈ s.order := by
    rw [horder]
    exact List.mem_append_left _ hk
  refine ⟨(hI.entered k).1 hmem, ?_⟩
  by_contra hp
  rw [Bool.not_eq_false] at hp
  have hlock := (hI.locked (.enqueuer k)).1 (Enqueuer.inside_of_pending hp)
  have hpend : s.pending = [k] := by simp [State.pending, hlock, hp]
  have hnd := hI.nodup
  rw [horder, hpend] at hnd
  exact (List.nodup_append.1 hnd).2.2 k hk k (List.mem_singleton.2 rfl) rfl

/-- A cell whose owner is not past linking is not in the list, and not the consumer's. -/
theorem Inv.private (hI : Inv arg s as) {k : Fin n} {a : ℕ}
    (hk : (s.enqueuer k).entered = false ∨ (s.enqueuer k).pending = true)
    (ha : ∀ c, s.heap a = some c → c.owner = k) :
    a ∉ as ∧ ∀ c, s.heap a = some c → c.owner ∉ s.taken := by
  have hnot : k ∉ s.taken ++ owners s.heap as := by
    intro hmem
    obtain ⟨hent, hpend⟩ := hI.linked_of_mem hmem
    simp_all
  refine ⟨fun hmem => hnot ?_, fun c hc ht => hnot ?_⟩
  · obtain ⟨c, hc⟩ := hI.linked.exists_cell hmem
    exact List.mem_append_right _ (mem_owners.2 ⟨a, hmem, c, hc, ha c hc⟩)
  · exact List.mem_append_left _ (ha c hc ▸ ht)

/-- The consumer's message is not in the list. -/
theorem Inv.cell_not_mem (hI : Inv arg s as) {mp : ℕ} (hmp : s.consumer.cell = some mp) :
    mp ∉ as := by
  intro hmem
  obtain ⟨c, hc, htaken, -⟩ := hI.consumer.cell hmp
  have hnd := hI.nodup
  rw [hI.order] at hnd
  have hpair := (List.nodup_append.1 hnd).1
  exact (List.nodup_append.1 hpair).2.2 _ htaken _ (mem_owners.2 ⟨mp, hmem, c, hc, rfl⟩) rfl

/-- While a thread `enqueue_msg` runs, `running` is set and the consumer has not exited. -/
theorem Inv.not_stopped (hI : Inv arg s as) {k : Fin n} (hk : s.enqueuer k ≠ .done) :
    s.stop = .new ∧ s.consumer ≠ .done := by
  have hstop : s.stop = .new := by
    by_contra hne
    exact hk (hI.started.stopped hne k)
  refine ⟨hstop, fun hd => ?_⟩
  have hok := hI.consumer
  have hrunning := hI.running
  rw [hd] at hok
  rw [hstop, hok.1] at hrunning
  exact Bool.false_ne_true hrunning

/-- A thread before the lock allocates or writes its own cell. -/
theorem Inv.write (hI : Inv arg s as) {k : Fin n} {a : ℕ} {x : Msg n} {p : Enqueuer}
    (hrun : s.main ≠ .done) (hnew : s.enqueuer k ≠ .new)
    (hout : (s.enqueuer k).entered = false) (hp : p.entered = false) (hpn : p ≠ .new)
    (ha : ∀ c, s.heap a = some c → c.owner = k)
    (hmine : p.Mine (Function.update s.heap a (some x)) (arg k) k) :
    Inv arg ((s.put k p).write a x) as := by
  obtain ⟨hnotin, hnotmp⟩ := hI.private (.inl hout) ha
  have hin : (s.enqueuer k).inside = false := Enqueuer.inside_of_not_entered hout
  have hpin : p.inside = false := Enqueuer.inside_of_not_entered hp
  have hheap : ∀ b ∈ as, Function.update s.heap a (some x) b = s.heap b := fun b hb =>
    Function.update_of_ne (ne_of_mem_of_not_mem hb hnotin) _ _
  have hcell : ∀ mp, s.consumer.cell = some mp →
      Function.update s.heap a (some x) mp = s.heap mp := by
    intro mp hmp
    obtain ⟨c, hc, htaken, -⟩ := hI.consumer.cell hmp
    have hne : mp ≠ a := by
      rintro rfl
      exact hnotmp c hc htaken
    exact Function.update_of_ne hne _ _
  have hpend : ((s.put k p).write a x).pending = s.pending := by
    have hfalse : ∀ {q : Enqueuer}, q.inside = false → q.pending = false := fun hq =>
      Bool.eq_false_iff.2 fun h => by simp [Enqueuer.inside_of_pending h] at hq
    refine pending_congr (fun _ => Iff.rfl)
      (forall_put (fun j q => q.pending = (s.enqueuer j).pending) rfl ?_ fun _ _ => rfl)
    rw [hfalse hin, hfalse hpin]
  refine ⟨hI.linked.congr hheap, ?_, ?_, hI.nodup, ?_, fun b hb c hc => ?_, ?_, ?_,
    hI.consumer.congr rfl rfl rfl hcell,
    hI.printed.trans (congrArg _ (Consumer.unprinted_congr hcell).symm), hI.running, ?_,
    exists_free_update hI.bound a _⟩
  · refine hI.locked.step (.enqueuer k)
      (fun g hg => ⟨inside_of_put hg rfl rfl rfl, Iff.rfl⟩) ?_
    have hk := hI.locked (.enqueuer k)
    simp only [State.inside, hin] at hk
    simpa [State.inside, State.write, State.put, hpin] using hk
  · rw [hpend]
    exact hI.order.trans (by rw [← owners_congr hheap]; rfl)
  · refine forall_put (fun j q => j ∈ s.order ↔ q.entered = true) rfl ?_
      fun j _ => hI.entered j
    rw [hI.entered k, hout, hp]
  · exact hI.data b hb c (hheap b hb ▸ hc)
  · refine forall_put (fun j q => q.Mine (Function.update s.heap a (some x)) (arg j) j) rfl hmine
      fun j hj => ?_
    refine (hI.mine j).congr fun m hm => Function.update_of_ne ?_ _ _
    rintro rfl
    obtain ⟨c, hc, howner⟩ := (hI.mine j).cell hm
    exact hj (howner.symm.trans (ha c hc))
  · exact forall_put (fun _ q => q.Walk ((s.put k p).write a x) as) rfl
      (Enqueuer.walk_of_outside hpin _ _) fun j _ => (hI.walk j).congr rfl hheap
  · exact hI.started.put hnew (fun h => by simp [h, Enqueuer.entered] at hout) hpn hrun Iff.rfl
      rfl rfl rfl rfl

/-- Another thread has the lock. -/
theorem Inv.outside (hI : Inv arg s as) {g : Holder n} (hlock : s.qlock = some g) {h : Holder n}
    (hne : h ≠ g) : s.inside h = false := by
  refine Bool.eq_false_iff.2 fun hin => hne ?_
  exact Option.some.inj (((hI.locked h).1 hin).symm.trans hlock)

/-- A thread `enqueue_msg` is created, or goes on and changes nothing. -/
theorem Inv.move (hI : Inv arg s as) {k : Fin n} {p : Enqueuer} {m : Main}
    (hstarted : Started { s.put k p with main := m } m)
    (hin : p.inside = (s.enqueuer k).inside) (hent : p.entered = (s.enqueuer k).entered)
    (hpend : p.pending = (s.enqueuer k).pending) (hmine : p.Mine s.heap (arg k) k)
    (hwalk : p.Walk s as) : Inv arg { s.put k p with main := m } as := by
  have hpending : ({ s.put k p with main := m } : State n).pending = s.pending :=
    pending_congr (fun _ => Iff.rfl)
      (forall_put (fun j q => q.pending = (s.enqueuer j).pending) rfl hpend fun _ _ => rfl)
  refine ⟨hI.linked, ?_, hpending ▸ hI.order, hI.nodup, ?_, hI.data, ?_, ?_,
    hI.consumer.congr rfl rfl rfl fun _ _ => rfl, hI.printed, hI.running, hstarted, hI.bound⟩
  · refine hI.locked.step (.enqueuer k) (fun g hg => ⟨inside_of_put hg rfl rfl rfl, Iff.rfl⟩) ?_
    have hk := hI.locked (.enqueuer k)
    simp only [State.inside, ← hin] at hk
    simpa [State.inside, State.put] using hk
  · exact forall_put (fun j q => j ∈ s.order ↔ q.entered = true) rfl (hent ▸ hI.entered k)
      fun j _ => hI.entered j
  · exact forall_put (fun j q => q.Mine s.heap (arg j) j) rfl hmine fun j _ => hI.mine j
  · exact forall_put (fun _ q => q.Walk { s.put k p with main := m } as) rfl
      (hwalk.congr rfl fun _ _ => rfl) fun j _ => (hI.walk j).congr rfl fun _ _ => rfl

/-- A thread `enqueue_msg` locks. -/
theorem Inv.lock (hI : Inv arg s as) {k : Fin n} {m : ℕ} (hrun : s.main ≠ .done)
    (hk : s.enqueuer k = .lock m) (hlock : s.qlock = none) :
    Inv arg { s.put k (.test m) with qlock := some (.enqueuer k), order := s.order ++ [k] } as := by
  have hnil : s.pending = [] := pending_eq_nil fun j hj => by simp [hlock] at hj
  have hnot : k ∉ s.order := by
    rw [hI.entered k, hk]
    exact Bool.false_ne_true
  have hmine := hI.mine k
  rw [hk] at hmine
  refine ⟨hI.linked, ?_, ?_, ?_, ?_, hI.data, ?_, ?_, hI.consumer.congr rfl rfl rfl fun _ _ => rfl,
    hI.printed, hI.running, ?_, hI.bound⟩
  · refine hI.locked.step (.enqueuer k) (fun g hg => ⟨inside_of_put hg rfl rfl rfl, ?_⟩) ?_
    · simp [hlock, hg.symm]
    · simp [State.inside, State.put, Enqueuer.inside]
  · have horder := hI.order
    rw [hnil, List.append_nil] at horder
    simp [State.pending, State.put, Enqueuer.pending, horder]
  · exact List.nodup_append.2 ⟨hI.nodup, List.nodup_singleton k, fun a ha b hb hab =>
      hnot (List.mem_singleton.1 hb ▸ hab ▸ ha)⟩
  · refine forall_put (fun j q => j ∈ s.order ++ [k] ↔ q.entered = true) rfl ?_ fun j hj => ?_
    · simp [Enqueuer.entered, Enqueuer.inside]
    · simpa [hj] using hI.entered j
  · exact forall_put (fun j q => q.Mine s.heap (arg j) j) rfl hmine fun j _ => hI.mine j
  · exact forall_put (fun _ q => q.Walk _ as) rfl trivial
      fun j _ => (hI.walk j).congr rfl fun _ _ => rfl
  · exact hI.started.put (p := .test m) (by simp [hk]) (by simp [hk]) (by simp) hrun Iff.rfl rfl
      rfl rfl rfl

/-- The thread that has the lock links its message behind the list. -/
theorem Inv.append (hI : Inv arg s as) {k : Fin n} {m : ℕ} {W : Option ℕ}
    {H : ℕ → Option (Msg n)} (hrun : s.main ≠ .done) (hpend : (s.enqueuer k).pending = true)
    (hm : (s.enqueuer k).msg = some m)
    (hdata : ∀ c, s.heap m = some c → c.data = toInt (arg k))
    (hlinked : Linked Msg.next H W (as ++ [m])) (hout : ∀ a ∉ as, H a = s.heap a)
    (hin : ∀ a ∈ as, ∀ c, s.heap a = some c → ∃ c', H a = some c' ∧ c'.owner = c.owner ∧
      c'.data = c.data) :
    Inv arg { s.put k .signal with workq := W, heap := H } (as ++ [m]) := by
  have hlock : s.qlock = some (.enqueuer k) :=
    (hI.locked (.enqueuer k)).1 (Enqueuer.inside_of_pending hpend)
  have hdone : s.enqueuer k ≠ .done := fun h => by simp [h, Enqueuer.pending] at hpend
  have hnew : s.enqueuer k ≠ .new := fun h => by simp [h, Enqueuer.pending] at hpend
  obtain ⟨c, hc, hck⟩ := (hI.mine k).cell hm
  obtain ⟨hnotin, -⟩ := hI.private (.inr hpend) (a := m) (by simp [hc, hck])
  have hcm : H m = some c := (hout m hnotin).trans hc
  have hothers : ∀ j ≠ k, (s.enqueuer j).inside = false := fun j hj =>
    hI.outside hlock (h := .enqueuer j) (by simpa using hj)
  have hcell : ∀ mp, s.consumer.cell = some mp → H mp = s.heap mp := fun mp hmp =>
    hout mp (hI.cell_not_mem hmp)
  have howners : owners H (as ++ [m]) = owners s.heap as ++ [k] := by
    have hsame : as.filterMap (fun a => (H a).map Msg.owner) = owners s.heap as := by
      refine List.filterMap_congr fun a ha => ?_
      obtain ⟨d, hd⟩ := hI.linked.exists_cell ha
      obtain ⟨d', hd', howner, -⟩ := hin a ha d hd
      simp [hd, hd', howner]
    rw [owners, List.filterMap_append, hsame]
    simp [hcm, hck]
  refine ⟨hlinked, ?_, ?_, hI.nodup, ?_, fun a ha d' hd' => ?_, ?_, ?_, ?_,
    hI.printed.trans (congrArg _ (Consumer.unprinted_congr hcell).symm), hI.running, ?_, ?_⟩
  · refine hI.locked.step (.enqueuer k) (fun g hg => ⟨inside_of_put hg rfl rfl rfl, Iff.rfl⟩) ?_
    simp [State.inside, State.put, Enqueuer.inside, hlock]
  · have horder := hI.order
    simp only [State.pending, hlock, hpend, if_true] at horder
    simpa [State.pending, State.put, hlock, Enqueuer.pending, howners] using horder
  · refine forall_put (fun j q => j ∈ s.order ↔ q.entered = true) rfl ?_ fun j _ => hI.entered j
    rw [hI.entered k, Enqueuer.entered_of_inside (Enqueuer.inside_of_pending hpend)]
    decide
  · rcases List.mem_append.1 ha with ha | ha
    · obtain ⟨d, hd⟩ := hI.linked.exists_cell ha
      obtain ⟨e, he, howner, hsame⟩ := hin a ha d hd
      obtain rfl := Option.some.inj (hd'.symm.trans he)
      rw [hsame, howner]
      exact hI.data a ha d hd
    · obtain rfl := List.mem_singleton.1 ha
      obtain rfl := Option.some.inj (hcm.symm.trans hd')
      rw [hck]
      exact hdata c hc
  · refine forall_put (fun j q => q.Mine H (arg j) j) rfl trivial fun j hj => ?_
    refine (hI.mine j).congr fun b hb => hout b ?_
    obtain ⟨d, hd, hdj⟩ := (hI.mine j).cell hb
    exact (hI.private (Enqueuer.of_msg hb) (by simp [hd, hdj])).1
  · exact forall_put (fun _ q => q.Walk _ (as ++ [m])) rfl trivial
      fun j hj => Enqueuer.walk_of_outside (hothers j hj) _ _
  · exact hI.consumer.outside (hI.outside hlock (h := .consumer) (by simp))
      (hI.not_stopped hdone).2 rfl hcell
  · exact hI.started.put (p := .signal) hnew hdone (by simp) hrun Iff.rfl rfl rfl rfl rfl
  · obtain ⟨N, hN⟩ := hI.bound
    refine ⟨N, fun a ha => (hout a fun hmem => ?_).trans (hN a ha)⟩
    obtain ⟨d, hd⟩ := hI.linked.exists_cell hmem
    simp [hN a ha] at hd

/-- A thread `enqueue_msg` unlocks and returns. -/
theorem Inv.unlock (hI : Inv arg s as) {k : Fin n} (hrun : s.main ≠ .done)
    (hk : s.enqueuer k = .unlock) : Inv arg { s.put k .done with qlock := none } as := by
  have hlock : s.qlock = some (.enqueuer k) :=
    (hI.locked (.enqueuer k)).1 (by simp [State.inside, hk, Enqueuer.inside])
  have hnil : s.pending = [] := by simp [State.pending, hlock, hk, Enqueuer.pending]
  refine ⟨hI.linked, ?_, ?_, hI.nodup, ?_, hI.data, ?_, ?_,
    hI.consumer.congr rfl rfl rfl fun _ _ => rfl, hI.printed, hI.running, ?_, hI.bound⟩
  · refine hI.locked.step (.enqueuer k) (fun g hg => ⟨inside_of_put hg rfl rfl rfl, ?_⟩) ?_
    · simp [hlock, hg.symm]
    · simp [State.inside, State.put, Enqueuer.inside]
  · have horder := hI.order
    rw [hnil] at horder
    exact horder
  · refine forall_put (fun j q => j ∈ s.order ↔ q.entered = true) rfl ?_ fun j _ => hI.entered j
    rw [hI.entered k, hk]
    simp [Enqueuer.entered, Enqueuer.inside]
  · exact forall_put (fun j q => q.Mine s.heap (arg j) j) rfl trivial fun j _ => hI.mine j
  · exact forall_put (fun _ q => q.Walk _ as) rfl trivial
      fun j _ => (hI.walk j).congr rfl fun _ _ => rfl
  · exact hI.started.put (p := .done) (by simp [hk]) (by simp [hk]) (by simp) hrun Iff.rfl rfl
      rfl rfl rfl

/-- The consumer is created, or goes on, locks or unlocks, and prints. -/
theorem Inv.consume (hI : Inv arg s as) {p : Consumer} {q : Option (Holder n)} {o : List ℤ}
    {m : Main}
    (hstarted : Started { s with consumer := p, qlock := q, printed := o, main := m } m)
    (hself : p.inside = true ↔ q = some .consumer)
    (hq : ∀ g ≠ .consumer, q = some g ↔ s.qlock = some g) (hok : p.Ok arg s)
    (hprinted : s.taken.map (fun k => toInt (arg k)) = o ++ p.unprinted s.heap) :
    Inv arg { s with consumer := p, qlock := q, printed := o, main := m } as := by
  have hpending : ({ s with consumer := p, qlock := q, printed := o, main := m } :
      State n).pending = s.pending :=
    pending_congr (fun k => hq (.enqueuer k) (by simp)) fun _ => rfl
  refine ⟨hI.linked, ?_, hpending ▸ hI.order, hI.nodup, hI.entered, hI.data, hI.mine,
    fun k => (hI.walk k).congr rfl fun _ _ => rfl, hok.congr rfl rfl rfl fun _ _ => rfl,
    hprinted, hI.running, hstarted, hI.bound⟩
  exact hI.locked.step .consumer (fun g hg => ⟨inside_of_consumer hg rfl rfl, hq g hg⟩) hself

/-- `stop` is created, or goes on, locks or unlocks, and clears `running`; or only `main`
goes on. -/
theorem Inv.halt (hI : Inv arg s as) {p : Stop} {q : Option (Holder n)} {r : Bool} {m : Main}
    (hstarted : Started { s with stop := p, qlock := q, running := r, main := m } m)
    (hself : p.inside = true ↔ q = some .stop)
    (hq : ∀ g ≠ .stop, q = some g ↔ s.qlock = some g) (hrunning : r = !p.cleared)
    (hok : s.consumer.Ok arg { s with running := r }) :
    Inv arg { s with stop := p, qlock := q, running := r, main := m } as := by
  have hpending : ({ s with stop := p, qlock := q, running := r, main := m } :
      State n).pending = s.pending :=
    pending_congr (fun k => hq (.enqueuer k) (by simp)) fun _ => rfl
  refine ⟨hI.linked, ?_, hpending ▸ hI.order, hI.nodup, hI.entered, hI.data, hI.mine,
    fun k => (hI.walk k).congr rfl fun _ _ => rfl, hok.congr rfl rfl rfl fun _ _ => rfl,
    hI.printed, hrunning, hstarted, hI.bound⟩
  refine hI.locked.step .stop (fun g hg => ⟨?_, hq g hg⟩) hself
  cases g with
  | consumer => rfl
  | enqueuer k => rfl
  | stop => exact absurd rfl hg

/-- `pthread_cond_signal`. -/
theorem Inv.signal (hI : Inv arg s as) (hrun : s.main ≠ .done) :
    Inv arg { s with consumer := s.consumer.signal } as := by
  by_cases hc : s.consumer = .waiting
  · have hprinted := hI.printed
    rw [hc] at hprinted ⊢
    have hfree := hI.locked .consumer
    rw [State.inside, hc] at hfree
    have hstarted := hI.started.consumer (p := .woken) (t := { s with consumer := .woken })
      (by simp [hc]) (by simp) hrun rfl rfl rfl rfl
    exact hI.consume (p := .woken) (q := s.qlock) (o := s.printed) (m := s.main) hstarted hfree
      (fun _ _ => Iff.rfl) trivial hprinted
  · have hsame : s.consumer.signal = s.consumer := by
      cases hp : s.consumer <;> simp_all [Consumer.signal]
    rw [hsame]
    exact hI

/-- `workq = mp->next`. -/
theorem Inv.take (hI : Inv arg s as) {mp : ℕ} {c : Msg n} (hrun : s.main ≠ .done)
    (hp : s.consumer = .advance mp) (hc : s.heap mp = some c) :
    ∃ rest, as = mp :: rest ∧ Inv arg { s with
      consumer := .unlock mp
      workq := c.next
      taken := s.taken ++ [c.owner] } rest := by
  have hlock : s.qlock = some .consumer := (hI.locked .consumer).1 (by simp [State.inside, hp,
    Consumer.inside])
  have hok := hI.consumer
  have hlinked := hI.linked
  have hprinted := hI.printed
  rw [hp] at hok hprinted
  rw [show s.workq = some mp from hok] at hlinked
  obtain ⟨d, rest, hd, rfl, hrest⟩ := hlinked.some_cases
  obtain rfl := Option.some.inj (hc.symm.trans hd)
  have hcdata := hI.data mp List.mem_cons_self c hc
  have hothers : ∀ j, (s.enqueuer j).inside = false := fun j =>
    hI.outside hlock (h := .enqueuer j) (by simp)
  have howners : owners s.heap (mp :: rest) = c.owner :: owners s.heap rest := by
    simp [owners, hc]
  refine ⟨rest, rfl, hrest, ?_, ?_, hI.nodup, hI.entered,
    fun a ha => hI.data a (List.mem_cons_of_mem mp ha), hI.mine,
    fun k => Enqueuer.walk_of_outside (hothers k) _ _, ?_, ?_, hI.running, ?_, hI.bound⟩
  · refine hI.locked.step .consumer (fun g hg => ⟨inside_of_consumer hg rfl rfl, Iff.rfl⟩) ?_
    simp [State.inside, Consumer.inside, hlock]
  · have horder := hI.order
    rw [howners] at horder
    simpa [State.pending, hlock] using horder
  · exact ⟨c, hc, List.mem_append_right _ (List.mem_singleton.2 rfl), hcdata⟩
  · simp only [Consumer.unprinted, List.append_nil] at hprinted
    simp [Consumer.unprinted, hc, hprinted, hcdata]
  · exact hI.started.consumer (p := .unlock mp) (by simp [hp]) (by simp) hrun rfl rfl rfl rfl

/-- `free(mp)`. -/
theorem Inv.free (hI : Inv arg s as) {mp : ℕ} (hrun : s.main ≠ .done)
    (hp : s.consumer = .free mp) :
    Inv arg { s with consumer := .lock, heap := Function.update s.heap mp none } as := by
  have hcell : s.consumer.cell = some mp := by rw [hp]; rfl
  have hnotin := hI.cell_not_mem hcell
  obtain ⟨c, hc, htaken, -⟩ := hI.consumer.cell hcell
  have hheap : ∀ a ∈ as, Function.update s.heap mp none a = s.heap a := fun a ha =>
    Function.update_of_ne (ne_of_mem_of_not_mem ha hnotin) _ _
  have hprinted := hI.printed
  rw [hp] at hprinted
  refine ⟨hI.linked.congr hheap, ?_, ?_, hI.nodup, hI.entered, fun a ha d hd => ?_, fun k => ?_,
    fun k => (hI.walk k).congr rfl hheap, trivial, hprinted, hI.running, ?_,
    exists_free_update hI.bound mp none⟩
  · refine hI.locked.step .consumer (fun g hg => ⟨inside_of_consumer hg rfl rfl, Iff.rfl⟩) ?_
    have hfree := hI.locked .consumer
    rwa [State.inside, hp] at hfree
  · exact hI.order.trans (by rw [← owners_congr hheap]; rfl)
  · exact hI.data a ha d (hheap a ha ▸ hd)
  · refine (hI.mine k).congr fun m hm => Function.update_of_ne ?_ _ _
    rintro rfl
    obtain ⟨d, hd, hdk⟩ := (hI.mine k).cell hm
    obtain ⟨-, hnot⟩ := hI.private (Enqueuer.of_msg hm) (a := m) (by simp [hd, hdk])
    exact hnot c hc htaken
  · exact hI.started.consumer (p := .lock) (by simp [hp]) (by simp) hrun rfl rfl rfl rfl

theorem Inv.enqueueMsg {k : Fin n} {a : ℕ} {next : Option ℕ} {data : ℤ} (hI : Inv arg s as)
    (hrun : s.main ≠ .done) (h : enqueueMsg (arg k) s k a next data = some t) :
    ∃ bs, Inv arg t bs := by
  have hmine := hI.mine k
  have hwalk := hI.walk k
  have hmove : ∀ {q p : Enqueuer}, s.enqueuer k = q → q ≠ .new → q ≠ .done → p ≠ .new →
      p.inside = q.inside → p.entered = q.entered → p.pending = q.pending →
      p.Mine s.heap (arg k) k → p.Walk s as → Inv arg (s.put k p) as := by
    rintro _ p rfl hnew hdone hp
    exact hI.move (m := s.main) (hI.started.put hnew hdone hp hrun Iff.rfl rfl rfl rfl rfl)
  rcases enqueueMsg_cases h with ⟨hk, rfl⟩ | ⟨hk, ha, rfl⟩ | ⟨m, c, hk, hc, rfl⟩ |
    ⟨m, c, hk, hc, rfl⟩ | ⟨m, hk, hlock, rfl⟩ | ⟨m, hk, hw, rfl⟩ | ⟨m, hk, hw, rfl⟩ |
    ⟨m, hk, rfl⟩ | ⟨m, l, hk, hw, rfl⟩ | ⟨m, l, c, hk, hc, hnext, rfl⟩ |
    ⟨m, l, c, hk, hc, hnext, rfl⟩ | ⟨m, l, c, l', hk, hc, hnext, rfl⟩ | ⟨m, l, c, hk, hc, rfl⟩ |
    ⟨hk, rfl⟩ | ⟨hk, rfl⟩ <;> rw [hk] at hmine hwalk
  · exact ⟨as, hmove (p := .malloc) hk (by simp) (by simp) (by simp) rfl rfl rfl trivial trivial⟩
  · exact ⟨as, hI.write (p := .setData a) hrun (by simp [hk]) (by rw [hk]; rfl) rfl (by simp)
      (by simp [ha]) ⟨_, Function.update_self _ _ _, rfl⟩⟩
  · obtain ⟨d, hd, howner⟩ := hmine
    obtain rfl := Option.some.inj (hc.symm.trans hd)
    exact ⟨as, hI.write (p := .setNext m) hrun (by simp [hk]) (by rw [hk]; rfl) rfl (by simp)
      (by simp [hc, howner]) ⟨_, Function.update_self _ _ _, howner, rfl⟩⟩
  · obtain ⟨d, hd, howner, hdata⟩ := hmine
    obtain rfl := Option.some.inj (hc.symm.trans hd)
    exact ⟨as, hI.write (p := .lock m) hrun (by simp [hk]) (by rw [hk]; rfl) rfl (by simp)
      (by simp [hc, howner]) ⟨_, Function.update_self _ _ _, howner, hdata, rfl⟩⟩
  · exact ⟨as, hI.lock hrun hk hlock⟩
  · exact ⟨as, hmove (p := .setHead m) hk (by simp) (by simp) (by simp) rfl rfl rfl hmine hw⟩
  · exact ⟨as, hmove (p := .setLast m) hk (by simp) (by simp) (by simp) rfl rfl rfl hmine hw⟩
  · -- the list is empty
    obtain ⟨c, hc, howner, hdata, hnext⟩ := hmine
    have hlinked := hI.linked
    rw [show s.workq = none from hwalk, Linked.none_iff] at hlinked
    subst hlinked
    exact ⟨[m], hI.append (W := some m) (H := s.heap) hrun (by rw [hk]; rfl) (by rw [hk]; rfl)
      (by simp [hc, hdata]) ⟨rfl, c, hc, hnext⟩ (fun _ _ => rfl) (by simp)⟩
  · have hmem : l ∈ as := by
      have hlinked := hI.linked
      rw [hw] at hlinked
      obtain ⟨-, rest, -, rfl, -⟩ := hlinked.some_cases
      exact List.mem_cons_self
    exact ⟨as, hmove (p := .testLast m l) hk (by simp) (by simp) (by simp) rfl rfl rfl hmine hmem⟩
  · exact ⟨as, hmove (p := .link m l) hk (by simp) (by simp) (by simp) rfl rfl rfl hmine
      ⟨hwalk, by simp [hc, hnext]⟩⟩
  · exact ⟨as, hmove (p := .advance m l) hk (by simp) (by simp) (by simp) rfl rfl rfl hmine
      ⟨hwalk, by simpa [hc] using hnext⟩⟩
  · exact ⟨as, hmove (p := .testLast m l') hk (by simp) (by simp) (by simp) rfl rfl rfl hmine
      (hI.linked.mem_of_link hwalk.1 hc hnext)⟩
  · obtain ⟨d, hd, howner, hdata, hnext⟩ := hmine
    have hnotin := (hI.private (k := k) (a := m) (.inr (by rw [hk]; rfl)) (by simp [hd, howner])).1
    have hlinked := hI.linked.concat (e := { c with next := some m }) hwalk.1 hc (hwalk.2 c hc)
      rfl hnotin hd hnext
    refine ⟨as ++ [m], hI.append (W := s.workq) hrun (by rw [hk]; rfl) (by rw [hk]; rfl)
      (by simp [hd, hdata]) hlinked (fun b hb => ?_) fun b hb e he => ?_⟩
    · exact Function.update_of_ne (ne_of_mem_of_not_mem hwalk.1 hb).symm _ _
    · by_cases hbl : b = l
      · subst hbl
        obtain rfl := Option.some.inj (hc.symm.trans he)
        exact ⟨_, Function.update_self _ _ _, rfl, rfl⟩
      · exact ⟨e, (Function.update_of_ne hbl _ _).trans he, rfl, rfl⟩
  · exact ⟨as, (hmove (p := .unlock) hk (by simp) (by simp) (by simp) rfl rfl rfl trivial
      trivial).signal hrun⟩
  · exact ⟨as, hI.unlock hrun hk⟩

theorem Inv.processMsg (hI : Inv arg s as) (hrun : s.main ≠ .done)
    (h : processMsg s = some t) : ∃ bs, Inv arg t bs := by
  have hok := hI.consumer
  have hprinted := hI.printed
  have hself := hI.locked .consumer
  have hmove : ∀ {p : Consumer} {q : Option (Holder n)} {o : List ℤ}, s.consumer ≠ .new →
      p ≠ .new → (p.inside = true ↔ q = some .consumer) →
      (∀ g ≠ .consumer, q = some g ↔ s.qlock = some g) → p.Ok arg s →
      s.taken.map (fun k => toInt (arg k)) = o ++ p.unprinted s.heap →
      Inv arg { s with consumer := p, qlock := q, printed := o } as := fun hnew hp =>
    hI.consume (m := s.main) (hI.started.consumer hnew hp hrun rfl rfl rfl rfl)
  -- what another thread sees of an unlock
  have hfree : (true = true ↔ s.qlock = some .consumer) →
      ∀ g ≠ .consumer, none = some g ↔ s.qlock = some g := by
    intro hlock g hg
    simp [hlock.1 rfl, hg.symm]
  rw [State.inside] at hself
  rcases processMsg_cases h with ⟨hp | hp, hlock, rfl⟩ | ⟨hp, hr, hw, rfl⟩ | ⟨hp, hw, rfl⟩ |
    ⟨hp, rfl⟩ | ⟨hp, hr, hw, rfl⟩ | ⟨hp, hw, rfl⟩ | ⟨hp, rfl⟩ | ⟨mp, hp, hw, rfl⟩ |
    ⟨mp, c, hp, hc, rfl⟩ | ⟨mp, hp, rfl⟩ | ⟨mp, c, hp, hc, rfl⟩ | ⟨mp, hp, rfl⟩ | ⟨mp, hp, rfl⟩ |
    ⟨mp, hp, rfl⟩ <;> rw [hp] at hok hprinted hself
  · exact ⟨as, hmove (p := .test) (by simp [hp]) (by simp) (by simp [Consumer.inside])
      (by simp [hlock, eq_comm]) trivial hprinted⟩
  · exact ⟨as, hmove (p := .test) (by simp [hp]) (by simp) (by simp [Consumer.inside])
      (by simp [hlock, eq_comm]) trivial hprinted⟩
  · exact ⟨as, hmove (p := .wait) (by simp [hp]) (by simp) hself (fun _ _ => Iff.rfl) ⟨hr, hw⟩
      hprinted⟩
  · exact ⟨as, hmove (p := .testExit) (by simp [hp]) (by simp) hself (fun _ _ => Iff.rfl) hw
      hprinted⟩
  · exact ⟨as, hmove (p := .waiting) (by simp [hp]) (by simp) (by simp [Consumer.inside])
      (hfree hself) trivial hprinted⟩
  · exact ⟨as, hmove (p := .exit) (by simp [hp]) (by simp) hself (fun _ _ => Iff.rfl) ⟨hr, hw⟩
      hprinted⟩
  · have hne : s.workq ≠ none := by
      intro h
      cases hr : s.running with
      | true => exact hok ⟨hr, h⟩
      | false => exact hw ⟨hr, h⟩
    exact ⟨as, hmove (p := .take) (by simp [hp]) (by simp) hself (fun _ _ => Iff.rfl) hne
      hprinted⟩
  · exact ⟨as, hmove (p := .done) (by simp [hp]) (by simp) (by simp [Consumer.inside])
      (hfree hself) hok hprinted⟩
  · exact ⟨as, hmove (p := .advance mp) (by simp [hp]) (by simp) hself (fun _ _ => Iff.rfl) hw
      hprinted⟩
  · obtain ⟨rest, -, hrest⟩ := hI.take hrun hp hc
    exact ⟨rest, hrest⟩
  · exact ⟨as, hmove (p := .print mp) (by simp [hp]) (by simp) (by simp [Consumer.inside])
      (hfree hself) hok hprinted⟩
  · refine ⟨as, hmove (p := .sleep mp) (by simp [hp]) (by simp) hself (fun _ _ => Iff.rfl) hok ?_⟩
    simpa [Consumer.unprinted, hc] using hprinted
  · exact ⟨as, hmove (p := .printDone mp) (by simp [hp]) (by simp) hself (fun _ _ => Iff.rfl) hok
      hprinted⟩
  · exact ⟨as, hmove (p := .free mp) (by simp [hp]) (by simp) hself (fun _ _ => Iff.rfl) hok
      hprinted⟩
  · exact ⟨as, hI.free hrun hp⟩

theorem Inv.stop (hI : Inv arg s as) (hrun : s.main ≠ .done) (h : stop s = some t) :
    Inv arg t as := by
  have hself := hI.locked .stop
  have hrunning := hI.running
  have hmove : ∀ {p : Stop} {q : Option (Holder n)} {r : Bool}, s.stop ≠ .new →
      s.stop ≠ .done → p ≠ .new → (p.inside = true ↔ q = some .stop) →
      (∀ g ≠ .stop, q = some g ↔ s.qlock = some g) → r = !p.cleared →
      s.consumer.Ok arg { s with running := r } →
      Inv arg { s with stop := p, qlock := q, running := r } as := fun hnew hdone hp =>
    hI.halt (m := s.main) (hI.started.halt hnew hdone hp rfl rfl rfl rfl)
  have hok : s.consumer.Ok arg { s with running := s.running } :=
    hI.consumer.congr rfl rfl rfl fun _ _ => rfl
  rw [State.inside] at hself
  rcases stop_cases h with ⟨hs, hlock, rfl⟩ | ⟨hs, rfl⟩ | ⟨hs, rfl⟩ | ⟨hs, rfl⟩ <;>
    rw [hs] at hself hrunning
  · exact hmove (p := .clear) (r := s.running) (by simp [hs]) (by simp [hs]) (by simp)
      (by simp [Stop.inside]) (by simp [hlock, eq_comm]) hrunning hok
  · -- the consumer is not in the lock
    have hout := hI.outside (hself.1 rfl) (h := .consumer) (by simp)
    have hnot : s.consumer ≠ .done := by
      intro hd
      have hok := hI.consumer
      rw [hd] at hok
      rw [hok.1] at hrunning
      exact Bool.false_ne_true hrunning
    exact hmove (p := .unlock) (r := false) (by simp [hs]) (by simp [hs]) (by simp) hself
      (fun _ _ => Iff.rfl) rfl (hI.consumer.outside hout hnot rfl fun _ _ => rfl)
  · have hlock := hself.1 rfl
    exact hmove (p := .signal) (r := s.running) (by simp [hs]) (by simp [hs]) (by simp)
      (by simp [Stop.inside]) (fun g hg => by simp [hlock, hg.symm]) hrunning hok
  · exact (hmove (p := .done) (q := s.qlock) (r := s.running) (by simp [hs]) (by simp [hs])
      (by simp) hself (fun _ _ => Iff.rfl) hrunning hok).signal hrun

theorem Inv.main (hI : Inv arg s as) (h : main s = some t) : Inv arg t as := by
  have hst := hI.started
  have hok : s.consumer.Ok arg { s with running := s.running } :=
    hI.consumer.congr rfl rfl rfl fun _ _ => rfl
  have hmain : ∀ {m : Main}, Started { s with main := m } m → Inv arg { s with main := m } as :=
    fun h => hI.halt (p := s.stop) (q := s.qlock) (r := s.running) h (hI.locked .stop)
      (fun _ _ => Iff.rfl) hI.running hok
  rcases main_cases h with ⟨hm, rfl⟩ | ⟨k, hm, rfl⟩ | ⟨k, hm, hk, rfl⟩ | ⟨k, hm, hk, rfl⟩ |
    ⟨k, hm, hk, rfl⟩ | ⟨hm, rfl⟩ | ⟨hm, hs, rfl⟩ | ⟨hm, hc, rfl⟩ <;> rw [hm] at hst
  · have hself := hI.locked .consumer
    have hprinted := hI.printed
    rw [State.inside, hst.1] at hself
    rw [hst.1] at hprinted
    exact hI.consume (p := .lock) (q := s.qlock) (o := s.printed) (m := .create 0)
      ⟨by simp, fun k hk => absurd hk (Nat.not_lt_zero _), fun k _ => hst.2.1 k, hst.2.2⟩ hself
      (fun _ _ => Iff.rfl) trivial hprinted
  · obtain ⟨hcons, hold, hnew, hstop⟩ := hst
    have hk := hnew k le_rfl
    refine hI.move (p := .print) (m := .create (k + 1)) ⟨hcons, ?_, ?_, hstop⟩ (by rw [hk]; rfl)
      (by rw [hk]; rfl) (by rw [hk]; rfl) trivial trivial
    · refine forall_put (fun j q => (j : ℕ) < k + 1 → q ≠ .new) rfl (by simp) fun j hj hlt => ?_
      exact hold j (lt_of_le_of_ne (Nat.lt_succ_iff.1 hlt) fun h => hj (Fin.ext h))
    · refine forall_put (fun j q => (k : ℕ) + 1 ≤ j → q = .new) rfl (by simp) fun j _ hle => ?_
      exact hnew j (Nat.le_of_succ_le hle)
  · exact hmain ⟨hst.1, fun j => hst.2.1 j (Nat.lt_of_lt_of_le j.2 hk),
      fun j hj => absurd hj (Nat.not_lt_zero _), hst.2.2.2⟩
  · refine hmain ⟨hst.1, hst.2.1, fun j hj => ?_, hst.2.2.2⟩
    rcases Nat.lt_succ_iff_lt_or_eq.1 hj with hlt | heq
    · exact hst.2.2.1 j hlt
    · exact Fin.ext heq ▸ hk
  · exact hmain ⟨hst.1, fun j => hst.2.2.1 j (Nat.lt_of_lt_of_le j.2 hk), hst.2.2.2⟩
  · have hself := hI.locked .stop
    have hrunning := hI.running
    rw [hst.2.2] at hrunning
    rw [State.inside, hst.2.2] at hself
    exact hI.halt (p := .lock) (q := s.qlock) (r := s.running) (m := .joinStop)
      ⟨hst.1, hst.2.1, by simp⟩ hself (fun _ _ => Iff.rfl) hrunning hok
  · exact hmain ⟨hst.1, hst.2.1, hs⟩
  · exact hmain ⟨hc, hst.2⟩

theorem Inv.step {a : Action n} (hI : Inv arg s as) (h : step arg s a = some t) :
    ∃ bs, Inv arg t bs := by
  obtain ⟨hrun, ⟨-, h⟩ | ⟨-, hw, rfl⟩ | ⟨k, p, next, data, -, h⟩ | ⟨-, h⟩ | ⟨-, h⟩⟩ :=
    step_cases h
  · exact hI.processMsg hrun h
  · have hsignal := hI.signal hrun
    rw [hw] at hsignal
    exact ⟨as, hsignal⟩
  · exact hI.enqueueMsg hrun h
  · exact ⟨as, hI.stop hrun h⟩
  · exact ⟨as, hI.main h⟩

theorem inv_of_reachable (h : (messageQueue arg).Reachable s) : ∃ as, Inv arg s as :=
  h.invariant (I := fun s => ∃ as, Inv arg s as)
    (fun s hs => by
      obtain rfl : s = init := hs
      exact ⟨[], inv_init⟩)
    fun _ _ _ ⟨_, hI⟩ hstep => hI.step hstep

/-! ## The order of the messages -/

/-- The message is linked. -/
def Enqueuer.linked : Enqueuer → Bool
  | signal | unlock | done => true
  | _ => false

theorem Enqueuer.linked_iff {p : Enqueuer} :
    p.linked = true ↔ p.entered = true ∧ p.pending = false := by
  cases p <;> simp [Enqueuer.linked, Enqueuer.entered, Enqueuer.inside, Enqueuer.pending]

theorem mem_pending {k : Fin n} (h : k ∈ s.pending) : (s.enqueuer k).pending = true := by
  unfold State.pending at h
  split at h
  case h_1 j _ =>
    split at h
    case isTrue hp =>
      obtain rfl := List.mem_singleton.1 h
      exact hp
    case isFalse => cases h
  case h_2 => cases h

/-- The messages taken and those in the list are those that are linked. -/
theorem Inv.mem_iff_linked (hI : Inv arg s as) (k : Fin n) :
    k ∈ s.taken ++ owners s.heap as ↔ (s.enqueuer k).linked = true := by
  rw [Enqueuer.linked_iff]
  refine ⟨hI.linked_of_mem, fun ⟨hent, hpend⟩ => ?_⟩
  have hmem := (hI.entered k).2 hent
  rw [hI.order] at hmem
  refine (List.mem_append.1 hmem).resolve_right fun h => ?_
  simp [mem_pending h] at hpend

/-- Delivery in every reachable state. The list is finite and acyclic, the messages taken
and then those in the list are the messages linked so far, each once, in the order their
threads locked, and the consumer has printed the data of those it has taken, up to the
one it is about to print. It exits only when `running` is 0 and all messages are taken. -/
theorem fifo (h : (messageQueue arg).Reachable s) :
    ∃ as, Linked Msg.next s.heap s.workq as ∧ as.Nodup ∧
      (∀ a ∈ as, ∃ c, s.heap a = some c ∧ c.data = toInt (arg c.owner)) ∧
      (∀ k, k ∈ s.taken ++ owners s.heap as ↔ (s.enqueuer k).linked = true) ∧
      s.order.Nodup ∧ s.taken ++ owners s.heap as <+: s.order ∧
      s.taken.map (fun k => toInt (arg k)) = s.printed ++ s.consumer.unprinted s.heap ∧
      (s.consumer = .exit ∨ s.consumer = .done →
        s.running = false ∧ s.workq = none ∧ ∀ k, k ∈ s.taken) := by
  obtain ⟨as, hI⟩ := inv_of_reachable h
  refine ⟨as, hI.linked, hI.linked.nodup, fun a ha => ?_, hI.mem_iff_linked, hI.nodup,
    ⟨s.pending, hI.order.symm⟩, hI.printed, fun hexit => ?_⟩
  · obtain ⟨c, hc⟩ := hI.linked.exists_cell ha
    exact ⟨c, hc, hI.data a ha c hc⟩
  · have hok : s.running = false ∧ s.workq = none := by
      have hok := hI.consumer
      rcases hexit with hp | hp <;> rw [hp] at hok <;> exact hok
    have hdone : ∀ k, s.enqueuer k = .done := by
      intro k
      by_contra hk
      have hrunning := hI.running
      rw [(hI.not_stopped hk).1, hok.1] at hrunning
      exact Bool.false_ne_true hrunning
    refine ⟨hok.1, hok.2, fun k => ?_⟩
    have hlinked := hI.linked
    rw [hok.2, Linked.none_iff] at hlinked
    have hmem := (hI.mem_iff_linked k).2 (by rw [hdone k]; rfl)
    rw [hlinked] at hmem
    simpa [owners] using hmem

/-- Two messages, the second linked behind the first while the consumer waits. -/
theorem fifo_two : ∃ s : State 2, (messageQueue fun _ => 7).Reachable s ∧ s.consumer = .done ∧
    s.running = false ∧ ∀ k, k ∈ s.taken := by
  have h : ∃ s : State 2, (messageQueue fun _ => 7).Reachable s ∧ s.consumer = .done := by
    refine ⟨_, ⟨init, List.replicate 4 .main ++ List.replicate 3 .consumer ++
      List.replicate 9 (.enqueuer 1 8 none 0) ++ List.replicate 11 (.enqueuer 0 9 (some 9) 3) ++
      List.replicate 23 .consumer ++ List.replicate 4 .main ++ List.replicate 4 .stop ++
      List.replicate 4 .consumer, rfl, rfl⟩, rfl⟩
  obtain ⟨s, hs, hc⟩ := h
  obtain ⟨-, -, -, -, -, -, -, -, hexit⟩ := fifo hs
  obtain ⟨hrunning, -, hall⟩ := hexit (.inr hc)
  exact ⟨s, hs, hc, hrunning, hall⟩

end MessageQueue

end NetCentric
