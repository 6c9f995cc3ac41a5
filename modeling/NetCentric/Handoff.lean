import NetCentric.Outcome
import NetCentric.Transition
import Mathlib.Data.List.Nodup

/-!
# The hand-off to the handler threads

The threaded proxy, `proxy -t`. `main` accepts a connection, stores its descriptor and
address in the one variable `client`, and creates a thread with the address of that
variable. The thread's first statement copies the variable, and everything after is
`threadHandle`. `accept`, the store, `pthread_create`, the copy and each call of a
handler are one step, and the threads run in any order (`threadProxy`). The result of
`pthread_create` is not tested.

Nothing makes `main` wait for the copy. `handed_over` : in a run in which every thread
has made its copy before the next store, and every `pthread_create` succeeds, each
connection is served by the one thread that was created for it. A store that comes
before the copy makes the thread work on the wrong connection (`copy_after_store`).

A connection carries its number among the connections accepted, which no statement
reads. `accepted` and `closed` are history too.
-/

namespace NetCentric

namespace Handoff

/-- A connection : what `accept` returned. -/
structure Conn where
  number : ℕ
  clifd : ℕ
  cliaddr : BitVec 32
  deriving DecidableEq

/-- Where `main` is in its loop. -/
inductive Main
  | accept
  /-- The assignments to `client`. -/
  | store (conn : Conn)
  /-- `pthread_create`. -/
  | create (conn : Conn)

/-- A handler thread. -/
structure Thread where
  /-- The connection it was created for. -/
  createdFor : Conn
  /-- Its copy of the argument, after the first statement. -/
  client : Option Conn
  /-- The calls it has yet to make. -/
  todo : List Call

structure State where
  main : Main
  /-- `clinfo client` of `main`. -/
  client : Option Conn
  threads : List Thread
  /-- All connections accepted. -/
  accepted : List Conn
  /-- All connections closed, once for each `close`. -/
  closed : List Conn

/-- The steps of `main` and of the threads. -/
inductive Action
  | accept (clifd : ℕ) (cliaddr : BitVec 32)
  | store
  | create (ok : Bool)
  /-- Thread `i` copies its argument, and will meet `sc`. -/
  | copy (i : ℕ) (sc : Script)
  /-- Thread `i` makes its next call. -/
  | call (i : ℕ)

/-- Before the first `accept`. -/
def start : State where
  main := .accept
  client := none
  threads := []
  accepted := []
  closed := []

/-- The connection that a call closes, made by a thread with its copy of `conn`. -/
def closes (conn : Conn) (c : Call) : List Conn :=
  if c.closesClient then [conn] else []

def step (s : State) : Action → Option State
  | .accept clifd cliaddr =>
    match s.main with
    | .accept =>
      let conn := ⟨s.accepted.length, clifd, cliaddr⟩
      some { s with main := .store conn, accepted := s.accepted ++ [conn] }
    | _ => none
  | .store =>
    match s.main with
    | .store conn => some { s with main := .create conn, client := some conn }
    | _ => none
  | .create ok =>
    match s.main with
    | .create conn => some { s with
        main := .accept
        threads := if ok then s.threads ++ [⟨conn, none, []⟩] else s.threads }
    | _ => none
  | .copy i sc =>
    match s.threads[i]?, s.client with
    | some ⟨createdFor, none, _⟩, some conn => some { s with
        threads := s.threads.set i ⟨createdFor, some conn, (threadHandle sc).calls⟩ }
    | _, _ => none
  | .call i =>
    match s.threads[i]? with
    | some ⟨createdFor, some conn, c :: todo⟩ => some { s with
        threads := s.threads.set i ⟨createdFor, some conn, todo⟩
        closed := s.closed ++ closes conn c }
    | _ => none

/-- The threaded proxy. -/
def threadProxy : System State Action where
  Init s := s = start
  step := step

/-- The connections that `main` has accepted and not yet handed on. -/
def Main.holds : Main → List Conn
  | .accept => []
  | .store conn | .create conn => [conn]

/-- Each thread works on the connection it was created for, each connection that `main`
has handed on has exactly one thread, and none is closed twice. -/
structure HandedOver (s : State) : Prop where
  own : ∀ th ∈ s.threads, ∀ conn ∈ th.client, conn = th.createdFor
  served : ∀ conn ∈ s.accepted, conn ∈ s.main.holds ∨
    ∃! i : ℕ, ∃ th : Thread, s.threads[i]? = some th ∧ th.createdFor = conn
  closed : s.closed.Nodup

/-- Every thread has its copy before the next store, and the creations succeed. -/
def InTime (s : State) : Action → Prop
  | .store => ∀ th ∈ s.threads, th.client ≠ none
  | .create ok => ok = true
  | _ => True

/-! ## The invariant -/

/-- The invariant of the runs in time. -/
structure Inv (s : State) : Prop where
  /-- The threads are for the connections in order, and `main` holds the rest. -/
  accepted : s.accepted = s.threads.map Thread.createdFor ++ s.main.holds
  numbered : ∀ (i : ℕ) conn, s.accepted[i]? = some conn → conn.number = i
  own : ∀ th ∈ s.threads, ∀ conn ∈ th.client, conn = th.createdFor
  /-- A thread that has not made its copy finds its connection in `client`. -/
  waiting : ∀ th ∈ s.threads, th.client = none →
    s.client = some th.createdFor ∧ ∀ conn, s.main ≠ .create conn
  stored : ∀ conn, s.main = .create conn → s.client = some conn
  /-- A thread has at most one `close` of its connection behind it and before it. -/
  once : ∀ th ∈ s.threads,
    s.closed.count th.createdFor + th.todo.countP Call.closesClient ≤ 1
  unclosed : ∀ th ∈ s.threads, th.client = none → s.closed.count th.createdFor = 0
  closed : ∀ conn ∈ s.closed, ∃ th ∈ s.threads, th.createdFor = conn

theorem inv_start : Inv start where
  accepted := rfl
  numbered i conn h := by simp [start] at h
  own th h := by simp [start] at h
  waiting th h := by simp [start] at h
  stored conn h := by cases h
  once th h := by simp [start] at h
  unclosed th h := by simp [start] at h
  closed conn h := by simp [start] at h

/-- The threads after one of them has moved. -/
theorem mem_set_cases {threads : List Thread} {i : ℕ} {x th : Thread}
    (h : th ∈ threads.set i x) : th = x ∨ ∃ j ≠ i, threads[j]? = some th := by
  obtain ⟨j, hj⟩ := List.mem_iff_getElem?.1 h
  by_cases hij : i = j
  · subst hij
    rw [List.getElem?_set_self'] at hj
    obtain ⟨y, -, hy⟩ := Option.map_eq_some_iff.1 hj
    exact .inl hy.symm
  · rw [List.getElem?_set_ne hij] at hj
    exact .inr ⟨j, Ne.symm hij, hj⟩

theorem map_createdFor_set {threads : List Thread} {i : ℕ} {x th : Thread}
    (h : threads[i]? = some th) (hx : x.createdFor = th.createdFor) :
    (threads.set i x).map Thread.createdFor = threads.map Thread.createdFor := by
  rw [List.map_set, hx]
  refine List.ext_getElem? fun j => ?_
  by_cases hij : i = j
  · subst hij
    simp [List.getElem?_set_self', h]
  · rw [List.getElem?_set_ne hij]

/-- The number of a thread is the number of its connection. -/
theorem Inv.number {s : State} (hI : Inv s) {i : ℕ} {th : Thread}
    (hi : s.threads[i]? = some th) : th.createdFor.number = i := by
  have hlt := (List.getElem?_eq_some_iff.1 hi).1
  refine hI.numbered i _ ?_
  rw [hI.accepted, List.getElem?_append_left (by simpa using hlt), List.getElem?_map, hi]
  rfl

/-- Two threads are for two connections. -/
theorem Inv.distinct {s : State} (hI : Inv s) {i j : ℕ} {a b : Thread}
    (hi : s.threads[i]? = some a) (hj : s.threads[j]? = some b)
    (hab : a.createdFor = b.createdFor) : i = j := by
  rw [← hI.number hi, ← hI.number hj, hab]

/-- No thread is for the connection that `main` holds. -/
theorem Inv.fresh {s : State} (hI : Inv s) {conn : Conn} (hmain : s.main.holds = [conn])
    (th : Thread) (hth : th ∈ s.threads) : th.createdFor ≠ conn := by
  rintro rfl
  obtain ⟨i, hi⟩ := List.mem_iff_getElem?.1 hth
  have hlt := (List.getElem?_eq_some_iff.1 hi).1
  have hlast := hI.numbered s.threads.length th.createdFor (by
    rw [hI.accepted, hmain, List.getElem?_append_right (by simp)]
    simp)
  have hnumber := hI.number hi
  omega

theorem count_closes (a conn : Conn) (c : Call) :
    (closes conn c).count a = if c.closesClient = true ∧ conn = a then 1 else 0 := by
  unfold closes
  by_cases hc : c.closesClient = true <;> by_cases ha : conn = a <;> simp [hc, ha]

theorem Inv.accept {s : State} (hI : Inv s) (hmain : s.main = .accept) {conn : Conn}
    (hnumber : conn.number = s.accepted.length) :
    Inv { s with main := .store conn, accepted := s.accepted ++ [conn] } := by
  have hacc : s.accepted = s.threads.map Thread.createdFor := by
    rw [hI.accepted, hmain, Main.holds, List.append_nil]
  refine ⟨by rw [hacc]; rfl, fun i c hc => ?_, hI.own, fun th hth hnone => ?_,
    fun c hc => (by cases hc), hI.once, hI.unclosed, hI.closed⟩
  · rcases Nat.lt_or_ge i s.accepted.length with hlt | hge
    · rw [List.getElem?_append_left hlt] at hc
      exact hI.numbered i c hc
    · rw [List.getElem?_append_right hge, List.getElem?_singleton] at hc
      split at hc
      · obtain rfl := Option.some.inj hc
        omega
      · cases hc
  · exact ⟨(hI.waiting th hth hnone).1, fun c hc => (by cases hc)⟩

theorem Inv.store {s : State} (hI : Inv s) {conn : Conn} (hmain : s.main = .store conn)
    (htime : ∀ th ∈ s.threads, th.client ≠ none) :
    Inv { s with main := .create conn, client := some conn } := by
  refine ⟨?_, hI.numbered, hI.own, fun th hth hnone => absurd hnone (htime th hth),
    fun c hc => ?_, hI.once, hI.unclosed, hI.closed⟩
  · have hacc := hI.accepted
    rwa [hmain] at hacc
  · cases hc
    rfl

theorem Inv.create {s : State} (hI : Inv s) {conn : Conn} (hmain : s.main = .create conn) :
    Inv { s with main := .accept, threads := s.threads ++ [⟨conn, none, []⟩] } := by
  have hacc : s.accepted = s.threads.map Thread.createdFor ++ [conn] := by
    rw [hI.accepted, hmain, Main.holds]
  have hcopied : ∀ th ∈ s.threads, th.client ≠ none := fun th hth hnone =>
    (hI.waiting th hth hnone).2 conn hmain
  have hcount : s.closed.count conn = 0 := List.count_eq_zero.2 fun hmem => by
    obtain ⟨th, hth, hfor⟩ := hI.closed conn hmem
    exact hI.fresh (by rw [hmain, Main.holds]) th hth hfor
  have hnew : ∀ th ∈ s.threads ++ [⟨conn, none, []⟩], th ∈ s.threads ∨ th = ⟨conn, none, []⟩ :=
    fun th hth => (List.mem_append.1 hth).imp_right List.mem_singleton.1
  refine ⟨by rw [hacc]; simp [Main.holds], hI.numbered, fun th hth => ?_, fun th hth hnone => ?_,
    fun c hc => (by cases hc), fun th hth => ?_, fun th hth hnone => ?_, fun c hc => ?_⟩
  · rcases hnew th hth with hth | rfl
    · exact hI.own th hth
    · exact fun c hc => nomatch hc
  · rcases hnew th hth with hth | rfl
    · exact absurd hnone (hcopied th hth)
    · exact ⟨hI.stored conn hmain, fun c hc => nomatch hc⟩
  · rcases hnew th hth with hth | rfl
    · exact hI.once th hth
    · simp [hcount]
  · rcases hnew th hth with hth | rfl
    · exact hI.unclosed th hth hnone
    · exact hcount
  · obtain ⟨th, hth, hfor⟩ := hI.closed c hc
    exact ⟨th, List.mem_append_left _ hth, hfor⟩

/-- A thread that makes its copy finds its own connection. -/
theorem Inv.copy {s : State} (hI : Inv s) {i : ℕ} {createdFor conn : Conn} {todo : List Call}
    (hi : s.threads[i]? = some ⟨createdFor, none, todo⟩) (hclient : s.client = some conn)
    (sc : Script) :
    Inv { s with threads := s.threads.set i ⟨createdFor, some conn, (threadHandle sc).calls⟩ } := by
  have hmem := List.mem_of_getElem? hi
  obtain rfl : conn = createdFor :=
    Option.some.inj (hclient.symm.trans (hI.waiting _ hmem rfl).1)
  have hcases : ∀ th ∈ s.threads.set i ⟨conn, some conn, (threadHandle sc).calls⟩,
      th = ⟨conn, some conn, (threadHandle sc).calls⟩ ∨ th ∈ s.threads := fun th hth =>
    (mem_set_cases hth).imp_right fun ⟨_, _, hj⟩ => List.mem_of_getElem? hj
  have hmap := map_createdFor_set (x := ⟨conn, some conn, (threadHandle sc).calls⟩) hi rfl
  refine ⟨hmap ▸ hI.accepted, hI.numbered, fun th hth => ?_, fun th hth hnone => ?_, hI.stored,
    fun th hth => ?_, fun th hth hnone => ?_, fun c hc => ?_⟩
  · rcases hcases th hth with rfl | hth
    · exact fun c hc => (Option.some.inj hc).symm
    · exact hI.own th hth
  · rcases hcases th hth with rfl | hth
    · cases hnone
    · exact hI.waiting th hth hnone
  · rcases hcases th hth with rfl | hth
    · rw [hI.unclosed _ hmem rfl, Nat.zero_add]
      exact handle_closes_once .thread sc
    · exact hI.once th hth
  · rcases hcases th hth with rfl | hth
    · cases hnone
    · exact hI.unclosed th hth hnone
  · obtain ⟨th, hth, rfl⟩ := hI.closed c hc
    exact List.mem_map.1 (hmap ▸ List.mem_map_of_mem hth)

/-- A call of a thread that has its copy. -/
theorem Inv.call {s : State} (hI : Inv s) {i : ℕ} {createdFor conn : Conn} {c : Call}
    {todo : List Call} (hi : s.threads[i]? = some ⟨createdFor, some conn, c :: todo⟩) :
    Inv { s with
      threads := s.threads.set i ⟨createdFor, some conn, todo⟩
      closed := s.closed ++ closes conn c } := by
  have hmem := List.mem_of_getElem? hi
  obtain rfl : conn = createdFor := hI.own _ hmem conn rfl
  have hmap := map_createdFor_set (x := ⟨conn, some conn, todo⟩) hi rfl
  -- the other threads are for other connections
  have hcases : ∀ th ∈ s.threads.set i ⟨conn, some conn, todo⟩,
      th = ⟨conn, some conn, todo⟩ ∨ th ∈ s.threads ∧ conn ≠ th.createdFor := fun th hth =>
    (mem_set_cases hth).imp_right fun ⟨j, hj, hjth⟩ =>
      ⟨List.mem_of_getElem? hjth, fun hsame => hj (hI.distinct hjth hi hsame.symm)⟩
  have hother : ∀ a, conn ≠ a → (s.closed ++ closes conn c).count a = s.closed.count a :=
    fun a ha => by rw [List.count_append, count_closes, if_neg fun h => ha h.2, Nat.add_zero]
  refine ⟨hmap ▸ hI.accepted, hI.numbered, fun th hth => ?_, fun th hth hnone => ?_, hI.stored,
    fun th hth => ?_, fun th hth hnone => ?_, fun a ha => ?_⟩
  · rcases hcases th hth with rfl | ⟨hth, -⟩
    · exact fun a ha => (Option.some.inj ha).symm
    · exact hI.own th hth
  · rcases hcases th hth with rfl | ⟨hth, -⟩
    · cases hnone
    · exact hI.waiting th hth hnone
  · rcases hcases th hth with rfl | ⟨hth, hne⟩
    · have honce := hI.once _ hmem
      simp only [List.countP_cons] at honce
      simp only [List.count_append, count_closes, and_true]
      omega
    · rw [hother _ hne]
      exact hI.once th hth
  · rcases hcases th hth with rfl | ⟨hth, hne⟩
    · cases hnone
    · rw [hother _ hne]
      exact hI.unclosed th hth hnone
  · have hold : ∃ th ∈ s.threads, th.createdFor = a := by
      rcases List.mem_append.1 ha with ha | ha
      · exact hI.closed a ha
      · unfold closes at ha
        split at ha
        · exact ⟨_, hmem, (List.mem_singleton.1 ha).symm⟩
        · cases ha
    obtain ⟨th, hth, rfl⟩ := hold
    exact List.mem_map.1 (hmap ▸ List.mem_map_of_mem hth)

/-- A step in time keeps the invariant. -/
theorem Inv.step {s t : State} {a : Action} (hI : Inv s) (ha : InTime s a)
    (h : Handoff.step s a = some t) : Inv t := by
  cases a with
  | accept clifd cliaddr =>
    simp only [Handoff.step] at h
    split at h
    case h_1 hmain =>
      obtain rfl := Option.some.inj h
      exact hI.accept hmain rfl
    case h_2 => cases h
  | store =>
    simp only [Handoff.step] at h
    split at h
    case h_1 conn hmain =>
      obtain rfl := Option.some.inj h
      exact hI.store hmain ha
    case h_2 => cases h
  | create ok =>
    obtain rfl : ok = true := ha
    simp only [Handoff.step] at h
    split at h
    case h_1 conn hmain =>
      obtain rfl := Option.some.inj h
      exact hI.create hmain
    case h_2 => cases h
  | copy i sc =>
    simp only [Handoff.step] at h
    split at h
    case h_1 createdFor todo conn hi hclient =>
      obtain rfl := Option.some.inj h
      exact hI.copy hi hclient sc
    case h_2 => cases h
  | call i =>
    simp only [Handoff.step] at h
    split at h
    case h_1 createdFor conn c todo hi =>
      obtain rfl := Option.some.inj h
      exact hI.call hi
    case h_2 => cases h

/-- The invariant gives the hand-off. -/
theorem Inv.handedOver {s : State} (hI : Inv s) : HandedOver s := by
  refine ⟨hI.own, fun conn hconn => ?_, List.nodup_iff_count_le_one.2 fun conn => ?_⟩
  · rw [hI.accepted] at hconn
    rcases List.mem_append.1 hconn with hmap | hholds
    · obtain ⟨th, hth, rfl⟩ := List.mem_map.1 hmap
      obtain ⟨i, hi⟩ := List.mem_iff_getElem?.1 hth
      exact .inr ⟨i, ⟨th, hi, rfl⟩, fun j ⟨th', hj, hsame⟩ => hI.distinct hj hi hsame⟩
    · exact .inl hholds
  · by_cases hmem : conn ∈ s.closed
    · obtain ⟨th, hth, rfl⟩ := hI.closed conn hmem
      have honce := hI.once th hth
      omega
    · rw [List.count_eq_zero.2 hmem]
      omega

/-- In a run in time, in every state, each connection that was handed on has its one
thread, which works on it, and none is closed twice. -/
theorem handed_over {t : State} {as : List Action}
    (htime : ∀ u a, threadProxy.Takes start as u a → InTime u a)
    (h : threadProxy.Visits start as t) : HandedOver t := by
  have hI : Inv t := System.visits_invariant (S := threadProxy) (I := Inv) (P := InTime)
    (fun _ _ _ hI ha hstep => hI.step ha hstep) inv_start htime h
  exact hI.handedOver

/-- Two connections, the second stored after the first thread's copy. -/
theorem handed_over_two : ∃ t, threadProxy.Visits start [.accept 4 1, .store, .create true,
    .copy 0 silentClient, .accept 5 2, .store, .create true] t ∧ t.threads.length = 2 ∧
    HandedOver t := by
  obtain ⟨t, ht, hlen⟩ : ∃ t, threadProxy.run start [.accept 4 1, .store, .create true,
    .copy 0 silentClient, .accept 5 2, .store, .create true] = some t ∧ t.threads.length = 2 :=
    ⟨_, rfl, rfl⟩
  refine ⟨t, System.visits_last ht, hlen, handed_over (fun u a h => ?_) (System.visits_last ht)⟩
  rcases System.takes_cons.1 h with ⟨rfl, rfl⟩ | ⟨s₁, h₁, h⟩
  · trivial
  obtain rfl := Option.some.inj h₁
  rcases System.takes_cons.1 h with ⟨rfl, rfl⟩ | ⟨s₂, h₂, h⟩
  · exact fun th hth => nomatch hth
  obtain rfl := Option.some.inj h₂
  rcases System.takes_cons.1 h with ⟨rfl, rfl⟩ | ⟨s₃, h₃, h⟩
  · rfl
  obtain rfl := Option.some.inj h₃
  rcases System.takes_cons.1 h with ⟨rfl, rfl⟩ | ⟨s₄, h₄, h⟩
  · trivial
  obtain rfl := Option.some.inj h₄
  rcases System.takes_cons.1 h with ⟨rfl, rfl⟩ | ⟨s₅, h₅, h⟩
  · trivial
  obtain rfl := Option.some.inj h₅
  rcases System.takes_cons.1 h with ⟨rfl, rfl⟩ | ⟨s₆, h₆, h⟩
  · intro th hth
    obtain rfl := List.mem_singleton.1 hth
    exact Option.some_ne_none _
  obtain rfl := Option.some.inj h₆
  rcases System.takes_cons.1 h with ⟨rfl, rfl⟩ | ⟨s₇, h₇, h⟩
  · rfl
  cases h

/-- The first thread makes its copy after the second store. -/
theorem handed_over_late_copy : ¬∀ (as : List Action) (t : State),
    (∀ ok, .create ok ∈ as → ok = true) → threadProxy.Visits start as t → HandedOver t := by
  intro h
  obtain ⟨t, ht, hth⟩ : ∃ t, threadProxy.run start [.accept 4 1, .store, .create true,
      .accept 5 2, .store, .copy 0 silentClient] = some t ∧
      ⟨⟨0, 4, 1⟩, some ⟨1, 5, 2⟩, (threadHandle silentClient).calls⟩ ∈ t.threads :=
    ⟨_, rfl, List.mem_singleton_self _⟩
  have hover := h _ t (by simp) (System.visits_last ht)
  exact absurd (hover.own _ hth _ rfl) (by decide)

/-! ## A step out of time -/

/-- A thread whose connection is not in `client` any more copies another one. -/
theorem copy_after_store {s : State} {i : ℕ} {createdFor conn : Conn} {todo : List Call}
    (hi : s.threads[i]? = some ⟨createdFor, none, todo⟩) (hclient : s.client = some conn)
    (hne : conn ≠ createdFor) : ∃ t, threadProxy.run s [.copy i silentClient] = some t ∧
      ¬HandedOver t := by
  let th : Thread := ⟨createdFor, some conn, (threadHandle silentClient).calls⟩
  refine ⟨{ s with threads := s.threads.set i th }, ?_, fun hover => hne ?_⟩
  · simp [System.run_cons, threadProxy, step, hi, hclient, th]
  · have hlt := (List.getElem?_eq_some_iff.1 hi).1
    exact hover.own _ (List.mem_of_getElem? (List.getElem?_set_self hlt)) conn rfl

/-- The first step out of time lets the hand-off go wrong : a thread makes its copy next,
or the connection has no thread. -/
theorem out_of_time {s t : State} {a : Action} (hI : Inv s) (ha : ¬InTime s a)
    (h : step s a = some t) : ∃ as u, threadProxy.run t as = some u ∧ ¬HandedOver u := by
  cases a with
  | store =>
    simp only [InTime, not_forall, not_not] at ha
    obtain ⟨⟨createdFor, client, todo⟩, hth, rfl⟩ := ha
    obtain ⟨i, hi⟩ := List.mem_iff_getElem?.1 hth
    simp only [step] at h
    split at h
    case h_1 conn hmain =>
      obtain rfl := Option.some.inj h
      have hne := hI.fresh (by rw [hmain, Main.holds]) _ hth
      exact ⟨_, copy_after_store hi rfl (Ne.symm hne)⟩
    case h_2 => cases h
  | create ok =>
    have hok : ok = false := Bool.eq_false_iff.2 ha
    subst hok
    simp only [step] at h
    split at h
    case h_1 conn hmain =>
      obtain rfl := Option.some.inj h
      refine ⟨[], _, rfl, fun hover => ?_⟩
      have hmem : conn ∈ s.accepted := by
        rw [hI.accepted, hmain]
        exact List.mem_append_right _ (List.mem_singleton_self _)
      rcases hover.served conn hmem with hholds | ⟨i, ⟨th, hi, hfor⟩, -⟩
      · exact absurd hholds (List.not_mem_nil)
      · exact hI.fresh (by rw [hmain, Main.holds]) th (List.mem_of_getElem? hi) hfor
    case h_2 => cases h
  | accept clifd cliaddr => exact absurd trivial ha
  | copy i sc => exact absurd trivial ha
  | call i => exact absurd trivial ha

end Handoff

end NetCentric
