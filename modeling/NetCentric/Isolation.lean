import NetCentric.Undefined
import NetCentric.SentRequest
import NetCentric.Transition
import Mathlib.Logic.Function.Basic

/-!
# One process for all clients

`threadProxy` is the proxy in thread mode : the main thread, and a thread for each
connection it has accepted. A thread makes the calls of `threadHandle` one at a time, in
any interleaving with the others. The client and the server of a connection may go away
at any time.

A write to a socket whose peer is gone ends the process, for nothing handles SIGPIPE, and
so does what is undefined. `isolation_iff` : the process stays, the main thread can accept
and no thread is held up by another one in all states of a run, if and only if no thread
writes to a peer that is gone and none does what is undefined.
-/

namespace NetCentric

/-! ## The mutex in a thread -/

/-- A part of a thread that leaves the mutex alone and does not exit. -/
structure Plain {α : Type} (p : Handler α) : Prop where
  calls : ∀ c ∈ p.calls, c ≠ .mutexLock ∧ c ≠ .mutexUnlock
  ends : ∀ status, p.result ≠ .error (.exit status)

namespace Plain

variable {α β : Type}

theorem bind {p : Handler α} {f : α → Handler β} (hp : Plain p) (hf : ∀ a, Plain (f a)) :
    Plain (p >>= f) := by
  refine ⟨Prog.forall_calls_bind hp.calls fun a _ => (hf a).calls, fun status h => ?_⟩
  rcases Prog.result_bind_eq_error.1 h with h | ⟨a, -, h⟩
  · exact hp.ends status h
  · exact (hf a).ends status h

theorem of_call {c : Call} (h : c ≠ .mutexLock ∧ c ≠ .mutexUnlock) : Plain (Prog.call c) :=
  ⟨fun _ hd => List.mem_singleton.1 hd ▸ h, fun _ => nofun⟩

theorem of_orUndefined (x : Option α) : Plain (orUndefined x) := by
  cases x with
  | none => exact ⟨nofun, fun _ => nofun⟩
  | some a => exact ⟨nofun, fun _ => nofun⟩

theorem of_giveUp (fds : List Fd) : Plain (Mode.thread.giveUp fds : Handler α) := by
  refine ⟨fun c hc => ?_, fun _ => nofun⟩
  obtain ⟨fd, -, rfl⟩ := Mode.close_of_mem_giveUp _ hc
  exact ⟨nofun, nofun⟩

theorem of_require (ok : Bool) (fds : List Fd) : Plain (Mode.thread.require ok fds) := by
  cases ok
  · exact of_giveUp fds
  · exact ⟨nofun, fun _ => nofun⟩

theorem connectServer (sc : Script) (host service : List Byte) :
    Plain (connectServer .thread sc host service) :=
  .bind (of_call ⟨nofun, nofun⟩) fun _ => .bind (of_require _ _) fun _ =>
    .bind (of_call ⟨nofun, nofun⟩) fun _ => .bind (of_require _ _) fun _ =>
    .bind (of_call ⟨nofun, nofun⟩) fun _ => .bind (of_require _ _) fun _ =>
    of_call ⟨nofun, nofun⟩

theorem of_relays {p : Handler α} (h : Relays p) : Plain p := by
  refine ⟨fun c hc => ?_, fun status hs => ?_⟩
  · have hrelays := h.calls c hc
    constructor <;> rintro rfl <;> cases hrelays
  · rcases h.stops _ hs with h | h <;> cases h

/-- A part after calls that leave the mutex alone. -/
theorem after {p : Handler α} (hp : Plain p) {cs : List Call}
    (h : ∀ c ∈ cs, c ≠ .mutexLock ∧ c ≠ .mutexUnlock) : Plain ⟨cs ++ p.calls, p.result⟩ :=
  ⟨fun c hc => (List.mem_append.1 hc).elim (h c) (hp.calls c), hp.ends⟩

theorem pollLoop (total : Totals) (answers : List PollAnswer) :
    Plain (pollLoop .thread total answers) := by
  have hiter : ∀ total answer, ∀ c ∈ (iteration total answer).calls,
      c ≠ .mutexLock ∧ c ≠ .mutexUnlock := by
    intro total answer c hc
    have htransfers := iteration_transfers total answer c hc
    constructor <;> rintro rfl <;> cases htransfers
  induction answers generalizing total with
  | nil => exact ⟨nofun, fun _ => nofun⟩
  | cons answer answers ih =>
    rcases pollLoop_cons .thread total answer answers with ⟨s, -, h⟩ | ⟨t, -, h⟩ |
      ⟨e, fds, -, -, -, h⟩ <;> rw [h]
    · exact (ih s.2).after (hiter total answer)
    · exact ⟨hiter total answer, fun _ => nofun⟩
    · have hgive : Plain (Mode.thread.giveUp fds : Handler Totals) := of_giveUp fds
      exact hgive.after (hiter total answer)

end Plain

/-- What is left of a thread that holds the mutex or does not : it takes the mutex if it
does not hold it, releases it if it does, and holds it at the end only in undefined
behaviour. -/
def Orderly (result : Except Ending Unit) : Bool → List Call → Prop
  | holds, [] => holds = true → result = .error .undefined
  | holds, .mutexLock :: cs => holds = false ∧ Orderly result true cs
  | holds, .mutexUnlock :: cs => holds = true ∧ Orderly result false cs
  | holds, _ :: cs => Orderly result holds cs

theorem Orderly.append {result : Except Ending Unit} {holds : Bool} {cs ds : List Call}
    (h : ∀ c ∈ cs, c ≠ .mutexLock ∧ c ≠ .mutexUnlock) (hds : Orderly result holds ds) :
    Orderly result holds (cs ++ ds) := by
  induction cs with
  | nil => exact hds
  | cons c cs ih =>
    obtain ⟨⟨hlock, hunlock⟩, hcs⟩ := List.forall_mem_cons.1 h
    have hrest := ih hcs
    cases c <;> first | exact hrest | exact absurd rfl hlock | exact absurd rfl hunlock

theorem Orderly.plain {result : Except Ending Unit} {cs : List Call}
    (h : ∀ c ∈ cs, c ≠ .mutexLock ∧ c ≠ .mutexUnlock) : Orderly result false cs := by
  have hnil : Orderly result false (cs ++ []) := Orderly.append h nofun
  rwa [List.append_nil] at hnil

/-- A part of a thread up to its end. -/
structure Tail (p : Handler Unit) : Prop where
  orderly : Orderly p.result false p.calls
  ends : ∀ status, p.result ≠ .error (.exit status)

namespace Tail

theorem of_plain {p : Handler Unit} (h : Plain p) : Tail p :=
  ⟨.plain h.calls, h.ends⟩

theorem bind {α : Type} {p : Handler α} {f : α → Handler Unit} (hp : Plain p)
    (hf : ∀ a, Tail (f a)) : Tail (p >>= f) := by
  cases hr : p.result with
  | ok a =>
    refine ⟨?_, fun status h => (hf a).ends status ?_⟩
    · rw [Prog.calls_bind_ok hr, Prog.result_bind_of_ok hr]
      exact .append hp.calls (hf a).orderly
    · rwa [Prog.result_bind_of_ok hr] at h
  | error e =>
    refine ⟨?_, fun status h => hp.ends status ?_⟩
    · rw [Prog.calls_bind_error hr]
      exact .plain hp.calls
    · rw [Prog.result_bind_error hr] at h
      obtain rfl := Except.error.inj h
      exact hr

/-- The log section, and the calls after it. -/
theorem writeLog (log : Bool) (logstring : List Byte) {cs : List Call}
    (h : ∀ c ∈ cs, c ≠ .mutexLock ∧ c ≠ .mutexUnlock) :
    Tail (writeLog .thread log logstring >>= fun _ => Prog.callAll cs) := by
  cases log with
  | false => exact ⟨fun h => (by cases h), fun _ h => by cases h⟩
  | true =>
    have hclose : ∀ c ∈ .fclose :: cs, c ≠ .mutexLock ∧ c ≠ .mutexUnlock :=
      List.forall_mem_cons.2 ⟨by simp, h⟩
    by_cases hlen : logstring.length < 1024
    · simp only [NetCentric.writeLog, inArray, hlen, if_true, orUndefined, Mode.require_true]
      exact ⟨⟨rfl, rfl, .plain hclose⟩, fun _ h => by cases h⟩
    · simp only [NetCentric.writeLog, inArray, hlen, if_false, orUndefined, Mode.require_true]
      exact ⟨⟨rfl, fun _ => rfl⟩, fun _ h => by cases h⟩

theorem finishGet (sc : Script) (url : List Byte) : Tail (finishGet .thread sc url) :=
  .bind (.of_relays (.relay _ _)) fun _ => writeLog _ _ (by simp)

theorem finishConnect (sc : Script) (url : List Byte) : Tail (finishConnect .thread sc url) :=
  .bind (.of_call ⟨nofun, nofun⟩) fun _ => .bind (.pollLoop _ _) fun _ => writeLog _ _ (by simp)

/-- A thread keeps to the order of the mutex, and does not exit. -/
theorem threadHandle (sc : Script) : Tail (threadHandle sc) := by
  refine .bind (.of_call ⟨nofun, nofun⟩) fun _ => .bind (.of_require _ _) fun _ =>
    .bind (.of_orUndefined _) fun l => ?_
  split
  · exact .bind (.of_orUndefined _) fun _ => .bind (.of_require _ _) fun _ =>
      .bind (.connectServer _ _ _) fun _ => .bind (.of_orUndefined _) fun _ =>
      .bind (.of_call ⟨nofun, nofun⟩) fun _ => .bind (.of_require _ _) fun _ => finishGet _ _
  split
  · exact .bind (.of_orUndefined _) fun _ => .bind (.of_require _ _) fun _ =>
      .bind (.connectServer _ _ _) fun _ => finishConnect _ _
  · exact of_plain (.of_giveUp _)

end Tail

/-! ## The process -/

namespace Isolation

/-- A thread : the connection it was created for, the calls it has yet to make, what they
come to, and whether its client or its server is gone. -/
structure Thread where
  script : Script
  todo : List Call
  result : Except Ending Unit
  gone : Fd → Bool

/-- The process. Threads are numbered in the order they are created in. -/
structure State where
  running : Bool
  created : ℕ
  thread : ℕ → Option Thread
  /-- Who holds `log_mutex`. -/
  mutex : Option ℕ

/-- One step of the main thread, of a thread, or of a peer. -/
inductive Action
  /-- The main thread accepts a connection and creates a thread for it. -/
  | accept (sc : Script)
  | call (i : ℕ)
  /-- A thread comes to the end of its calls. -/
  | finish (i : ℕ)
  /-- The client or the server of a thread closes or resets. -/
  | hangup (i : ℕ) (fd : Fd)

/-- The thread that `pthread_create` makes. -/
def Thread.start (sc : Script) : Thread where
  script := sc
  todo := (threadHandle sc).calls
  result := (threadHandle sc).result
  gone _ := false

namespace State

/-- Thread `i` goes on at `x`. -/
def put (s : State) (i : ℕ) (x : Option Thread) : State :=
  { s with thread := Function.update s.thread i x }

@[simp] theorem thread_put (s : State) (i : ℕ) (x : Option Thread) :
    (s.put i x).thread = Function.update s.thread i x :=
  rfl

/-- The process ends, with all its threads. -/
def stop (s : State) : State :=
  { s with running := false }

/-- Thread `i` makes a call, and is then at `x`. -/
def perform (s : State) (i : ℕ) (x : Thread) : Call → Option State
  | .write fd _ _ => some (if x.gone fd then s.stop else s.put i (some x))
  | .mutexLock => if s.mutex = none then some { s.put i (some x) with mutex := some i } else none
  | .mutexUnlock => some { s.put i (some x) with mutex := none }
  | _ => some (s.put i (some x))

/-- Thread `i` ends, or waits for ever. -/
def finish (s : State) (i : ℕ) : Except Ending Unit → Option State
  | .ok _ | .error .returned => some (s.put i none)
  | .error .blocked => none
  | .error (.exit _) | .error .undefined => some s.stop

/-- What an action does while the process runs. -/
def act (s : State) : Action → Option State
  | .accept sc => some
      { s.put s.created (some (.start sc)) with created := s.created + 1 }
  | .call i =>
    match s.thread i with
    | some { script, todo := c :: todo, result, gone } =>
      s.perform i { script, todo, result, gone } c
    | _ => none
  | .finish i =>
    match s.thread i with
    | some { todo := [], result, .. } => s.finish i result
    | _ => none
  | .hangup i fd =>
    match s.thread i with
    | some x => some (s.put i (some { x with gone := Function.update x.gone fd true }))
    | none => none

end State

/-- The main thread, any number of threads, and their peers. -/
def threadProxy : System State Action where
  Init s := s = ⟨true, 0, fun _ => none, none⟩
  step s a := if s.running then s.act a else none

/-- Before the first `accept`. -/
def start : State :=
  ⟨true, 0, fun _ => none, none⟩

/-! ## What is asked for -/

/-- Thread `i` can take its next step. -/
def CanStep (s : State) (i : ℕ) : Prop :=
  (threadProxy.step s (.call i)).isSome ∨ (threadProxy.step s (.finish i)).isSome

/-- The process runs, the main thread can accept, and every thread that has not ended can
take its next step, waits for its own peer, or waits for a thread that can. -/
structure Isolated (s : State) : Prop where
  running : s.running = true
  accepts : ∀ sc, (threadProxy.step s (.accept sc)).isSome
  threads : ∀ i x, s.thread i = some x → CanStep s i ∨
    (x.todo = [] ∧ x.result = .error .blocked) ∨ ∃ j ≠ i, s.mutex = some j ∧ CanStep s j

/-- A thread does what is undefined on the connections of `Undefined`. -/
theorem threadHandle_undefined_iff {sc : Script} :
    (threadHandle sc).result = .error .undefined ↔ Undefined .thread sc :=
  handle_undefined_iff

/-- No write to a peer that is gone, and nothing undefined. -/
def Allowed (s : State) : Action → Prop
  | .call i => ∀ x fd data count todo, s.thread i = some x →
      x.todo = .write fd data count :: todo → x.gone fd = false
  | .finish i => ∀ x, s.thread i = some x → x.todo = [] → ¬Undefined .thread x.script
  | _ => True

/-! ## What a step can do -/

variable {s t : State}

/-- A call ends the process, or the thread goes on and the mutex is taken, released or left
as it is. -/
theorem perform_cases {i : ℕ} {x : Thread} {c : Call} (h : s.perform i x c = some t) :
    (∃ fd data count, c = .write fd data count ∧ x.gone fd = true ∧ t = s.stop) ∨
      (c = .mutexLock ∧ s.mutex = none ∧ t = { s.put i (some x) with mutex := some i }) ∨
      (c = .mutexUnlock ∧ t = { s.put i (some x) with mutex := none }) ∨
      c ≠ .mutexLock ∧ c ≠ .mutexUnlock ∧ t = s.put i (some x) := by
  unfold State.perform at h
  split at h
  case h_1 fd data count =>
    obtain rfl := Option.some.inj h
    split
    case isTrue hgone => exact .inl ⟨fd, data, count, rfl, hgone, rfl⟩
    case isFalse => exact .inr (.inr (.inr ⟨nofun, nofun, rfl⟩))
  case h_2 =>
    obtain ⟨hmutex, h⟩ := Option.ite_none_right_eq_some.1 h
    exact .inr (.inl ⟨rfl, hmutex, (Option.some.inj h).symm⟩)
  case h_3 => exact .inr (.inr (.inl ⟨rfl, (Option.some.inj h).symm⟩))
  case h_4 hlock hunlock =>
    exact .inr (.inr (.inr ⟨hlock, hunlock, (Option.some.inj h).symm⟩))

/-- The end of a thread ends the process, or leaves the others to go on. -/
theorem finish_cases {i : ℕ} {result : Except Ending Unit} (h : s.finish i result = some t) :
    (((∃ status, result = .error (.exit status)) ∨ result = .error .undefined) ∧ t = s.stop) ∨
      result ≠ .error .undefined ∧ t = s.put i none := by
  unfold State.finish at h
  split at h
  · exact .inr ⟨nofun, (Option.some.inj h).symm⟩
  · exact .inr ⟨nofun, (Option.some.inj h).symm⟩
  · cases h
  · exact .inl ⟨.inl ⟨_, rfl⟩, (Option.some.inj h).symm⟩
  · exact .inl ⟨.inr rfl, (Option.some.inj h).symm⟩

theorem step_call {i : ℕ} (h : s.act (.call i) = some t) :
    ∃ x c todo, s.thread i = some x ∧ x.todo = c :: todo ∧
      s.perform i { x with todo := todo } c = some t := by
  rcases hx : s.thread i with _ | ⟨script, _ | ⟨c, todo⟩, result, gone⟩ <;>
    simp only [State.act, hx] at h
  · cases h
  · cases h
  · exact ⟨_, c, todo, rfl, rfl, h⟩

theorem step_finish {i : ℕ} (h : s.act (.finish i) = some t) :
    ∃ x, s.thread i = some x ∧ x.todo = [] ∧ s.finish i x.result = some t := by
  rcases hx : s.thread i with _ | ⟨script, _ | ⟨c, todo⟩, result, gone⟩ <;>
    simp only [State.act, hx] at h
  · cases h
  · exact ⟨_, rfl, rfl, h⟩
  · cases h

theorem step_hangup {i : ℕ} {fd : Fd} (h : s.act (.hangup i fd) = some t) :
    ∃ x, s.thread i = some x ∧
      t = s.put i (some { x with gone := Function.update x.gone fd true }) := by
  cases hx : s.thread i <;> simp only [State.act, hx] at h
  · cases h
  · exact ⟨_, rfl, (Option.some.inj h).symm⟩

/-- The results of the threads are those of their connections. -/
def Linked (s : State) : Prop :=
  ∀ i x, s.thread i = some x → x.result = (threadHandle x.script).result

theorem Linked.put {i : ℕ} {x : Option Thread} (hs : Linked s)
    (hx : ∀ y, x = some y → y.result = (threadHandle y.script).result) : Linked (s.put i x) := by
  intro j y hy
  by_cases hj : j = i
  · rw [State.thread_put, hj, Function.update_self] at hy
    exact hx y hy
  · rw [State.thread_put, Function.update_of_ne hj] at hy
    exact hs j y hy

theorem Linked.step {a : Action} (hs : Linked s) (h : threadProxy.step s a = some t) :
    Linked t := by
  obtain ⟨-, h⟩ := Option.ite_none_right_eq_some.1 h
  cases a with
  | accept sc =>
    obtain rfl := Option.some.inj h
    exact hs.put (x := some (.start sc)) fun y hy => Option.some.inj hy ▸ rfl
  | call i =>
    obtain ⟨x, c, todo, hx, htodo, h⟩ := step_call h
    have hput : Linked (s.put i (some { x with todo := todo })) :=
      hs.put fun y hy => Option.some.inj hy ▸ hs i x hx
    rcases perform_cases h with ⟨fd, data, count, -, -, rfl⟩ | ⟨-, -, rfl⟩ | ⟨-, rfl⟩ |
      ⟨-, -, rfl⟩
    · exact hs
    all_goals exact hput
  | finish i =>
    obtain ⟨x, hx, htodo, h⟩ := step_finish h
    rcases finish_cases h with ⟨-, rfl⟩ | ⟨-, rfl⟩
    · exact hs
    · exact hs.put (by simp)
  | hangup i fd =>
    obtain ⟨x, hx, rfl⟩ := step_hangup h
    exact hs.put fun y hy => Option.some.inj hy ▸ hs i x hx

/-! ## What holds while all steps are allowed -/

/-- The process runs, the threads keep to the order of the mutex, and a thread holds it. -/
structure Inv (s : State) : Prop where
  running : s.running = true
  fresh : ∀ i, s.created ≤ i → s.thread i = none
  linked : Linked s
  orderly : ∀ i x, s.thread i = some x → Orderly x.result (s.mutex = some i) x.todo
  holder : ∀ i, s.mutex = some i → ∃ x, s.thread i = some x

theorem inv_start : Inv start :=
  ⟨rfl, fun _ _ => rfl, by simp [Linked, start], by simp [start], by simp [start]⟩

/-- One thread goes on or ends, and the mutex is between it and the others as before. -/
theorem Inv.put {i : ℕ} {x : Option Thread} (hI : Inv s) (mutex : Option ℕ)
    (hi : s.thread i ≠ none) (hlinked : ∀ y, x = some y → y.result = (threadHandle y.script).result)
    (horderly : ∀ y, x = some y → Orderly y.result (mutex = some i) y.todo)
    (hholder : mutex = some i → ∃ y, x = some y)
    (hmutex : ∀ j ≠ i, mutex = some j ↔ s.mutex = some j) :
    Inv { s.put i x with mutex := mutex } := by
  refine ⟨hI.running, fun j hj => ?_, hI.linked.put hlinked, fun j y hy => ?_, fun j hj => ?_⟩
  · have hne : j ≠ i := by
      rintro rfl
      exact hi (hI.fresh j hj)
    simpa [hne] using hI.fresh j hj
  · by_cases hne : j = i
    · subst hne
      simp only [State.thread_put, Function.update_self] at hy
      exact horderly y hy
    · simp only [State.thread_put, Function.update_of_ne hne] at hy
      simpa [hmutex j hne] using hI.orderly j y hy
  · by_cases hne : j = i
    · subst hne
      simpa using hholder hj
    · simpa [hne] using hI.holder j ((hmutex j hne).1 hj)

theorem Inv.accept (hI : Inv s) (sc : Script) :
    Inv { s.put s.created (some (.start sc)) with created := s.created + 1 } := by
  have hfree : s.mutex ≠ some s.created := fun h => by
    obtain ⟨x, hx⟩ := hI.holder _ h
    rw [hI.fresh _ (Nat.le_refl _)] at hx
    cases hx
  refine ⟨hI.running, fun j hj => ?_, hI.linked.put (x := some (.start sc)) ?_, fun j y hy => ?_,
    fun j hj => ?_⟩
  · have hne : j ≠ s.created := by
      dsimp only at hj
      omega
    simpa [hne] using hI.fresh j (by dsimp only at hj; omega)
  · intro y hy
    obtain rfl := Option.some.inj hy
    rfl
  · by_cases hne : j = s.created
    · subst hne
      simp only [State.thread_put, Function.update_self, Option.some.injEq] at hy
      subst hy
      have hnone : decide (s.mutex = some s.created) = false := decide_eq_false hfree
      change Orderly _ (decide (s.mutex = some s.created)) _
      rw [hnone]
      exact (Tail.threadHandle sc).orderly
    · simp only [State.thread_put, Function.update_of_ne hne] at hy
      exact hI.orderly j y hy
  · have hne : j ≠ s.created := by
      rintro rfl
      exact hfree hj
    simpa [hne] using hI.holder j hj

theorem Inv.step {a : Action} (hI : Inv s) (ha : Allowed s a)
    (h : threadProxy.step s a = some t) : Inv t := by
  obtain ⟨-, h⟩ := Option.ite_none_right_eq_some.1 h
  cases a with
  | accept sc =>
    obtain rfl := Option.some.inj h
    exact hI.accept sc
  | call i =>
    obtain ⟨x, c, todo, hx, htodo, h⟩ := step_call h
    have hthread : s.thread i ≠ none := by simp [hx]
    have hord := hI.orderly i x hx
    have hres := hI.linked i x hx
    rw [htodo] at hord
    rcases perform_cases h with ⟨fd, data, count, rfl, hgone, -⟩ | ⟨rfl, hfree, rfl⟩ | ⟨rfl, rfl⟩ |
      ⟨hlock, hunlock, rfl⟩
    · rw [ha x fd data count todo hx htodo] at hgone
      cases hgone
    · refine hI.put (some i) hthread (fun y hy => Option.some.inj hy ▸ hres)
        (fun y hy => Option.some.inj hy ▸ ?_) (fun _ => ⟨_, rfl⟩) fun j hj => ?_
      · simpa using hord.2
      · simp [hfree, hj.symm]
    · obtain ⟨hheld, hord⟩ := hord
      refine hI.put none hthread (fun y hy => Option.some.inj hy ▸ hres)
        (fun y hy => Option.some.inj hy ▸ ?_) nofun fun j hj => ?_
      · simpa using hord
      · simp [of_decide_eq_true hheld, hj.symm]
    · refine hI.put s.mutex hthread (fun y hy => Option.some.inj hy ▸ hres)
        (fun y hy => Option.some.inj hy ▸ ?_) (fun _ => ⟨_, rfl⟩) fun j _ => Iff.rfl
      cases c <;> first | exact hord | exact absurd rfl hlock | exact absurd rfl hunlock
  | finish i =>
    obtain ⟨x, hx, htodo, h⟩ := step_finish h
    have hord := hI.orderly i x hx
    have hres := hI.linked i x hx
    rw [htodo] at hord
    rcases finish_cases h with ⟨⟨status, hexit⟩ | hundefined, -⟩ | ⟨hno, rfl⟩
    · exact absurd (hres.symm.trans hexit) ((Tail.threadHandle x.script).ends status)
    · exact absurd (threadHandle_undefined_iff.1 (hres.symm.trans hundefined)) (ha x hx htodo)
    · refine hI.put s.mutex (by simp [hx]) (by simp) (by simp) (fun hheld => ?_)
        fun j _ => Iff.rfl
      exact absurd (hord (by simpa using hheld)) hno
  | hangup i fd =>
    obtain ⟨x, hx, rfl⟩ := step_hangup h
    exact hI.put s.mutex (by simp [hx])
      (fun y hy => Option.some.inj hy ▸ hI.linked i x hx)
      (fun y hy => Option.some.inj hy ▸ hI.orderly i x hx) (fun _ => ⟨_, rfl⟩) fun j _ => Iff.rfl

/-- A thread that holds the mutex is not held up. -/
theorem Inv.holder_canStep (hI : Inv s) {i : ℕ} (hi : s.mutex = some i) : CanStep s i := by
  obtain ⟨⟨script, todo, result, gone⟩, hx⟩ := hI.holder i hi
  have hord := hI.orderly i _ hx
  rw [decide_eq_true hi] at hord
  have hact : ∀ a, threadProxy.step s a = s.act a := fun a => if_pos hI.running
  rw [CanStep, hact, hact]
  rcases todo with _ | ⟨c, todo⟩
  · obtain rfl : result = .error .undefined := hord rfl
    exact .inr (by simp [State.act, hx, State.finish])
  · refine .inl ?_
    simp only [State.act, hx]
    cases c <;> first | rfl | exact absurd hord.1 (by decide)

theorem Inv.isolated (hI : Inv s) : Isolated s := by
  have hact : ∀ a, threadProxy.step s a = s.act a := fun a => if_pos hI.running
  refine ⟨hI.running, fun sc => by rw [hact]; rfl, fun i x hx => ?_⟩
  obtain ⟨script, todo, result, gone⟩ := x
  have hord := hI.orderly i _ hx
  rcases todo with _ | ⟨c, todo⟩
  · have hfinish : threadProxy.step s (.finish i) = s.finish i result := by
      rw [hact, State.act, hx]
    rcases result with (_ | _ | _ | _) | _
    · exact .inl (.inr (by rw [hfinish]; rfl))
    · exact .inl (.inr (by rw [hfinish]; rfl))
    · exact .inr (.inl ⟨rfl, rfl⟩)
    · exact .inl (.inr (by rw [hfinish]; rfl))
    · exact .inl (.inr (by rw [hfinish]; rfl))
  · have hcall : threadProxy.step s (.call i) = s.perform i ⟨script, todo, result, gone⟩ c := by
      rw [hact, State.act, hx]
    by_cases hc : c = .mutexLock
    · subst hc
      cases hmutex : s.mutex with
      | none => exact .inl (.inl (by rw [hcall, State.perform, if_pos hmutex]; rfl))
      | some j =>
        -- the thread waits for the one that holds the mutex
        have hne : j ≠ i := by
          rintro rfl
          exact absurd hmutex (of_decide_eq_false hord.1)
        exact .inr (.inr ⟨j, hne, rfl, hI.holder_canStep hmutex⟩)
    · refine .inl (.inl ?_)
      rw [hcall]
      cases c <;> first | rfl | exact absurd rfl hc

/-- A step that is not allowed ends the process. -/
theorem stops_of_not_allowed {a : Action} (hs : Linked s) (ha : ¬Allowed s a)
    (h : threadProxy.step s a = some t) : t.running = false := by
  obtain ⟨-, h⟩ := Option.ite_none_right_eq_some.1 h
  cases a with
  | accept sc => exact absurd trivial ha
  | hangup i fd => exact absurd trivial ha
  | call i =>
    obtain ⟨x, c, todo, hx, htodo, h⟩ := step_call h
    simp only [Allowed, not_forall] at ha
    obtain ⟨y, fd, data, count, rest, hy, hrest, hgone⟩ := ha
    obtain rfl := Option.some.inj (hx.symm.trans hy)
    obtain ⟨rfl, rfl⟩ := List.cons.inj (htodo.symm.trans hrest)
    rw [Bool.not_eq_false] at hgone
    simp only [State.perform, hgone, if_true] at h
    exact Option.some.inj h ▸ rfl
  | finish i =>
    obtain ⟨x, hx, htodo, h⟩ := step_finish h
    simp only [Allowed, not_forall, not_not] at ha
    obtain ⟨y, hy, -, hundefined⟩ := ha
    obtain rfl := Option.some.inj (hx.symm.trans hy)
    rw [hs i x hx, threadHandle_undefined_iff.2 hundefined] at h
    exact Option.some.inj h ▸ rfl

/-- The clients are isolated from each other in all states of a run if and only if no
thread writes to a peer that is gone and none does what is undefined. -/
theorem isolation_iff {s : State} {as : List Action} (h : threadProxy.run start as = some s) :
    (∀ t, threadProxy.Visits start as t → Isolated t) ↔
      ∀ t a, threadProxy.Takes start as t a → Allowed t a := by
  constructor
  · intro hall t a hta
    obtain ⟨u, hu, ht, hu'⟩ := hta.visits h
    have hlinked : Linked t := System.visits_invariant (P := fun _ _ => True)
      (fun _ _ _ hs _ hstep => hs.step hstep) inv_start.linked (fun _ _ _ => trivial) ht
    by_contra ha
    have hstop := stops_of_not_allowed hlinked ha hu
    rw [(hall u hu').running] at hstop
    cases hstop
  · intro hall t ht
    have hI : Inv t := System.visits_invariant (P := Allowed)
      (fun _ _ _ hI ha hstep => hI.step ha hstep) inv_start hall ht
    exact hI.isolated

/-- Whether a step is allowed. -/
def allows (s : State) : Action → Bool
  | .call i =>
    match s.thread i with
    | some { todo := .write fd _ _ :: _, gone, .. } => !gone fd
    | _ => true
  | .finish i =>
    match s.thread i with
    | some { script, .. } =>
      match (threadHandle script).result with
      | .error .undefined => false
      | _ => true
    | none => true
  | _ => true

theorem allowed_of_allows {s : State} {a : Action} (h : allows s a = true) : Allowed s a := by
  cases a with
  | call i =>
    intro x fd data count todo hx htodo
    obtain ⟨script, todo', result, gone⟩ := x
    obtain rfl : todo' = _ := htodo
    simpa [allows, hx] using h
  | finish i =>
    intro x hx _ hundefined
    simp [allows, hx, threadHandle_undefined_iff.2 hundefined] at h
  | _ => trivial

/-- A connection to a server that answers. -/
def answeredScript : Script :=
  { quietScript plainRequest.text with responses := [.data okResponse] }

/-- A client that hangs up before its request is read, next to one that is served and hangs
up with its response written. -/
def servedRun : List Action :=
  [.accept silentClient, .accept answeredScript, .call 1, .hangup 0 .client, .call 0] ++
    (List.replicate 7 (.call 1) ++ ([.hangup 1 .client, .call 0] ++
      (List.replicate 7 (.call 1) ++ [.finish 1, .finish 0])))

theorem isolation_iff_served :
    ∃ s, threadProxy.run start servedRun = some s ∧ Isolated s := by
  have hruns : (threadProxy.run start servedRun).isSome := by decide +kernel
  have hpasses : threadProxy.passes allows start servedRun = true := by decide +kernel
  obtain ⟨s, hs⟩ := Option.isSome_iff_exists.1 hruns
  exact ⟨s, hs, (isolation_iff hs).2
    (fun t a ha => allowed_of_allows (ha.of_passes hpasses)) s (System.visits_last hs)⟩

/-- The start of a response without a length, which fills the array. -/
def longResponse : List Byte :=
  bytes "HTTP/1.1 200 OK\r\n\r\n" ++ List.replicate 1005 97

/-- A connection to a server that answers with more than fits the array. -/
def longScript : Script :=
  { quietScript plainRequest.text with
    responses := [.data longResponse, .data (bytes "a"), .data []] }

/-- A client that is gone when the second piece of the response comes ends the process. -/
theorem isolation_peer_gone : ¬∀ (s : State) (as : List Action),
    threadProxy.run start as = some s → ∀ t, threadProxy.Visits start as t → Isolated t := by
  intro h
  have hends : (threadProxy.run start ([.accept longScript] ++
      List.replicate 9 (.call 0) ++ [.hangup 0 .client, .call 0])).map State.running =
        some false := by
    decide +kernel
  obtain ⟨s, hs, hstop⟩ := Option.map_eq_some_iff.1 hends
  rw [(h s _ hs s (System.visits_last hs)).running] at hstop
  cases hstop

end Isolation

end NetCentric
