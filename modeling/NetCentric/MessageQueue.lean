import NetCentric.Transition
import NetCentric.LinkedCells
import NetCentric.CInt

/-!
# The message queue of Lecture 9

`cond_variable/main.c` keeps a linked list of messages, `workq`, under the mutex `qlock`.
Any number of threads `enqueue_msg` append one message each and signal the condition
variable `qready`; one thread `process_msg` waits for messages, takes them from the
front and frees them; the thread `stop`, which `main` creates when all `enqueue_msg`
threads have returned, clears `running` and signals.

Every statement is one step of one thread. `pthread_mutex_lock` and `pthread_join` are
disabled while they block. `pthread_cond_wait` is a step that unlocks and starts waiting
and, once a signal or a spurious wake-up has come (`woken`), a step that locks again; a
signal while nobody waits is lost. `malloc` gives any free address, with anything in the
cell, and does not fail; a read or a write of an address that is not allocated has no
next state. The creations succeed.

The state carries history variables that no statement reads : `order` is the
`enqueue_msg` threads in the order they locked `qlock`, `taken` those whose messages the
consumer has unlinked, `printed` the data it has printed, and `owner` in a cell the
thread that allocated it.
-/

namespace NetCentric

namespace MessageQueue

/-- The struct `msg`, with its allocating thread. -/
structure Msg (n : ℕ) where
  next : Option ℕ
  data : ℤ
  owner : Fin n

/-- The statement of `process_msg` the consumer runs next, with `mp`. -/
inductive Consumer
  /-- Not created yet. -/
  | new
  /-- `pthread_mutex_lock(&qlock)`. -/
  | lock
  /-- `running && workq == NULL`. -/
  | test
  /-- `pthread_cond_wait(&qready, &qlock)`. -/
  | wait
  /-- Blocked on `qready`. -/
  | waiting
  /-- Woken up, about to lock `qlock` again. -/
  | woken
  /-- `!running && (workq == NULL)`. -/
  | testExit
  /-- `pthread_mutex_unlock(&qlock)` before `pthread_exit(0)`. -/
  | exit
  /-- `mp = workq`. -/
  | take
  /-- `workq = mp->next`. -/
  | advance (mp : ℕ)
  /-- `pthread_mutex_unlock(&qlock)`. -/
  | unlock (mp : ℕ)
  /-- The first `printf`. -/
  | print (mp : ℕ)
  /-- `sleep(1)`. -/
  | sleep (mp : ℕ)
  /-- The second `printf`. -/
  | printDone (mp : ℕ)
  /-- `free(mp)`. -/
  | free (mp : ℕ)
  /-- Exited. -/
  | done

/-- The statement of `enqueue_msg` a thread runs next, with `new_msg` and `last`. -/
inductive Enqueuer
  /-- Not created yet. -/
  | new
  /-- `printf`. -/
  | print
  /-- `new_msg = malloc(sizeof(struct msg))`. -/
  | malloc
  /-- `new_msg->data = data`. -/
  | setData (msg : ℕ)
  /-- `new_msg->next = NULL`. -/
  | setNext (msg : ℕ)
  /-- `pthread_mutex_lock(&qlock)`. -/
  | lock (msg : ℕ)
  /-- `workq == NULL`. -/
  | test (msg : ℕ)
  /-- `workq = new_msg`. -/
  | setHead (msg : ℕ)
  /-- `last = workq`. -/
  | setLast (msg : ℕ)
  /-- `last->next != NULL`. -/
  | testLast (msg last : ℕ)
  /-- `last = last->next`. -/
  | advance (msg last : ℕ)
  /-- `last->next = new_msg`. -/
  | link (msg last : ℕ)
  /-- `pthread_cond_signal(&qready)`. -/
  | signal
  /-- `pthread_mutex_unlock(&qlock)`. -/
  | unlock
  /-- Returned. -/
  | done

/-- The statement of `stop` the thread runs next. -/
inductive Stop
  /-- Not created yet. -/
  | new
  /-- `pthread_mutex_lock(&qlock)`. -/
  | lock
  /-- `running = 0`. -/
  | clear
  /-- `pthread_mutex_unlock(&qlock)`. -/
  | unlock
  /-- `pthread_cond_signal(&qready)`. -/
  | signal
  /-- Returned. -/
  | done

/-- The statement `main` runs next. -/
inductive Main
  | createConsumer
  /-- Thread `k` of `enqueue_msg` is created next, if there is one. -/
  | create (k : ℕ)
  /-- Thread `k` of `enqueue_msg` is joined next, if there is one. -/
  | join (k : ℕ)
  | createStop
  | joinStop
  | joinConsumer
  /-- Returned. -/
  | done

/-- A thread that can hold `qlock`. -/
inductive Holder (n : ℕ)
  | consumer
  | enqueuer (k : Fin n)
  | stop
  deriving DecidableEq

/-- The shared state, the threads, and the history. -/
structure State (n : ℕ) where
  workq : Option ℕ
  heap : ℕ → Option (Msg n)
  /-- The thread that has `qlock`. -/
  qlock : Option (Holder n)
  running : Bool
  consumer : Consumer
  enqueuer : Fin n → Enqueuer
  stop : Stop
  main : Main
  order : List (Fin n)
  taken : List (Fin n)
  printed : List ℤ

variable {n : ℕ}

/-- The state `main` starts in. -/
def init : State n where
  workq := none
  heap := fun _ => none
  qlock := none
  running := true
  consumer := .new
  enqueuer := fun _ => .new
  stop := .new
  main := .createConsumer
  order := []
  taken := []
  printed := []

/-- `pthread_cond_signal(&qready)` : the consumer is the only thread that waits. -/
def Consumer.signal : Consumer → Consumer
  | waiting => woken
  | p => p

/-- The consumer. -/
def processMsg (s : State n) : Option (State n) :=
  match s.consumer with
  | .new => none
  | .lock =>
    if s.qlock = none then some { s with consumer := .test, qlock := some .consumer } else none
  | .test =>
    some { s with consumer := if s.running ∧ s.workq = none then .wait else .testExit }
  | .wait => some { s with consumer := .waiting, qlock := none }
  | .waiting => none
  | .woken =>
    if s.qlock = none then some { s with consumer := .test, qlock := some .consumer } else none
  | .testExit =>
    some { s with consumer := if s.running = false ∧ s.workq = none then .exit else .take }
  | .exit => some { s with consumer := .done, qlock := none }
  | .take => s.workq.map fun mp => { s with consumer := .advance mp }
  | .advance mp =>
    (s.heap mp).map fun c =>
      { s with consumer := .unlock mp, workq := c.next, taken := s.taken ++ [c.owner] }
  | .unlock mp => some { s with consumer := .print mp, qlock := none }
  | .print mp =>
    (s.heap mp).map fun c => { s with consumer := .sleep mp, printed := s.printed ++ [c.data] }
  | .sleep mp => some { s with consumer := .printDone mp }
  | .printDone mp => (s.heap mp).map fun _ => { s with consumer := .free mp }
  | .free mp =>
    (s.heap mp).map fun _ =>
      { s with consumer := .lock, heap := Function.update s.heap mp none }
  | .done => none

/-- Thread `k` of `enqueue_msg` goes on at `p`. -/
def State.put (s : State n) (k : Fin n) (p : Enqueuer) : State n :=
  { s with enqueuer := Function.update s.enqueuer k p }

/-- The cell at `a` becomes `c`. -/
def State.write (s : State n) (a : ℕ) (c : Msg n) : State n :=
  { s with heap := Function.update s.heap a (some c) }

/-- Thread `k` of `enqueue_msg`, with the argument `arg`. If the step is the `malloc`, it
gives the address `a`, with `next` and `data` in the cell. -/
def enqueueMsg (arg : ℤ) (s : State n) (k : Fin n) (a : ℕ) (next : Option ℕ) (data : ℤ) :
    Option (State n) :=
  match s.enqueuer k with
  | .new => none
  | .print => some (s.put k .malloc)
  | .malloc =>
    if s.heap a = none then some ((s.put k (.setData a)).write a ⟨next, data, k⟩) else none
  | .setData msg =>
    (s.heap msg).map fun c => (s.put k (.setNext msg)).write msg { c with data := toInt arg }
  | .setNext msg =>
    (s.heap msg).map fun c => (s.put k (.lock msg)).write msg { c with next := none }
  | .lock msg =>
    if s.qlock = none then
      some { s.put k (.test msg) with qlock := some (.enqueuer k), order := s.order ++ [k] }
    else none
  | .test msg => some (s.put k (if s.workq = none then .setHead msg else .setLast msg))
  | .setHead msg => some { s.put k .signal with workq := some msg }
  | .setLast msg => s.workq.map fun last => s.put k (.testLast msg last)
  | .testLast msg last =>
    (s.heap last).map fun c => s.put k (if c.next = none then .link msg last else .advance msg last)
  | .advance msg last =>
    (s.heap last).bind fun c => c.next.map fun last => s.put k (.testLast msg last)
  | .link msg last =>
    (s.heap last).map fun c => (s.put k .signal).write last { c with next := some msg }
  | .signal => some { s.put k .unlock with consumer := s.consumer.signal }
  | .unlock => some { s.put k .done with qlock := none }
  | .done => none

/-- The thread `stop`. -/
def stop (s : State n) : Option (State n) :=
  match s.stop with
  | .new => none
  | .lock =>
    if s.qlock = none then some { s with stop := .clear, qlock := some .stop } else none
  | .clear => some { s with stop := .unlock, running := false }
  | .unlock => some { s with stop := .signal, qlock := none }
  | .signal => some { s with stop := .done, consumer := s.consumer.signal }
  | .done => none

/-- The main thread. -/
def main (s : State n) : Option (State n) :=
  match s.main with
  | .createConsumer => some { s with main := .create 0, consumer := .lock }
  | .create k =>
    if h : k < n then some { s.put ⟨k, h⟩ .print with main := .create (k + 1) }
    else some { s with main := .join 0 }
  | .join k =>
    if h : k < n then
      match s.enqueuer ⟨k, h⟩ with
      | .done => some { s with main := .join (k + 1) }
      | _ => none
    else some { s with main := .createStop }
  | .createStop => some { s with main := .joinStop, stop := .lock }
  | .joinStop =>
    match s.stop with
    | .done => some { s with main := .joinConsumer }
    | _ => none
  | .joinConsumer =>
    match s.consumer with
    | .done => some { s with main := .done }
    | _ => none
  | .done => none

/-- One step of one thread, or a spurious wake-up of the consumer. `a`, `next` and `data`
are what `malloc` gives if the step is one. -/
inductive Action (n : ℕ)
  | consumer
  | wake
  | enqueuer (k : Fin n) (a : ℕ) (next : Option ℕ) (data : ℤ)
  | stop
  | main

/-- One step of the process, which ends when `main` returns. -/
def step (arg : Fin n → ℤ) (s : State n) (a : Action n) : Option (State n) :=
  match s.main, a with
  | .done, _ => none
  | _, .consumer => processMsg s
  | _, .wake =>
    match s.consumer with
    | .waiting => some { s with consumer := .woken }
    | _ => none
  | _, .enqueuer k a next data => enqueueMsg (arg k) s k a next data
  | _, .stop => stop s
  | _, .main => main s

/-- The program with `n` threads `enqueue_msg` and their arguments. -/
def messageQueue (arg : Fin n → ℤ) : System (State n) (Action n) where
  Init s := s = init
  step := step arg

/-! ## What a step can do -/

variable {arg : Fin n → ℤ} {s t : State n}

theorem step_cases {a : Action n} (h : step arg s a = some t) :
    s.main ≠ .done ∧
      ((a = .consumer ∧ processMsg s = some t) ∨
        (a = .wake ∧ s.consumer = .waiting ∧ t = { s with consumer := .woken }) ∨
        (∃ k p next data, a = .enqueuer k p next data ∧
          enqueueMsg (arg k) s k p next data = some t) ∨
        (a = .stop ∧ stop s = some t) ∨
        a = .main ∧ main s = some t) := by
  have hrun : s.main ≠ .done := by
    intro hm
    simp [step, hm] at h
  refine ⟨hrun, ?_⟩
  cases a with
  | consumer => cases hm : s.main <;> simp_all [step]
  | wake => cases hm : s.main <;> cases hc : s.consumer <;> simp_all [step]
  | enqueuer k p next data => cases hm : s.main <;> simp_all [step]
  | stop => cases hm : s.main <;> simp_all [step]
  | main => cases hm : s.main <;> simp_all [step]

/-- What a step of the consumer does. -/
theorem processMsg_cases (h : processMsg s = some t) :
    ((s.consumer = .lock ∨ s.consumer = .woken) ∧ s.qlock = none ∧
        t = { s with consumer := .test, qlock := some .consumer }) ∨
      (s.consumer = .test ∧ s.running = true ∧ s.workq = none ∧
        t = { s with consumer := .wait }) ∨
      (s.consumer = .test ∧ ¬(s.running = true ∧ s.workq = none) ∧
        t = { s with consumer := .testExit }) ∨
      (s.consumer = .wait ∧ t = { s with consumer := .waiting, qlock := none }) ∨
      (s.consumer = .testExit ∧ s.running = false ∧ s.workq = none ∧
        t = { s with consumer := .exit }) ∨
      (s.consumer = .testExit ∧ ¬(s.running = false ∧ s.workq = none) ∧
        t = { s with consumer := .take }) ∨
      (s.consumer = .exit ∧ t = { s with consumer := .done, qlock := none }) ∨
      (∃ mp, s.consumer = .take ∧ s.workq = some mp ∧ t = { s with consumer := .advance mp }) ∨
      (∃ mp c, s.consumer = .advance mp ∧ s.heap mp = some c ∧ t = { s with
        consumer := .unlock mp
        workq := c.next
        taken := s.taken ++ [c.owner] }) ∨
      (∃ mp, s.consumer = .unlock mp ∧ t = { s with consumer := .print mp, qlock := none }) ∨
      (∃ mp c, s.consumer = .print mp ∧ s.heap mp = some c ∧ t = { s with
        consumer := .sleep mp
        printed := s.printed ++ [c.data] }) ∨
      (∃ mp, s.consumer = .sleep mp ∧ t = { s with consumer := .printDone mp }) ∨
      (∃ mp, s.consumer = .printDone mp ∧ t = { s with consumer := .free mp }) ∨
      (∃ mp, s.consumer = .free mp ∧ t = { s with
        consumer := .lock
        heap := Function.update s.heap mp none }) := by
  unfold processMsg at h
  cases hc : s.consumer <;> simp only [hc] at h
  case test => by_cases hw : s.running = true ∧ s.workq = none <;> simp_all
  case testExit => by_cases hw : s.running = false ∧ s.workq = none <;> simp_all
  all_goals simp_all
  all_goals grind

/-- What a step of thread `k` of `enqueue_msg` does. -/
theorem enqueueMsg_cases {d : ℤ} {k : Fin n} {a : ℕ} {next : Option ℕ} {data : ℤ}
    (h : enqueueMsg d s k a next data = some t) :
    (s.enqueuer k = .print ∧ t = s.put k .malloc) ∨
      (s.enqueuer k = .malloc ∧ s.heap a = none ∧
        t = (s.put k (.setData a)).write a ⟨next, data, k⟩) ∨
      (∃ msg c, s.enqueuer k = .setData msg ∧ s.heap msg = some c ∧
        t = (s.put k (.setNext msg)).write msg { c with data := toInt d }) ∨
      (∃ msg c, s.enqueuer k = .setNext msg ∧ s.heap msg = some c ∧
        t = (s.put k (.lock msg)).write msg { c with next := none }) ∨
      (∃ msg, s.enqueuer k = .lock msg ∧ s.qlock = none ∧ t = { s.put k (.test msg) with
        qlock := some (.enqueuer k)
        order := s.order ++ [k] }) ∨
      (∃ msg, s.enqueuer k = .test msg ∧ s.workq = none ∧ t = s.put k (.setHead msg)) ∨
      (∃ msg, s.enqueuer k = .test msg ∧ s.workq ≠ none ∧ t = s.put k (.setLast msg)) ∨
      (∃ msg, s.enqueuer k = .setHead msg ∧ t = { s.put k .signal with workq := some msg }) ∨
      (∃ msg last, s.enqueuer k = .setLast msg ∧ s.workq = some last ∧
        t = s.put k (.testLast msg last)) ∨
      (∃ msg last c, s.enqueuer k = .testLast msg last ∧ s.heap last = some c ∧ c.next = none ∧
        t = s.put k (.link msg last)) ∨
      (∃ msg last c, s.enqueuer k = .testLast msg last ∧ s.heap last = some c ∧ c.next ≠ none ∧
        t = s.put k (.advance msg last)) ∨
      (∃ msg last c next, s.enqueuer k = .advance msg last ∧ s.heap last = some c ∧
        c.next = some next ∧ t = s.put k (.testLast msg next)) ∨
      (∃ msg last c, s.enqueuer k = .link msg last ∧ s.heap last = some c ∧
        t = (s.put k .signal).write last { c with next := some msg }) ∨
      (s.enqueuer k = .signal ∧ t = { s.put k .unlock with consumer := s.consumer.signal }) ∨
      (s.enqueuer k = .unlock ∧ t = { s.put k .done with qlock := none }) := by
  unfold enqueueMsg at h
  cases hk : s.enqueuer k <;> simp only [hk] at h
  case test => by_cases hw : s.workq = none <;> simp_all
  case testLast =>
    obtain ⟨c, hc, h⟩ := Option.map_eq_some_iff.1 h
    by_cases hn : c.next = none <;> simp_all
  case advance =>
    obtain ⟨c, hc, h⟩ := Option.bind_eq_some_iff.1 h
    obtain ⟨last, hl, h⟩ := Option.map_eq_some_iff.1 h
    simp_all
  all_goals simp_all
  all_goals grind

theorem stop_cases (h : stop s = some t) :
    (s.stop = .lock ∧ s.qlock = none ∧ t = { s with stop := .clear, qlock := some .stop }) ∨
      (s.stop = .clear ∧ t = { s with stop := .unlock, running := false }) ∨
      (s.stop = .unlock ∧ t = { s with stop := .signal, qlock := none }) ∨
      (s.stop = .signal ∧ t = { s with stop := .done, consumer := s.consumer.signal }) := by
  unfold stop at h
  cases hs : s.stop <;> simp only [hs] at h
  all_goals simp_all

/-- What a step of `main` does. -/
theorem main_cases (h : main s = some t) :
    (s.main = .createConsumer ∧ t = { s with main := .create 0, consumer := .lock }) ∨
      (∃ k : Fin n, s.main = .create k ∧ t = { s.put k .print with main := .create (k + 1) }) ∨
      (∃ k, s.main = .create k ∧ n ≤ k ∧ t = { s with main := .join 0 }) ∨
      (∃ k : Fin n, s.main = .join k ∧ s.enqueuer k = .done ∧
        t = { s with main := .join (k + 1) }) ∨
      (∃ k, s.main = .join k ∧ n ≤ k ∧ t = { s with main := .createStop }) ∨
      (s.main = .createStop ∧ t = { s with main := .joinStop, stop := .lock }) ∨
      (s.main = .joinStop ∧ s.stop = .done ∧ t = { s with main := .joinConsumer }) ∨
      (s.main = .joinConsumer ∧ s.consumer = .done ∧ t = { s with main := .done }) := by
  unfold main at h
  cases hm : s.main <;> simp only [hm] at h
  case create k =>
    split at h
    case isTrue hk => exact .inr (.inl ⟨⟨k, hk⟩, rfl, (Option.some.inj h).symm⟩)
    case isFalse hk => simp_all
  case join k =>
    split at h
    case isTrue hk =>
      split at h
      case h_1 hdone =>
        exact .inr (.inr (.inr (.inl ⟨⟨k, hk⟩, rfl, hdone, (Option.some.inj h).symm⟩)))
      case h_2 => cases h
    case isFalse hk => simp_all
  case joinStop => split at h <;> simp_all
  case joinConsumer => split at h <;> simp_all
  all_goals simp_all

end MessageQueue

end NetCentric
