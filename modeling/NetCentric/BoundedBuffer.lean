import NetCentric.Transition
import NetCentric.Threads

/-!
# The bounded buffer of Homework 2, level 3

`level3.c` runs one producer thread (`addToQueue`), any number of consumer threads
(`computeSquares`) and `main`. Two semaphores count the items and the free slots of a
circular buffer of eight, and a mutex guards `head`, `totalSum` and `processed`. The
producer writes `buffer` and `tail` without the mutex.

The threads are program counters over one shared state and every statement is one step,
so a run of `level3` is a sequentially consistent interleaving. `sem_wait` and
`pthread_mutex_lock` are disabled while they block. `totalSum += val * val` and
`processed++` are a load and a store each. A `pthread_create` can fail; `main` compares
its result with `< 0`, which a positive error number never is, and goes on. Then the id of
the thread is not set, and `main` has no step where it joins or detaches it, which is
undefined.

The state carries two history variables that no statement reads : `taken` is the values
read from the buffer so far, and `full` marks the slots written since they were last
read.
-/

namespace NetCentric

namespace BoundedBuffer

/-- `#define BUFFER_SIZE 8`. -/
def BUFFER_SIZE : ℕ := 8

/-- The statement of `addToQueue` the producer runs next. -/
inductive Producer
  /-- Not created yet. -/
  | new
  /-- `usleep`, then `i = 1`. -/
  | start
  /-- `i <= n`. -/
  | test
  /-- `sem_wait(&remainingSpace)`. -/
  | wait
  /-- `buffer[tail] = i`. -/
  | write
  /-- `tail = (tail + 1) % BUFFER_SIZE`. -/
  | advance
  /-- `sem_post(&availableItems)`. -/
  | post
  /-- `i++`. -/
  | incr
  /-- Returned. -/
  | done
  deriving DecidableEq

/-- The statement of `computeSquares` a consumer runs next, with its locals. -/
inductive Consumer
  /-- Not created yet. -/
  | new
  /-- `sem_wait(&availableItems)`. -/
  | wait
  /-- `pthread_mutex_lock(&totalSum_mutex)`. -/
  | lock
  /-- `val = buffer[head]`. -/
  | read
  /-- `head = (head + 1) % BUFFER_SIZE`. -/
  | advance (val : ℤ)
  /-- The load of `totalSum += val * val`. -/
  | load (val : ℤ)
  /-- The store of `totalSum += val * val`, `sum` being what the load saw. -/
  | store (val sum : ℤ)
  /-- `printf`. -/
  | print
  /-- The load of `processed++`. -/
  | loadProcessed
  /-- The store of `processed++`, `count` being what the load saw. -/
  | storeProcessed (count : ℤ)
  /-- `pthread_mutex_unlock(&totalSum_mutex)`. -/
  | unlock
  /-- `sem_post(&remainingSpace)`. -/
  | post
  deriving DecidableEq

/-- The statement `main` runs next, from the first `pthread_create` on. -/
inductive Main
  | createProducer
  /-- Consumer `k` is created next. -/
  | createConsumer (k : ℕ)
  /-- `pthread_join(producerThread, NULL)`. -/
  | join
  /-- `while (processed < n);`. -/
  | wait
  /-- Consumer `k` is detached next. -/
  | detach (k : ℕ)
  /-- The `printf` of the final sum. -/
  | report
  /-- Returned after printing `sum`, which ends the process. -/
  | done (sum : ℤ)
  deriving DecidableEq

/-- The shared state, the threads, and the history of the buffer. -/
structure State (m : ℕ) where
  buffer : ℕ → ℤ
  head : ℕ
  tail : ℕ
  availableItems : ℕ
  remainingSpace : ℕ
  /-- `totalSum_mutex` is locked. -/
  mutex : Bool
  totalSum : ℤ
  processed : ℤ
  producer : Producer
  /-- The producer's loop counter. -/
  i : ℕ
  consumer : Fin m → Consumer
  main : Main
  /-- The values read from the buffer, in order. -/
  taken : List ℤ
  /-- The slots written since they were last read. -/
  full : ℕ → Bool

/-- One step of one thread. `main ok` says whether the creation it may be at succeeds. -/
inductive Action (m : ℕ)
  | producer
  | consumer (c : Fin m)
  | main (ok : Bool)

variable {m : ℕ}

/-- The state `main` starts in, after both `sem_init`. -/
def init : State m where
  buffer := fun _ => 0
  head := 0
  tail := 0
  availableItems := 0
  remainingSpace := BUFFER_SIZE
  mutex := false
  totalSum := 0
  processed := 0
  producer := .new
  i := 0
  consumer := fun _ => .new
  main := .createProducer
  taken := []
  full := fun _ => false

/-- Consumer `c` goes on at `p`. -/
def State.put (s : State m) (c : Fin m) (p : Consumer) : State m :=
  { s with consumer := Function.update s.consumer c p }

/-- The producer thread. -/
def addToQueue (n : ℕ) (s : State m) : Option (State m) :=
  match s.producer with
  | .new => none
  | .start => some { s with producer := .test, i := 1 }
  | .test =>
    if s.i ≤ n then some { s with producer := .wait } else some { s with producer := .done }
  | .wait =>
    if 0 < s.remainingSpace then
      some { s with producer := .write, remainingSpace := s.remainingSpace - 1 }
    else none
  | .write =>
    some { s with
      producer := .advance
      buffer := Function.update s.buffer s.tail s.i
      full := Function.update s.full s.tail true }
  | .advance => some { s with producer := .post, tail := (s.tail + 1) % BUFFER_SIZE }
  | .post => some { s with producer := .incr, availableItems := s.availableItems + 1 }
  | .incr => some { s with producer := .test, i := s.i + 1 }
  | .done => none

/-- Consumer thread `c`. -/
def computeSquares (s : State m) (c : Fin m) : Option (State m) :=
  match s.consumer c with
  | .new => none
  | .wait =>
    if 0 < s.availableItems then
      some { s.put c .lock with availableItems := s.availableItems - 1 }
    else none
  | .lock => if s.mutex then none else some { s.put c .read with mutex := true }
  | .read =>
    some { s.put c (.advance (s.buffer s.head)) with
      full := Function.update s.full s.head false
      taken := s.taken ++ [s.buffer s.head] }
  | .advance val => some { s.put c (.load val) with head := (s.head + 1) % BUFFER_SIZE }
  | .load val => some (s.put c (.store val s.totalSum))
  | .store val sum => some { s.put c .print with totalSum := sum + val * val }
  | .print => some (s.put c .loadProcessed)
  | .loadProcessed => some (s.put c (.storeProcessed s.processed))
  | .storeProcessed count => some { s.put c .unlock with processed := count + 1 }
  | .unlock => some { s.put c .post with mutex := false }
  | .post => some { s.put c .wait with remainingSpace := s.remainingSpace + 1 }

/-- The main thread, from the creation of the producer on. A failed creation starts no
thread. -/
def main (n : ℕ) (ok : Bool) (s : State m) : Option (State m) :=
  match s.main with
  | .createProducer =>
    some { s with main := .createConsumer 0, producer := if ok then .start else .new }
  | .createConsumer k =>
    if h : k < m then
      some { s.put ⟨k, h⟩ (if ok then .wait else .new) with main := .createConsumer (k + 1) }
    else some { s with main := .join }
  -- at `.new` the id is not set, and joining it is undefined
  | .join => if s.producer = .done then some { s with main := .wait } else none
  | .wait => if s.processed < n then some s else some { s with main := .detach 0 }
  | .detach k =>
    if h : k < m then
      -- as in `join`
      if s.consumer ⟨k, h⟩ = .new then none else some { s with main := .detach (k + 1) }
    else some { s with main := .report }
  | .report => some { s with main := .done s.totalSum }
  | .done _ => none

/-- One step of the process, which ends when `main` returns. -/
def step (n : ℕ) (s : State m) (a : Action m) : Option (State m) :=
  match s.main, a with
  | .done _, _ => none
  | _, .producer => addToQueue n s
  | _, .consumer c => computeSquares s c
  | _, .main ok => main n ok s

/-- `level3` with the arguments `n` and `m`. -/
def level3 (n m : ℕ) : System (State m) (Action m) where
  Init s := s = init
  step := step n

@[simp] theorem put_consumer (s : State m) (c : Fin m) (p : Consumer) :
    (s.put c p).consumer = Function.update s.consumer c p :=
  rfl

theorem step_cases {n : ℕ} {s t : State m} {a : Action m} (h : step n s a = some t) :
    (a = .producer ∧ addToQueue n s = some t) ∨
      (∃ c, a = .consumer c ∧ computeSquares s c = some t) ∨
      ∃ ok, a = .main ok ∧ main n ok s = some t := by
  cases a with
  | producer =>
    left
    refine ⟨rfl, ?_⟩
    cases hm : s.main <;> simp_all [step]
  | consumer c =>
    right; left
    refine ⟨c, rfl, ?_⟩
    cases hm : s.main <;> simp_all [step]
  | main ok =>
    right; right
    refine ⟨ok, rfl, ?_⟩
    cases hm : s.main <;> simp_all [step]

/-- What a step of the producer does. -/
theorem addToQueue_cases {n : ℕ} {s t : State m} (h : addToQueue n s = some t) :
    (s.producer = .start ∧ t = { s with producer := .test, i := 1 }) ∨
      (s.producer = .test ∧ s.i ≤ n ∧ t = { s with producer := .wait }) ∨
      (s.producer = .test ∧ n < s.i ∧ t = { s with producer := .done }) ∨
      (s.producer = .wait ∧ 0 < s.remainingSpace ∧
        t = { s with producer := .write, remainingSpace := s.remainingSpace - 1 }) ∨
      (s.producer = .write ∧ t = { s with
        producer := .advance
        buffer := Function.update s.buffer s.tail s.i
        full := Function.update s.full s.tail true }) ∨
      (s.producer = .advance ∧
        t = { s with producer := .post, tail := (s.tail + 1) % BUFFER_SIZE }) ∨
      (s.producer = .post ∧
        t = { s with producer := .incr, availableItems := s.availableItems + 1 }) ∨
      (s.producer = .incr ∧ t = { s with producer := .test, i := s.i + 1 }) := by
  unfold addToQueue at h
  cases hp : s.producer <;> simp only [hp] at h
  case test => split at h <;> simp_all
  case wait => split at h <;> simp_all
  all_goals simp_all

/-- What a step of consumer `c` does. -/
theorem computeSquares_cases {s t : State m} {c : Fin m} (h : computeSquares s c = some t) :
    (s.consumer c = .wait ∧ 0 < s.availableItems ∧
        t = { s.put c .lock with availableItems := s.availableItems - 1 }) ∨
      (s.consumer c = .lock ∧ s.mutex = false ∧ t = { s.put c .read with mutex := true }) ∨
      (s.consumer c = .read ∧ t = { s.put c (.advance (s.buffer s.head)) with
        full := Function.update s.full s.head false
        taken := s.taken ++ [s.buffer s.head] }) ∨
      (∃ val, s.consumer c = .advance val ∧
        t = { s.put c (.load val) with head := (s.head + 1) % BUFFER_SIZE }) ∨
      (∃ val, s.consumer c = .load val ∧ t = s.put c (.store val s.totalSum)) ∨
      (∃ val sum, s.consumer c = .store val sum ∧
        t = { s.put c .print with totalSum := sum + val * val }) ∨
      (s.consumer c = .print ∧ t = s.put c .loadProcessed) ∨
      (s.consumer c = .loadProcessed ∧ t = s.put c (.storeProcessed s.processed)) ∨
      (∃ count, s.consumer c = .storeProcessed count ∧
        t = { s.put c .unlock with processed := count + 1 }) ∨
      (s.consumer c = .unlock ∧ t = { s.put c .post with mutex := false }) ∨
      (s.consumer c = .post ∧
        t = { s.put c .wait with remainingSpace := s.remainingSpace + 1 }) := by
  unfold computeSquares at h
  cases hc : s.consumer c <;> simp only [hc] at h
  case wait => split at h <;> simp_all
  case lock => split at h <;> simp_all
  all_goals simp_all

/-- What a step of `main` does. -/
theorem main_cases {n : ℕ} {ok : Bool} {s t : State m} (h : main n ok s = some t) :
    (s.main = .createProducer ∧
        t = { s with main := .createConsumer 0, producer := if ok then .start else .new }) ∨
      (∃ k, ∃ hk : k < m, s.main = .createConsumer k ∧ t = { s.put ⟨k, hk⟩
        (if ok then .wait else .new) with main := .createConsumer (k + 1) }) ∨
      (∃ k, s.main = .createConsumer k ∧ m ≤ k ∧ t = { s with main := .join }) ∨
      (s.main = .join ∧ s.producer = .done ∧ t = { s with main := .wait }) ∨
      (s.main = .wait ∧ s.processed < n ∧ t = s) ∨
      (s.main = .wait ∧ n ≤ s.processed ∧ t = { s with main := .detach 0 }) ∨
      (∃ k : Fin m, s.main = .detach k ∧ s.consumer k ≠ .new ∧
        t = { s with main := .detach (k + 1) }) ∨
      (∃ k, s.main = .detach k ∧ m ≤ k ∧ t = { s with main := .report }) ∨
      (s.main = .report ∧ t = { s with main := .done s.totalSum }) := by
  unfold main at h
  cases hm : s.main <;> simp only [hm] at h
  case createConsumer k => split at h <;> simp_all
  case join => split at h <;> simp_all
  case wait => split at h <;> simp_all
  case detach k =>
    split at h
    case isTrue hk =>
      split at h
      case isTrue => cases h
      case isFalse hnew =>
        obtain rfl := Option.some.inj h
        exact .inr (.inr (.inr (.inr (.inr (.inr (.inl ⟨⟨k, hk⟩, rfl, hnew, rfl⟩))))))
    case isFalse hk => simp_all
  all_goals simp_all

end BoundedBuffer

end NetCentric
