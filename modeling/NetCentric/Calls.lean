import NetCentric.Program
import NetCentric.Request

/-!
# The calls of the proxies

A connection is handled by one function body : the loop body of the sequential proxy,
the child of the forking proxy, or `thread_handle`. It is a `Prog` over the calls it
makes to the system (`Call`), and its descriptors are the variables that hold them
(`Fd`). The answers of the system to one connection are a `Script`. The lists of answers
can run out, which leaves the handler blocked in the call that waits for the next
(`Ending.blocked`).

What C leaves undefined (an array overrun, a null pointer used, an object of negative
size) ends the run as `Ending.undefined`.
-/

namespace NetCentric

/-- The descriptor variables of a handler. -/
inductive Fd
  | proxy
  | client
  | server
  | log
  deriving DecidableEq

/-- The answer to a `read` : an error, or the bytes read, none at the end of the stream. -/
inductive ReadResult
  | error
  | data (bytes : List Byte)
  deriving DecidableEq

/-- The value `read` returns. -/
def ReadResult.count : ReadResult → ℤ
  | .error => -1
  | .data bytes => bytes.length

/-- The bytes a `read` stores. -/
def ReadResult.stored : ReadResult → List Byte
  | .error => []
  | .data bytes => bytes

/-- A `read` returns a positive count when it stores something. -/
theorem ReadResult.count_pos_iff {r : ReadResult} : 0 < r.count ↔ r.stored ≠ [] := by
  cases r with
  | error => simp [count, stored]
  | data bytes => simp [count, stored, List.length_pos_iff]

theorem ReadResult.eq_data_of_stored_ne {r : ReadResult} (h : r.stored ≠ []) :
    r = .data r.stored := by
  cases r with
  | error => exact absurd rfl h
  | data bytes => rfl

/-- A text without NUL bytes is the C string that a `read` of it leaves. -/
theorem ReadResult.cstr_stored {r : ReadResult} {s : List Byte} (h : r = .data s)
    (hnul : 0 ∉ s) : cstr r.stored = s := by
  rw [h]
  exact cstr_of_no_nul hnul

/-- The `revents` of one descriptor. -/
abbrev Revents := BitVec 16

/-- What one iteration of the poll loop meets : the result of `poll`, and of the `read`s
that follow on `fds[0]` and `fds[1]`. -/
inductive PollAnswer
  | error
  | timeout
  | ready (revents : Fin 2 → Revents) (reads : Fin 2 → ReadResult)

/-- A call to the system, with its arguments and its answer. -/
inductive Call
  | read (fd : Fd) (count : ℤ) (result : ReadResult)
  | write (fd : Fd) (data : List Byte) (count : ℤ)
  | close (fd : Fd)
  | getaddrinfo (host service : List Byte) (ok : Bool)
  | freeaddrinfo
  | socket (ok : Bool)
  | connect (ok : Bool)
  | poll (answer : PollAnswer)
  /-- `fopen(…, "a+")`. -/
  | fopen (ok : Bool)
  | mutexLock
  | mutexUnlock
  | fprintf (text : List Byte)
  | fclose
  /-- `open("proxy.log", O_WRONLY)`. -/
  | openLog (ok : Bool)
  /-- `fcntl(log_fd, F_SETLKW, &lock)` with `F_WRLCK`. -/
  | lockFile
  /-- `fcntl(log_fd, F_SETLKW, &lock)` with `F_UNLCK`. -/
  | unlockFile
  /-- `lseek(log_fd, 0, SEEK_END)`. -/
  | seekEnd

/-- How a handler leaves its body before the end. -/
inductive Ending
  /-- `exit(status)`. -/
  | exit (status : ℕ)
  /-- `return NULL`. -/
  | returned
  /-- Waiting for an answer that has not come. -/
  | blocked
  /-- Undefined behaviour. -/
  | undefined
  deriving DecidableEq

/-- A function body over the calls it makes. -/
abbrev Handler := Prog Call Ending

/-- The three handlers. -/
inductive Mode
  /-- The loop body of the sequential proxy. -/
  | sequential
  /-- The child of the forking proxy. -/
  | process
  /-- `thread_handle`. -/
  | thread
  deriving DecidableEq

/-- Close descriptors and fail. A thread leaves the listening socket open and returns
where a process exits. -/
def Mode.giveUp {α : Type} : Mode → List Fd → Handler α
  | .thread, fds => do
    Prog.callAll ((fds.filter (· ≠ .proxy)).map .close)
    Prog.stop .returned
  | _, fds => do
    Prog.callAll (fds.map .close)
    Prog.stop (.exit 1)

/-- What a handler finds in memory that it did not put there. -/
structure Memory where
  /-- What the uninitialised variables for the parts of the request hold. -/
  stale : Locals
  /-- The bytes that follow the array `response`. -/
  beyond : List Byte
  /-- The size of the largest array that the stack has room for. -/
  room : ℤ

/-- Memory that holds zeros, and a stack of eight megabytes. -/
def Memory.clear : Memory :=
  ⟨⟨[], [], [], [], [], 0⟩, [], 8388608⟩

/-- The answers of the system to the calls of one connection. -/
structure Script where
  memory : Memory
  /-- `read(client_fd, buffer, …)`. -/
  request : ReadResult
  /-- `getaddrinfo` finds the host. -/
  lookup : Bool
  /-- `socket` returns a descriptor. -/
  socket : Bool
  connect : Bool
  /-- The `write` of the request is accepted. -/
  send : Bool
  /-- The `read`s on the server. -/
  responses : List ReadResult
  /-- The iterations of the poll loop. -/
  polls : List PollAnswer
  /-- The log file opens. -/
  log : Bool
  /-- What `strftime` writes. -/
  time : List Byte
  /-- The address of the client, in host order. -/
  address : BitVec 32

/-- A connection whose client closes before it sends a request. -/
def silentClient : Script where
  memory := .clear
  request := .data []
  lookup := true
  socket := true
  connect := true
  send := true
  responses := []
  polls := []
  log := true
  time := []
  address := 0

/-- The bytes a run writes to `fd`. -/
def written (fd : Fd) (calls : List Call) : List Byte :=
  calls.flatMap fun
    | .write f data _ => if f = fd then data else []
    | _ => []

/-- The `read`s of a run on `fd` : the counts asked for and the answers. -/
def readsOf (fd : Fd) (calls : List Call) : List (ℤ × ReadResult) :=
  calls.filterMap fun
    | .read f count result => if f = fd then some (count, result) else none
    | _ => none

/-- The bytes a run reads from `fd`. -/
def received (fd : Fd) (calls : List Call) : List Byte :=
  (readsOf fd calls).flatMap fun r => r.2.stored

@[simp] theorem written_nil (fd : Fd) : written fd [] = [] :=
  rfl

@[simp] theorem written_append (fd : Fd) (cs ds : List Call) :
    written fd (cs ++ ds) = written fd cs ++ written fd ds :=
  List.flatMap_append

theorem written_cons_read (fd f : Fd) (count : ℤ) (r : ReadResult) (cs : List Call) :
    written fd (.read f count r :: cs) = written fd cs :=
  rfl

theorem written_cons_write (fd f : Fd) (data : List Byte) (count : ℤ) (cs : List Call) :
    written fd (.write f data count :: cs) = (if f = fd then data else []) ++ written fd cs :=
  rfl

@[simp] theorem readsOf_nil (fd : Fd) : readsOf fd [] = [] :=
  rfl

@[simp] theorem readsOf_append (fd : Fd) (cs ds : List Call) :
    readsOf fd (cs ++ ds) = readsOf fd cs ++ readsOf fd ds :=
  List.filterMap_append

theorem readsOf_cons_read (fd : Fd) (count : ℤ) (r : ReadResult) (cs : List Call) :
    readsOf fd (.read fd count r :: cs) = (count, r) :: readsOf fd cs := by
  simp [readsOf]

theorem readsOf_cons_write (fd f : Fd) (data : List Byte) (count : ℤ) (cs : List Call) :
    readsOf fd (.write f data count :: cs) = readsOf fd cs :=
  rfl

@[simp] theorem received_nil (fd : Fd) : received fd [] = [] :=
  rfl

theorem received_cons_read (fd f : Fd) (count : ℤ) (r : ReadResult) (cs : List Call) :
    received fd (.read f count r :: cs) = (if f = fd then r.stored else []) ++ received fd cs := by
  by_cases h : f = fd <;> simp [received, readsOf, h]

theorem received_cons_write (fd f : Fd) (data : List Byte) (count : ℤ) (cs : List Call) :
    received fd (.write f data count :: cs) = received fd cs :=
  rfl

@[simp] theorem received_append (fd : Fd) (cs ds : List Call) :
    received fd (cs ++ ds) = received fd cs ++ received fd ds := by
  simp only [received, readsOf_append, List.flatMap_append]

/-- Without a `write` to `fd`, nothing is written to it. -/
theorem written_eq_nil {fd : Fd} {cs : List Call}
    (h : ∀ data count, .write fd data count ∉ cs) : written fd cs = [] := by
  rw [written, List.flatMap_eq_nil_iff]
  intro c hc
  cases c with
  | write f data count =>
    have hne : f ≠ fd := fun heq => h data count (heq ▸ hc)
    exact if_neg hne
  | _ => rfl

/-- A sequence of parts that write nothing to `fd` writes nothing to it. -/
theorem written_bind_nil {α β : Type} {fd : Fd} {p : Handler α} {f : α → Handler β}
    (hp : written fd p.calls = []) (hf : ∀ a, written fd (f a).calls = []) :
    written fd (p >>= f).calls = [] := by
  cases hr : p.result with
  | ok a => rw [Prog.calls_bind_ok hr, written_append, hp, hf, List.append_nil]
  | error e => rw [Prog.calls_bind_error hr, hp]

theorem written_close (fd : Fd) (fds : List Fd) : written fd (fds.map .close) = [] := by
  simp [written]

/-- A handler gives up with `close`s alone. -/
theorem Mode.close_of_mem_giveUp {α : Type} (m : Mode) {fds : List Fd} {c : Call}
    (h : c ∈ (m.giveUp fds : Handler α).calls) : ∃ fd ∈ fds, c = .close fd := by
  cases m <;> simp only [giveUp, Prog.calls_callAll_bind, Prog.calls_stop, List.append_nil,
    List.mem_map, List.mem_filter] at h
  · obtain ⟨fd, hfd, rfl⟩ := h
    exact ⟨fd, hfd, rfl⟩
  · obtain ⟨fd, hfd, rfl⟩ := h
    exact ⟨fd, hfd, rfl⟩
  · obtain ⟨fd, ⟨hfd, -⟩, rfl⟩ := h
    exact ⟨fd, hfd, rfl⟩

theorem Mode.written_giveUp {α : Type} (m : Mode) (fds : List Fd) (fd : Fd) :
    written fd (m.giveUp fds : Handler α).calls = [] := by
  cases m <;> simp [giveUp, written_close]

theorem received_close (fd : Fd) (fds : List Fd) : received fd (fds.map .close) = [] := by
  simp [received, readsOf]

theorem Mode.received_giveUp {α : Type} (m : Mode) (fds : List Fd) (fd : Fd) :
    received fd (m.giveUp fds : Handler α).calls = [] := by
  cases m <;> simp [giveUp, received_close]

/-- No handler goes on after it gave up. -/
theorem Mode.result_giveUp {α : Type} (m : Mode) (fds : List Fd) (a : α) :
    (m.giveUp fds : Handler α).result ≠ .ok a := by
  cases m <;> simp [giveUp]

end NetCentric
