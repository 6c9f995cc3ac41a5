import NetCentric.FileTable
import NetCentric.Transition
import Mathlib.Data.Finset.Filter
import Mathlib.Data.Finset.Range

/-!
# The thread server of Lecture 8

For every connection `main` of `concurrent_server_thread/server.c` allocates a cell, stores in
it what `accept` returns, and creates a thread with the address of the cell. The thread loads
the descriptor from the cell, reads from it, writes the response to it, frees the cell and
closes the descriptor.

Every statement about a cell or a descriptor is one step, in any interleaving. `malloc` gives
any free address with anything in it, `accept` the lowest descriptor that is free, and a load
or a `free` of a cell that is not allocated has no next state. The result of `pthread_create`
is not tested. The process is gone when `accept` fails, or when a thread writes to a connection
whose peer is gone.

`served_once` : whatever the interleaving is and however the cells and the descriptors are
reused, each thread reads from, writes to and closes the one connection it was created for, each
once and in this order, no cell is used after it is freed, and what is allocated and what is
open is what the connections that are not at their end need. `calls` is a history of what the
threads do, which no statement reads.
-/

namespace NetCentric

namespace ThreadServer

/-- An open file. The connections are numbered as they are accepted. -/
inductive File
  | listening
  | connection (n : ℕ)
  | other (k : ℕ)
  deriving DecidableEq

/-- The statement of `main` that comes next. -/
inductive Main
  /-- `new_socket = malloc(sizeof(int))`. -/
  | malloc
  /-- `*new_socket = accept(…)`. -/
  | accept (new_socket : ℕ)
  /-- `pthread_create`, for the connection `n`. -/
  | create (new_socket n : ℕ)
  /-- The process is gone. -/
  | ended

/-- The statement of `thread_handle` that the thread of a connection runs next. -/
inductive Thread
  /-- Not created yet. -/
  | new
  /-- Its `pthread_create` has failed. -/
  | lost
  /-- `connfd = *((int *)vargp)`. -/
  | load
  /-- `read(connfd, buffer, 1024)`. -/
  | read (connfd : ℕ)
  /-- `write(connfd, response, strlen(response))`. -/
  | write (connfd : ℕ)
  /-- `free(vargp)`. -/
  | free (connfd : ℕ)
  /-- `close(connfd)`. -/
  | close (connfd : ℕ)
  | done
  deriving DecidableEq

/-- A call on a descriptor. -/
inductive Op
  | read
  | write
  | close
  deriving DecidableEq

structure State where
  main : Main
  /-- The number of the next connection. -/
  next : ℕ
  heap : ℕ → Option ℕ
  table : FileTable File
  /-- The thread of each connection. -/
  thread : ℕ → Thread
  /-- The argument of each thread. -/
  vargp : ℕ → ℕ
  /-- Which thread has made which call, and on what. -/
  calls : List (ℕ × Op × Option File)

inductive Action
  | malloc (address junk : ℕ)
  | accept (ok : Bool)
  | create (ok : Bool)
  /-- The thread of a connection takes a step. `gone` says that a `write` meets no peer. -/
  | run (n : ℕ) (gone : Bool)

def start (table : FileTable File) : State where
  main := .malloc
  next := 0
  heap := fun _ => none
  table := table
  thread := fun _ => .new
  vargp := fun _ => 0
  calls := []

/-- The thread of `n` goes on at `x`. -/
def State.goto (s : State) (n : ℕ) (x : Thread) : State :=
  { s with thread := Function.update s.thread n x }

/-- A call of the thread of `n` on the descriptor `connfd`. -/
def State.note (s : State) (n : ℕ) (op : Op) (connfd : ℕ) : State :=
  { s with calls := s.calls ++ [(n, op, s.table.get? connfd)] }

/-- `main`. -/
def main (s : State) : Action → Option State
  | .malloc address junk =>
    match s.main with
    | .malloc =>
      if s.heap address = none then some { s with
        main := .accept address
        heap := Function.update s.heap address (some junk) }
      else none
    | _ => none
  | .accept ok =>
    match s.main with
    | .accept new_socket =>
      if ok then some { s with
        main := .create new_socket s.next
        next := s.next + 1
        heap := Function.update s.heap new_socket (some (FileTable.free s.table.slots))
        table := s.table.alloc (.connection s.next) }
      else some { s with main := .ended }
    | _ => none
  | .create ok =>
    match s.main with
    | .create new_socket n => some { s with
        main := .malloc
        thread := Function.update s.thread n (if ok then .load else .lost)
        vargp := Function.update s.vargp n new_socket }
    | _ => none
  | .run _ _ => none

/-- `thread_handle` for the connection `n`. -/
def threadHandle (s : State) (n : ℕ) (gone : Bool) : Option State :=
  match s.thread n with
  | .new | .lost | .done => none
  | .load => (s.heap (s.vargp n)).map fun connfd => s.goto n (.read connfd)
  | .read connfd => some ((s.note n .read connfd).goto n (.write connfd))
  | .write connfd =>
    if gone then some { s with main := .ended }
    else some ((s.note n .write connfd).goto n (.free connfd))
  | .free connfd =>
    (s.heap (s.vargp n)).map fun _ => { s.goto n (.close connfd) with
      heap := Function.update s.heap (s.vargp n) none }
  | .close connfd => some { (s.note n .close connfd).goto n .done with
      table := s.table.close connfd }

def step (s : State) (a : Action) : Option State :=
  match s.main, a with
  | .ended, _ => none
  | _, .run n gone => threadHandle s n gone
  | _, a => main s a

/-- The server, on a table with the listening socket and nothing of any connection. -/
def server (table : FileTable File) : System State Action where
  Init s := s = start table
  step := step

/-! ## The invariant -/

/-- The calls of the thread of `n`. -/
def State.callsOf (s : State) (n : ℕ) : List (Op × Option File) :=
  (s.calls.filter fun c => c.1 = n).map Prod.snd

/-- All the calls of the thread of `n`. -/
def all (n : ℕ) : List (Op × Option File) :=
  [(.read, some (.connection n)), (.write, some (.connection n)), (.close, some (.connection n))]

namespace Thread

/-- How many calls on its descriptor it has made. -/
def made : Thread → ℕ
  | new | lost | load | read _ => 0
  | write _ => 1
  | free _ | close _ => 2
  | done => 3

/-- The descriptor it has loaded and not closed. -/
def connfd : Thread → Option ℕ
  | read connfd | write connfd | free connfd | close connfd => some connfd
  | new | lost | load | done => none

/-- Its cell is not freed. -/
def HasCell : Thread → Prop
  | lost | load | read _ | write _ | free _ => True
  | new | close _ | done => False

/-- It is created and not at its end. -/
def Runs : Thread → Prop
  | load | read _ | write _ | free _ | close _ => True
  | new | lost | done => False

end Thread

/-- The cell of `main`. -/
def Main.cell : Main → Option ℕ
  | .malloc | .ended => none
  | .accept new_socket | .create new_socket _ => some new_socket

/-- The connections that are open : accepted, and not closed by their thread. -/
def State.openConnections (s : State) : Finset ℕ :=
  (Finset.range s.next).filter fun n => s.thread n ≠ .done

/-- The invariant, from a table with no connections, as long as the process is there. -/
structure Inv (table : FileTable File) (s : State) : Prop where
  new : ∀ n, s.next ≤ n → s.thread n = .new
  calls : ∀ n, s.callsOf n = (all n).take (s.thread n).made
  contents : s.table.contents = table.contents + s.openConnections.val.map .connection
  connfd : ∀ n connfd, (s.thread n).connfd = some connfd →
    s.table.get? connfd = some (.connection n)
  load : ∀ n, s.thread n = .load → ∃ connfd, s.heap (s.vargp n) = some connfd ∧
    s.table.get? connfd = some (.connection n)
  create : ∀ p n, s.main = .create p n → s.next = n + 1 ∧ s.thread n = .new ∧
    ∃ connfd, s.heap p = some connfd ∧ s.table.get? connfd = some (.connection n)
  /-- A cell is allocated if `main` or a thread has it. -/
  heap : ∀ p, s.heap p ≠ none ↔
    s.main.cell = some p ∨ ∃ n, (s.thread n).HasCell ∧ s.vargp n = p
  /-- Each cell belongs to one of them. -/
  cell : ∀ n, (s.thread n).HasCell → s.main.cell ≠ some (s.vargp n) ∧
    ∀ m, (s.thread m).HasCell → s.vargp m = s.vargp n → m = n

variable {table : FileTable File} {s t : State} {n m connfd : ℕ} {x : Thread}

theorem inv_start : Inv table (start table) where
  new _ _ := rfl
  calls _ := rfl
  contents := (Multiset.add_zero table.contents).symm
  connfd _ _ h := by cases h
  load _ h := by cases h
  create _ _ h := by cases h
  heap p := by simp [start, Main.cell, Thread.HasCell]
  cell _ h := h.elim

theorem callsOf_note (s : State) (n : ℕ) (op : Op) (connfd : ℕ) (m : ℕ) :
    (s.note n op connfd).callsOf m =
      s.callsOf m ++ if m = n then [(op, s.table.get? connfd)] else [] := by
  simp only [State.callsOf, State.note, List.filter_append, List.map_append, List.filter_singleton]
  by_cases h : m = n
  · simp [h]
  · simp [h, Ne.symm h]

theorem mem_openConnections : m ∈ s.openConnections ↔ m < s.next ∧ s.thread m ≠ .done := by
  simp [State.openConnections]

/-- What a step of the thread of `n` leaves to the other threads and to `main`. -/
structure Frame (s t : State) (n : ℕ) (x : Thread) : Prop where
  main : t.main = s.main
  next : t.next = s.next
  vargp : t.vargp = s.vargp
  self : t.thread n = x
  others : ∀ m ≠ n, t.thread m = s.thread m
  calls : ∀ m ≠ n, t.callsOf m = s.callsOf m
  get? : ∀ m ≠ n, ∀ connfd, s.table.get? connfd = some (.connection m) →
    t.table.get? connfd = some (.connection m)
  /-- Only a cell that the thread frees changes. -/
  heap : ∀ p, p ≠ s.vargp n ∨ (x.HasCell ↔ (s.thread n).HasCell) → t.heap p = s.heap p

/-- A step of a thread that is in order for itself keeps the invariant. -/
theorem Inv.run (hI : Inv table s) (hf : Frame s t n x) (hnew : s.thread n ≠ .new)
    (hx : x ≠ .new ∧ x ≠ .load) (hcell : x.HasCell → (s.thread n).HasCell)
    (hfree : (s.thread n).HasCell → ¬x.HasCell → t.heap (s.vargp n) = none)
    (hcalls : t.callsOf n = (all n).take x.made)
    (hconnfd : ∀ connfd, x.connfd = some connfd → t.table.get? connfd = some (.connection n))
    (hcontents : t.table.contents = table.contents + t.openConnections.val.map .connection) :
    Inv table t := by
  -- a cell that another one has is not the one that the thread frees
  have hkeep : ∀ p, s.main.cell = some p ∨ (∃ m ≠ n, (s.thread m).HasCell ∧ s.vargp m = p) →
      t.heap p = s.heap p := fun p hp => by
    refine hf.heap p (or_iff_not_imp_left.2 fun heq => ?_)
    rw [not_not] at heq
    subst heq
    refine ⟨hcell, fun hn => absurd hp ?_⟩
    rintro (hmain | ⟨m, hm, hhas, heq⟩)
    · exact (hI.cell n hn).1 hmain
    · exact hm ((hI.cell n hn).2 m hhas heq)
  constructor
  case new =>
    intro m hm
    rw [hf.next] at hm
    have hne : m ≠ n := fun h => hnew (h ▸ hI.new m hm)
    rw [hf.others m hne, hI.new m hm]
  case calls =>
    intro m
    by_cases hm : m = n
    · rw [hm, hf.self, hcalls]
    · rw [hf.calls m hm, hf.others m hm, hI.calls]
  case contents => exact hcontents
  case connfd =>
    intro m connfd h
    by_cases hm : m = n
    · rw [hm, hf.self] at h
      exact hm ▸ hconnfd connfd h
    · rw [hf.others m hm] at h
      exact hf.get? m hm connfd (hI.connfd m connfd h)
  case load =>
    intro m h
    have hm : m ≠ n := fun hm => hx.2 (by rw [← hf.self, ← hm, h])
    rw [hf.others m hm] at h
    obtain ⟨connfd, hheap, hget⟩ := hI.load m h
    rw [hf.vargp, hkeep _ (.inr ⟨m, hm, by rw [h]; trivial, rfl⟩)]
    exact ⟨connfd, hheap, hf.get? m hm connfd hget⟩
  case create =>
    intro p m h
    rw [hf.main] at h
    obtain ⟨hnext, hthread, connfd, hheap, hget⟩ := hI.create p m h
    have hm : m ≠ n := fun hm => hnew (hm ▸ hthread)
    rw [hf.next, hf.others m hm, hkeep p (.inl (by rw [h]; rfl))]
    exact ⟨hnext, hthread, connfd, hheap, hf.get? m hm connfd hget⟩
  case heap =>
    intro p
    have hothers : (∃ m, (t.thread m).HasCell ∧ t.vargp m = p) ↔
        x.HasCell ∧ s.vargp n = p ∨ ∃ m ≠ n, (s.thread m).HasCell ∧ s.vargp m = p := by
      rw [hf.vargp]
      constructor
      · rintro ⟨m, hm, rfl⟩
        by_cases hmn : m = n
        · rw [hmn, hf.self] at hm
          exact .inl ⟨hm, by rw [hmn]⟩
        · rw [hf.others m hmn] at hm
          exact .inr ⟨m, hmn, hm, rfl⟩
      · rintro (⟨hm, rfl⟩ | ⟨m, hmn, hm, rfl⟩)
        · exact ⟨n, by rwa [hf.self], rfl⟩
        · exact ⟨m, by rwa [hf.others m hmn], rfl⟩
    rw [hf.main, hothers]
    by_cases hp : s.vargp n = p ∧ (s.thread n).HasCell ∧ ¬x.HasCell
    · obtain ⟨rfl, hn, hx⟩ := hp
      refine iff_of_false (not_not.2 (hfree hn hx)) ?_
      rintro (hmain | ⟨h, -⟩ | ⟨m, hm, hhas, heq⟩)
      · exact (hI.cell n hn).1 hmain
      · exact hx h
      · exact hm ((hI.cell n hn).2 m hhas heq)
    · have hsame : s.vargp n = p → (x.HasCell ↔ (s.thread n).HasCell) := fun heq =>
        ⟨hcell, fun hn => not_not.1 fun hx => hp ⟨heq, hn, hx⟩⟩
      rw [hf.heap p (or_iff_not_imp_left.2 fun h => hsame (not_not.1 h).symm), hI.heap p]
      refine or_congr_right ?_
      constructor
      · rintro ⟨m, hm, rfl⟩
        by_cases hmn : m = n
        · subst hmn
          exact .inl ⟨(hsame rfl).2 hm, rfl⟩
        · exact .inr ⟨m, hmn, hm, rfl⟩
      · rintro (⟨hm, heq⟩ | ⟨m, -, hm, heq⟩)
        · exact ⟨n, (hsame heq).1 hm, heq⟩
        · exact ⟨m, hm, heq⟩
  case cell =>
    have hhas : ∀ m, (t.thread m).HasCell → (s.thread m).HasCell := fun m hm => by
      by_cases hmn : m = n
      · rw [hmn, hf.self] at hm
        exact hmn ▸ hcell hm
      · rwa [hf.others m hmn] at hm
    intro m hm
    rw [hf.main, hf.vargp]
    obtain ⟨hmain, hother⟩ := hI.cell m (hhas m hm)
    exact ⟨hmain, fun k hk => hother k (hhas k hk)⟩

/-- The open connections are the same if the thread is not at its end. -/
theorem Frame.openConnections (hf : Frame s t n x) (h : s.thread n ≠ .done) (hx : x ≠ .done) :
    t.openConnections = s.openConnections := by
  ext m
  rw [mem_openConnections, mem_openConnections, hf.next]
  by_cases hm : m = n
  · rw [hm, hf.self]
    exact and_congr_right fun _ => ⟨fun _ => h, fun _ => hx⟩
  · rw [hf.others m hm]

/-- A statement that leaves the memory and the descriptors alone. -/
theorem frame_goto {calls : List (ℕ × Op × Option File)}
    (ht : t = { s.goto n x with calls := calls })
    (hcalls : ∀ m ≠ n, t.callsOf m = s.callsOf m) : Frame s t n x := by
  subst ht
  exact ⟨rfl, rfl, rfl, Function.update_self _ _ _, fun m hm => Function.update_of_ne hm _ _,
    hcalls, fun _ _ _ h => h, fun _ _ => rfl⟩

/-- A call on the descriptor of the thread is a call on its connection. -/
theorem callsOf_note_self (h : s.table.get? connfd = some (.connection n)) (op : Op) :
    (s.note n op connfd).callsOf n = s.callsOf n ++ [(op, some (.connection n))] := by
  rw [callsOf_note, if_pos rfl, h]

theorem callsOf_note_of_ne (h : m ≠ n) (op : Op) :
    (s.note n op connfd).callsOf m = s.callsOf m := by
  rw [callsOf_note, if_neg h, List.append_nil]

/-- A statement of a thread that leaves the memory and the descriptors alone. -/
theorem Inv.goto (hI : Inv table s) {calls : List (ℕ × Op × Option File)}
    (ht : t = { s.goto n x with calls := calls }) (hx : x ≠ .new ∧ x ≠ .load ∧ x ≠ .done)
    (hn : s.thread n ≠ .new ∧ s.thread n ≠ .done) (hcell : x.HasCell ↔ (s.thread n).HasCell)
    (hconnfd : ∀ connfd, x.connfd = some connfd → s.table.get? connfd = some (.connection n))
    (hcalls : t.callsOf n = (all n).take x.made)
    (hothers : ∀ m ≠ n, t.callsOf m = s.callsOf m) : Inv table t := by
  have hf : Frame s t n x := frame_goto ht hothers
  have htable : t.table = s.table := by rw [ht]; rfl
  refine hI.run hf hn.1 ⟨hx.1, hx.2.1⟩ hcell.1 (fun h hnot => absurd (hcell.2 h) hnot) hcalls
    (by rwa [htable]) ?_
  rw [htable, hf.openConnections hn.2 hx.2.2, hI.contents]

/-- `close(connfd)`. -/
theorem Inv.close (hI : Inv table s) (hx : s.thread n = .close connfd) :
    Inv table { (s.note n .close connfd).goto n .done with table := s.table.close connfd } := by
  have hget := hI.connfd n connfd (by rw [hx]; rfl)
  have hcalls := hI.calls n
  have hlt : n < s.next := not_le.1 fun h => by
    rw [hI.new n h] at hx
    cases hx
  set t := { (s.note n .close connfd).goto n .done with table := s.table.close connfd } with ht
  have hf : Frame s t n .done := by
    refine ⟨rfl, rfl, rfl, Function.update_self _ _ _, fun m hm => Function.update_of_ne hm _ _,
      fun m hm => callsOf_note_of_ne hm .close, fun m hm fd h => ?_, fun _ _ => rfl⟩
    refine (s.table.get?_close_of_ne fun heq => ?_).trans h
    -- a descriptor of another connection has another number
    rw [heq, hget] at h
    exact hm (File.connection.inj (Option.some.inj h)).symm
  have hopen : n ∉ t.openConnections ∧ s.openConnections = insert n t.openConnections := by
    refine ⟨fun h => (mem_openConnections.1 h).2 hf.self, ?_⟩
    ext m
    rw [Finset.mem_insert, mem_openConnections, mem_openConnections]
    by_cases hm : m = n
    · rw [hm, hx]
      exact iff_of_true ⟨hlt, nofun⟩ (.inl rfl)
    · rw [hf.others m hm, or_iff_right hm, hf.next]
  rw [hx] at hcalls
  refine hI.run hf (by rw [hx]; nofun) ⟨nofun, nofun⟩ (fun h => h.elim)
    (fun h => by rw [hx] at h; exact h.elim) ?_ (fun _ h => by cases h) ?_
  · exact (callsOf_note_self hget .close).trans (by rw [hcalls]; rfl)
  · have hcontents := hI.contents
    rw [s.table.contents_close hget, hopen.2, Finset.insert_val_of_notMem hopen.1,
      Multiset.map_cons, Multiset.add_cons] at hcontents
    exact (Multiset.cons_inj_right _).1 hcontents

/-- `free(vargp)`. -/
theorem Inv.free (hI : Inv table s) (hx : s.thread n = .free connfd) :
    Inv table { s.goto n (.close connfd) with
      heap := Function.update s.heap (s.vargp n) none } := by
  have hget := hI.connfd n connfd (by rw [hx]; rfl)
  have hcalls := hI.calls n
  have hopen := (frame_goto (x := .close connfd) rfl fun _ _ => rfl).openConnections (s := s)
    (n := n) (by rw [hx]; nofun) nofun
  rw [hx] at hcalls
  refine hI.run (n := n) (x := .close connfd) ⟨rfl, rfl, rfl, Function.update_self _ _ _,
    fun m hm => Function.update_of_ne hm _ _, fun _ _ => rfl, fun _ _ _ h => h, fun p hp => ?_⟩
    (by rw [hx]; nofun) ⟨nofun, nofun⟩ (fun h => h.elim)
    (fun _ _ => Function.update_self _ _ _) hcalls (fun fd h => ?_) ?_
  · rw [hx] at hp
    exact Function.update_of_ne (hp.resolve_right fun h => h.2 trivial) _ _
  · obtain rfl := Option.some.inj h
    exact hget
  · exact hI.contents.trans (by rw [← hopen]; rfl)

/-- A step of a thread. -/
theorem Inv.threadHandle {gone : Bool} (hI : Inv table s)
    (h : threadHandle s n gone = some t) : Inv table t ∨ t = { s with main := .ended } := by
  have hcalls := hI.calls n
  unfold ThreadServer.threadHandle at h
  split at h
  case h_1 | h_2 | h_3 => cases h
  case h_4 hx =>
    obtain ⟨connfd, hheap, hget⟩ := hI.load n hx
    rw [hheap, Option.map_some] at h
    obtain rfl := Option.some.inj h
    rw [hx] at hcalls
    refine .inl (hI.goto (x := .read connfd) rfl ⟨nofun, nofun, nofun⟩
      (by rw [hx]; exact ⟨nofun, nofun⟩) (by rw [hx]; exact Iff.rfl) (fun fd hfd => ?_) hcalls
      fun _ _ => rfl)
    obtain rfl := Option.some.inj hfd
    exact hget
  case h_5 connfd hx =>
    obtain rfl := Option.some.inj h
    have hget := hI.connfd n connfd (by rw [hx]; rfl)
    rw [hx] at hcalls
    refine .inl (hI.goto (x := .write connfd) rfl ⟨nofun, nofun, nofun⟩
      (by rw [hx]; exact ⟨nofun, nofun⟩) (by rw [hx]; exact Iff.rfl) (fun fd hfd => ?_)
      ((callsOf_note_self hget .read).trans (by rw [hcalls]; rfl))
      fun m hm => callsOf_note_of_ne hm .read)
    obtain rfl := Option.some.inj hfd
    exact hget
  case h_6 connfd hx =>
    have hget := hI.connfd n connfd (by rw [hx]; rfl)
    rw [hx] at hcalls
    split at h
    · exact .inr (Option.some.inj h).symm
    obtain rfl := Option.some.inj h
    refine .inl (hI.goto (x := .free connfd) rfl ⟨nofun, nofun, nofun⟩
      (by rw [hx]; exact ⟨nofun, nofun⟩) (by rw [hx]; exact Iff.rfl) (fun fd hfd => ?_)
      ((callsOf_note_self hget .write).trans (by rw [hcalls]; rfl))
      fun m hm => callsOf_note_of_ne hm .write)
    obtain rfl := Option.some.inj hfd
    exact hget
  case h_7 connfd hx =>
    obtain ⟨value, -, rfl⟩ := Option.map_eq_some_iff.1 h
    exact .inl (hI.free hx)
  case h_8 connfd hx =>
    obtain rfl := Option.some.inj h
    exact .inl (hI.close hx)

/-! ## The steps of main -/

/-- `malloc` gives a cell that no one has. -/
theorem Inv.malloc (hI : Inv table s) (hmain : s.main = .malloc) {address : ℕ}
    (hfree : s.heap address = none) (junk : ℕ) :
    Inv table { s with
      main := .accept address
      heap := Function.update s.heap address (some junk) } := by
  have hhas : ∀ n, (s.thread n).HasCell → s.vargp n ≠ address := fun n hn heq =>
    (hI.heap address).2 (.inr ⟨n, hn, heq⟩) hfree
  refine ⟨hI.new, hI.calls, hI.contents, hI.connfd, fun n h => ?_, nofun, fun p => ?_,
    fun n hn => ⟨fun heq => hhas n hn (Option.some.inj heq).symm, (hI.cell n hn).2⟩⟩
  · obtain ⟨connfd, hheap, hget⟩ := hI.load n h
    have hne := hhas n (by rw [show s.thread n = .load from h]; trivial)
    exact ⟨connfd, (Function.update_of_ne hne _ _).trans hheap, hget⟩
  · by_cases hp : p = address
    · rw [hp]
      exact iff_of_true (by simp) (.inl rfl)
    · have hcell : ¬(some address = some p) := fun h => hp (Option.some.inj h).symm
      have hheap := hI.heap p
      rw [hmain, Main.cell, or_iff_right nofun] at hheap
      change Function.update s.heap address (some junk) p ≠ none ↔ some address = some p ∨ _
      rw [Function.update_of_ne hp, hheap, or_iff_right hcell]

/-- The connection that is accepted gets a descriptor of its own. -/
theorem Inv.accept (hI : Inv table s) {new_socket : ℕ} (hmain : s.main = .accept new_socket) :
    Inv table { s with
      main := .create new_socket s.next
      next := s.next + 1
      heap := Function.update s.heap new_socket (some (FileTable.free s.table.slots))
      table := s.table.alloc (.connection s.next) } := by
  have hnext := hI.new s.next le_rfl
  have hget : ∀ fd f, s.table.get? fd = some f →
      (s.table.alloc (.connection s.next)).get? fd = some f := fun fd f h =>
    s.table.get?_alloc_of_some _ h
  have hhas : ∀ n, (s.thread n).HasCell → s.vargp n ≠ new_socket := fun n hn heq =>
    (hI.cell n hn).1 (by rw [hmain, heq]; rfl)
  refine ⟨fun n hn => hI.new n (Nat.le_of_succ_le hn), hI.calls, ?_,
    fun n fd h => hget _ _ (hI.connfd n fd h), fun n h => ?_, fun p n h => ?_, fun p => ?_,
    fun n hn => ?_⟩
  · have hopen : ({ s with next := s.next + 1 } : State).openConnections =
        insert s.next s.openConnections := by
      ext m
      rw [Finset.mem_insert, mem_openConnections, mem_openConnections]
      by_cases hm : m = s.next
      · rw [hm]
        exact iff_of_true ⟨Nat.lt_succ_self _, by change s.thread s.next ≠ _; rw [hnext]; nofun⟩
          (.inl rfl)
      · rw [or_iff_right hm]
        exact and_congr_left fun _ => by dsimp only; omega
    have hnot : s.next ∉ s.openConnections := fun h =>
      Nat.lt_irrefl _ (mem_openConnections.1 h).1
    change (s.table.alloc (.connection s.next)).contents = table.contents +
      ({ s with next := s.next + 1 } : State).openConnections.val.map .connection
    rw [FileTable.contents_alloc, hI.contents, hopen, Finset.insert_val_of_notMem hnot,
      Multiset.map_cons, Multiset.add_cons]
  · obtain ⟨fd, hheap, h'⟩ := hI.load n h
    have hne := hhas n (by rw [show s.thread n = .load from h]; trivial)
    exact ⟨fd, (Function.update_of_ne hne _ _).trans hheap, hget _ _ h'⟩
  · obtain ⟨rfl, rfl⟩ := Main.create.inj h
    exact ⟨rfl, hnext, _, Function.update_self _ _ _, FileTable.get?_alloc _ _⟩
  · have hheap := hI.heap p
    rw [hmain] at hheap
    change Function.update s.heap new_socket _ p ≠ none ↔ some new_socket = some p ∨ _
    by_cases hp : p = new_socket
    · rw [hp]
      exact iff_of_true (by simp) (.inl rfl)
    · rw [Function.update_of_ne hp]
      exact hheap
  · exact ⟨fun heq => hhas n hn (Option.some.inj heq).symm, (hI.cell n hn).2⟩

/-- The thread that is created gets the cell, or nobody has it any more. -/
theorem Inv.created (hI : Inv table s) {new_socket : ℕ} (hmain : s.main = .create new_socket n)
    (ok : Bool) :
    Inv table { s with
      main := .malloc
      thread := Function.update s.thread n (if ok then .load else .lost)
      vargp := Function.update s.vargp n new_socket } := by
  obtain ⟨hnext, hnew, hheap⟩ := hI.create _ _ hmain
  set x : Thread := if ok then .load else .lost with hx
  have hx' : x = .load ∨ x = .lost := by
    rw [hx]
    cases ok
    · exact .inr rfl
    · exact .inl rfl
  have hxcell : x.HasCell := by
    rcases hx' with h | h <;> rw [h] <;> trivial
  have hself : Function.update s.thread n x n = x := Function.update_self _ _ _
  have hothers : ∀ m ≠ n, Function.update s.thread n x m = s.thread m := fun m hm =>
    Function.update_of_ne hm _ _
  have hvargp : ∀ m ≠ n, Function.update s.vargp n new_socket m = s.vargp m := fun m hm =>
    Function.update_of_ne hm _ _
  have hmine : Function.update s.vargp n new_socket n = new_socket := Function.update_self _ _ _
  have hhas : ∀ m, (s.thread m).HasCell → s.vargp m ≠ new_socket := fun m hm heq =>
    (hI.cell m hm).1 (by rw [hmain, heq]; rfl)
  refine ⟨fun m hm => ?_, fun m => ?_, ?_, fun m fd h => ?_, fun m h => ?_, nofun, fun p => ?_,
    fun m hm => ⟨nofun, fun k hk heq => ?_⟩⟩
  · change s.next ≤ m at hm
    exact (hothers m (by omega)).trans (hI.new m hm)
  · change s.callsOf m = (all m).take (Function.update s.thread n x m).made
    by_cases hm : m = n
    · rw [hm, hself, hI.calls, hnew]
      rcases hx' with h | h <;> rw [h] <;> rfl
    · rw [hothers m hm, hI.calls]
  · have hopen : ({ s with thread := Function.update s.thread n x } : State).openConnections =
        s.openConnections := by
      ext m
      rw [mem_openConnections, mem_openConnections]
      change m < s.next ∧ Function.update s.thread n x m ≠ .done ↔ _
      by_cases hm : m = n
      · rw [hm, hself, hnew]
        refine and_congr_right fun _ => iff_of_true ?_ nofun
        rcases hx' with h | h <;> rw [h] <;> nofun
      · rw [hothers m hm]
    exact hI.contents.trans (by rw [← hopen]; rfl)
  · change (Function.update s.thread n x m).connfd = some fd at h
    by_cases hm : m = n
    · rw [hm, hself] at h
      rcases hx' with hx' | hx' <;> rw [hx'] at h <;> cases h
    · rw [hothers m hm] at h
      exact hI.connfd m fd h
  · change Function.update s.thread n x m = .load at h
    change ∃ fd, s.heap (Function.update s.vargp n new_socket m) = some fd ∧ _
    by_cases hm : m = n
    · rw [hm, hmine]
      exact hheap
    · rw [hothers m hm] at h
      rw [hvargp m hm]
      exact hI.load m h
  · rw [show s.heap p ≠ none ↔ _ from hI.heap p, hmain]
    change some new_socket = some p ∨ _ ↔ none = some p ∨ ∃ m,
      (Function.update s.thread n x m).HasCell ∧ Function.update s.vargp n new_socket m = p
    rw [or_iff_right (a := none = some p) nofun]
    constructor
    · rintro (h | ⟨m, hm, rfl⟩)
      · exact ⟨n, by rwa [hself], hmine.trans (Option.some.inj h)⟩
      · have hmn : m ≠ n := fun h => by
          rw [h, hnew] at hm
          exact hm
        exact ⟨m, by rwa [hothers m hmn], hvargp m hmn⟩
    · rintro ⟨m, hm, rfl⟩
      by_cases hmn : m = n
      · exact .inl (by rw [hmn, hmine])
      · rw [hothers m hmn] at hm
        exact .inr ⟨m, hm, (hvargp m hmn).symm⟩
  · change (Function.update s.thread n x m).HasCell at hm
    change (Function.update s.thread n x k).HasCell at hk
    change Function.update s.vargp n new_socket k = Function.update s.vargp n new_socket m at heq
    by_cases hmn : m = n <;> by_cases hkn : k = n
    · rw [hmn, hkn]
    · rw [hothers k hkn] at hk
      rw [hmn, hmine, hvargp k hkn] at heq
      exact absurd heq (hhas k hk)
    · rw [hothers m hmn] at hm
      rw [hkn, hmine, hvargp m hmn] at heq
      exact absurd heq.symm (hhas m hm)
    · rw [hothers m hmn] at hm
      rw [hothers k hkn] at hk
      rw [hvargp m hmn, hvargp k hkn] at heq
      exact (hI.cell m hm).2 k hk heq

/-! ## The runs -/

theorem Inv.step {a : Action} (hI : Inv table s) (h : step s a = some t) :
    Inv table t ∨ t = { s with main := .ended } := by
  unfold ThreadServer.step at h
  split at h
  case h_1 => cases h
  case h_2 => exact hI.threadHandle h
  case h_3 =>
    unfold ThreadServer.main at h
    split at h
    case h_1 address junk _ =>
      split at h
      case h_1 hmain =>
        split at h
        case isTrue hfree =>
          obtain rfl := Option.some.inj h
          exact .inl (hI.malloc hmain hfree junk)
        case isFalse => cases h
      case h_2 => cases h
    case h_2 ok _ =>
      split at h
      case h_1 new_socket hmain =>
        split at h
        · obtain rfl := Option.some.inj h
          exact .inl (hI.accept hmain)
        · exact .inr (Option.some.inj h).symm
      case h_2 => cases h
    case h_3 ok _ =>
      split at h
      case h_1 new_socket n hmain =>
        obtain rfl := Option.some.inj h
        exact .inl (hI.created hmain ok)
      case h_2 => cases h
    case h_4 => cases h

theorem Inv.callsOf_prefix (hI : Inv table s) (n : ℕ) : s.callsOf n <+: all n := by
  rw [hI.calls]
  exact List.take_prefix _ _

/-- The invariant holds as long as the process is there. -/
theorem inv_of_reachable (h : (server table).Reachable s) :
    (∀ n, s.callsOf n <+: all n) ∧ (s.main ≠ .ended → Inv table s) := by
  refine System.Reachable.invariant
    (I := fun s => (∀ n, s.callsOf n <+: all n) ∧ (s.main ≠ .ended → Inv table s)) ?_
    (fun s a t hI hstep => ?_) h
  · rintro s rfl
    exact ⟨inv_start.callsOf_prefix, fun _ => inv_start⟩
  · have hmain : s.main ≠ .ended := fun hended => by
      change ThreadServer.step s a = some t at hstep
      unfold ThreadServer.step at hstep
      rw [hended] at hstep
      cases hstep
    rcases (hI.2 hmain).step hstep with ht | rfl
    · exact ⟨ht.callsOf_prefix, fun _ => ht⟩
    · exact ⟨hI.1, fun h => absurd rfl h⟩

/-- A thread that runs can take its next step. -/
theorem Inv.exists_step (hI : Inv table s) (hmain : s.main ≠ .ended) (h : (s.thread n).Runs) :
    ∃ t, ThreadServer.step s (.run n false) = some t := by
  have hstep : ThreadServer.step s (.run n false) = ThreadServer.threadHandle s n false := by
    unfold ThreadServer.step
    cases hm : s.main with
    | ended => exact absurd hm hmain
    | _ => rfl
  have hcell : (s.thread n).HasCell → ∃ value, s.heap (s.vargp n) = some value := fun hn =>
    Option.ne_none_iff_exists'.1 ((hI.heap _).2 (.inr ⟨n, hn, rfl⟩))
  rw [hstep]
  unfold ThreadServer.threadHandle
  cases hx : s.thread n with
  | load =>
    obtain ⟨value, hvalue⟩ := hcell (by rw [hx]; trivial)
    simp [hvalue]
  | free connfd =>
    obtain ⟨value, hvalue⟩ := hcell (by rw [hx]; trivial)
    simp [hvalue]
  | read connfd => exact ⟨_, rfl⟩
  | write connfd => exact ⟨_, rfl⟩
  | close connfd => exact ⟨_, rfl⟩
  | _ =>
    rw [hx] at h
    exact h.elim

/-- In every reachable state each thread has made a front of its calls, and only on the
connection it was created for. While the process is there, it has made all of them if it is at
its end, and otherwise it can go on : neither its cell nor its descriptor is gone. What is open
is what was open before the first connection, and each connection that no thread has closed, once.
What is allocated is the cell of `main` and the cells that the threads have not freed, each the
cell of one of them. -/
theorem served_once (h : (server table).Reachable s) :
    (∀ n, s.callsOf n <+: all n) ∧ (s.main ≠ .ended →
      (∀ n, s.thread n = .done → s.callsOf n = all n) ∧
      (∀ n, (s.thread n).Runs → ∃ t, ThreadServer.step s (.run n false) = some t) ∧
      s.table.contents = table.contents + s.openConnections.val.map .connection ∧
      (∀ p, s.heap p ≠ none ↔
        s.main.cell = some p ∨ ∃ n, (s.thread n).HasCell ∧ s.vargp n = p) ∧
      (∀ n, (s.thread n).HasCell → s.main.cell ≠ some (s.vargp n) ∧
        ∀ m, (s.thread m).HasCell → s.vargp m = s.vargp n → m = n)) := by
  obtain ⟨hcalls, hI⟩ := inv_of_reachable h
  refine ⟨hcalls, fun hmain => ⟨fun n hn => ?_, fun n => (hI hmain).exists_step hmain,
    (hI hmain).contents, (hI hmain).heap, (hI hmain).cell⟩⟩
  rw [(hI hmain).calls, hn]
  rfl

/-- Two connections. The second one gets the descriptor and the cell of the first. -/
theorem served_once_two : ∃ s, (server ⟨[some .listening]⟩).run (start ⟨[some .listening]⟩)
      ([.malloc 8 0, .accept true, .create true] ++ List.replicate 5 (.run 0 false) ++
        [.malloc 8 0, .accept true, .create true] ++ List.replicate 5 (.run 1 false)) = some s ∧
    s.callsOf 1 = all 1 ∧ s.table.contents = {.listening} := by
  obtain ⟨s, hs⟩ : ∃ s, (server ⟨[some .listening]⟩).run (start ⟨[some .listening]⟩)
      ([.malloc 8 0, .accept true, .create true] ++ List.replicate 5 (.run 0 false) ++
        [.malloc 8 0, .accept true, .create true] ++ List.replicate 5 (.run 1 false)) = some s :=
    ⟨_, rfl⟩
  obtain ⟨-, hserved⟩ := served_once (s := s) ⟨_, _, rfl, hs⟩
  have hend : s.main ≠ .ended ∧ s.thread 1 = .done ∧ s.openConnections = ∅ := by
    obtain rfl := Option.some.inj hs
    exact ⟨nofun, rfl, rfl⟩
  obtain ⟨hdone, -, hcontents, -⟩ := hserved hend.1
  refine ⟨s, hs, hdone 1 hend.2.1, ?_⟩
  rw [hcontents, hend.2.2]
  rfl

end ThreadServer

end NetCentric
