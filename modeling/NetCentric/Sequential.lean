import NetCentric.SentRequest
import NetCentric.Transition
import Mathlib.Data.Fintype.EquivFin
import Mathlib.Data.Nat.Find

/-!
# The loop of the sequential proxy

`sequentialProxy` takes one connection after the other. A state has the descriptors that
are open and the variables that hold them (`Descriptors`), and says whether the process
is at `accept` or has ended. `accept`, `socket` and `fopen` return the lowest number that
is free. `accept` is taken to succeed.

The proxy is back at `accept` after a connection if and only if the connection was served
to the end, and then the open descriptors are those it had before, the sockets to origin
servers aside (`sequential_loop`). On every other connection the process exits, with the
client and the listening socket closed, unless it waits for an answer or runs into
undefined behaviour.
-/

namespace NetCentric

/-- The open descriptors, and the variables that hold descriptors. -/
structure Descriptors where
  openFds : Finset ℕ
  fd : Fd → ℕ
  /-- All that `socket` has returned since the first `accept`. -/
  sockets : Finset ℕ

/-- The lowest number that is not in use. -/
def lowest (s : Finset ℕ) : ℕ :=
  Nat.find (Infinite.exists_notMem_finset s)

theorem lowest_notMem (s : Finset ℕ) : lowest s ∉ s :=
  Nat.find_spec (Infinite.exists_notMem_finset s)

namespace Descriptors

/-- A new descriptor in a variable. -/
def alloc (d : Descriptors) (v : Fd) : Descriptors where
  openFds := insert (lowest d.openFds) d.openFds
  fd := Function.update d.fd v (lowest d.openFds)
  sockets := d.sockets

/-- The descriptor in a variable is closed. -/
def close (d : Descriptors) (v : Fd) : Descriptors :=
  { d with openFds := d.openFds.erase (d.fd v) }

/-- What a call does to the descriptors. -/
def apply (d : Descriptors) : Call → Descriptors
  | .socket true => { d.alloc .server with sockets := insert (lowest d.openFds) d.sockets }
  | .fopen true => d.alloc .log
  | .openLog true => d.alloc .log
  | .fclose => d.close .log
  | .close v => d.close v
  | _ => d

/-- What a run does to the descriptors. -/
def applyAll (d : Descriptors) (calls : List Call) : Descriptors :=
  calls.foldl apply d

@[simp] theorem applyAll_append (d : Descriptors) (cs ds : List Call) :
    d.applyAll (cs ++ ds) = (d.applyAll cs).applyAll ds :=
  List.foldl_append

/-- The relay opens and closes nothing. -/
theorem applyAll_relays {calls : List Call} (h : ∀ c ∈ calls, c.relays = true)
    (d : Descriptors) : d.applyAll calls = d := by
  induction calls generalizing d with
  | nil => rfl
  | cons c calls ih =>
    obtain ⟨hc, hcalls⟩ := List.forall_mem_cons.1 h
    have hd : d.apply c = d := by
      cases c <;> first | rfl | cases hc
    exact (congrArg (·.applyAll calls) hd).trans (ih hcalls d)

/-- What is closed stays closed, and the variables keep their values. -/
theorem applyAll_closes (d : Descriptors) (fds : List Fd) :
    (d.applyAll (fds.map .close)).fd = d.fd ∧
      (d.applyAll (fds.map .close)).openFds ⊆ d.openFds ∧
        ∀ v ∈ fds, d.fd v ∉ (d.applyAll (fds.map .close)).openFds := by
  induction fds generalizing d with
  | nil => exact ⟨rfl, Finset.Subset.refl _, by simp⟩
  | cons w fds ih =>
    obtain ⟨hfd, hsub, hclosed⟩ := ih (d.close w)
    refine ⟨hfd, hsub.trans (Finset.erase_subset _ _), fun v hv hmem => ?_⟩
    rcases List.mem_cons.1 hv with rfl | hv
    · exact absurd (hsub hmem) (Finset.notMem_erase _ _)
    · exact hclosed v hv hmem

/-- What is opened and closed again leaves the descriptors as they were. -/
theorem alloc_close (d : Descriptors) (v : Fd) : ((d.alloc v).close v).openFds = d.openFds := by
  simp only [close, alloc, Function.update_self]
  exact Finset.erase_insert (lowest_notMem _)

/-- A GET request that is served to the end leaves one more descriptor open, the socket
to the origin server. -/
theorem applyAll_served (d : Descriptors) {sc : Script} {l a : Locals} {request : List Byte}
    {total : ℤ} (h : ServesGet sc l a request total) :
    ∃ server ∉ d.openFds,
      ((d.alloc .client).applyAll (serve sc).calls).openFds = insert server d.openFds ∧
      ((d.alloc .client).applyAll (serve sc).calls).sockets = insert server d.sockets := by
  have hlog : (writeLog .sequential true (formatLogEntry sc.time sc.address a.url total)).calls =
      [.fopen true, .fprintf (formatLogEntry sc.time sc.address a.url total), .fclose] := by
    simp [writeLog, inArray, h.entry, orUndefined]
  have hend : (d.alloc .client).applyAll (serve sc).calls =
      ((((d.alloc .client).apply (.socket true)).alloc .log).close .log).close .client := by
    simp only [serve, h.calls, hlog, applyAll_append, applyAll_relays (Relays.relay _ _).calls]
    rfl
  have hclient := lowest_notMem d.openFds
  have hserver := lowest_notMem (d.alloc .client).openFds
  have hne : lowest (d.alloc .client).openFds ≠ lowest d.openFds := fun h =>
    hserver (h ▸ Finset.mem_insert_self _ _)
  refine ⟨lowest (d.alloc .client).openFds, fun hmem => ?_, ?_, by rw [hend]; rfl⟩
  · exact hserver (Finset.mem_insert_of_mem hmem)
  · rw [hend, close, alloc_close]
    change (insert _ (insert _ d.openFds)).erase (lowest d.openFds) = _
    rw [Finset.erase_insert_of_ne hne, Finset.erase_insert hclient]

end Descriptors

/-- Where the process is. -/
inductive Status
  | accepting
  | ended (ending : Ending)
  deriving DecidableEq

/-- The sequential proxy. -/
structure Proxy where
  table : Descriptors
  status : Status

namespace Proxy

/-- After `exit` or `return`, or back at `accept`. -/
def statusOf : Except Ending Unit → Status
  | .ok _ => .accepting
  | .error e => .ended e

/-- One round of the loop, for the connection `sc`. -/
def step (s : Proxy) (sc : Script) : Option Proxy :=
  if s.status = .accepting then
    some ⟨(s.table.alloc .client).applyAll (serve sc).calls, statusOf (serve sc).result⟩
  else
    none

/-- At the first `accept`. -/
structure AtFirstAccept (s : Proxy) : Prop where
  accepting : s.status = .accepting
  listening : s.table.fd .proxy ∈ s.table.openFds
  fresh : s.table.sockets = ∅

end Proxy

/-- The loop, over the connections that come in. -/
def sequentialProxy : System Proxy Script where
  Init s := s.AtFirstAccept
  step := Proxy.step

namespace Proxy

/-- One round : the connection is served and the proxy is back at `accept`, or it is not
and the process has ended. -/
theorem step_cases {s t : Proxy} {sc : Script} (h : s.step sc = some t) :
    s.status = .accepting ∧
    ((Served sc ∧ t.status = .accepting ∧ ∃ server ∉ s.table.openFds,
        t.table.openFds = insert server s.table.openFds ∧
        t.table.sockets = insert server s.table.sockets) ∨
      (¬Served sc ∧ ∃ e, t.status = .ended e ∧ ∀ status, e = .exit status →
        t.table.fd .client ∉ t.table.openFds ∧ t.table.fd .proxy ∉ t.table.openFds)) := by
  rw [step] at h
  split at h
  case isFalse => exact absurd h (by simp)
  rename_i hacc
  refine ⟨hacc, ?_⟩
  obtain rfl := Option.some.inj h
  have hiff := handle_ok_iff (m := .sequential) (by decide) sc
  cases hr : (serve sc).result with
  | ok u =>
    have hserved : Served sc := hiff.1 hr
    obtain ⟨l, a, request, total, hget⟩ := hserved
    exact .inl ⟨⟨l, a, request, total, hget⟩, rfl, s.table.applyAll_served hget⟩
  | error e =>
    refine .inr ⟨fun hserved => ?_, e, rfl, fun status he => ?_⟩
    · have hok := hiff.2 hserved
      rw [serve] at hr
      rw [hr] at hok
      cases hok
    · subst he
      obtain ⟨calls, fds, hcalls, hclient, hproxy⟩ := handle_exit .sequential sc status hr
      obtain ⟨hfd, -, hclosed⟩ := Descriptors.applyAll_closes
        ((s.table.alloc .client).applyAll calls) fds
      rw [serve, hcalls, Descriptors.applyAll_append, hfd]
      exact ⟨hclosed _ hclient, hclosed _ hproxy⟩

/-- The loop takes connections as long as each of them is served to the end. -/
theorem exists_run {s : Proxy} {connections : List Script} (hs : s.status = .accepting)
    (h : ∀ sc ∈ connections, Served sc) : ∃ t, sequentialProxy.run s connections = some t := by
  induction connections generalizing s with
  | nil => exact ⟨s, rfl⟩
  | cons sc connections ih =>
    obtain ⟨hsc, hall⟩ := List.forall_mem_cons.1 h
    obtain ⟨u, hu⟩ : ∃ u, s.step sc = some u := ⟨_, if_pos hs⟩
    rcases (step_cases hu).2 with ⟨-, hacc, -⟩ | ⟨hno, -⟩
    · obtain ⟨t, ht⟩ := ih hacc hall
      exact ⟨t, sequentialProxy.run_cons_eq_some.2 ⟨u, hu, ht⟩⟩
    · exact absurd hsc hno

/-- A process that has ended takes no connection. -/
theorem run_of_ended {s t : Proxy} {connections : List Script} (hs : s.status ≠ .accepting)
    (h : sequentialProxy.run s connections = some t) : connections = [] ∧ t = s := by
  rcases connections with _ | ⟨sc, connections⟩
  · exact ⟨rfl, (Option.some.inj h).symm⟩
  · obtain ⟨u, hu, -⟩ := sequentialProxy.run_cons_eq_some.1 h
    exact absurd (step_cases hu).1 hs

/-- What a run from `s` comes to. -/
structure Outcome (s t : Proxy) (connections : List Script) : Prop where
  accepting_iff : t.status = .accepting ↔ ∀ sc ∈ connections, Served sc
  kept : t.status = .accepting →
    t.table.openFds \ t.table.sockets = s.table.openFds \ s.table.sockets
  leaked : t.status = .accepting →
    t.table.openFds.card = s.table.openFds.card + connections.length
  closed : ∀ status, t.status = .ended (.exit status) →
    t.table.fd .client ∉ t.table.openFds ∧ t.table.fd .proxy ∉ t.table.openFds

theorem run_outcome {s t : Proxy} {connections : List Script} (hs : s.status = .accepting)
    (h : sequentialProxy.run s connections = some t) : Outcome s t connections := by
  induction connections generalizing s with
  | nil =>
    obtain rfl := Option.some.inj h
    exact ⟨by simp [hs], fun _ => rfl, fun _ => rfl, fun status he => by rw [hs] at he; cases he⟩
  | cons sc connections ih =>
    obtain ⟨u, hu, hrun⟩ := sequentialProxy.run_cons_eq_some.1 h
    obtain ⟨-, ⟨hserved, hacc, v, hv, hopen, hsockets⟩ | ⟨hserved, e, hended, hclosed⟩⟩ :=
      step_cases hu
    · obtain ⟨hiff, hkept, hleaked, hclosed⟩ := ih hacc hrun
      refine ⟨by rw [hiff, List.forall_mem_cons, and_iff_right hserved], fun ht => ?_,
        fun ht => ?_, hclosed⟩
      · rw [hkept ht, hopen, hsockets, Finset.insert_sdiff_insert, Finset.sdiff_insert,
          Finset.erase_eq_of_notMem fun h => hv (Finset.mem_sdiff.1 h).1]
      · rw [hleaked ht, hopen, Finset.card_insert_of_notMem hv, List.length_cons]
        omega
    · obtain ⟨rfl, rfl⟩ := run_of_ended (by rw [hended]; exact fun h => nomatch h) hrun
      have hne : t.status ≠ .accepting := by
        rw [hended]
        exact fun h => nomatch h
      refine ⟨iff_of_false hne fun hall => hserved (hall sc (List.mem_singleton_self _)),
        fun ht => absurd ht hne, fun ht => absurd ht hne, fun status ht => ?_⟩
      rw [hended] at ht
      exact hclosed status (Status.ended.inj ht)

end Proxy

/-- After any connections, the proxy is at `accept` if and only if all of them were served
to the end. Its open descriptors are then the ones of the first `accept`, the sockets to
origin servers aside. A process that exits has closed the client and the listening
socket. -/
theorem sequential_loop {s : Proxy} (connections : List Script) (hs : s.AtFirstAccept) :
    ((∃ t, sequentialProxy.run s connections = some t ∧ t.status = .accepting) ↔
      ∀ sc ∈ connections, Served sc) ∧
    ∀ t, sequentialProxy.run s connections = some t →
      (t.status = .accepting → t.table.openFds \ t.table.sockets = s.table.openFds) ∧
      ∀ status, t.status = .ended (.exit status) →
        t.table.fd .client ∉ t.table.openFds ∧ t.table.fd .proxy ∉ t.table.openFds := by
  refine ⟨⟨?_, fun hall => ?_⟩, fun t hrun => ?_⟩
  · rintro ⟨t, hrun, hacc⟩
    exact (Proxy.run_outcome hs.accepting hrun).accepting_iff.1 hacc
  · obtain ⟨t, hrun⟩ := Proxy.exists_run hs.accepting hall
    exact ⟨t, hrun, (Proxy.run_outcome hs.accepting hrun).accepting_iff.2 hall⟩
  · obtain ⟨-, hkept, -, hclosed⟩ := Proxy.run_outcome hs.accepting hrun
    rw [hs.fresh, Finset.sdiff_empty] at hkept
    exact ⟨hkept, hclosed⟩

/-- Standard input, output and error, and the listening socket. -/
def firstAccept : Proxy where
  table := ⟨{0, 1, 2, 3}, fun _ => 3, ∅⟩
  status := .accepting

theorem firstAccept_atFirstAccept : firstAccept.AtFirstAccept :=
  ⟨rfl, by decide, rfl⟩

/-- A connection that is served to the end, and after it one whose client sends nothing. -/
theorem sequential_loop_two : ∃ t u,
    sequentialProxy.run firstAccept [quietScript plainRequest.text] = some t ∧
    sequentialProxy.run firstAccept [quietScript plainRequest.text, silentClient] = some u ∧
    t.status = .accepting ∧ t.table.openFds \ t.table.sockets = {0, 1, 2, 3} ∧
    u.status = .ended (.exit 1) ∧ u.table.fd .proxy ∉ u.table.openFds := by
  have hserved : Served (quietScript plainRequest.text) :=
    (handle_ok_iff (m := .sequential) (by decide) _).1 (by decide +kernel)
  obtain ⟨hiff, hkept⟩ :=
    sequential_loop [quietScript plainRequest.text] firstAccept_atFirstAccept
  obtain ⟨t, ht, hacc⟩ := hiff.2 fun sc hsc => by rwa [List.mem_singleton.1 hsc]
  obtain ⟨u, hu, hended⟩ : ∃ u, sequentialProxy.run firstAccept
      [quietScript plainRequest.text, silentClient] = some u ∧ u.status = .ended (.exit 1) := by
    have hends : (sequentialProxy.run firstAccept [quietScript plainRequest.text,
        silentClient]).map Proxy.status = some (.ended (.exit 1)) := by decide +kernel
    exact Option.map_eq_some_iff.1 hends
  obtain ⟨-, hend⟩ :=
    sequential_loop [quietScript plainRequest.text, silentClient] firstAccept_atFirstAccept
  exact ⟨t, u, ht, hu, hacc, (hkept t ht).1 hacc, hended, ((hend u hu).2 1 hended).2⟩

/-- A failed connection ends the service. -/
theorem sequential_loop_ends : ¬∀ (s t : Proxy) (connections : List Script), s.AtFirstAccept →
    sequentialProxy.run s connections = some t →
    t.status = .accepting ∧ t.table.openFds = s.table.openFds := by
  intro h
  obtain ⟨t, ht, hended⟩ : ∃ t, sequentialProxy.run firstAccept [silentClient] = some t ∧
      t.status = .ended (.exit 1) := ⟨_, rfl, by decide⟩
  obtain ⟨hacc, -⟩ := h _ _ _ firstAccept_atFirstAccept ht
  rw [hended] at hacc
  cases hacc

end NetCentric
