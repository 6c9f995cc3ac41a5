import NetCentric.Calls
import Mathlib.Algebra.Group.Fin.Basic

/-!
# The CONNECT tunnel

The poll loop between the client and the server. One iteration (`iteration`) calls
`poll`, and then services `fds[0]`, the client, and `fds[1]`, the server, with one buffer
and one pair of counters (`service`). `pollLoop` repeats it until it leaves.

`service_cases` is all that servicing one side can do. What an iteration reads from each
side it writes to the other, and counts (`iteration_passesOn`).

The tests of `revents` use `POLL_HUP`, a signal code, where `poll` has `POLLHUP`, and no
legal `revents` has a bit in common with it (`Legal.and_POLL_HUP`).

A `long` counts the bytes of one direction, which no connection makes overflow, so
`total` is integers.
-/

namespace NetCentric

def POLLIN : Revents := 1

def POLLERR : Revents := 8

def POLLHUP : Revents := 16

def POLLNVAL : Revents := 32

/-- The signal code of `<signal.h>`, `si_code` of a `SIGPOLL`. -/
def POLL_HUP : Revents := 6

/-- `revents` holds what was asked for, and what needs no asking. -/
def Legal (revents : Revents) : Prop :=
  revents &&& (POLLIN ||| POLLERR ||| POLLHUP ||| POLLNVAL) = revents

instance (revents : Revents) : Decidable (Legal revents) :=
  inferInstanceAs (Decidable (_ = _))

theorem Legal.and_POLL_HUP {revents : Revents} (h : Legal revents) : revents &&& POLL_HUP = 0 := by
  have hmask : (POLLIN ||| POLLERR ||| POLLHUP ||| POLLNVAL) &&& POLL_HUP = 0 := by decide
  rw [← h, BitVec.and_assoc, hmask]
  exact BitVec.and_zero

/-- The reply that opens the tunnel. -/
def ESTABLISHED : List Byte :=
  bytes "HTTP/1.1 200 Connection Established\r\n\r\n"

/-- The two `long` counters, `total[0]` of the bytes from the client and `total[1]` of the
bytes from the server. -/
abbrev Totals := Fin 2 → ℤ

/-- How an iteration leaves the loop. -/
inductive LoopExit
  /-- `break`. -/
  | leave
  /-- `poll` failed. -/
  | pollError
  /-- `POLLERR` is set. -/
  | hangup
  deriving DecidableEq

/-- `fds[i].fd`. -/
def pollFd : Fin 2 → Fd
  | 0 => .client
  | 1 => .server

/-- The body of the `for` loop for `fds[i]`, on the buffer and the counters. -/
def service (revents : Fin 2 → Revents) (reads : Fin 2 → ReadResult) (i : Fin 2) :
    List Byte × Totals → Prog Call (LoopExit × Totals) (List Byte × Totals)
  | (buffer, total) =>
    if revents i &&& POLL_HUP ≠ 0 then
      Prog.stop (.leave, total)
    else if revents i &&& POLLERR ≠ 0 then
      Prog.stop (.hangup, total)
    else if revents i &&& POLLIN ≠ 0 then do
      Prog.call (.read (pollFd i) 1024 (reads i))
      if 0 < (reads i).count then
        let buffer := overwrite buffer (reads i).stored
        let total := Function.update total i (total i + (reads i).count)
        Prog.call (.write (pollFd (1 - i)) (buffer.take (reads i).count.toNat) (reads i).count)
        return (buffer, total)
      else
        return (buffer, total)
    else
      return (buffer, total)

/-- `total[0]`. -/
def Totals.sent (total : Totals) : ℤ :=
  total 0

/-- `total[1]`. -/
def Totals.recv (total : Totals) : ℤ :=
  total 1

/-- The body of the `while` loop. -/
def iteration (total : Totals) (answer : PollAnswer) :
    Prog Call (LoopExit × Totals) (List Byte × Totals) := do
  Prog.call (.poll answer)
  match answer with
  | .error => Prog.stop (.pollError, total)
  | .timeout => Prog.stop (.leave, total)
  | .ready revents reads => do
    let s ← service revents reads 0 (List.replicate 1024 0, total)
    service revents reads 1 s

/-- The loop, to the totals it leaves with. -/
def pollLoop (m : Mode) (total : Totals) : List PollAnswer → Handler Totals
  | [] => Prog.stop .blocked
  | answer :: answers =>
    (iteration total answer).handle (fun s => pollLoop m s.2 answers) fun
      | (.leave, total) => pure total
      | (.pollError, _) => m.giveUp [.client, .proxy, .server]
      | (.hangup, _) => m.giveUp [.server, .client, .proxy]

/-- What the loop can do with one answer : go on, leave, or give up. -/
theorem pollLoop_cons (m : Mode) (total : Totals) (answer : PollAnswer)
    (answers : List PollAnswer) :
    (∃ s, (iteration total answer).result = .ok s ∧ pollLoop m total (answer :: answers) =
      ⟨(iteration total answer).calls ++ (pollLoop m s.2 answers).calls,
        (pollLoop m s.2 answers).result⟩) ∨
    (∃ t, (iteration total answer).result = .error (.leave, t) ∧
      pollLoop m total (answer :: answers) = ⟨(iteration total answer).calls, .ok t⟩) ∨
    ∃ e fds, (iteration total answer).result = .error e ∧ e.1 ≠ .leave ∧
      fds.Perm [.client, .proxy, .server] ∧ pollLoop m total (answer :: answers) =
        ⟨(iteration total answer).calls ++ (m.giveUp fds : Handler Totals).calls,
          (m.giveUp fds : Handler Totals).result⟩ := by
  rw [pollLoop]
  cases hr : (iteration total answer).result with
  | ok s => exact .inl ⟨s, rfl, Prog.handle_of_ok hr⟩
  | error e =>
    rw [Prog.handle_of_error hr]
    refine .inr ?_
    rcases e with ⟨_ | _ | _, t⟩
    · exact .inl ⟨t, rfl, by simp⟩
    · exact .inr ⟨_, _, rfl, by simp, .refl _, rfl⟩
    · exact .inr ⟨_, _, rfl, by simp, by decide, rfl⟩

/-- What `service` can do : leave on a bit of `POLL_HUP`, fail on `POLLERR`, do nothing,
read nothing, or read some bytes and write them to the other side. -/
theorem service_cases (revents : Fin 2 → Revents) (reads : Fin 2 → ReadResult) (i : Fin 2)
    (buffer : List Byte) (total : Totals) :
    (revents i &&& POLL_HUP ≠ 0 ∧
      service revents reads i (buffer, total) = Prog.stop (.leave, total)) ∨
    (revents i &&& POLLERR ≠ 0 ∧
      service revents reads i (buffer, total) = Prog.stop (.hangup, total)) ∨
    service revents reads i (buffer, total) = pure (buffer, total) ∨
    ((reads i).stored = [] ∧ service revents reads i (buffer, total) =
      ⟨[.read (pollFd i) 1024 (reads i)], .ok (buffer, total)⟩) ∨
    (revents i &&& POLLIN ≠ 0 ∧ ∃ data, reads i = .data data ∧ data ≠ [] ∧
      service revents reads i (buffer, total) =
        ⟨[.read (pollFd i) 1024 (.data data), .write (pollFd (1 - i)) data data.length],
          .ok (overwrite buffer data, Function.update total i (total i + data.length))⟩) := by
  by_cases hhup : revents i &&& POLL_HUP = 0
  case neg => exact .inl ⟨hhup, by rw [service, if_pos hhup]⟩
  refine .inr ?_
  rw [service, if_neg (not_not.2 hhup)]
  by_cases herr : revents i &&& POLLERR = 0
  case neg => exact .inl ⟨herr, by rw [if_pos herr]⟩
  refine .inr ?_
  rw [if_neg (not_not.2 herr)]
  by_cases hin : revents i &&& POLLIN = 0
  case pos => exact .inl (by rw [if_neg (not_not.2 hin)])
  refine .inr ?_
  rw [if_pos hin]
  by_cases hdata : (reads i).stored = []
  case pos => exact .inl ⟨hdata, by simp only [ReadResult.count_pos_iff, hdata]; rfl⟩
  obtain ⟨data, hr⟩ : ∃ data, reads i = .data data := ⟨_, ReadResult.eq_data_of_stored_ne hdata⟩
  refine .inr ⟨hin, data, hr, by rwa [hr] at hdata, ?_⟩
  simp only [if_pos (ReadResult.count_pos_iff.2 hdata)]
  simp only [hr, ReadResult.count, ReadResult.stored, Int.toNat_natCast, take_overwrite]
  rfl

/-- `poll`, or a `read` or a `write` on one of the two sockets. -/
def Call.transfers : Call → Bool
  | .poll _ => true
  | .read fd _ _ | .write fd _ _ => fd = .client || fd = .server
  | _ => false

theorem service_transfers (revents : Fin 2 → Revents) (reads : Fin 2 → ReadResult) (i : Fin 2)
    (s : List Byte × Totals) : ∀ c ∈ (service revents reads i s).calls, c.transfers = true := by
  obtain ⟨buffer, total⟩ := s
  have hfd : ∀ i, pollFd i = .client ∨ pollFd i = .server := by decide
  rcases service_cases revents reads i buffer total with ⟨-, hs⟩ | ⟨-, hs⟩ | hs | ⟨-, hs⟩ |
    ⟨-, data, -, -, hs⟩ <;> rw [hs]
  · simp
  · simp
  · simp
  · simpa [Call.transfers] using hfd i
  · simpa [Call.transfers] using ⟨hfd i, hfd (1 - i)⟩

/-- An iteration touches the two sockets only. -/
theorem iteration_transfers (total : Totals) (answer : PollAnswer) :
    ∀ c ∈ (iteration total answer).calls, c.transfers = true := by
  refine Prog.forall_calls_bind (by simp [Call.transfers]) fun _ _ => ?_
  rcases answer with _ | _ | ⟨revents, reads⟩
  · simp
  · simp
  · exact Prog.forall_calls_bind (service_transfers _ _ _ _) fun s _ => service_transfers _ _ _ s

/-- So does the loop, which gives up with `close`s. -/
theorem pollLoop_transfers (m : Mode) (total : Totals) (answers : List PollAnswer) :
    ∀ c ∈ (pollLoop m total answers).calls, c.transfers = true ∨ ∃ fd, c = .close fd := by
  induction answers generalizing total with
  | nil => simp [pollLoop]
  | cons answer answers ih =>
    have hiter : ∀ c ∈ (iteration total answer).calls, c.transfers = true ∨ ∃ fd, c = .close fd :=
      fun c hc => .inl (iteration_transfers total answer c hc)
    rcases pollLoop_cons m total answer answers with ⟨s, -, h⟩ | ⟨t, -, h⟩ |
      ⟨e, fds, -, -, -, h⟩ <;> rw [h]
    · exact List.forall_mem_append.2 ⟨hiter, ih s.2⟩
    · exact hiter
    · refine List.forall_mem_append.2 ⟨hiter, fun c hc => ?_⟩
      obtain ⟨fd, -, hclose⟩ := m.close_of_mem_giveUp hc
      exact .inr ⟨fd, hclose⟩

/-! ## One iteration passes on what it reads -/

/-- The counters after a part of an iteration. -/
def totals : Except (LoopExit × Totals) (List Byte × Totals) → Totals
  | .ok s => s.2
  | .error e => e.2

/-- What is read from each side is written to the other, and counted. -/
structure PassesOn (calls : List Call) (total total' : Totals) : Prop where
  put : ∀ i, written (pollFd (1 - i)) calls = received (pollFd i) calls
  count : ∀ i, total' i = total i + (received (pollFd i) calls).length

theorem PassesOn.nil (total : Totals) : PassesOn [] total total :=
  ⟨fun _ => rfl, fun i => by simp [received]⟩

theorem PassesOn.append {cs ds : List Call} {t u v : Totals} (h : PassesOn cs t u)
    (h' : PassesOn ds u v) : PassesOn (cs ++ ds) t v := by
  refine ⟨fun i => ?_, fun i => ?_⟩
  · rw [written_append, received_append, h.put, h'.put]
  · rw [h'.count, h.count, received_append, List.length_append]
    omega

/-- A sequence of two parts. -/
theorem PassesOn.bind {p : Prog Call (LoopExit × Totals) (List Byte × Totals)}
    {f : List Byte × Totals → Prog Call (LoopExit × Totals) (List Byte × Totals)} {t : Totals}
    (hp : PassesOn p.calls t (totals p.result))
    (hf : ∀ s, PassesOn (f s).calls s.2 (totals (f s).result)) :
    PassesOn (p >>= f).calls t (totals (p >>= f).result) := by
  cases hr : p.result with
  | ok s =>
    rw [hr] at hp
    rw [Prog.calls_bind_ok hr, Prog.result_bind_of_ok hr]
    exact hp.append (hf s)
  | error e =>
    rw [hr] at hp
    rw [Prog.calls_bind_error hr, Prog.result_bind_error hr]
    exact hp

theorem pollFd_inj {i j : Fin 2} : pollFd i = pollFd j ↔ i = j := by
  revert i j
  decide

theorem service_passesOn (revents : Fin 2 → Revents) (reads : Fin 2 → ReadResult) (i : Fin 2)
    (s : List Byte × Totals) : PassesOn (service revents reads i s).calls s.2
      (totals (service revents reads i s).result) := by
  obtain ⟨buffer, total⟩ := s
  rcases service_cases revents reads i buffer total with ⟨-, h⟩ | ⟨-, h⟩ | h | ⟨hr, h⟩ |
    ⟨-, data, hr, -, h⟩ <;> rw [h]
  · exact .nil total
  · exact .nil total
  · exact .nil total
  · have hnone : ∀ j, received (pollFd j) [.read (pollFd i) 1024 (reads i)] = [] := fun j => by
      simp [received_cons_read, hr]
    exact ⟨fun j => by rw [hnone]; rfl, fun j => by rw [hnone]; simp [totals]⟩
  · have hrec : ∀ j, received (pollFd j) [.read (pollFd i) 1024 (.data data),
        .write (pollFd (1 - i)) data data.length] = if i = j then data else [] := fun j => by
      simp [received_cons_read, received_cons_write, ReadResult.stored, pollFd_inj]
    have hput : ∀ j, written (pollFd (1 - j)) [.read (pollFd i) 1024 (.data data),
        .write (pollFd (1 - i)) data data.length] = if i = j then data else [] := fun j => by
      simp [written, pollFd_inj, sub_right_inj]
    refine ⟨fun j => by rw [hput, hrec], fun j => ?_⟩
    rw [hrec]
    by_cases hij : i = j
    · subst hij
      simp [totals]
    · simp [totals, hij, Function.update_of_ne (Ne.symm hij)]

theorem iteration_passesOn (total : Totals) (answer : PollAnswer) :
    PassesOn (iteration total answer).calls total (totals (iteration total answer).result) := by
  have hpoll : PassesOn [.poll answer] total total :=
    ⟨fun _ => rfl, fun i => by simp [received, readsOf]⟩
  rcases answer with _ | _ | ⟨revents, reads⟩
  · exact hpoll
  · exact hpoll
  · exact hpoll.append ((service_passesOn revents reads 0 _).bind fun s =>
      service_passesOn revents reads 1 s)

/-- An iteration reads from each side nothing, or what its `read` stores. -/
theorem service_received (revents : Fin 2 → Revents) (reads : Fin 2 → ReadResult) (i j : Fin 2)
    (s : List Byte × Totals) : received (pollFd j) (service revents reads i s).calls = [] ∨
      i = j ∧ received (pollFd j) (service revents reads i s).calls = (reads j).stored := by
  obtain ⟨buffer, total⟩ := s
  rcases service_cases revents reads i buffer total with ⟨-, h⟩ | ⟨-, h⟩ | h | ⟨hr, h⟩ |
    ⟨-, data, hr, -, h⟩ <;> rw [h]
  · exact .inl rfl
  · exact .inl rfl
  · exact .inl rfl
  · exact .inl (by simp [received_cons_read, hr])
  · by_cases hij : i = j
    · subst hij
      exact .inr ⟨rfl, by simp [received_cons_read, received_cons_write, hr]⟩
    · exact .inl (by simp [received_cons_read, received_cons_write, pollFd_inj, hij])

theorem iteration_received (total : Totals) (revents : Fin 2 → Revents)
    (reads : Fin 2 → ReadResult) (j : Fin 2) :
    received (pollFd j) (iteration total (.ready revents reads)).calls = [] ∨
      received (pollFd j) (iteration total (.ready revents reads)).calls = (reads j).stored := by
  have h₀ := service_received revents reads 0 j (List.replicate 1024 0, total)
  rw [iteration, Prog.calls_call_bind]
  change received _ ([_] ++ _) = _ ∨ received _ ([_] ++ _) = _
  rw [received_append, show received (pollFd j) [.poll (.ready revents reads)] = [] from rfl,
    List.nil_append]
  cases hr : (service revents reads 0 (List.replicate 1024 0, total)).result with
  | error e =>
    rw [Prog.calls_bind_error hr]
    exact h₀.imp_right And.right
  | ok s =>
    have h₁ := service_received revents reads 1 j s
    rw [Prog.calls_bind_ok hr, received_append]
    rcases h₀ with h₀ | ⟨rfl, h₀⟩
    · rw [h₀, List.nil_append]
      exact h₁.imp_right And.right
    · have h₁ := h₁.resolve_right fun h => absurd h.1 (by decide)
      rw [h₁, List.append_nil]
      exact .inr h₀

end NetCentric
