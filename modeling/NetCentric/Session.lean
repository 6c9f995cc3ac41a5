import NetCentric.Tunnel
import NetCentric.Transition

/-!
# The tunnel between two peers

`session` is the poll loop as a transition system, together with the two peers, who may
send at any time. One step is one iteration. `tunnel_faithful` says that in every
reachable state each side was sent exactly what was read from the other, and
`pollLoop_session` that the system and the loop of the handlers do the same.
-/

namespace NetCentric

/-- The loop, what the peers sent and what they were sent. -/
structure Session where
  /-- All that each peer has sent. -/
  sent : Fin 2 → List Byte
  /-- What of it has not been read. -/
  pending : Fin 2 → List Byte
  /-- What was read from each peer. -/
  got : Fin 2 → List Byte
  /-- What was written to each peer. -/
  put : Fin 2 → List Byte
  total : Totals
  /-- The loop goes on. -/
  running : Bool

/-- One step of the session. -/
inductive Session.Action
  /-- A peer sends. -/
  | send (i : Fin 2) (data : List Byte)
  /-- One iteration of the loop. -/
  | poll (answer : PollAnswer)

namespace Session

/-- Before the loop, with the reply written to the client. -/
def start : Session where
  sent _ := []
  pending _ := []
  got _ := []
  put
    | 0 => ESTABLISHED
    | 1 => []
  total _ := 0
  running := true

/-- A `read` gives an error, or at most 1024 bytes of what is pending, in order. -/
def ReadOk (pending : List Byte) : ReadResult → Prop
  | .error => True
  | .data bytes => bytes <+: pending ∧ bytes.length ≤ 1024

/-- `poll` and the `read`s can answer this way. -/
def Possible (s : Session) : PollAnswer → Prop
  | .ready revents reads => (∀ i, Legal (revents i)) ∧ ∀ i, ReadOk (s.pending i) (reads i)
  | _ => True

/-- The session after a part of the loop. -/
def after (s : Session) (p : Prog Call (LoopExit × Totals) (List Byte × Totals)) : Session where
  sent := s.sent
  pending i := (s.pending i).drop (received (pollFd i) p.calls).length
  got i := s.got i ++ received (pollFd i) p.calls
  put i := s.put i ++ written (pollFd i) p.calls
  total := totals p.result
  running := p.result.isOk

instance (pending : List Byte) : DecidablePred (ReadOk pending)
  | .error => .isTrue trivial
  | .data bytes => inferInstanceAs (Decidable (bytes <+: pending ∧ bytes.length ≤ 1024))

instance (s : Session) : DecidablePred s.Possible
  | .error | .timeout => .isTrue trivial
  | .ready revents reads =>
    inferInstanceAs (Decidable ((∀ i, Legal (revents i)) ∧ ∀ i, ReadOk (s.pending i) (reads i)))

/-- The peers and the loop. -/
def step (s : Session) : Action → Option Session
  | .send i data => some { s with
      sent := Function.update s.sent i (s.sent i ++ data)
      pending := Function.update s.pending i (s.pending i ++ data) }
  | .poll answer =>
    if s.running ∧ s.Possible answer then some (s.after (iteration s.total answer)) else none

end Session

/-- The loop and its peers, from the reply on. -/
def session : System Session Session.Action where
  Init s := s = .start
  step := Session.step

namespace Session

/-- Each side was sent what was read from the other, and nothing sent was lost. -/
structure Faithful (s : Session) : Prop where
  server : s.put 1 = s.got 0
  client : s.put 0 = ESTABLISHED ++ s.got 1
  total : ∀ i, s.total i = (s.got i).length
  sent : ∀ i, s.sent i = s.got i ++ s.pending i

theorem faithful_start : Faithful start :=
  ⟨rfl, rfl, fun _ => rfl, fun _ => rfl⟩

/-- A step of the loop is one iteration, on answers that are possible. -/
theorem step_poll {s t : Session} {answer : PollAnswer}
    (h : Session.step s (.poll answer) = some t) :
    s.Possible answer ∧ t = s.after (iteration s.total answer) := by
  obtain ⟨⟨-, hpossible⟩, ht⟩ := Option.ite_none_right_eq_some.1 h
  exact ⟨hpossible, (Option.some.inj ht).symm⟩

/-- What an iteration reads is at the front of what is pending. -/
theorem received_prefix {s : Session} {answer : PollAnswer} (h : s.Possible answer) (i : Fin 2) :
    received (pollFd i) (iteration s.total answer).calls <+: s.pending i := by
  rcases answer with _ | _ | ⟨revents, reads⟩
  · exact List.nil_prefix
  · exact List.nil_prefix
  · have hread := h.2 i
    rcases iteration_received s.total revents reads i with hr | hr <;> rw [hr]
    · exact List.nil_prefix
    · cases hdata : reads i with
      | error => exact List.nil_prefix
      | data bytes =>
        rw [hdata] at hread
        exact hread.1

theorem Faithful.step {s t : Session} {a : Action} (hI : Faithful s)
    (h : Session.step s a = some t) : Faithful t := by
  cases a with
  | send i data =>
    obtain rfl := Option.some.inj h
    refine ⟨hI.server, hI.client, hI.total, fun j => ?_⟩
    by_cases hij : j = i
    · subst hij
      simp [hI.sent]
    · simp [hij, hI.sent]
  | poll answer =>
    obtain ⟨hpossible, rfl⟩ := step_poll h
    have hp := iteration_passesOn s.total answer
    refine ⟨?_, ?_, fun i => ?_, fun i => ?_⟩
    · exact congrArg₂ (· ++ ·) hI.server (hp.put 0)
    · change s.put 0 ++ _ = ESTABLISHED ++ (s.got 1 ++ _)
      rw [hI.client, List.append_assoc]
      exact congrArg (_ ++ ·) (congrArg (_ ++ ·) (hp.put 1))
    · change totals _ i = ((s.got i ++ _).length : ℤ)
      rw [hp.count, hI.total, List.length_append]
      omega
    · obtain ⟨rest, hrest⟩ := received_prefix hpossible i
      change s.sent i = (s.got i ++ _) ++ (s.pending i).drop _
      rw [hI.sent, ← hrest, List.drop_left, List.append_assoc]

end Session

/-- In every reachable state, the server was sent what was read from the client, the
client was sent the reply and what was read from the server, and the counters are the
lengths. -/
theorem tunnel_faithful {s : Session} (h : session.Reachable s) :
    s.put 1 = s.got 0 ∧ s.put 0 = ESTABLISHED ++ s.got 1 ∧
      ∀ i, s.total i = (s.got i).length := by
  have hI : s.Faithful := h.invariant (fun _ hs => hs ▸ Session.faithful_start)
    fun _ _ _ hI hstep => hI.step hstep
  exact ⟨hI.server, hI.client, hI.total⟩

/-- Both sides send, and one `poll` reports both. -/
theorem tunnel_faithful_both : ∃ s, session.run .start
    [.send 0 (bytes "ping"), .send 1 (bytes "pong"),
      .poll (.ready (fun _ => POLLIN) fun i => .data (if i = 0 then bytes "pin" else bytes "pong"))]
        = some s ∧ s.put 1 = s.got 0 ∧ s.put 0 = ESTABLISHED ++ s.got 1 ∧
          ∀ i, s.total i = (s.got i).length := by
  obtain ⟨s, hs⟩ := Option.isSome_iff_exists.1 (show (session.run .start
    [.send 0 (bytes "ping"), .send 1 (bytes "pong"), .poll (.ready (fun _ => POLLIN)
      fun i => .data (if i = 0 then bytes "pin" else bytes "pong"))]).isSome by decide)
  exact ⟨s, hs, tunnel_faithful ⟨_, _, rfl, hs⟩⟩

/-! ## The loop of the handlers -/

namespace Session

/-- An iteration after which the loop ends is the last step of the loop. -/
theorem run_polls_of_not_running {s t : Session} {answers : List PollAnswer}
    (hs : s.running = false) (h : session.run s (answers.map .poll) = some t) :
    answers = [] ∧ t = s := by
  rcases answers with _ | ⟨answer, answers⟩
  · exact ⟨rfl, (Option.some.inj h).symm⟩
  · obtain ⟨u, hu, -⟩ := session.run_cons_eq_some.1 h
    simp [session, Session.step, hs] at hu

end Session

/-- `pollLoop` reads and writes what the session does over the same answers. -/
theorem pollLoop_session (m : Mode) {s t : Session} {answers : List PollAnswer}
    (h : session.run s (answers.map .poll) = some t) (i : Fin 2) :
    t.got i = s.got i ++ received (pollFd i) (pollLoop m s.total answers).calls ∧
      t.put i = s.put i ++ written (pollFd i) (pollLoop m s.total answers).calls := by
  induction answers generalizing s with
  | nil =>
    obtain rfl := Option.some.inj h
    simp [pollLoop]
  | cons answer answers ih =>
    obtain ⟨u, hu, hrun⟩ := session.run_cons_eq_some.1 h
    obtain ⟨-, rfl⟩ := Session.step_poll hu
    have hstop : ∀ e, (iteration s.total answer).result = .error e →
        answers = [] ∧ t = s.after (iteration s.total answer) := fun e hr =>
      Session.run_polls_of_not_running (by rw [Session.after, hr]; rfl) hrun
    rcases pollLoop_cons m s.total answer answers with ⟨next, hr, hloop⟩ | ⟨total, hr, hloop⟩ |
      ⟨e, fds, hr, -, -, hloop⟩ <;> rw [hloop]
    · have htotal : (s.after (iteration s.total answer)).total = next.2 := by
        rw [Session.after, hr]
        rfl
      have ih := ih hrun
      rw [htotal] at ih
      rw [received_append, written_append, ← List.append_assoc, ← List.append_assoc]
      exact ih
    · obtain ⟨rfl, rfl⟩ := hstop _ hr
      exact ⟨rfl, rfl⟩
    · -- the calls that are left close descriptors
      obtain ⟨rfl, rfl⟩ := hstop _ hr
      rw [received_append, written_append, Mode.received_giveUp, Mode.written_giveUp,
        List.append_nil, List.append_nil]
      exact ⟨rfl, rfl⟩

end NetCentric
