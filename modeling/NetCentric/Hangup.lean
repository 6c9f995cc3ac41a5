import NetCentric.SentRequest

/-!
# A peer that closes its end of the tunnel

`PeerGone` is what `poll` answers when a peer has closed its connection and the other
sends nothing more : the descriptor is ready at once, every time, and its `read` returns
`0`. The loop is meant to be left then, for the log entry and the two `close`s
(`LogsAndCloses`). It never is (`hangup_never_logs`) : `0` read does not leave the loop,
the mask `POLL_HUP` meets no bit of `revents`, and with a descriptor ready the timeout
does not come. With `POLLERR` set the handler returns without an entry.
-/

namespace NetCentric

/-- The peer `i` is gone, and the other sends nothing. -/
def PeerGone (i : Fin 2) : PollAnswer → Prop
  | .ready revents reads => (∀ j, Legal (revents j)) ∧ revents i &&& (POLLIN ||| POLLHUP) ≠ 0 ∧
      reads i = .data [] ∧ ∀ j ≠ i, (reads j).stored = []
  | _ => False

/-- The call adds an entry to the log. -/
def Call.logs : Call → Bool
  | .fprintf _ => true
  | .write .log _ _ => true
  | _ => false

/-- Over some number of answers, the handler writes its log entry and closes both
sockets. -/
def LogsAndCloses (m : Mode) (sc : Script) (url : List Byte) (answers : ℕ → PollAnswer) : Prop :=
  ∃ k, ∃ calls,
    calls = (finishConnect m { sc with polls := (List.range k).map answers } url).calls ∧
    (∃ c ∈ calls, c.logs = true) ∧ .close .client ∈ calls ∧ .close .server ∈ calls

/-! ## The loop is not left -/

/-- On legal `revents` nothing leaves the loop. -/
theorem service_stays {revents : Fin 2 → Revents} (reads : Fin 2 → ReadResult) {i : Fin 2}
    (h : Legal (revents i)) (s : List Byte × Totals) (t : Totals) :
    (service revents reads i s).result ≠ .error (.leave, t) := by
  obtain ⟨buffer, total⟩ := s
  rcases service_cases revents reads i buffer total with ⟨hhup, -⟩ | ⟨-, hs⟩ | hs | ⟨-, hs⟩ |
    ⟨-, data, -, -, hs⟩
  · exact absurd h.and_POLL_HUP hhup
  all_goals
    rw [hs]
    exact fun h => nomatch h

theorem iteration_stays {i : Fin 2} {answer : PollAnswer} (h : PeerGone i answer)
    (total t : Totals) : (iteration total answer).result ≠ .error (.leave, t) := by
  rcases answer with _ | _ | ⟨revents, reads⟩
  · exact h.elim
  · exact h.elim
  obtain ⟨hlegal, -⟩ := h
  rw [iteration, Prog.result_call_bind]
  cases hr : (service revents reads 0 (List.replicate 1024 0, total)).result with
  | ok s =>
    simp only [Prog.result_bind_of_ok hr]
    exact service_stays reads (hlegal 1) s t
  | error e =>
    simp only [Prog.result_bind_error hr]
    rw [← hr]
    exact service_stays reads (hlegal 0) _ t

/-- A loop that has ended takes no more answers. -/
theorem pollLoop_append {m : Mode} {total : Totals} {as : List PollAnswer}
    (h : (pollLoop m total as).result ≠ .error .blocked) (bs : List PollAnswer) :
    pollLoop m total (as ++ bs) = pollLoop m total as := by
  induction as generalizing total with
  | nil => exact absurd rfl h
  | cons a as ih =>
    rw [List.cons_append, pollLoop, pollLoop]
    rw [pollLoop] at h
    cases hr : (iteration total a).result with
    | ok s =>
      rw [Prog.handle_of_ok hr] at h ⊢
      rw [ih h, Prog.handle_of_ok hr]
    | error e => rw [Prog.handle_of_error hr, Prog.handle_of_error hr]

/-- An iteration that does not leave the loop, and does not go on, gives up. -/
theorem pollLoop_cons_ne_ok {m : Mode} {total : Totals} {a : PollAnswer} {as : List PollAnswer}
    {t : Totals} (ha : ∀ t, (iteration total a).result ≠ .error (.leave, t))
    (has : ∀ s, (iteration total a).result = .ok s → (pollLoop m s.2 as).result ≠ .ok t) :
    (pollLoop m total (a :: as)).result ≠ .ok t := by
  rcases pollLoop_cons m total a as with ⟨s, hs, h⟩ | ⟨u, hu, -⟩ | ⟨e, fds, -, -, -, h⟩
  · rw [h]
    exact has s hs
  · exact absurd hu (ha u)
  · rw [h]
    exact m.result_giveUp fds t

theorem pollLoop_ne_ok {m : Mode} {as : List PollAnswer}
    (h : ∀ a ∈ as, ∀ total t, (iteration total a).result ≠ .error (.leave, t)) (total t : Totals) :
    (pollLoop m total as).result ≠ .ok t := by
  induction as generalizing total with
  | nil => exact fun h => nomatch h
  | cons a as ih =>
    obtain ⟨ha, has⟩ := List.forall_mem_cons.1 h
    exact pollLoop_cons_ne_ok (ha total) fun s _ => ih has s.2

/-- A loop that goes on is not left by answers none of which leaves it. -/
theorem pollLoop_stays {m : Mode} {total : Totals} {as bs : List PollAnswer}
    (h : (pollLoop m total as).result = .error .blocked)
    (hbs : ∀ b ∈ bs, ∀ total t, (iteration total b).result ≠ .error (.leave, t)) (t : Totals) :
    (pollLoop m total (as ++ bs)).result ≠ .ok t := by
  induction as generalizing total with
  | nil => exact pollLoop_ne_ok hbs total t
  | cons a as ih =>
    rw [pollLoop] at h
    refine pollLoop_cons_ne_ok (fun u hu => ?_) fun s hs => ?_
    · rw [Prog.handle_of_error hu] at h
      cases h
    · rw [Prog.handle_of_ok hs] at h
      exact ih h

/-- A run of the loop in which a peer is gone from step `N` on, as far as it is looked at. -/
theorem pollLoop_gone {m : Mode} {answers : ℕ → PollAnswer} {i : Fin 2} {N : ℕ} {total : Totals}
    (hrun : (pollLoop m total ((List.range N).map answers)).result = .error .blocked)
    (hgone : ∀ k, N ≤ k → PeerGone i (answers k)) (k : ℕ) (t : Totals) :
    (pollLoop m total ((List.range k).map answers)).result ≠ .ok t := by
  rcases Nat.le_total k N with hk | hk
  · obtain ⟨j, rfl⟩ := Nat.exists_eq_add_of_le hk
    intro hok
    rw [List.range_add, List.map_append, pollLoop_append (by rw [hok]; exact fun h => nomatch h),
      hok] at hrun
    cases hrun
  · obtain ⟨j, rfl⟩ := Nat.exists_eq_add_of_le hk
    rw [List.range_add, List.map_append]
    refine pollLoop_stays hrun (fun b hb => ?_) t
    obtain ⟨a, ha, rfl⟩ := List.mem_map.1 hb
    obtain ⟨l, -, rfl⟩ := List.mem_map.1 ha
    exact iteration_stays (hgone _ (Nat.le_add_right _ _))

/-! ## There is no log entry -/

theorem Call.not_logs_of_transfers {c : Call} (h : c.transfers = true) : c.logs = false := by
  cases c with
  | write fd data count => cases fd <;> first | rfl | cases h
  | _ => first | rfl | cases h

theorem pollLoop_not_logs (m : Mode) (total : Totals) (answers : List PollAnswer) :
    ∀ c ∈ (pollLoop m total answers).calls, c.logs = false := by
  intro c hc
  rcases pollLoop_transfers m total answers c hc with h | ⟨fd, rfl⟩
  · exact Call.not_logs_of_transfers h
  · rfl

/-- Where the loop is not left, there is no log entry. -/
theorem finishConnect_not_logs {m : Mode} {sc : Script} (url : List Byte)
    (h : ∀ t, (pollLoop m (fun _ => 0) sc.polls).result ≠ .ok t) :
    ∀ c ∈ (finishConnect m sc url).calls, c.logs = false := by
  refine Prog.forall_calls_bind (by simp [Call.logs]) fun _ _ => ?_
  exact Prog.forall_calls_bind (pollLoop_not_logs _ _ _) fun t ht => absurd ht (h t)

/-- A run of the loop in which a peer is gone from some step on never comes to the log
entry. -/
theorem hangup_never_logs (m : Mode) (sc : Script) (url : List Byte) {answers : ℕ → PollAnswer}
    {i : Fin 2} {N : ℕ}
    (hrun : (pollLoop m (fun _ => 0) ((List.range N).map answers)).result = .error .blocked)
    (hgone : ∀ k, N ≤ k → PeerGone i (answers k)) : ¬LogsAndCloses m sc url answers := by
  rintro ⟨k, calls, rfl, ⟨c, hc, hlogs⟩, -⟩
  have hlog := finishConnect_not_logs url (pollLoop_gone hrun hgone k) c hc
  rw [hlog] at hlogs
  exact absurd hlogs Bool.false_ne_true

/-- The client has closed, and every `poll` says so. -/
def clientGone (_ : ℕ) : PollAnswer :=
  .ready (fun | 0 => POLLIN ||| POLLHUP | 1 => 0) fun _ => .data []

theorem peerGone_clientGone (k : ℕ) : PeerGone 0 (clientGone k) :=
  ⟨by decide, by decide, rfl, fun _ _ => rfl⟩

/-- A client that closes at once. -/
theorem hangup_at_once : ¬LogsAndCloses .thread (quietScript []) [] clientGone :=
  hangup_never_logs .thread _ [] (N := 0) rfl fun k _ => peerGone_clientGone k

/-- The loop does not end on a hang-up. -/
theorem hangup_not_left : ¬∀ (m : Mode) (sc : Script) (url : List Byte)
    (answers : ℕ → PollAnswer) (i : Fin 2) (N : ℕ),
    (pollLoop m (fun _ => 0) ((List.range N).map answers)).result = .error .blocked →
    (∀ k, N ≤ k → PeerGone i (answers k)) → LogsAndCloses m sc url answers := by
  intro h
  obtain ⟨k, calls, rfl, ⟨c, hc, hlogs⟩, -⟩ := h .process (quietScript []) [] clientGone 0 0 rfl
    fun k _ => peerGone_clientGone k
  have hstay : ∀ t, (pollLoop .process (fun _ => 0) ((List.range k).map clientGone)).result ≠
      .ok t := pollLoop_gone (N := 0) rfl (fun k _ => peerGone_clientGone k) k
  rw [finishConnect_not_logs [] hstay c hc] at hlogs
  exact absurd hlogs Bool.false_ne_true

end NetCentric
