import NetCentric.Outcome

/-!
# How the loops of a handler come out

The relay of a response and the poll loop come to their end with a count, or wait for an
answer that does not come, or the relay has no array for the rest of the response. Which
of these it is depends on what the other side answers : `RelayWaits`, `OverrunsContent`
and `Counts` are the conditions on the pieces of a response (`relay_error`, `relay_ok`),
and a tunnel is left with an answer that `Leaves`, behind answers each of which `GoesOn`
(`pollLoop_error`, `pollLoop_ok`).

The rest of a handler gives up or goes on (`Mode.Ends`).
-/

open NetCentric.Scanf

namespace NetCentric

/-! ## Giving up -/

/-- What a handler that gives up ends with. -/
def Mode.ending : Mode → Ending
  | .thread => .returned
  | _ => .exit 1

/-- The ways in which a handler means to end before the end of its body. -/
def Mode.Ends (m : Mode) (e : Ending) : Prop :=
  e = m.ending ∨ e = .exit 0

theorem Mode.not_ends_undefined (m : Mode) : ¬m.Ends .undefined := by
  cases m <;> simp [Ends, ending]

theorem Mode.not_ends_blocked (m : Mode) : ¬m.Ends .blocked := by
  cases m <;> simp [Ends, ending]

theorem Mode.giveUp_result {α : Type} (m : Mode) (fds : List Fd) :
    (m.giveUp fds : Handler α).result = .error m.ending := by
  cases m <;> rfl

section

variable {m : Mode} {e : Ending}

theorem Mode.giveUp_ne {α : Type} (he : ¬m.Ends e) (fds : List Fd) :
    (m.giveUp fds : Handler α).result ≠ .error e := by
  rw [m.giveUp_result]
  exact fun h => he (.inl (Except.error.inj h).symm)

theorem Mode.require_ne (he : ¬m.Ends e) (ok : Bool) (fds : List Fd) :
    (m.require ok fds).result ≠ .error e := by
  cases ok
  · exact m.giveUp_ne he fds
  · simp

theorem connectServer_ne (he : ¬m.Ends e) {sc : Script} {host service : List Byte} :
    (connectServer m sc host service).result ≠ .error e := by
  simp [connectServer, Prog.result_bind_eq_error, Mode.require_ne he]

end

theorem orUndefined_error {α : Type} {x : Option α} {e : Ending} :
    (orUndefined x).result = .error e ↔ e = .undefined ∧ x = none := by
  cases x <;> simp [orUndefined, eq_comm]

theorem writeLog_error {m : Mode} {e : Ending} (he : ¬m.Ends e) {log : Bool}
    {logstring : List Byte} : (writeLog m log logstring).result = .error e ↔
      e = .undefined ∧ log = true ∧ 1024 ≤ logstring.length := by
  have hrequire := Mode.require_ne he log [.client, .proxy]
  cases m <;> simp [writeLog, Prog.result_bind_eq_error, hrequire, Mode.require_ok,
    orUndefined_error, inArray] <;> tauto

/-! ## The relay -/

/-- The server does not send what the relay waits for : nothing at all, no end after the
first piece, or nothing after a first piece that gives a length. -/
def RelayWaits (m : Memory) : List ReadResult → Prop
  | [] => True
  | .error :: _ => False
  | .data first :: responses => first.length = 1024 ∧
      match strstr (responseText m first) (bytes "Content-Length:") with
      | none => ∀ r ∈ responses, 0 < r.count
      | some cLengthLine =>
        (contentSize m (responseText m first) cLengthLine).isSome ∧ responses = []

/-- The first piece of the response fills the array and gives a length, and there is no
array for the rest. -/
def OverrunsContent (m : Memory) : List ReadResult → Prop
  | .data first :: _ => first.length = 1024 ∧ ∃ cLengthLine,
      strstr (responseText m first) (bytes "Content-Length:") = some cLengthLine ∧
        contentSize m (responseText m first) cLengthLine = none
  | _ => False

/-- The pieces up to the end of the stream or an error, with their length. -/
def CountsChunks (total total' : ℤ) (responses : List ReadResult) : Prop :=
  ∃ pieces last rest, responses = pieces ++ last :: rest ∧ (∀ r ∈ pieces, 0 < r.count) ∧
    last.count ≤ 0 ∧ total' = toInt (total + (pieces.map ReadResult.count).sum)

/-- The server sends what the relay waits for, and the relay counts `total`. -/
def Counts (m : Memory) (total : ℤ) : List ReadResult → Prop
  | [] => False
  | .error :: _ => total = -1
  | .data first :: responses =>
    if first.length = 1024 then
      match strstr (responseText m first) (bytes "Content-Length:") with
      | none => CountsChunks 1024 total responses
      | some cLengthLine => (contentSize m (responseText m first) cLengthLine).isSome ∧
          ∃ r ∈ responses.head?, total = toInt (1024 + r.count)
    else
      total = toInt first.length

theorem chunkLoop_error {response : List Byte} {total : ℤ} {responses : List ReadResult}
    {e : Ending} : (chunkLoop response total responses).result = .error e ↔
      e = .blocked ∧ ∀ r ∈ responses, 0 < r.count := by
  induction responses generalizing response total with
  | nil => simp [chunkLoop, eq_comm]
  | cons r responses ih =>
    rw [chunkLoop, Prog.result_call_bind, List.forall_mem_cons]
    split
    case isTrue h => simp [ih, h]
    case isFalse h => simp [h]

theorem countsChunks_cons {total total' : ℤ} {r : ReadResult} {responses : List ReadResult} :
    CountsChunks total total' (r :: responses) ↔ r.count ≤ 0 ∧ total' = toInt total ∨
      0 < r.count ∧ CountsChunks (total + r.count) total' responses := by
  constructor
  · rintro ⟨pieces, last, rest, h, hpieces, hlast, rfl⟩
    rcases pieces with _ | ⟨p, pieces⟩
    · obtain ⟨rfl, -⟩ := List.cons.inj h
      exact .inl ⟨hlast, by simp⟩
    · obtain ⟨rfl, rfl⟩ := List.cons.inj h
      obtain ⟨hp, hpieces⟩ := List.forall_mem_cons.1 hpieces
      refine .inr ⟨hp, pieces, last, rest, rfl, hpieces, hlast, ?_⟩
      rw [List.map_cons, List.sum_cons, add_assoc]
  · rintro (⟨hlast, rfl⟩ | ⟨hpos, pieces, last, rest, rfl, hpieces, hlast, rfl⟩)
    · exact ⟨[], r, responses, rfl, by simp, hlast, by simp⟩
    · refine ⟨r :: pieces, last, rest, rfl, List.forall_mem_cons.2 ⟨hpos, hpieces⟩, hlast, ?_⟩
      rw [List.map_cons, List.sum_cons, add_assoc]

theorem chunkLoop_ok {response : List Byte} {total total' : ℤ} {responses : List ReadResult} :
    (chunkLoop response (toInt total) responses).result = .ok total' ↔
      CountsChunks total total' responses := by
  induction responses generalizing response total with
  | nil =>
    refine iff_of_false (by simp [chunkLoop]) ?_
    rintro ⟨pieces, last, rest, h, -⟩
    exact absurd h (by simp)
  | cons r responses ih =>
    rw [chunkLoop, Prog.result_call_bind, countsChunks_cons]
    split
    case isTrue hpos =>
      rw [Prog.result_call_bind, toInt_toInt_add, ih, and_iff_right hpos, or_iff_right]
      exact fun h => absurd h.1 hpos.not_ge
    case isFalse hpos =>
      rw [Prog.result_pure, Except.ok.injEq, and_iff_right (not_lt.1 hpos), or_iff_left, eq_comm]
      exact fun h => hpos h.1

/-- The relay ends early where it waits, or where there is no array for the rest. -/
theorem relay_error {m : Memory} {responses : List ReadResult} {e : Ending} :
    (relay m responses).result = .error e ↔ e = .blocked ∧ RelayWaits m responses ∨
      e = .undefined ∧ OverrunsContent m responses := by
  rcases responses with _ | ⟨_ | first, responses⟩
  · simp [relay, RelayWaits, OverrunsContent, eq_comm]
  · have herror : (relay m (.error :: responses)).result = .ok (-1) := rfl
    rw [herror]
    simp [RelayWaits, OverrunsContent]
  by_cases hlen : first.length = 1024
  case neg =>
    rw [relay_of_ne hlen, RelayWaits, OverrunsContent]
    simp [hlen]
  rw [relay_of_eq hlen, RelayWaits, OverrunsContent, and_iff_right hlen, and_iff_right hlen,
    Prog.result_call_bind, Prog.result_call_bind]
  cases strstr (responseText m first) (bytes "Content-Length:") with
  | none => simp [chunkLoop_error]
  | some cLengthLine =>
    cases hsize : contentSize m (responseText m first) cLengthLine with
    | none => simp [orUndefined, hsize, eq_comm]
    | some n => cases responses <;> simp [orUndefined, relayContent, hsize, eq_comm]

theorem relay_ok {m : Memory} {responses : List ReadResult} {total : ℤ} :
    (relay m responses).result = .ok total ↔ Counts m total responses := by
  have hfull : toInt 1024 = 1024 := by decide
  rcases responses with _ | ⟨_ | first, responses⟩
  · simp [relay, Counts]
  · have herror : (relay m (.error :: responses)).result = .ok (-1) := rfl
    rw [herror, Except.ok.injEq, Counts, eq_comm]
  rw [Counts]
  split
  case isFalse hlen =>
    rw [relay_of_ne hlen, Prog.result_call_bind, Prog.result_call_bind, Prog.result_pure,
      Except.ok.injEq, eq_comm]
  case isTrue hlen =>
    rw [relay_of_eq hlen, Prog.result_call_bind, Prog.result_call_bind, hlen, Nat.cast_ofNat, hfull]
    cases strstr (responseText m first) (bytes "Content-Length:") with
    | none => exact hfull ▸ chunkLoop_ok
    | some cLengthLine =>
      cases hsize : contentSize m (responseText m first) cLengthLine with
      | none => simp [orUndefined, hsize]
      | some n => cases responses <;> simp [orUndefined, relayContent, hsize, eq_comm]

/-! ## The tunnel -/

/-- The loop goes on : `revents` has no bit of `POLL_HUP` or `POLLERR` for the side. -/
def Revents.Quiet (revents : Revents) : Prop :=
  revents &&& POLL_HUP = 0 ∧ revents &&& POLLERR = 0

instance (revents : Revents) : Decidable revents.Quiet :=
  inferInstanceAs (Decidable (_ ∧ _))

namespace PollAnswer

/-- The loop goes on after the answer. -/
def GoesOn : PollAnswer → Prop
  | .ready revents _ => ∀ i, (revents i).Quiet
  | _ => False

/-- The loop is left by a `break` : `poll` times out, or the first side that is not quiet
has a bit of `POLL_HUP`. -/
def Leaves : PollAnswer → Prop
  | .timeout => True
  | .ready revents _ => ∃ i, (∀ j < i, (revents j).Quiet) ∧ revents i &&& POLL_HUP ≠ 0
  | .error => False

theorem leaves_ready {revents : Fin 2 → Revents} {reads : Fin 2 → ReadResult} :
    (ready revents reads).Leaves ↔
      revents 0 &&& POLL_HUP ≠ 0 ∨ (revents 0).Quiet ∧ revents 1 &&& POLL_HUP ≠ 0 := by
  have hbefore : ∀ j : Fin 2, j < 1 ↔ j = 0 := by decide
  simp [Leaves, Fin.exists_fin_two, hbefore]

/-- The bytes that are read from side `i`, if the loop comes to read there. -/
def carried (i : Fin 2) : PollAnswer → ℤ
  | .ready revents reads =>
    if (∀ j ≤ i, (revents j).Quiet) ∧ revents i &&& POLLIN ≠ 0 then (reads i).stored.length else 0
  | _ => 0

end PollAnswer

/-- The loop is left with the answer after the first ones, and has counted `total`. -/
def TunnelCounts (total : Totals) (answers : List PollAnswer) : Prop :=
  ∃ before last after, answers = before ++ last :: after ∧ (∀ a ∈ before, a.GoesOn) ∧
    last.Leaves ∧ ∀ i, total i = ((before ++ [last]).map (PollAnswer.carried i)).sum

/-- One side, by the bits that are tested. -/
theorem service_result (revents : Fin 2 → Revents) (reads : Fin 2 → ReadResult) (i : Fin 2)
    (buffer : List Byte) (total : Totals) :
    (revents i &&& POLL_HUP ≠ 0 ∧
      (service revents reads i (buffer, total)).result = .error (.leave, total)) ∨
    (revents i &&& POLL_HUP = 0 ∧ revents i &&& POLLERR ≠ 0 ∧
      (service revents reads i (buffer, total)).result = .error (.hangup, total)) ∨
    ((revents i).Quiet ∧ ∃ buffer', (service revents reads i (buffer, total)).result =
      .ok (buffer', Function.update total i (total i +
        if revents i &&& POLLIN ≠ 0 then ((reads i).stored.length : ℤ) else 0))) := by
  by_cases hhup : revents i &&& POLL_HUP = 0
  case neg => exact .inl ⟨hhup, by rw [service, if_pos hhup]; rfl⟩
  by_cases herr : revents i &&& POLLERR = 0
  case neg =>
    exact .inr (.inl ⟨hhup, herr, by rw [service, if_neg (not_not.2 hhup), if_pos herr]; rfl⟩)
  refine .inr (.inr ⟨⟨hhup, herr⟩, ?_⟩)
  rw [service, if_neg (not_not.2 hhup), if_neg (not_not.2 herr)]
  by_cases hin : revents i &&& POLLIN = 0
  · refine ⟨buffer, ?_⟩
    simp [hin]
  · rw [if_pos hin, if_pos hin, Prog.result_call_bind]
    by_cases hdata : (reads i).stored = []
    · have hcount : ¬0 < (reads i).count := fun h => ReadResult.count_pos_iff.1 h hdata
      exact ⟨buffer, by simp [hcount, hdata]⟩
    · have hcount : (reads i).count = (reads i).stored.length := by
        rw [ReadResult.eq_data_of_stored_ne hdata]
        rfl
      have hpos := ReadResult.count_pos_iff.2 hdata
      rw [if_pos hpos, Prog.result_call_bind, hcount]
      exact ⟨_, rfl⟩

/-- What is read up to the side `i`, if all sides before it are quiet. -/
theorem carried_ready {revents : Fin 2 → Revents} {reads : Fin 2 → ReadResult} {i : Fin 2}
    (h : ∀ j ≤ i, (revents j).Quiet) : (PollAnswer.ready revents reads).carried i =
      if revents i &&& POLLIN ≠ 0 then ((reads i).stored.length : ℤ) else 0 := by
  simp only [PollAnswer.carried, and_iff_right h]

theorem carried_of_not_quiet {revents : Fin 2 → Revents} {reads : Fin 2 → ReadResult}
    {i j : Fin 2} (hj : j ≤ i) (h : ¬(revents j).Quiet) :
    (PollAnswer.ready revents reads).carried i = 0 :=
  if_neg fun hall => h (hall.1 j hj)

/-- One iteration, by the answer of `poll`. -/
theorem iteration_result (total : Totals) (answer : PollAnswer) :
    (answer.GoesOn ∧ ∃ buffer, (iteration total answer).result =
      .ok (buffer, fun i => total i + answer.carried i)) ∨
    (answer.Leaves ∧ (iteration total answer).result =
      .error (.leave, fun i => total i + answer.carried i)) ∨
    (¬answer.GoesOn ∧ ¬answer.Leaves ∧
      ∃ e, e.1 ≠ .leave ∧ (iteration total answer).result = .error e) := by
  rcases answer with _ | _ | ⟨revents, reads⟩
  · exact .inr (.inr ⟨id, id, (.pollError, total), by simp, rfl⟩)
  · exact .inr (.inl ⟨trivial, by simp [iteration, PollAnswer.carried]⟩)
  rw [iteration, Prog.result_call_bind]
  rcases service_result revents reads 0 (List.replicate 1024 0) total with
    ⟨hhup, h₀⟩ | ⟨hhup, herr, h₀⟩ | ⟨hquiet₀, buffer, h₀⟩
  · have hnone : ∀ i, (PollAnswer.ready revents reads).carried i = 0 := fun i =>
      carried_of_not_quiet (Fin.zero_le i) fun h => hhup h.1
    refine .inr (.inl ⟨PollAnswer.leaves_ready.2 (.inl hhup), ?_⟩)
    simp only [Prog.result_bind_error h₀, hnone, add_zero]
  · refine .inr (.inr ⟨fun h => herr (h 0).2, ?_, (.hangup, total), by simp,
      Prog.result_bind_error h₀⟩)
    intro hleaves
    rcases PollAnswer.leaves_ready.1 hleaves with h | h
    · exact h hhup
    · exact herr h.1.2
  have hzero : (PollAnswer.ready revents reads).carried 0 =
      if revents 0 &&& POLLIN ≠ 0 then ((reads 0).stored.length : ℤ) else 0 :=
    carried_ready fun j hj => by
      obtain rfl : j = 0 := by omega
      exact hquiet₀
  rw [Prog.result_bind_of_ok h₀, ← hzero]
  rcases service_result revents reads 1 buffer (Function.update total 0
    (total 0 + (PollAnswer.ready revents reads).carried 0)) with
    ⟨hhup, h₁⟩ | ⟨hhup, herr, h₁⟩ | ⟨hquiet₁, buffer', h₁⟩ <;> rw [h₁]
  · refine .inr (.inl ⟨PollAnswer.leaves_ready.2 (.inr ⟨hquiet₀, hhup⟩), ?_⟩)
    have hone : (PollAnswer.ready revents reads).carried 1 = 0 :=
      carried_of_not_quiet (Fin.le_refl 1) fun h => hhup h.1
    have htotal : Function.update total 0 (total 0 + (PollAnswer.ready revents reads).carried 0) =
        fun i => total i + (PollAnswer.ready revents reads).carried i :=
      funext (Fin.forall_fin_two.2 ⟨by simp, by simp [hone]⟩)
    rw [htotal]
  · refine .inr (.inr ⟨fun h => herr (h 1).2, ?_, _, by simp, rfl⟩)
    intro hleaves
    rcases PollAnswer.leaves_ready.1 hleaves with h | h
    · exact h hquiet₀.1
    · exact h.2 hhup
  · have hall : ∀ i, (revents i).Quiet := Fin.forall_fin_two.2 ⟨hquiet₀, hquiet₁⟩
    refine .inl ⟨hall, buffer', ?_⟩
    rw [← @carried_ready revents reads 1 fun j _ => hall j]
    exact congrArg (fun t => Except.ok (buffer', t))
      (funext (Fin.forall_fin_two.2 ⟨by simp, by simp⟩))

theorem PollAnswer.GoesOn.not_leaves {answer : PollAnswer} (h : answer.GoesOn) :
    ¬answer.Leaves := by
  rcases answer with _ | _ | ⟨revents, reads⟩
  · exact id
  · exact h.elim
  · rintro ⟨i, -, hhup⟩
    exact hhup (h i).1

/-- The loop waits where all answers let it go on. -/
theorem pollLoop_error {m : Mode} {e : Ending} (he : ¬m.Ends e) {total : Totals}
    {answers : List PollAnswer} : (pollLoop m total answers).result = .error e ↔
      e = .blocked ∧ ∀ a ∈ answers, a.GoesOn := by
  induction answers generalizing total with
  | nil => simp [pollLoop, eq_comm]
  | cons answer answers ih =>
    rw [pollLoop, List.forall_mem_cons]
    rcases iteration_result total answer with ⟨hgo, buffer, h⟩ | ⟨hleave, h⟩ |
      ⟨hgo, hleave, ⟨exit, t⟩, hexit, h⟩
    · rw [Prog.handle_of_ok h, and_iff_right hgo]
      exact ih
    · rw [Prog.handle_of_error h]
      exact iff_of_false (by simp) fun hall => hall.2.1.not_leaves hleave
    · rw [Prog.handle_of_error h]
      refine iff_of_false ?_ fun hall => hgo hall.2.1
      cases exit with
      | leave => exact absurd rfl hexit
      | pollError => exact Mode.giveUp_ne he _
      | hangup => exact Mode.giveUp_ne he _

theorem tunnelCounts_cons {total : Totals} {answer : PollAnswer} {answers : List PollAnswer} :
    TunnelCounts total (answer :: answers) ↔ answer.Leaves ∧ total = (answer.carried ·) ∨
      answer.GoesOn ∧ TunnelCounts (fun i => total i - answer.carried i) answers := by
  constructor
  · rintro ⟨before, last, after, h, hbefore, hlast, htotal⟩
    rcases before with _ | ⟨a, before⟩
    · obtain ⟨rfl, -⟩ := List.cons.inj h
      exact .inl ⟨hlast, funext fun i => by simpa using htotal i⟩
    · obtain ⟨rfl, rfl⟩ := List.cons.inj h
      obtain ⟨ha, hbefore⟩ := List.forall_mem_cons.1 hbefore
      refine .inr ⟨ha, before, last, after, rfl, hbefore, hlast, fun i => ?_⟩
      dsimp only
      rw [htotal i, List.cons_append, List.map_cons, List.sum_cons, add_sub_cancel_left]
  · rintro (⟨hlast, rfl⟩ | ⟨ha, before, last, after, rfl, hbefore, hlast, htotal⟩)
    · exact ⟨[], answer, answers, rfl, by simp, hlast, fun i => by simp⟩
    · refine ⟨answer :: before, last, after, rfl, List.forall_mem_cons.2 ⟨ha, hbefore⟩, hlast,
        fun i => ?_⟩
      rw [List.cons_append, List.map_cons, List.sum_cons, ← htotal i, add_sub_cancel]

theorem pollLoop_ok_from {m : Mode} {total t : Totals} {answers : List PollAnswer} :
    (pollLoop m total answers).result = .ok t ↔ TunnelCounts (fun i => t i - total i) answers := by
  induction answers generalizing total with
  | nil =>
    refine iff_of_false (by simp [pollLoop]) ?_
    rintro ⟨before, last, after, h, -⟩
    exact absurd h (by simp)
  | cons answer answers ih =>
    rw [pollLoop, tunnelCounts_cons]
    rcases iteration_result total answer with ⟨hgo, buffer, h⟩ | ⟨hleave, h⟩ |
      ⟨hgo, hleave, ⟨exit, u⟩, hexit, h⟩
    · rw [Prog.handle_of_ok h, and_iff_right hgo, or_iff_right fun h => hgo.not_leaves h.1, ih]
      simp only [sub_sub]
    · rw [Prog.handle_of_error h, and_iff_right hleave, or_iff_left fun h => h.1.not_leaves hleave]
      simp only [Prog.result_pure, Except.ok.injEq, funext_iff]
      exact forall_congr' fun i => by omega
    · rw [Prog.handle_of_error h]
      refine iff_of_false ?_ (by simp [hgo, hleave])
      cases exit with
      | leave => exact absurd rfl hexit
      | pollError => exact m.result_giveUp _ t
      | hangup => exact m.result_giveUp _ t

/-- The loop is left with what was carried. -/
theorem pollLoop_ok {m : Mode} {total : Totals} {answers : List PollAnswer} :
    (pollLoop m (fun _ => 0) answers).result = .ok total ↔ TunnelCounts total answers := by
  rw [pollLoop_ok_from]
  simp only [sub_zero]

end NetCentric
