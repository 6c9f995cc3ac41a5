import NetCentric.Handler

/-!
# What becomes of a connection

`ServesGet` is a GET request that is served to the end : every test is passed, every
call succeeds, and nothing overruns an array. The sequential proxy and the child reach
the end of the loop body on such a connection and on no other (`handle_ok_iff`).

A connection that makes one of them exit early is closed with the listening socket
before (`handle_exit`).
-/

namespace NetCentric

/-- A GET request that is served to the end : the parts of the request after each scan,
what is sent on, and the size of the response. -/
structure ServesGet (sc : Script) (l a : Locals) (request : List Byte) (total : ℤ) : Prop where
  read : 0 < sc.request.count
  parsed : scanRequest sc.memory.stale (cstr sc.request.stored) = some l
  get : strncasecmpEq l.method (bytes "GET") 3 = true
  accepted : scanGetUrl l = some (true, a)
  lookup : sc.lookup = true
  socket : sc.socket = true
  connect : sc.connect = true
  rewritten : rewrite a.resource a.version (cstr sc.request.stored) = some request
  send : sc.send = true
  relayed : (relay sc.memory sc.responses).result = .ok total
  log : sc.log = true
  entry : (formatLogEntry sc.time sc.address a.url total).length < 1024

/-- The connection is a GET request that is served to the end. -/
def Served (sc : Script) : Prop :=
  ∃ l a request total, ServesGet sc l a request total

/-! ## The parts of a handler that is not stopped -/

theorem orUndefined_ok {α : Type} {x : Option α} {a : α} :
    (orUndefined x).result = .ok a ↔ x = some a := by
  cases x <;> simp [orUndefined]

theorem Mode.require_ok {m : Mode} {ok : Bool} {fds : List Fd} {u : Unit} :
    (m.require ok fds).result = .ok u ↔ ok = true := by
  cases ok
  · simpa using m.result_giveUp fds u
  · simp

theorem inArray_eq_some {size : ℕ} {s t : List Byte} :
    inArray size s = some t ↔ s.length < size ∧ s = t := by
  simp [inArray]

theorem connectServer_ok {m : Mode} {sc : Script} {host service : List Byte} {u : Unit} :
    (connectServer m sc host service).result = .ok u ↔
      sc.lookup = true ∧ sc.socket = true ∧ sc.connect = true := by
  simp [connectServer, Prog.result_bind_ok, Mode.require_ok]

theorem connectServer_of_ok {m : Mode} {sc : Script} {host service : List Byte}
    (hlookup : sc.lookup = true) (hsocket : sc.socket = true) (hconnect : sc.connect = true) :
    connectServer m sc host service = Prog.callAll
      [.getaddrinfo host service true, .socket true, .connect true, .freeaddrinfo] := by
  simp only [connectServer, hlookup, hsocket, hconnect, Mode.require_true]
  rfl

theorem writeLog_ok {m : Mode} {log : Bool} {logstring : List Byte} {u : Unit} :
    (writeLog m log logstring).result = .ok u ↔ log = true ∧ logstring.length < 1024 := by
  cases m <;>
    simp [writeLog, Prog.result_bind_ok, Mode.require_ok, orUndefined_ok, inArray_eq_some]

/-- A call of the code around the log entry. -/
def Call.keepsLog : Call → Bool
  | .fopen _ | .mutexLock | .fprintf _ | .mutexUnlock | .fclose => true
  | .openLog _ | .lockFile | .seekEnd | .write .log _ _ | .unlockFile => true
  | .close _ => true
  | _ => false

/-- Nothing else is called there. -/
theorem writeLog_keepsLog (m : Mode) (log : Bool) (logstring : List Byte) :
    ∀ c ∈ (writeLog m log logstring).calls, c.keepsLog = true := by
  have hrequire : ∀ c ∈ (m.require log [.client, .proxy]).calls, c.keepsLog = true := by
    intro c hc
    cases log with
    | false =>
      obtain ⟨fd, -, rfl⟩ := m.close_of_mem_giveUp hc
      rfl
    | true => simp at hc
  have hformat : ∀ cs : List Byte → List Call, (∀ t, ∀ c ∈ cs t, c.keepsLog = true) →
      ∀ c ∈ (orUndefined (inArray 1024 logstring) >>= fun t =>
        (Prog.callAll (cs t) : Handler Unit)).calls, c.keepsLog = true := by
    intro cs hcs
    refine Prog.forall_calls_bind (fun c hc => ?_) fun t _ => hcs t
    cases h : inArray 1024 logstring <;> simp [orUndefined, h] at hc
  cases m <;> refine Prog.forall_calls_bind (by simp [Call.keepsLog]) fun _ _ =>
    Prog.forall_calls_bind hrequire fun _ _ => ?_
  · exact hformat _ fun t => by simp [Call.keepsLog]
  · exact Prog.forall_calls_bind (by simp [Call.keepsLog]) fun _ _ =>
      hformat _ fun t => by simp [Call.keepsLog]
  · exact Prog.forall_calls_bind (by simp [Call.keepsLog]) fun _ _ =>
      hformat _ fun t => by simp [Call.keepsLog]

theorem finishGet_ok {m : Mode} {sc : Script} {url : List Byte} {u : Unit} :
    (finishGet m sc url).result = .ok u ↔ ∃ total,
      (relay sc.memory sc.responses).result = .ok total ∧ sc.log = true ∧
        (formatLogEntry sc.time sc.address url total).length < 1024 := by
  cases m <;> simp [finishGet, Prog.result_bind_ok, writeLog_ok]

theorem handleGet_ok {m : Mode} {sc : Script} {l : Locals} {buffer : List Byte} {u : Unit} :
    (handleGet m sc l buffer).result = .ok u ↔ ∃ a, scanGetUrl l = some (true, a) ∧
      (sc.lookup = true ∧ sc.socket = true ∧ sc.connect = true) ∧
      (∃ request, rewrite a.resource a.version buffer = some request) ∧ sc.send = true ∧
      ∃ total, (relay sc.memory sc.responses).result = .ok total ∧ sc.log = true ∧
        (formatLogEntry sc.time sc.address a.url total).length < 1024 := by
  simp [handleGet, Prog.result_bind_ok, Mode.require_ok, orUndefined_ok, connectServer_ok,
    finishGet_ok]

/-- A child exits at the end of a CONNECT. -/
theorem handleConnect_not_ok {m : Mode} (hm : m ≠ .thread) (sc : Script) (l : Locals) (u : Unit) :
    (handleConnect m sc l).result ≠ .ok u := by
  intro h
  cases m <;> simp [handleConnect, finishConnect, Prog.result_bind_ok] at h
  exact hm rfl

/-- The sequential proxy and the child reach the end of the loop body on a GET request
that is served to the end, and only then. -/
theorem handle_ok_iff {m : Mode} (hm : m ≠ .thread) (sc : Script) :
    (handle m sc).result = .ok () ↔ Served sc := by
  simp only [Served, handle, Prog.result_call_bind, Prog.result_bind_ok, Mode.require_ok,
    orUndefined_ok]
  constructor
  · rintro ⟨-, hread, l, hl, h⟩
    split at h
    case isTrue hget =>
      obtain ⟨a, ha, ⟨hlookup, hsocket, hconnect⟩, ⟨request, hrw⟩, hsend, total, hrelay, hlog,
        hentry⟩ := handleGet_ok.1 h
      exact ⟨l, a, request, total, by simpa using hread, hl, hget, ha, hlookup, hsocket, hconnect,
        hrw, hsend, hrelay, hlog, hentry⟩
    split at h
    · exact absurd h (handleConnect_not_ok hm sc l ())
    · exact absurd h (m.result_giveUp _ ())
  · rintro ⟨l, a, request, total, h⟩
    refine ⟨(), by simpa using h.read, l, h.parsed, ?_⟩
    rw [if_pos h.get]
    exact handleGet_ok.2 ⟨a, h.accepted, ⟨h.lookup, h.socket, h.connect⟩, ⟨request, h.rewritten⟩,
      h.send, total, h.relayed, h.log, h.entry⟩

/-- The calls of a GET request that is served to the end. -/
theorem ServesGet.calls {sc : Script} {l a : Locals} {request : List Byte} {total : ℤ}
    (h : ServesGet sc l a request total) (m : Mode) : (handle m sc).calls =
      [.read .client 9999 sc.request, .getaddrinfo a.host (bytes "http") true, .socket true,
        .connect true, .freeaddrinfo, .write .server request request.length] ++
      ((relay sc.memory sc.responses).calls ++
        ((writeLog m true (formatLogEntry sc.time sc.address a.url total)).calls ++
          match m with
          | .thread => [.close .server, .close .client]
          | _ => [.close .client])) := by
  have hread : decide (0 < sc.request.count) = true := decide_eq_true h.read
  have hlog := (writeLog_ok (m := m) (u := ())).2 ⟨rfl, h.entry⟩
  simp only [handle, Prog.calls_call_bind, hread, Mode.require_true, Prog.pure_bind, h.parsed,
    orUndefined, h.get, if_true, handleGet, h.accepted, h.lookup, h.socket, h.connect,
    connectServer_of_ok, Prog.calls_callAll_bind, h.rewritten, h.send, finishGet,
    Prog.calls_bind_ok h.relayed, h.log, Prog.calls_bind_ok hlog]
  cases m <;> rfl

/-! ## An early exit -/

/-- A part of a handler that exits closes the client and the listening socket first. -/
def ClosesOnExit {α : Type} (p : Handler α) : Prop :=
  ∀ status, p.result = .error (.exit status) → ∃ (calls : List Call) (fds : List Fd),
    p.calls = calls ++ fds.map .close ∧ .client ∈ fds ∧ .proxy ∈ fds

/-- A part after some other calls. -/
theorem ClosesOnExit.after {α : Type} {p : Handler α} (hp : ClosesOnExit p) (cs : List Call) :
    ClosesOnExit ⟨cs ++ p.calls, p.result⟩ := by
  intro status h
  obtain ⟨calls, fds, hcalls, hfds⟩ := hp status h
  exact ⟨cs ++ calls, fds, by rw [hcalls, List.append_assoc], hfds⟩

theorem ClosesOnExit.bind {α β : Type} {p : Handler α} {f : α → Handler β} (hp : ClosesOnExit p)
    (hf : ∀ a, ClosesOnExit (f a)) : ClosesOnExit (p >>= f) := by
  intro status h
  cases hr : p.result with
  | ok a =>
    rw [Prog.result_bind_of_ok hr] at h
    rw [Prog.calls_bind_ok hr]
    exact (hf a).after p.calls status h
  | error e =>
    rw [Prog.result_bind_error hr] at h
    obtain rfl := Except.error.inj h
    rw [Prog.calls_bind_error hr]
    exact hp status hr

/-- What does not exit at all. -/
theorem ClosesOnExit.of_ne {α : Type} {p : Handler α}
    (h : ∀ status, p.result ≠ .error (.exit status)) : ClosesOnExit p :=
  fun status hs => absurd hs (h status)

theorem closesOnExit_call (c : Call) : ClosesOnExit (Prog.call c) :=
  .of_ne fun status => by simp

theorem closesOnExit_callAll (cs : List Call) : ClosesOnExit (Prog.callAll cs) :=
  .of_ne fun status => by simp

theorem closesOnExit_orUndefined {α : Type} (x : Option α) : ClosesOnExit (orUndefined x) :=
  .of_ne fun status => by cases x <;> simp [orUndefined]

theorem closesOnExit_giveUp {α : Type} (m : Mode) {fds : List Fd} (hc : .client ∈ fds)
    (hp : .proxy ∈ fds) : ClosesOnExit (m.giveUp fds : Handler α) := by
  intro status h
  cases m with
  | thread => simp [Mode.giveUp] at h
  | sequential => exact ⟨[], fds, by simp [Mode.giveUp], hc, hp⟩
  | process => exact ⟨[], fds, by simp [Mode.giveUp], hc, hp⟩

theorem closesOnExit_require (m : Mode) (ok : Bool) {fds : List Fd} (hc : .client ∈ fds)
    (hp : .proxy ∈ fds) : ClosesOnExit (m.require ok fds) := by
  cases ok
  · exact closesOnExit_giveUp m hc hp
  · exact .of_ne fun status => by simp

theorem closesOnExit_connectServer (m : Mode) (sc : Script) (host service : List Byte) :
    ClosesOnExit (connectServer m sc host service) :=
  .bind (closesOnExit_call _) fun _ =>
    .bind (closesOnExit_require _ _ (by simp) (by simp)) fun _ =>
    .bind (closesOnExit_call _) fun _ =>
    .bind (closesOnExit_require _ _ (by simp) (by simp)) fun _ =>
    .bind (closesOnExit_call _) fun _ =>
    .bind (closesOnExit_require _ _ (by simp) (by simp)) fun _ => closesOnExit_call _

theorem Relays.closesOnExit {α : Type} {p : Handler α} (h : Relays p) : ClosesOnExit p :=
  .of_ne fun status hs => by rcases h.stops _ hs with h | h <;> cases h

theorem closesOnExit_writeLog (m : Mode) (log : Bool) (logstring : List Byte) :
    ClosesOnExit (writeLog m log logstring) := by
  have hformat : ∀ f : List Byte → Handler Unit, (∀ t, ClosesOnExit (f t)) →
      ClosesOnExit (orUndefined (inArray 1024 logstring) >>= f) :=
    fun f hf => .bind (closesOnExit_orUndefined _) hf
  cases m <;> refine .bind (closesOnExit_call _) fun _ => ?_ <;>
    refine .bind (closesOnExit_require _ _ (by simp) (by simp)) fun _ => ?_
  · exact hformat _ fun _ => closesOnExit_callAll _
  · exact .bind (closesOnExit_call _) fun _ => hformat _ fun _ => closesOnExit_callAll _
  · exact .bind (closesOnExit_call _) fun _ => hformat _ fun _ => closesOnExit_callAll _

theorem closesOnExit_finishGet (m : Mode) (sc : Script) (url : List Byte) :
    ClosesOnExit (finishGet m sc url) := by
  refine .bind (Relays.relay _ _).closesOnExit fun total =>
    .bind (closesOnExit_writeLog _ _ _) fun _ => ?_
  cases m <;> exact .of_ne fun status => by simp

theorem closesOnExit_handleGet (m : Mode) (sc : Script) (l : Locals) (buffer : List Byte) :
    ClosesOnExit (handleGet m sc l buffer) :=
  .bind (closesOnExit_orUndefined _) fun _ =>
    .bind (closesOnExit_require _ _ (by simp) (by simp)) fun _ =>
    .bind (closesOnExit_connectServer _ _ _ _) fun _ =>
    .bind (closesOnExit_orUndefined _) fun _ =>
    .bind (closesOnExit_call _) fun _ =>
    .bind (closesOnExit_require _ _ (by simp) (by simp)) fun _ => closesOnExit_finishGet _ _ _

theorem closesOnExit_pollLoop (m : Mode) (total : Totals) (answers : List PollAnswer) :
    ClosesOnExit (pollLoop m total answers) := by
  induction answers generalizing total with
  | nil => exact .of_ne fun status => by simp [pollLoop]
  | cons answer answers ih =>
    rcases pollLoop_cons m total answer answers with ⟨s, -, h⟩ | ⟨t, -, h⟩ |
      ⟨e, fds, -, -, hfds, h⟩ <;> rw [h]
    · exact (ih s.2).after _
    · exact .of_ne fun status => by simp
    · have hgive : ClosesOnExit (m.giveUp fds : Handler Totals) :=
        closesOnExit_giveUp m (hfds.mem_iff.2 (by simp)) (hfds.mem_iff.2 (by simp))
      exact hgive.after _

theorem closesOnExit_handleConnect (m : Mode) (sc : Script) (l : Locals) :
    ClosesOnExit (handleConnect m sc l) := by
  refine .bind (closesOnExit_orUndefined _) fun _ =>
    .bind (closesOnExit_require _ _ (by simp) (by simp)) fun _ =>
    .bind (closesOnExit_connectServer _ _ _ _) fun _ =>
    .bind (closesOnExit_call _) fun _ =>
    .bind (closesOnExit_pollLoop _ _ _) fun total =>
    .bind (closesOnExit_writeLog _ _ _) fun _ => ?_
  have hclose : ClosesOnExit (do
      Prog.callAll [.close .server, .close .client, .close .proxy]
      Prog.stop (.exit 0) : Handler Unit) :=
    fun status _ => ⟨[], [.server, .client, .proxy], rfl, by simp, by simp⟩
  cases m
  · exact hclose
  · exact hclose
  · exact closesOnExit_callAll _

/-- A handler that exits has closed the client and the listening socket. -/
theorem handle_exit (m : Mode) (sc : Script) : ClosesOnExit (handle m sc) := by
  refine .bind (closesOnExit_call _) fun _ =>
    .bind (closesOnExit_require _ _ (by simp) (by simp)) fun _ =>
    .bind (closesOnExit_orUndefined _) fun l => ?_
  split
  · exact closesOnExit_handleGet _ _ _ _
  split
  · exact closesOnExit_handleConnect _ _ _
  · exact closesOnExit_giveUp _ (by simp) (by simp)

/-! ## The client is closed once -/

/-- `close(client_fd)`. -/
def Call.closesClient : Call → Bool
  | .close .client => true
  | _ => false

/-- A part of a handler that closes the client at most once, and not if it goes on. -/
structure ClosesLast {α : Type} (p : Handler α) : Prop where
  once : p.calls.countP Call.closesClient ≤ 1
  last : ∀ a, p.result = .ok a → p.calls.countP Call.closesClient = 0

/-- What comes after a part that goes on closes the client at most once, so all of it
does. -/
theorem ClosesLast.once_bind {α β : Type} {p : Handler α} {f : α → Handler β} (hp : ClosesLast p)
    (hf : ∀ a, (f a).calls.countP Call.closesClient ≤ 1) :
    (p >>= f).calls.countP Call.closesClient ≤ 1 := by
  cases hr : p.result with
  | ok a =>
    rw [Prog.calls_bind_ok hr, List.countP_append, hp.last a hr, Nat.zero_add]
    exact hf a
  | error e =>
    rw [Prog.calls_bind_error hr]
    exact hp.once

theorem ClosesLast.bind {α β : Type} {p : Handler α} {f : α → Handler β} (hp : ClosesLast p)
    (hf : ∀ a, ClosesLast (f a)) : ClosesLast (p >>= f) := by
  refine ⟨hp.once_bind fun a => (hf a).once, fun b hb => ?_⟩
  obtain ⟨a, ha, hb⟩ := Prog.result_bind_ok.1 hb
  rw [Prog.calls_bind_ok ha, List.countP_append, hp.last a ha, (hf a).last b hb]

theorem countP_eq_zero_of_none {cs : List Call} (h : ∀ c ∈ cs, c.closesClient = false) :
    cs.countP Call.closesClient = 0 :=
  List.countP_eq_zero.2 fun c hc => by
    rw [h c hc]
    exact Bool.false_ne_true

/-- A part that does not close the client. -/
theorem ClosesLast.of_none {α : Type} {p : Handler α}
    (h : ∀ c ∈ p.calls, c.closesClient = false) : ClosesLast p :=
  ⟨(countP_eq_zero_of_none h).le.trans (Nat.zero_le 1), fun _ _ => countP_eq_zero_of_none h⟩

/-- A part after calls that do not close the client. -/
theorem ClosesLast.after {α : Type} {p : Handler α} (hp : ClosesLast p) {cs : List Call}
    (h : ∀ c ∈ cs, c.closesClient = false) : ClosesLast ⟨cs ++ p.calls, p.result⟩ := by
  have hcount : (cs ++ p.calls).countP Call.closesClient = p.calls.countP Call.closesClient := by
    rw [List.countP_append, countP_eq_zero_of_none h, Nat.zero_add]
  exact ⟨hcount.le.trans hp.once, fun a ha => hcount.trans (hp.last a ha)⟩

theorem closesLast_call {c : Call} (h : c.closesClient = false) : ClosesLast (Prog.call c) :=
  .of_none fun _ hd => List.mem_singleton.1 hd ▸ h

theorem closesLast_orUndefined {α : Type} (x : Option α) : ClosesLast (orUndefined x) :=
  .of_none fun c hc => by cases x <;> simp [orUndefined] at hc

theorem countP_closesClient (fds : List Fd) :
    (fds.map Call.close).countP Call.closesClient = fds.count .client := by
  rw [List.countP_map, List.count]
  refine List.countP_congr fun fd _ => ?_
  cases fd <;> decide

theorem closesLast_giveUp {α : Type} (m : Mode) {fds : List Fd} (h : fds.count .client ≤ 1) :
    ClosesLast (m.giveUp fds : Handler α) := by
  refine ⟨?_, fun a ha => absurd ha (m.result_giveUp fds a)⟩
  have hfilter : (fds.filter (· ≠ .proxy)).count .client ≤ fds.count .client :=
    List.filter_sublist.count_le _
  cases m <;> simp only [Mode.giveUp, Prog.calls_callAll_bind, Prog.calls_stop, List.append_nil,
    countP_closesClient] <;> omega

theorem closesLast_require (m : Mode) (ok : Bool) {fds : List Fd} (h : fds.count .client ≤ 1) :
    ClosesLast (m.require ok fds) := by
  cases ok
  · exact closesLast_giveUp m h
  · exact .of_none fun c hc => by simp at hc

theorem closesLast_connectServer (m : Mode) (sc : Script) (host service : List Byte) :
    ClosesLast (connectServer m sc host service) :=
  .bind (closesLast_call rfl) fun _ =>
    .bind (closesLast_require _ _ (by decide)) fun _ =>
    .bind (closesLast_call rfl) fun _ =>
    .bind (closesLast_require _ _ (by decide)) fun _ =>
    .bind (closesLast_call rfl) fun _ =>
    .bind (closesLast_require _ _ (by decide)) fun _ => closesLast_call rfl

theorem Relays.closesLast {α : Type} {p : Handler α} (h : Relays p) : ClosesLast p :=
  .of_none fun c hc => by
    have hrelays := h.calls c hc
    cases c <;> first | rfl | cases hrelays

theorem closesLast_writeLog (m : Mode) (log : Bool) (logstring : List Byte) :
    ClosesLast (writeLog m log logstring) := by
  have hformat : ∀ cs : List Byte → List Call, (∀ t, ∀ c ∈ cs t, c.closesClient = false) →
      ClosesLast (orUndefined (inArray 1024 logstring) >>= fun t => Prog.callAll (cs t)) :=
    fun cs hcs => .bind (closesLast_orUndefined _) fun t => .of_none (hcs t)
  cases m <;> refine .bind (closesLast_call rfl) fun _ => ?_ <;>
    refine .bind (closesLast_require _ _ (by decide)) fun _ => ?_
  · exact hformat _ fun t => by simp [Call.closesClient]
  · exact .bind (closesLast_call rfl) fun _ => hformat _ fun t => by simp [Call.closesClient]
  · exact .bind (closesLast_call rfl) fun _ => hformat _ fun t => by simp [Call.closesClient]

theorem closesLast_pollLoop (m : Mode) (total : Totals) (answers : List PollAnswer) :
    ClosesLast (pollLoop m total answers) := by
  have hiter : ∀ total answer, ∀ c ∈ (iteration total answer).calls, c.closesClient = false :=
    fun total answer c hc => by
      have htransfers := iteration_transfers total answer c hc
      cases c <;> first | rfl | cases htransfers
  induction answers generalizing total with
  | nil => exact .of_none fun c hc => nomatch hc
  | cons answer answers ih =>
    rcases pollLoop_cons m total answer answers with ⟨s, -, h⟩ | ⟨t, -, h⟩ |
      ⟨e, fds, -, -, hfds, h⟩ <;> rw [h]
    · exact (ih s.2).after (hiter total answer)
    · exact .of_none (hiter total answer)
    · have hgive : ClosesLast (m.giveUp fds : Handler Totals) :=
        closesLast_giveUp m (hfds.count_eq _).le
      exact hgive.after (hiter total answer)

/-- A handler closes the client at most once. -/
theorem handle_closes_once (m : Mode) (sc : Script) :
    (handle m sc).calls.countP Call.closesClient ≤ 1 := by
  refine (closesLast_call rfl).once_bind fun _ =>
    (closesLast_require _ _ (by decide)).once_bind fun _ =>
    (closesLast_orUndefined _).once_bind fun l => ?_
  split
  · refine (closesLast_orUndefined _).once_bind fun a =>
      (closesLast_require _ _ (by decide)).once_bind fun _ =>
      (closesLast_connectServer _ _ _ _).once_bind fun _ =>
      (closesLast_orUndefined _).once_bind fun _ =>
      (closesLast_call rfl).once_bind fun _ =>
      (closesLast_require _ _ (by decide)).once_bind fun _ =>
      (Relays.relay _ _).closesLast.once_bind fun _ =>
      (closesLast_writeLog _ _ _).once_bind fun _ => ?_
    cases m <;> decide
  split
  · refine (closesLast_orUndefined _).once_bind fun a =>
      (closesLast_require _ _ (by decide)).once_bind fun _ =>
      (closesLast_connectServer _ _ _ _).once_bind fun _ =>
      (closesLast_call rfl).once_bind fun _ =>
      (closesLast_pollLoop _ _ _).once_bind fun _ =>
      (closesLast_writeLog _ _ _).once_bind fun _ => ?_
    cases m <;> decide
  · exact (closesLast_giveUp m (by decide)).once

end NetCentric
