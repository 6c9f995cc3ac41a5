import NetCentric.Agreement
import NetCentric.Undefined
import NetCentric.Hangup
import NetCentric.Capacity

/-!
# The counts of a session

The size in the log entry of a GET request is added up in an `int` by the relay, and the
two of a CONNECT in a pair of `long`s that are passed as `int`s.

`Tallies` is a part of the relay that counts what it reads. All parts do, up to a wrap,
if no `read` fails where its result is used before it is looked at (`UncheckedError`) :
the loop tests the result first, and the `read`s before it and of the rest of a response
with a length do not. `accounting_iff` and `logged_counts_iff` are the conditions on a
session : no such error, nothing undefined, and no more bytes than an `int` counts.
-/

open NetCentric.Scanf

namespace NetCentric

/-! ## What the relay counts -/

/-- A part of the relay that starts at `total` : it writes what it reads, writes no
negative count, and adds what it reads to the total. -/
structure Tallies (total : ℤ) (p : Handler ℤ) : Prop where
  put : written .client p.calls = received .server p.calls
  counts : ∀ data count, .write .client data count ∈ p.calls → 0 ≤ count
  total : ∀ total', p.result = .ok total' →
    total' = toInt (total + (received .server p.calls).length)

namespace Tallies

variable {total : ℤ}

theorem of_pure (h : FitsInt total) : Tallies total (pure total) := by
  refine ⟨rfl, fun _ _ hc => (by cases hc), fun total' ht => ?_⟩
  obtain rfl := Except.ok.inj ht
  exact (toInt_eq_self_iff.2 (by simpa using h)).symm.trans (by simp)

theorem of_stop (e : Ending) : Tallies total (Prog.stop e) :=
  ⟨rfl, fun _ _ hc => (by cases hc), fun _ ht => (by cases ht)⟩

/-- A `read` of some bytes that are written to the client and counted. -/
theorem pass {data : List Byte} {count : ℤ} {p : Handler ℤ}
    (h : Tallies (toInt (total + data.length)) p) : Tallies total (do
      Prog.call (.read .server count (.data data))
      Prog.call (.write .client data data.length)
      p) := by
  have hreceived : received .server (.read .server count (.data data) ::
      .write .client data data.length :: p.calls) = data ++ received .server p.calls := by
    rw [received_cons_read, received_cons_write, if_pos rfl]
    rfl
  refine ⟨?_, fun d n hc => ?_, fun total' ht => ?_⟩
  · simp only [Prog.calls_call_bind, hreceived, written_cons_read, written_cons_write, h.put,
      if_true]
  · simp only [Prog.calls_call_bind, List.mem_cons] at hc
    rcases hc with hc | hc | hc
    · cases hc
    · obtain ⟨-, -, rfl⟩ := Call.write.inj hc
      omega
    · exact h.counts d n hc
  · simp only [Prog.calls_call_bind, hreceived, List.length_append]
    rw [h.total total' ht, toInt_toInt_add]
    congr 1
    omega

/-- A `read` of nothing. -/
theorem skip {r : ReadResult} (hr : r.stored = []) {count : ℤ} {p : Handler ℤ}
    (h : Tallies total p) : Tallies total (do
      Prog.call (.read .server count r)
      p) := by
  have hreceived : received .server (.read .server count r :: p.calls) =
      received .server p.calls := by
    rw [received_cons_read, hr]
    simp
  refine ⟨?_, fun d n hc => ?_, fun total' ht => ?_⟩
  · rw [Prog.calls_call_bind, hreceived, written_cons_read, h.put]
  · rw [Prog.calls_call_bind] at hc
    exact h.counts d n ((List.mem_cons.1 hc).resolve_left (by simp))
  · rw [Prog.calls_call_bind, hreceived]
    exact h.total total' ht

/-- The loop looks at the result of a `read` before it uses it. -/
theorem chunkLoop {response : List Byte} (h : FitsInt total) (responses : List ReadResult) :
    Tallies total (chunkLoop response total responses) := by
  induction responses generalizing response total with
  | nil => exact of_stop _
  | cons r responses ih =>
    rw [NetCentric.chunkLoop]
    by_cases hr : r.stored = []
    · have hcount : ¬0 < r.count := fun hpos => ReadResult.count_pos_iff.1 hpos hr
      simp only [if_neg hcount]
      exact skip hr (of_pure h)
    · simp only [if_pos (ReadResult.count_pos_iff.2 hr)]
      rw [ReadResult.eq_data_of_stored_ne hr]
      simp only [ReadResult.count, ReadResult.stored, Int.toNat_natCast, take_overwrite]
      exact pass (ih (fitsInt_toInt _))

end Tallies

/-- The first `read` fails, or it fills the array, gives a length, and the `read` of the
rest fails. -/
def UncheckedError (m : Memory) : List ReadResult → Prop
  | .error :: _ => True
  | .data first :: .error :: _ => first.length = 1024 ∧ ∃ cLengthLine,
      strstr (responseText m first) (bytes "Content-Length:") = some cLengthLine ∧
        (contentSize m (responseText m first) cLengthLine).isSome
  | _ => False

theorem relay_tallies {m : Memory} {responses : List ReadResult}
    (h : ¬UncheckedError m responses) : Tallies 0 (relay m responses) := by
  rcases responses with _ | ⟨_ | first, responses⟩
  · exact .of_stop _
  · exact absurd trivial h
  by_cases hlen : first.length = 1024
  case neg =>
    rw [relay_of_ne hlen]
    refine .pass ?_
    rw [zero_add]
    exact .of_pure (fitsInt_toInt _)
  rw [relay_of_eq hlen]
  refine .pass ?_
  rw [zero_add]
  cases hline : strstr (responseText m first) (bytes "Content-Length:") with
  | none => exact .chunkLoop (fitsInt_toInt _) _
  | some cLengthLine =>
    dsimp only
    cases hsize : contentSize m (responseText m first) cLengthLine with
    | none => exact .of_stop _
    | some n =>
      rcases responses with _ | ⟨_ | rest, responses⟩
      · exact .of_stop _
      · exact absurd ⟨hlen, cLengthLine, hline, by rw [hsize]; rfl⟩ h
      · exact .pass (.of_pure (fitsInt_toInt _))

/-- An error that is not looked at is written as a count and counted as `-1`. -/
theorem UncheckedError.relay {m : Memory} {responses : List ReadResult}
    (h : UncheckedError m responses) :
    .write .client [] (-1) ∈ (relay m responses).calls ∧
      written .client (relay m responses).calls = received .server (relay m responses).calls ∧
      (relay m responses).result =
        .ok ((received .server (relay m responses).calls).length - 1) := by
  rcases responses with _ | ⟨_ | first, responses⟩
  · exact h.elim
  · exact ⟨List.mem_cons_of_mem _ List.mem_cons_self, rfl, rfl⟩
  rcases responses with _ | ⟨_ | rest, responses⟩
  · exact h.elim
  · obtain ⟨hlen, cLengthLine, hline, hsize⟩ := h
    obtain ⟨n, hn⟩ := Option.isSome_iff_exists.1 hsize
    rw [relay_of_eq hlen]
    simp only [hline, hn, orUndefined, Prog.pure_bind, relayContent, Prog.calls_call_bind,
      Prog.result_call_bind, ReadResult.stored, ReadResult.count]
    refine ⟨by simp, ?_, ?_⟩
    · simp [written_cons_read, written_cons_write, received_cons_read, received_cons_write,
        ReadResult.stored]
    · simp [received_cons_read, received_cons_write, ReadResult.stored, hlen]
      decide
  · exact h.elim

/-! ## The session of a GET request -/

/-- A GET request whose response is relayed. -/
structure Fetches (sc : Script) (l a : Locals) (request : List Byte) : Prop where
  read : 0 < sc.request.count
  reach : ReachesServer sc l a
  rewritten : rewrite a.resource a.version (cstr sc.request.stored) = some request
  send : sc.send = true

/-- The calls up to the relay. -/
theorem Fetches.handle_eq {sc : Script} {l a : Locals} {request : List Byte}
    (h : Fetches sc l a request) (m : Mode) : handle m sc = (do
      Prog.callAll [.read .client 9999 sc.request, .getaddrinfo a.host (bytes "http") true,
        .socket true, .connect true, .freeaddrinfo, .write .server request request.length]
      finishGet m sc a.url) := by
  have hread : decide (0 < sc.request.count) = true := decide_eq_true h.read
  simp only [handle, hread, Mode.require_true, Prog.pure_bind, h.reach.parsed, orUndefined,
    h.reach.get, if_true, handleGet, h.reach.accepted,
    connectServer_of_ok h.reach.lookup h.reach.socket h.reach.connect, h.rewritten, h.send]
  rfl

/-- Writing the log neither reads from the server nor writes to the client. -/
theorem relays_writeLog (m : Mode) (log : Bool) (logstring : List Byte) :
    ∀ c ∈ (writeLog m log logstring).calls, c.relays = false := by
  intro c hc
  have hlog := writeLog_keepsLog m log logstring c hc
  cases c with
  | write fd data count => cases fd <;> first | rfl | cases hlog
  | _ => first | rfl | cases hlog

theorem logEntries_writeLog {m : Mode} {log : Bool} {logstring entry : List Byte}
    (h : entry ∈ logEntries (writeLog m log logstring).calls) : entry = logstring := by
  have hfalse : logEntries (writeLog m false logstring).calls = [] := by cases m <;> rfl
  cases log with
  | false =>
    rw [hfalse] at h
    cases h
  | true =>
    by_cases hlen : logstring.length < 1024
    · rw [logEntries, Same.seen_writeLog m hlen] at h
      exact List.mem_singleton.1 h
    · rw [logEntries, Same.seen_writeLog_long m hlen] at h
      cases h

/-- The log entry, and the descriptors closed after it. -/
theorem writeLog_closes {m : Mode} {log : Bool} {logstring : List Byte} {p : Handler Unit}
    (fds : List Fd) (hp : p.calls = fds.map .close) :
    (∀ c ∈ (writeLog m log logstring >>= fun _ => p).calls, c.relays = false) ∧
      ∀ entry ∈ logEntries (writeLog m log logstring >>= fun _ => p).calls, entry = logstring := by
  constructor
  · refine Prog.forall_calls_bind (relays_writeLog _ _ _) fun _ _ c hc => ?_
    rw [hp] at hc
    obtain ⟨fd, -, rfl⟩ := List.mem_map.1 hc
    rfl
  · intro entry h
    cases hw : (writeLog m log logstring).result with
    | error e =>
      rw [Prog.calls_bind_error hw] at h
      exact logEntries_writeLog h
    | ok u =>
      rw [Prog.calls_bind_ok hw, logEntries_append, hp, logEntries, logEntries, seen_close,
        List.filterMap_nil, List.append_nil] at h
      exact logEntries_writeLog h

/-- After the relay, nothing is read from the server or written to the client, and at most
the entry with the total is logged. -/
theorem finishGet_split (m : Mode) (sc : Script) (url : List Byte) :
    ∃ rest, (finishGet m sc url).calls = (relay sc.memory sc.responses).calls ++ rest ∧
      (∀ c ∈ rest, c.relays = false) ∧ ∀ entry ∈ logEntries rest, ∃ total,
        (relay sc.memory sc.responses).result = .ok total ∧
          entry = formatLogEntry sc.time sc.address url total := by
  cases hr : (relay sc.memory sc.responses).result with
  | error e =>
    refine ⟨[], ?_, by simp, fun _ h => by cases h⟩
    rw [List.append_nil]
    exact Prog.calls_bind_error hr
  | ok total =>
    refine ⟨_, Prog.calls_bind_ok hr, ?_, fun entry h => ⟨total, rfl, ?_⟩⟩
    · cases m
      · exact (writeLog_closes [.client] rfl).1
      · exact (writeLog_closes [.client] rfl).1
      · exact (writeLog_closes [.server, .client] rfl).1
    · cases m
      · exact (writeLog_closes [.client] rfl).2 entry h
      · exact (writeLog_closes [.client] rfl).2 entry h
      · exact (writeLog_closes [.server, .client] rfl).2 entry h

/-- What is read from the server, if that is what the relay reads. -/
theorem received_append_of_relays (cs : List Call) {ds : List Call}
    (h : ∀ c ∈ ds, c.relays = false) :
    received .server (cs ++ ds) = received .server cs ∧
      written .client (cs ++ ds) = written .client cs := by
  have hds : received .server ds = [] ∧ written .client ds = [] := by
    induction ds with
    | nil => exact ⟨rfl, rfl⟩
    | cons c ds ih =>
      obtain ⟨hc, hds⟩ := List.forall_mem_cons.1 h
      obtain ⟨hr, hw⟩ := ih hds
      cases c with
      | read fd n r =>
        rw [received_cons_read, written_cons_read, hr, hw]
        cases fd <;> first | exact ⟨rfl, rfl⟩ | cases hc
      | write fd d n =>
        rw [received_cons_write, written_cons_write, hr, hw]
        cases fd <;> first | exact ⟨rfl, rfl⟩ | cases hc
      | _ => exact ⟨hr, hw⟩
  rw [received_append, written_append, hds.1, hds.2, List.append_nil, List.append_nil]
  exact ⟨rfl, rfl⟩

namespace Fetches

variable {sc : Script} {l a : Locals} {request : List Byte}

/-- The server is read from and the client written to by the relay alone. -/
theorem calls (h : Fetches sc l a request) (m : Mode) :
    received .server (handle m sc).calls =
        received .server (relay sc.memory sc.responses).calls ∧
      written .client (handle m sc).calls =
        written .client (relay sc.memory sc.responses).calls := by
  obtain ⟨rest, hcalls, hrest, -⟩ := finishGet_split m sc a.url
  obtain ⟨hr, hw⟩ := received_append_of_relays
    (relay sc.memory sc.responses).calls hrest
  rw [h.handle_eq, Prog.calls_callAll_bind, hcalls, received_append, written_append, hr, hw]
  exact ⟨rfl, rfl⟩

/-- A count that is written to the client is written by the relay. -/
theorem write_mem_iff (h : Fetches sc l a request) (m : Mode) {data : List Byte} {count : ℤ} :
    .write .client data count ∈ (handle m sc).calls ↔
      .write .client data count ∈ (relay sc.memory sc.responses).calls := by
  obtain ⟨rest, hcalls, hrest, -⟩ := finishGet_split m sc a.url
  have hno : Call.write .client data count ∉ rest := fun hc =>
    absurd (hrest _ hc) (by simp [Call.relays])
  rw [h.handle_eq, Prog.calls_callAll_bind, hcalls]
  simp [hno]

theorem entry (h : Fetches sc l a request) (m : Mode) {entry : List Byte}
    (he : entry ∈ logEntries (handle m sc).calls) : ∃ total,
      (relay sc.memory sc.responses).result = .ok total ∧
        entry = formatLogEntry sc.time sc.address a.url total := by
  obtain ⟨rest, hcalls, -, hentries⟩ := finishGet_split m sc a.url
  rw [h.handle_eq, Prog.calls_callAll_bind, hcalls, logEntries_append, logEntries_append,
    logEntries_relays (Relays.relay _ _).calls] at he
  exact hentries entry he

end Fetches

/-- Nothing undefined is done, no negative count is written to the client, and the size for
the log entry is the number of bytes read from the server. -/
structure Accounts (m : Mode) (sc : Script) (url : List Byte) : Prop where
  defined : (handle m sc).result ≠ .error .undefined
  counts : ∀ data count, .write .client data count ∈ (handle m sc).calls → 0 ≤ count
  size : ∀ total, (relay sc.memory sc.responses).result = .ok total →
    total = (received .server (handle m sc).calls).length
  entries : ∀ entry ∈ logEntries (handle m sc).calls, entry =
    formatLogEntry sc.time sc.address url (received .server (handle m sc).calls).length

/-- A transfer below 2 GB is accounted for if and only if no `read` fails whose result is
used unseen, and nothing undefined is done. -/
theorem accounting_iff {sc : Script} {l a : Locals} {request : List Byte} (m : Mode)
    (h : Fetches sc l a request) (hsum : (received .server (handle m sc).calls).length ≤ INT_MAX) :
    Accounts m sc a.url ↔ ¬UncheckedError sc.memory sc.responses ∧ ¬Undefined m sc := by
  constructor
  · intro haccounts
    refine ⟨fun herror => ?_, fun hundefined =>
      haccounts.defined (handle_undefined_iff.2 hundefined)⟩
    have hcount := haccounts.counts [] (-1) ((h.write_mem_iff m).2 herror.relay.1)
    omega
  · rintro ⟨herror, hdefined⟩
    have htallies := relay_tallies herror
    have hsize : ∀ total, (relay sc.memory sc.responses).result = .ok total →
        total = (received .server (handle m sc).calls).length := by
      intro total ht
      rw [(h.calls m).1] at hsum ⊢
      rw [htallies.total total ht, zero_add, toInt_eq_self_iff, FitsInt, INT_MIN]
      omega
    refine ⟨mt handle_undefined_iff.1 hdefined, fun data count hc => ?_, hsize,
      fun entry he => ?_⟩
    · exact htallies.counts data count ((h.write_mem_iff m).1 hc)
    · obtain ⟨total, ht, rfl⟩ := h.entry m he
      rw [hsize total ht]

/-- A request that is rewritten and sent has its response relayed. -/
theorem GetRequest.fetches (r : GetRequest) {host resource request : List Byte}
    (hurl : AcceptsGet r.url host resource) {sc : Script} (hreq : sc.request = .data r.text)
    (hconn : sc.lookup ∧ sc.socket ∧ sc.connect) (hsend : sc.send)
    (hrw : rewrite resource r.version r.text = some request) :
    ∃ l a, Fetches sc l a request ∧ a.url = r.url := by
  obtain ⟨l, port, hparse, hget, hlurl, hversion, haccept⟩ := r.scans hurl hreq
  refine ⟨l, _, ⟨hreq ▸ r.count_pos, ⟨hparse, hget, haccept, hconn.1, hconn.2.1, hconn.2.2⟩, ?_,
    hsend⟩, hlurl⟩
  rw [ReadResult.cstr_stored hreq r.no_nul, hversion]
  exact hrw

theorem plainRequest_fetches (responses : List ReadResult) : ∃ l a,
    Fetches { quietScript plainRequest.text with responses := responses } l a plainRequest.rest ∧
      a.url = plainRequest.url := by
  have hurl : AcceptsGet plainRequest.url (bytes "a") (bytes "/") := .inr ⟨by decide, by decide⟩
  exact plainRequest.fetches hurl rfl ⟨rfl, rfl, rfl⟩ rfl
    (plainRequest.rewrite_of_no_header hurl.length_le (by decide))

/-- A response of five bytes. -/
theorem accounting_iff_hello : Accounts .thread { quietScript plainRequest.text with
    responses := [.data (bytes "hello")] } plainRequest.url := by
  obtain ⟨l, a, h, hurl⟩ := plainRequest_fetches [.data (bytes "hello")]
  rw [← hurl]
  have hserved : (handle .thread { quietScript plainRequest.text with
      responses := [.data (bytes "hello")] }).result = .ok () := by decide +kernel
  refine (accounting_iff .thread h ?_).2 ⟨by simp [UncheckedError], fun hundefined => ?_⟩
  · rw [(h.calls .thread).1, relay_of_ne (by decide)]
    decide
  · rw [handle_undefined_iff.2 hundefined] at hserved
    cases hserved

/-- A server that resets the connection before it answers. -/
theorem accounting_reset : ¬∀ (m : Mode) (sc : Script) (l a : Locals) (request : List Byte),
    Fetches sc l a request → (received .server (handle m sc).calls).length ≤ INT_MAX →
    Accounts m sc a.url := by
  intro hall
  obtain ⟨l, a, h, -⟩ := plainRequest_fetches [.error]
  have hsum : (received .server (handle .thread { quietScript plainRequest.text with
      responses := [.error] }).calls).length ≤ INT_MAX := by
    rw [(h.calls .thread).1]
    decide
  have hsize := (hall .thread _ l a _ h hsum).size (-1) rfl
  omega

/-! ## The session of a CONNECT request -/

/-- The loop passes on what it reads, and counts it if it is left. -/
theorem pollLoop_passesOn {m : Mode} {total total' : Totals} {answers : List PollAnswer}
    (h : (pollLoop m total answers).result = .ok total') :
    PassesOn (pollLoop m total answers).calls total total' := by
  induction answers generalizing total with
  | nil => cases h
  | cons answer answers ih =>
    have hiter := iteration_passesOn total answer
    rcases pollLoop_cons m total answer answers with ⟨s, hs, heq⟩ | ⟨t, ht, heq⟩ |
      ⟨e, fds, -, -, -, heq⟩ <;> rw [heq] at h ⊢
    · rw [hs] at hiter
      exact hiter.append (ih h)
    · rw [ht] at hiter
      obtain rfl := Except.ok.inj h
      exact hiter
    · exact absurd h (m.result_giveUp fds total')

/-- A CONNECT request whose tunnel is left and logged. -/
structure ServesConnect (m : Mode) (sc : Script) (l a : Locals) (total : Totals) : Prop where
  tunnels : m ≠ .sequential
  read : 0 < sc.request.count
  asks : AsksTunnel sc l
  accepted : scanConnectUrl l = some (true, a)
  lookup : sc.lookup = true
  socket : sc.socket = true
  connect : sc.connect = true
  left : (pollLoop m (fun _ => 0) sc.polls).result = .ok total
  log : sc.log = true
  entry : (formatConnectEntry sc.time sc.address a.url (toInt total.sent)
    (toInt total.recv)).length < 1024

/-- The calls of a CONNECT request : those up to the reply, the loop, the log entry, and
the descriptors closed. -/
theorem ServesConnect.calls {m : Mode} {sc : Script} {l a : Locals} {total : Totals}
    (h : ServesConnect m sc l a total) : ∃ fds : List Fd, (handle m sc).calls =
      [.read .client 9999 sc.request, .getaddrinfo a.host (bytes "https") true, .socket true,
        .connect true, .freeaddrinfo, .write .client ESTABLISHED ESTABLISHED.length] ++
      ((pollLoop m (fun _ => 0) sc.polls).calls ++
        ((writeLog m true (formatConnectEntry sc.time sc.address a.url (toInt total.sent)
          (toInt total.recv))).calls ++ fds.map .close)) := by
  have hread : decide (0 < sc.request.count) = true := decide_eq_true h.read
  have hwrite := (writeLog_ok (m := m) (u := ())).2 ⟨rfl, h.entry⟩
  refine ⟨if m = .thread then [.server, .client] else [.server, .client, .proxy], ?_⟩
  simp only [handle, Prog.calls_call_bind, hread, Mode.require_true, Prog.pure_bind, h.asks.parsed,
    orUndefined, h.asks.notGet, Bool.false_eq_true, if_false, h.tunnels, ne_eq, not_false_eq_true,
    h.asks.connects, and_self, if_true, handleConnect, h.accepted,
    connectServer_of_ok h.lookup h.socket h.connect, Prog.calls_callAll_bind, finishConnect,
    Prog.calls_bind_ok h.left, h.log, Prog.calls_bind_ok hwrite]
  cases m <;> rfl

theorem logEntries_of_not_logs {calls : List Call} (h : ∀ c ∈ calls, c.logs = false) :
    logEntries calls = [] := by
  induction calls with
  | nil => rfl
  | cons c calls ih =>
    obtain ⟨hc, hcalls⟩ := List.forall_mem_cons.1 h
    have hnone : logEntries [c] = [] := by
      cases c with
      | write fd data count => cases fd <;> first | rfl | cases hc
      | _ => first | rfl | cases hc
    rw [← List.singleton_append, logEntries_append, hnone, ih hcalls]
    rfl

theorem logEntries_close (fds : List Fd) : logEntries (fds.map .close) = [] := by
  rw [logEntries, seen_close, List.filterMap_nil]

/-! ## The counts that are printed -/

/-- The one entry of a GET request that is served to the end. -/
theorem ServesGet.logEntries {sc : Script} {l a : Locals} {request : List Byte} {total : ℤ}
    (h : ServesGet sc l a request total) (m : Mode) : logEntries (handle m sc).calls =
      [formatLogEntry sc.time sc.address a.url total] := by
  have hwrite : NetCentric.logEntries
      (writeLog m true (formatLogEntry sc.time sc.address a.url total)).calls =
        [formatLogEntry sc.time sc.address a.url total] := by
    rw [NetCentric.logEntries, Same.seen_writeLog m h.entry]
    rfl
  rw [h.calls m]
  simp only [logEntries_append, logEntries_relays (Relays.relay _ _).calls, hwrite]
  cases m <;> rfl

/-- The one entry of a CONNECT request whose tunnel is left. -/
theorem ServesConnect.logEntries {m : Mode} {sc : Script} {l a : Locals} {total : Totals}
    (h : ServesConnect m sc l a total) : logEntries (handle m sc).calls =
      [formatConnectEntry sc.time sc.address a.url (toInt total.sent) (toInt total.recv)] := by
  obtain ⟨fds, hcalls⟩ := h.calls
  rw [hcalls]
  simp only [logEntries_append, logEntries_of_not_logs (pollLoop_not_logs _ _ _), logEntries_close]
  rw [NetCentric.logEntries, NetCentric.logEntries, Same.seen_writeLog m h.entry]
  rfl

/-- What a tunnel passes on is what its loop does, and the counters are its lengths. -/
theorem ServesConnect.relayed {m : Mode} {sc : Script} {l a : Locals} {total : Totals}
    (h : ServesConnect m sc l a total) :
    total.sent = (written .server (handle m sc).calls).length ∧
      total.recv = (received .server (handle m sc).calls).length := by
  obtain ⟨fds, hcalls⟩ := h.calls
  have hpasses := pollLoop_passesOn h.left
  have hreceived : received .server (writeLog m true (formatConnectEntry sc.time sc.address a.url
      (toInt total.sent) (toInt total.recv))).calls = [] :=
    (received_append_of_relays [] (relays_writeLog m true _)).1
  have hwritten : written .server (handle m sc).calls =
      written .server (pollLoop m (fun _ => 0) sc.polls).calls := by
    rw [hcalls]
    simp only [written_append, written_server_writeLog, written_close, List.append_nil]
    rfl
  have hread : received .server (handle m sc).calls =
      received .server (pollLoop m (fun _ => 0) sc.polls).calls := by
    rw [hcalls]
    simp only [received_append, hreceived, received_close, List.append_nil]
    rfl
  rw [hwritten, hread]
  refine ⟨?_, ?_⟩
  · have hput : written .server (pollLoop m (fun _ => 0) sc.polls).calls =
        received .client (pollLoop m (fun _ => 0) sc.polls).calls := hpasses.put 0
    rw [Totals.sent, hpasses.count 0, hput, zero_add]
    rfl
  · rw [Totals.recv, hpasses.count 1, zero_add]
    rfl

theorem formatLogEntry_inj {time url : List Byte} {host : BitVec 32} {x y : ℤ} :
    formatLogEntry time host url x = formatLogEntry time host url y ↔ x = y := by
  simp only [formatLogEntry, List.append_left_inj, List.append_right_inj]
  exact ⟨decimal_injective, congrArg decimal⟩

theorem slash_not_mem_decimal (x : ℤ) : 47 ∉ decimal x := by
  intro h
  rcases mem_decimal h with h | h
  · exact absurd h (by decide)
  · exact absurd h (by decide)

theorem formatConnectEntry_inj {time url : List Byte} {host : BitVec 32} {s r s' r' : ℤ} :
    formatConnectEntry time host url s r = formatConnectEntry time host url s' r' ↔
      s = s' ∧ r = r' := by
  refine ⟨fun h => ?_, fun ⟨hs, hr⟩ => by rw [hs, hr]⟩
  simp only [formatConnectEntry, List.append_left_inj] at h
  simp only [List.append_assoc, List.append_right_inj] at h
  rw [bytes_slash, List.singleton_append, List.singleton_append] at h
  obtain ⟨hs, -, hr⟩ := (List.append_cons_inj_of_notMem (slash_not_mem_decimal s)
    (slash_not_mem_decimal r)).1 h
  exact ⟨decimal_injective hs, decimal_injective hr⟩

/-- The total of a GET request that is served is what was passed on, up to a wrap. -/
theorem ServesGet.fetches {sc : Script} {l a : Locals} {request : List Byte} {total : ℤ}
    (h : ServesGet sc l a request total) : Fetches sc l a request :=
  ⟨h.read, ⟨h.parsed, h.get, h.accepted, h.lookup, h.socket, h.connect⟩, h.rewritten, h.send⟩

theorem ServesGet.total_eq_iff {sc : Script} {l a : Locals} {request : List Byte} {total : ℤ}
    (h : ServesGet sc l a request total) (m : Mode) :
    total = (written .client (handle m sc).calls).length ↔
      ¬UncheckedError sc.memory sc.responses ∧
        (received .server (handle m sc).calls).length ≤ INT_MAX := by
  obtain ⟨hreceived, hwritten⟩ := h.fetches.calls m
  rw [hreceived, hwritten]
  by_cases herror : UncheckedError sc.memory sc.responses
  · obtain ⟨-, hput, hresult⟩ := herror.relay
    rw [h.relayed] at hresult
    obtain rfl := Except.ok.inj hresult
    rw [hput]
    exact iff_of_false (by omega) fun hno => hno.1 herror
  · have htallies := relay_tallies herror
    rw [htallies.put, htallies.total total h.relayed, zero_add, toInt_eq_self_iff, FitsInt, INT_MIN,
      and_iff_right herror]
    omega

/-- The counts in the log entry of a session are the bytes that it passed on if and only if
no error went unseen and an `int` holds the counts. -/
theorem logged_counts_iff (m : Mode) (sc : Script) :
    (∀ l a request total, ServesGet sc l a request total →
      (logEntries (handle m sc).calls = [formatLogEntry sc.time sc.address a.url
          (written .client (handle m sc).calls).length] ↔
        ¬UncheckedError sc.memory sc.responses ∧
          (received .server (handle m sc).calls).length ≤ INT_MAX)) ∧
    ∀ l a total, ServesConnect m sc l a total →
      (logEntries (handle m sc).calls = [formatConnectEntry sc.time sc.address a.url
          (written .server (handle m sc).calls).length
          (received .server (handle m sc).calls).length] ↔
        (written .server (handle m sc).calls).length ≤ INT_MAX ∧
          (received .server (handle m sc).calls).length ≤ INT_MAX) := by
  constructor
  · intro l a request total h
    rw [h.logEntries m, List.singleton_inj, formatLogEntry_inj, h.total_eq_iff m]
  · intro l a total h
    obtain ⟨hsent, hrecv⟩ := h.relayed
    rw [h.logEntries, List.singleton_inj, formatConnectEntry_inj, hsent, hrecv, toInt_eq_self_iff,
      toInt_eq_self_iff, FitsInt, FitsInt, INT_MIN]
    omega

/-- A response that is relayed for the plain request is logged. -/
theorem plainRequest_serves {responses : List ReadResult} {total : ℤ}
    (hrelay : (relay .clear responses).result = .ok total) (htotal : FitsInt total) : ∃ l a,
    ServesGet { quietScript plainRequest.text with responses := responses } l a plainRequest.rest
      total ∧ a.url = plainRequest.url := by
  obtain ⟨l, a, h, hurl⟩ := plainRequest_fetches responses
  have hentry : (formatLogEntry [] 0 a.url total).length < 1024 := by
    have haddress := addressWidth_le 0
    have hwidth := width_le_of_fitsInt htotal
    have hlen := plainRequest.url_short
    have hshort : plainRequest.url.length = 9 := by decide
    rw [length_formatLogEntry, hurl, hshort, List.length_nil]
    omega
  exact ⟨l, a, ⟨h.read, h.reach.parsed, h.reach.get, h.reach.accepted, rfl, rfl, rfl, h.rewritten,
    rfl, hrelay, rfl, hentry⟩, hurl⟩

theorem tunnelRequest_serves : ∃ l a, ServesConnect .thread
    { quietScript tunnelRequest with polls := [.timeout] } l a (fun _ => 0) ∧
      a.url = bytes "a:443" := by
  have hwords : words (cstr tunnelRequest) =
      [bytes "CONNECT", bytes "a:443", bytes "HTTP/1.1"] := by decide
  have hparse : scanRequest Memory.clear.stale (cstr tunnelRequest) = some { Memory.clear.stale with
      method := bytes "CONNECT", url := bytes "a:443", version := bytes "HTTP/1.1" } := by
    rw [scanRequest_eq, hwords]
    exact if_pos (by decide)
  have haccept := scanConnectUrl_of_host (l := { Memory.clear.stale with
    method := bytes "CONNECT", url := bytes "a:443", version := bytes "HTTP/1.1" })
    (by decide) (by decide : IsHost (bytes "a")) (endsHost_cons (t := bytes "443")
    (by decide : 58 ∈ bytes ":/")) (by decide)
  exact ⟨_, _, ⟨by simp, by decide, ⟨hparse, by decide, by decide⟩, haccept, rfl, rfl, rfl, rfl,
    rfl, by decide⟩, rfl⟩

/-- A response of five bytes, and a tunnel in which nothing is sent. -/
theorem logged_counts_iff_small :
    (∀ sc, sc = { quietScript plainRequest.text with responses := [.data (bytes "hello")] } →
      logEntries (handle .thread sc).calls =
        [formatLogEntry [] 0 plainRequest.url (written .client (handle .thread sc).calls).length]) ∧
    ∀ sc, sc = { quietScript tunnelRequest with polls := [.timeout] } →
      logEntries (handle .thread sc).calls = [formatConnectEntry [] 0 (bytes "a:443")
        (written .server (handle .thread sc).calls).length
        (received .server (handle .thread sc).calls).length] := by
  constructor
  · rintro sc rfl
    have hrelay : (relay .clear [.data (bytes "hello")]).result = .ok 5 := by
      rw [relay_of_ne (by decide)]
      decide
    obtain ⟨l, a, h, hurl⟩ := plainRequest_serves hrelay (by decide)
    rw [← hurl]
    refine ((logged_counts_iff .thread _).1 l a _ _ h).2 ⟨by simp [UncheckedError], ?_⟩
    rw [(h.fetches.calls .thread).1, relay_of_ne (by decide)]
    decide
  · rintro sc rfl
    obtain ⟨l, a, h, hurl⟩ := tunnelRequest_serves
    obtain ⟨hsent, hrecv⟩ := h.relayed
    rw [← hurl]
    refine ((logged_counts_iff .thread _).2 l a _ h).2 ⟨?_, ?_⟩
    · rw [← hsent]
      decide
    · rw [← hrecv]
      decide

/-- A server that sends the same piece over and over. -/
theorem chunkLoop_replicate {piece : List Byte} (hne : piece ≠ []) (n : ℕ) (response : List Byte)
    (total : ℤ) : (∃ t, (chunkLoop response total
        (List.replicate n (.data piece) ++ [.data []])).result = .ok t) ∧
      (received .server (chunkLoop response total
        (List.replicate n (.data piece) ++ [.data []])).calls).length = n * piece.length := by
  induction n generalizing response total with
  | zero => exact ⟨⟨total, rfl⟩, by simp [chunkLoop, ReadResult.count, received_cons_read,
      ReadResult.stored]⟩
  | succ n ih =>
    have hpos : 0 < (ReadResult.data piece).count := ReadResult.count_pos_iff.2 hne
    rw [List.replicate_succ, List.cons_append, chunkLoop]
    simp only [if_pos hpos, Prog.calls_call_bind, Prog.result_call_bind, received_cons_read,
      received_cons_write, if_true, List.length_append]
    obtain ⟨hok, hlen⟩ := ih (overwrite response piece) (toInt (total + piece.length))
    refine ⟨hok, ?_⟩
    have hstored : (ReadResult.data piece).stored = piece := rfl
    rw [hstored]
    refine (congrArg (piece.length + ·) hlen).trans ?_
    rw [Nat.succ_mul, Nat.add_comm]

/-- A full array without a length. -/
theorem relay_replicate {piece : List Byte} (hlen : piece.length = 1024)
    (hpiece : ∀ c ∈ piece, c = 97) (n : ℕ) : ∃ total,
    (relay .clear (.data piece :: (List.replicate n (.data piece) ++ [.data []]))).result =
        .ok total ∧ FitsInt total ∧
      (received .server (relay .clear (.data piece ::
        (List.replicate n (.data piece) ++ [.data []]))).calls).length = (n + 1) * 1024 := by
  have hne : piece ≠ [] := List.length_pos_iff.1 (by omega)
  have htext : responseText .clear piece = piece := by
    rw [responseText, Memory.clear, List.append_nil]
    exact cstr_of_no_nul fun h0 => absurd (hpiece 0 h0) (by decide)
  have hnone : strstr piece (bytes "Content-Length:") = none := by
    refine strstr_eq_none_iff.2 fun hin => ?_
    exact absurd (hpiece 58 (hin.subset (by decide))) (by decide)
  obtain ⟨⟨total, hresult⟩, hreceived⟩ := chunkLoop_replicate hne n piece (toInt piece.length)
  have htallies : Tallies (toInt piece.length) (chunkLoop piece (toInt piece.length)
      (List.replicate n (.data piece) ++ [.data []])) :=
    .chunkLoop (fitsInt_toInt _) _
  have hfit := htallies.total total hresult
  have heq : relay .clear (.data piece :: (List.replicate n (.data piece) ++ [.data []])) = (do
      Prog.call (.read .server 1024 (.data piece))
      Prog.call (.write .client piece piece.length)
      chunkLoop piece (toInt piece.length) (List.replicate n (.data piece) ++ [.data []])) := by
    rw [relay_of_eq hlen]
    simp only [htext, hnone]
  rw [heq]
  refine ⟨total, hresult, hfit ▸ fitsInt_toInt _, ?_⟩
  simp only [Prog.calls_call_bind, received_cons_read, received_cons_write, if_true,
    List.length_append, hreceived]
  have hstored : (ReadResult.data piece).stored = piece := rfl
  rw [hstored, hlen]
  omega

/-- A response of 2 GB. -/
theorem logged_counts_wrap : ¬∀ (m : Mode) (sc : Script),
    (∀ l a request total, ServesGet sc l a request total →
      logEntries (handle m sc).calls = [formatLogEntry sc.time sc.address a.url
        (written .client (handle m sc).calls).length]) ∧
    ∀ l a total, ServesConnect m sc l a total →
      logEntries (handle m sc).calls = [formatConnectEntry sc.time sc.address a.url
        (written .server (handle m sc).calls).length
        (received .server (handle m sc).calls).length] := by
  intro hall
  have hwrap : ∀ n : ℕ, ((n + 1) * 1024 : ℕ) ≤ INT_MAX := by
    intro n
    obtain ⟨piece, hlen, hpiece⟩ : ∃ piece : List Byte, piece.length = 1024 ∧ ∀ c ∈ piece, c = 97 :=
      ⟨List.replicate 1024 97, List.length_replicate, fun c hc => (List.mem_replicate.1 hc).2⟩
    obtain ⟨total, hresult, hfit, hreceived⟩ := relay_replicate hlen hpiece n
    obtain ⟨l, a, h, -⟩ := plainRequest_serves hresult hfit
    have hentries := (hall .thread _).1 l a _ _ h
    rw [h.logEntries .thread, List.singleton_inj, formatLogEntry_inj, h.total_eq_iff .thread,
      (h.fetches.calls .thread).1] at hentries
    rw [← hreceived]
    exact hentries.2
  exact absurd (hwrap 2097151) (by decide)

end NetCentric
