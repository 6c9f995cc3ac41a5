import NetCentric.SentRequest
import NetCentric.Undefined

/-!
# What a thread gives back

A thread has the client's descriptor from the start, and may get a socket, an address
list and a log stream on the way. `ledger` is what a run does about these four, and
`GivesBack` says that each was given back once if it was there, and not otherwise.

`Exits` gives a part of the thread the ledgers it can leave, one list for going on and
one for returning, and the rules for a sequence put the lists together. The table of a
whole thread is finite (`threadHandle_exits`), and `gives_back_iff` reads the answer off
it : a thread gives everything back unless `socket`, `connect` or `fopen` fails.
-/

namespace NetCentric

/-- One call about a resource. -/
inductive Entry
  | lookup (ok : Bool)
  | freeList
  | socket (ok : Bool)
  | connect (ok : Bool)
  | openLog (ok : Bool)
  | closeLog
  | closeClient
  | closeServer
  deriving DecidableEq

/-- The entry of a call, if it is about a resource. -/
def Call.entry : Call → Option Entry
  | .getaddrinfo _ _ ok => some (.lookup ok)
  | .freeaddrinfo => some .freeList
  | .socket ok => some (.socket ok)
  | .connect ok => some (.connect ok)
  | .fopen ok => some (.openLog ok)
  | .fclose => some .closeLog
  | .close .client => some .closeClient
  | .close .server => some .closeServer
  | _ => none

/-- What a run does about the resources. -/
def ledger (calls : List Call) : List Entry :=
  calls.filterMap Call.entry

/-- What a thread has to give back. -/
inductive Resource
  | client
  | server
  | addresses
  | log
  deriving DecidableEq

/-- How often the resource is obtained. The client comes with the thread. -/
def obtained (r : Resource) (entries : List Entry) : ℕ :=
  match r with
  | .client => 1
  | .server => entries.count (.socket true)
  | .addresses => entries.count (.lookup true)
  | .log => entries.count (.openLog true)

/-- How often the resource is given back. -/
def returned (r : Resource) (entries : List Entry) : ℕ :=
  match r with
  | .client => entries.count .closeClient
  | .server => entries.count .closeServer
  | .addresses => entries.count .freeList
  | .log => entries.count .closeLog

/-- Each resource is given back once if it was obtained, and not otherwise. -/
def GivesBack (entries : List Entry) : Prop :=
  ∀ r, obtained r entries ≤ 1 ∧ returned r entries = obtained r entries

instance (entries : List Entry) : Decidable (GivesBack entries) :=
  decidable_of_iff (∀ r ∈ [Resource.client, .server, .addresses, .log],
    obtained r entries ≤ 1 ∧ returned r entries = obtained r entries)
    ⟨fun h r => h r (by cases r <;> decide), fun h r _ => h r⟩

/-- No call to `socket`, `connect` or `fopen` fails. -/
def NoFailure (entries : List Entry) : Prop :=
  .socket false ∉ entries ∧ .connect false ∉ entries ∧ .openLog false ∉ entries

instance (entries : List Entry) : Decidable (NoFailure entries) :=
  inferInstanceAs (Decidable (_ ∧ _))

/-! ## The ledgers of a part -/

@[simp] theorem ledger_nil : ledger [] = [] :=
  rfl

@[simp] theorem ledger_append (cs ds : List Call) : ledger (cs ++ ds) = ledger cs ++ ledger ds :=
  List.filterMap_append

theorem ledger_cons (c : Call) (cs : List Call) : ledger (c :: cs) = ledger [c] ++ ledger cs :=
  ledger_append [c] cs

theorem ledger_eq_nil {calls : List Call} (h : ∀ c ∈ calls, c.entry = none) : ledger calls = [] :=
  List.filterMap_eq_nil_iff.2 h

/-- A part of a thread leaves one of these ledgers if it goes on, and one of those if it
returns. -/
structure Exits {α : Type} (p : Handler α) (goOn return' : List (List Entry)) : Prop where
  ok : ∀ a, p.result = .ok a → ledger p.calls ∈ goOn
  returned : p.result = .error .returned → ledger p.calls ∈ return'

namespace Exits

variable {α β : Type} {goOn return' : List (List Entry)}

/-- A part that does nothing about the resources and does not return. -/
theorem silent {p : Handler α} (hcalls : ∀ c ∈ p.calls, c.entry = none)
    (hresult : p.result ≠ .error .returned) : Exits p [[]] [] :=
  ⟨fun _ _ => List.mem_singleton.2 (ledger_eq_nil hcalls), fun h => absurd h hresult⟩

theorem callAll (cs : List Call) : Exits (Prog.callAll cs) [ledger cs] [] :=
  ⟨fun _ _ => List.mem_singleton_self _, fun h => by cases h⟩

theorem orUndefined (x : Option α) : Exits (orUndefined x) [[]] [] :=
  silent (fun c hc => by cases x <;> cases hc) (by cases x <;> simp [NetCentric.orUndefined])

theorem giveUp (fds : List Fd) : Exits (Mode.thread.giveUp fds : Handler α) []
    [ledger ((fds.filter (· ≠ .proxy)).map .close)] :=
  ⟨fun _ h => (by cases h), fun _ => (by simp [Mode.giveUp])⟩

theorem require (ok : Bool) (fds : List Fd) : Exits (Mode.thread.require ok fds) [[]]
    [ledger ((fds.filter (· ≠ .proxy)).map .close)] := by
  cases ok with
  | true => exact ⟨fun _ _ => List.mem_singleton_self _, fun h => by cases h⟩
  | false =>
    have h := giveUp (α := Unit) fds
    exact ⟨fun a ha => (by cases ha), h.returned⟩

/-- A sequence leaves a ledger of its first part and one of its second. -/
theorem bind {p : Handler α} {f : α → Handler β} {goOn₁ return₁ : List (List Entry)}
    (hp : Exits p goOn₁ return₁) (hf : ∀ a, Exits (f a) goOn return') :
    Exits (p >>= f) (goOn₁.flatMap fun s => goOn.map (s ++ ·))
      (return₁ ++ goOn₁.flatMap fun s => return'.map (s ++ ·)) := by
  have hmem : ∀ {s t : List Entry} {ss ts : List (List Entry)}, s ∈ ss → t ∈ ts →
      s ++ t ∈ ss.flatMap fun s => ts.map (s ++ ·) := fun hs ht =>
    List.mem_flatMap.2 ⟨_, hs, List.mem_map_of_mem ht⟩
  cases hr : p.result with
  | ok a =>
    refine ⟨fun b hb => ?_, fun hb => ?_⟩
    · rw [Prog.result_bind_of_ok hr] at hb
      rw [Prog.calls_bind_ok hr, ledger_append]
      exact hmem (hp.ok a hr) ((hf a).ok b hb)
    · rw [Prog.result_bind_of_ok hr] at hb
      rw [Prog.calls_bind_ok hr, ledger_append]
      exact List.mem_append_right _ (hmem (hp.ok a hr) ((hf a).returned hb))
  | error e =>
    refine ⟨fun b hb => ?_, fun hb => ?_⟩
    · rw [Prog.result_bind_error hr] at hb
      cases hb
    · rw [Prog.result_bind_error hr] at hb
      rw [Prog.calls_bind_error hr]
      obtain rfl := Except.error.inj hb
      exact List.mem_append_left _ (hp.returned hr)

/-- A call whose failure makes the thread return. -/
theorem attempt (c : Bool → Call) (ok : Bool) (fds : List Fd) {f : Unit → Handler β}
    (hf : ∀ u, Exits (f u) goOn return') :
    Exits (do
      Prog.call (c ok)
      Mode.thread.require ok fds
      f ()) (goOn.map (ledger [c true] ++ ·))
      ((ledger [c false] ++ ledger ((fds.filter (· ≠ .proxy)).map .close)) ::
        return'.map (ledger [c true] ++ ·)) := by
  cases ok with
  | true =>
    have hcalls := ledger_cons (c true) (f ()).calls
    refine ⟨fun b hb => ?_, fun hb => List.mem_cons_of_mem _ ?_⟩
    · exact List.mem_map.2 ⟨_, (hf ()).ok b hb, hcalls.symm⟩
    · exact List.mem_map.2 ⟨_, (hf ()).returned hb, hcalls.symm⟩
  | false =>
    have hcalls := ledger_cons (c false) ((fds.filter (· ≠ .proxy)).map .close)
    refine ⟨fun b hb => (by cases hb), fun _ => List.mem_cons.2 (.inl (Eq.trans ?_ hcalls))⟩
    have hgive : (Mode.thread.giveUp fds >>= f).calls =
        (fds.filter (· ≠ .proxy)).map .close := by
      rw [Prog.calls_bind_error (Mode.thread.giveUp_result fds), Mode.giveUp]
      simp
    exact congrArg (fun cs => ledger (c false :: cs)) hgive

theorem relay (m : Memory) (responses : List ReadResult) : Exits (relay m responses) [[]] [] := by
  refine silent (fun c hc => ?_) fun hr => ?_
  · have hrelays := (Relays.relay m responses).calls c hc
    cases c <;> first | rfl | cases hrelays
  · rcases (Relays.relay m responses).stops _ hr with h | h <;> cases h

/-- The loop closes both descriptors before it returns, in one order or the other. -/
theorem pollLoop (total : Totals) (answers : List PollAnswer) :
    Exits (pollLoop .thread total answers) [[]]
      [[.closeClient, .closeServer], [.closeServer, .closeClient]] := by
  have hiter : ∀ total answer, ledger (iteration total answer).calls = [] := fun total answer =>
    ledger_eq_nil fun c hc => by
      have htransfers := iteration_transfers total answer c hc
      cases c <;> first | rfl | cases htransfers
  induction answers generalizing total with
  | nil => exact ⟨fun _ h => (by cases h), fun h => (by cases h)⟩
  | cons answer answers ih =>
    rw [NetCentric.pollLoop]
    cases hr : (iteration total answer).result with
    | ok s =>
      rw [Prog.handle_of_ok hr]
      refine ⟨fun a ha => ?_, fun h => ?_⟩
      · rw [ledger_append, hiter, List.nil_append]
        exact (ih s.2).ok a ha
      · rw [ledger_append, hiter, List.nil_append]
        exact (ih s.2).returned h
    | error e =>
      rw [Prog.handle_of_error hr]
      obtain ⟨_ | _ | _, t⟩ := e
      · refine ⟨fun a ha => ?_, fun h => by cases h⟩
        rw [ledger_append, hiter]
        exact List.mem_singleton_self _
      · refine ⟨fun a ha => (by cases ha), fun _ => ?_⟩
        rw [ledger_append, hiter]
        exact List.mem_cons_self
      · refine ⟨fun a ha => (by cases ha), fun _ => ?_⟩
        rw [ledger_append, hiter]
        exact List.mem_cons_of_mem _ List.mem_cons_self

theorem writeLog (log : Bool) (logstring : List Byte) :
    Exits (writeLog .thread log logstring) [[.openLog true, .closeLog]]
      [[.openLog false, .closeClient]] := by
  have hprint : ∀ t : List Byte, Exits (Prog.callAll [.fprintf t, .mutexUnlock, .fclose])
      [[.closeLog]] [] := fun t => callAll _
  have hlock := bind (callAll [.mutexLock]) fun _ =>
    bind (orUndefined (inArray 1024 logstring)) hprint
  exact attempt .fopen log [.client, .proxy] fun _ => hlock

theorem connectServer (sc : Script) (host service : List Byte) :
    Exits (connectServer .thread sc host service)
      [[.lookup true, .socket true, .connect true, .freeList]]
      [[.lookup false, .closeClient], [.lookup true, .socket false, .closeClient],
        [.lookup true, .socket true, .connect false, .closeClient, .closeServer]] :=
  attempt (.getaddrinfo host service) sc.lookup [.client, .proxy] fun _ =>
    attempt .socket sc.socket [.client, .proxy] fun _ =>
    attempt .connect sc.connect [.client, .proxy, .server] fun _ => callAll [.freeaddrinfo]

end Exits

/-! ## The exits of a thread -/

/-- The server is reached. -/
def reached : List Entry :=
  [.lookup true, .socket true, .connect true, .freeList]

/-- What a thread does about the resources when it comes to its end. -/
def served : List Entry :=
  reached ++ [.openLog true, .closeLog, .closeServer, .closeClient]

/-- What it does when it returns early : on a request it does not take, without a server,
without an answer or in the tunnel, and without a log file. -/
def abandoned : List (List Entry) :=
  [[.closeClient],
    [.lookup false, .closeClient],
    [.lookup true, .socket false, .closeClient],
    [.lookup true, .socket true, .connect false, .closeClient, .closeServer],
    reached ++ [.closeClient, .closeServer],
    reached ++ [.closeServer, .closeClient],
    reached ++ [.openLog false, .closeClient]]

namespace Exits

theorem finishGet (sc : Script) (url : List Byte) :
    Exits (finishGet .thread sc url) [[.openLog true, .closeLog, .closeServer, .closeClient]]
      [[.openLog false, .closeClient]] := by
  have hclose : Exits (Prog.callAll [.close .server, .close .client])
      [[.closeServer, .closeClient]] [] := callAll _
  exact bind (relay _ _) fun _ => bind (writeLog _ _) fun _ => hclose

theorem finishConnect (sc : Script) (url : List Byte) :
    Exits (finishConnect .thread sc url) [[.openLog true, .closeLog, .closeServer, .closeClient]]
      [[.closeClient, .closeServer], [.closeServer, .closeClient],
        [.openLog false, .closeClient]] := by
  have hclose : Exits (Prog.callAll [.close .server, .close .client])
      [[.closeServer, .closeClient]] [] := callAll _
  have hreply : Exits (Prog.call (.write .client ESTABLISHED ESTABLISHED.length)) [[]] [] :=
    callAll [_]
  exact bind hreply fun _ => bind (pollLoop _ _) fun _ => bind (writeLog _ _) fun _ => hclose

/-- A wider table. -/
theorem mono {α : Type} {p : Handler α} {goOn return' goOn' return'' : List (List Entry)}
    (h : Exits p goOn return') (hgo : ∀ s ∈ goOn, s ∈ goOn')
    (hreturn : ∀ s ∈ return', s ∈ return'') : Exits p goOn' return'' :=
  ⟨fun a ha => hgo _ (h.ok a ha), fun hr => hreturn _ (h.returned hr)⟩

theorem handleGet (sc : Script) (l : Locals) (buffer : List Byte) :
    Exits (handleGet .thread sc l buffer) [served] abandoned := by
  have hsend : ∀ request : List Byte,
      Exits (Prog.call (.write .server request request.length)) [[]] [] := fun _ => callAll [_]
  have hrest : ∀ a : Locals, Exits (do
      NetCentric.connectServer .thread sc a.host (bytes "http")
      let request ← NetCentric.orUndefined (rewrite a.resource a.version buffer)
      Prog.call (.write .server request request.length)
      Mode.thread.require sc.send [.client, .proxy, .server]
      NetCentric.finishGet .thread sc a.url) _ _ := fun a =>
    bind (connectServer sc _ _) fun _ => bind (orUndefined _) fun request =>
      bind (hsend request) fun _ => bind (require _ _) fun _ => finishGet _ _
  have hall := bind (orUndefined (scanGetUrl l)) fun r =>
    bind (require r.1 [.client, .proxy]) fun _ => hrest r.2
  exact hall.mono (by decide) (by decide)

theorem handleConnect (sc : Script) (l : Locals) :
    Exits (handleConnect .thread sc l) [served] abandoned := by
  have hall := bind (orUndefined (scanConnectUrl l)) fun r =>
    bind (require r.1 [.client, .proxy]) fun _ =>
      bind (connectServer sc r.2.host (bytes "https")) fun _ => finishConnect sc r.2.url
  exact hall.mono (by decide) (by decide)

end Exits

/-- A thread that comes to its end or returns has left one of these ledgers. -/
theorem threadHandle_exits (sc : Script) : Exits (threadHandle sc) [served] abandoned := by
  have hread : Exits (Prog.call (.read .client 9999 sc.request)) [[]] [] := .callAll [_]
  have hrequire := Exits.require (0 < sc.request.count) [.client, .proxy]
  have hbranch : ∀ l : Locals, Exits (if strncasecmpEq l.method (bytes "GET") 3 then
      handleGet .thread sc l (cstr sc.request.stored)
    else if Mode.thread ≠ .sequential ∧ strncasecmpEq l.method (bytes "CONNECT") 7 then
      handleConnect .thread sc l
    else Mode.thread.giveUp [.client, .proxy]) [served] abandoned := by
    intro l
    split
    · exact .handleGet _ _ _
    split
    · exact .handleConnect _ _
    · exact (Exits.giveUp _).mono (by decide) (by decide)
  have hall := hread.bind fun _ => hrequire.bind fun _ =>
    (Exits.orUndefined (scanRequest sc.memory.stale (cstr sc.request.stored))).bind hbranch
  exact hall.mono (by decide) (by decide)

/-- A thread that has returned has given everything back if and only if no call to `socket`,
`connect` or `fopen` failed. -/
theorem gives_back_iff {sc : Script}
    (h : (threadHandle sc).result = .ok () ∨ (threadHandle sc).result = .error .returned) :
    GivesBack (ledger (threadHandle sc).calls) ↔ NoFailure (ledger (threadHandle sc).calls) := by
  have htable : ∀ entries ∈ served :: abandoned, GivesBack entries ↔ NoFailure entries := by decide
  refine htable _ (List.mem_cons.2 ?_)
  rcases h with h | h
  · exact .inl (List.mem_singleton.1 ((threadHandle_exits sc).ok () h))
  · exact .inr ((threadHandle_exits sc).returned h)

/-- A request that is served. -/
theorem gives_back_iff_served :
    GivesBack (ledger (threadHandle (quietScript plainRequest.text)).calls) :=
  (gives_back_iff (.inl (by decide +kernel))).2 (by decide +kernel)

/-- A server that refuses the connection. -/
theorem gives_back_refused : ¬∀ sc : Script,
    (threadHandle sc).result = .ok () ∨ (threadHandle sc).result = .error .returned →
    GivesBack (ledger (threadHandle sc).calls) := by
  intro h
  have hback := h { quietScript plainRequest.text with connect := false } (.inr (by decide +kernel))
  exact absurd hback (by decide +kernel)

end NetCentric
