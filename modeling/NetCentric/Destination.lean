import NetCentric.Url
import NetCentric.SentRequest

/-!
# Where a handler connects to

`destinations` is the host and the port of every connection of a run : those of the
address list that `getaddrinfo` returned last. The port of the list is the one of the
service it was asked for (`servicePort`).

A url names a host and may name a port (`named`). The handlers store the port and ask for
`http` or `https` in any case, so `destination_iff` holds for the ports of these two
services and for no other.
-/

open NetCentric.Scanf

namespace NetCentric

/-- The port of a service, for the services the handlers ask for and a number. -/
def servicePort (service : List Byte) : ℕ :=
  if service = bytes "http" then 80
  else if service = bytes "https" then 443
  else digitsValue service

/-- The host and port of each connection, for the address list found before. -/
def destinationsFrom : Option (List Byte × ℕ) → List Call → List (List Byte × ℕ)
  | _, [] => []
  | _, .getaddrinfo host service true :: calls =>
    destinationsFrom (some (host, servicePort service)) calls
  | some d, .connect _ :: calls => d :: destinationsFrom (some d) calls
  | found, _ :: calls => destinationsFrom found calls

/-- The host and port of each connection of a run. -/
def destinations (calls : List Call) : List (List Byte × ℕ) :=
  destinationsFrom none calls

/-- The port behind a host : the digits after a colon. -/
def namedPort (default : ℕ) : List Byte → ℕ
  | 58 :: t => if t.takeWhile isdigit = [] then default else digitsValue (t.takeWhile isdigit)
  | _ => default

/-- The host and the port that a text starts with. -/
def named (default : ℕ) (text : List Byte) : List Byte × ℕ :=
  (text.takeWhile (· ∉ bytes ":/"), namedPort default (text.dropWhile (· ∉ bytes ":/")))

/-- The handler accepts a request for the host and port at the start of `text`, which is
the url of a GET request after `http://` or the target of a CONNECT request. -/
inductive Asks (m : Mode) (sc : Script) : List Byte → ℕ → Prop
  | get {l a : Locals} : scanRequest sc.memory.stale (cstr sc.request.stored) = some l →
      strncasecmpEq l.method (bytes "GET") 3 = true → scanGetUrl l = some (true, a) →
      Asks m sc (l.url.drop (bytes "http://").length) 80
  | connect {l a : Locals} : m ≠ .sequential →
      scanRequest sc.memory.stale (cstr sc.request.stored) = some l →
      strncasecmpEq l.method (bytes "GET") 3 = false →
      strncasecmpEq l.method (bytes "CONNECT") 7 = true → scanConnectUrl l = some (true, a) →
      Asks m sc l.url 443

/-! ## The calls after the connection -/

/-- A call to the resolver or to `connect`. -/
def Call.finds : Call → Bool
  | .getaddrinfo .. | .connect _ => true
  | _ => false

theorem destinationsFrom_append (found : Option (List Byte × ℕ)) (cs : List Call)
    {ds : List Call} (h : ∀ c ∈ ds, c.finds = false) :
    destinationsFrom found (cs ++ ds) = destinationsFrom found cs := by
  have hnone : ∀ found, destinationsFrom found ds = [] := by
    induction ds with
    | nil => exact fun _ => rfl
    | cons c ds ih =>
      obtain ⟨hc, hds⟩ := List.forall_mem_cons.1 h
      intro found
      cases c <;> first | exact ih hds _ | cases hc
  induction cs generalizing found with
  | nil => exact hnone found
  | cons c cs ih =>
    cases c with
    | getaddrinfo host service ok => cases ok <;> exact ih _
    | connect ok =>
      cases found with
      | none => exact ih _
      | some d => exact congrArg (d :: ·) (ih _)
    | _ => exact ih _

/-- A part that asks for no address and makes no connection. -/
def FindsNothing {α : Type} (p : Handler α) : Prop :=
  ∀ c ∈ p.calls, c.finds = false

namespace FindsNothing

variable {α β : Type}

theorem bind {p : Handler α} {f : α → Handler β} (hp : FindsNothing p)
    (hf : ∀ a, FindsNothing (f a)) : FindsNothing (p >>= f) :=
  Prog.forall_calls_bind hp fun a _ => hf a

theorem call {c : Call} (hc : c.finds = false) : FindsNothing (Prog.call c) :=
  fun _ hd => List.mem_singleton.1 hd ▸ hc

theorem orUndefined (x : Option α) : FindsNothing (orUndefined x) :=
  fun c hc => by cases x <;> simp [NetCentric.orUndefined] at hc

theorem giveUp (m : Mode) (fds : List Fd) : FindsNothing (m.giveUp fds : Handler α) := by
  intro c hc
  obtain ⟨fd, -, rfl⟩ := m.close_of_mem_giveUp hc
  rfl

theorem require (m : Mode) (ok : Bool) (fds : List Fd) : FindsNothing (m.require ok fds) := by
  cases ok
  · exact giveUp m fds
  · exact fun c hc => by simp at hc

theorem relay (m : Memory) (responses : List ReadResult) : FindsNothing (relay m responses) := by
  intro c hc
  have hrelays := (Relays.relay m responses).calls c hc
  cases c <;> first | rfl | cases hrelays

theorem pollLoop (m : Mode) (total : Totals) (answers : List PollAnswer) :
    FindsNothing (pollLoop m total answers) := by
  intro c hc
  rcases pollLoop_transfers m total answers c hc with h | ⟨fd, rfl⟩
  · cases c <;> first | rfl | cases h
  · rfl

theorem writeLog (m : Mode) (log : Bool) (logstring : List Byte) :
    FindsNothing (writeLog m log logstring) := by
  intro c hc
  have hlog := writeLog_keepsLog m log logstring c hc
  cases c <;> first | rfl | cases hlog

theorem finishGet (m : Mode) (sc : Script) (url : List Byte) :
    FindsNothing (finishGet m sc url) := by
  refine bind (relay _ _) fun _ => bind (writeLog _ _ _) fun _ => ?_
  cases m <;> intro c hc <;> simp at hc
  · exact hc ▸ rfl
  · exact hc ▸ rfl
  · rcases hc with rfl | rfl <;> rfl

theorem finishConnect (m : Mode) (sc : Script) (url : List Byte) :
    FindsNothing (finishConnect m sc url) := by
  refine bind (call rfl) fun _ => bind (pollLoop _ _ _) fun _ => bind (writeLog _ _ _) fun _ => ?_
  cases m <;> intro c hc <;> simp at hc
  · rcases hc with rfl | rfl | rfl <;> rfl
  · rcases hc with rfl | rfl | rfl <;> rfl
  · rcases hc with rfl | rfl <;> rfl

end FindsNothing

/-! ## The connection -/

/-- What comes after a part and finds nothing does not change where the part connects to. -/
theorem destinations_bind {α β : Type} {p : Handler α} {f : α → Handler β}
    (hf : ∀ a, FindsNothing (f a)) : destinations (p >>= f).calls = destinations p.calls := by
  cases hp : p.result with
  | ok a =>
    rw [Prog.calls_bind_ok hp, destinations, destinationsFrom_append _ _ (hf a), destinations]
  | error e => rw [Prog.calls_bind_error hp]

/-- There is a connection if there is an address and a socket. -/
theorem destinations_connectServer (m : Mode) (sc : Script) (host service : List Byte) :
    destinations (connectServer m sc host service).calls =
      if sc.lookup ∧ sc.socket then [(host, servicePort service)] else [] := by
  simp only [connectServer]
  cases sc.lookup <;> cases sc.socket <;> cases sc.connect <;> cases m <;> rfl

/-- The host and port of a text that is split after the host. -/
theorem named_append {host rest : List Byte} (hhost : ∀ c ∈ host, c ∉ bytes ":/")
    (hrest : EndsHost rest) (default : ℕ) :
    named default (host ++ rest) = (host, namedPort default rest) := by
  obtain ⟨htake, hdrop⟩ := takeWhile_append (p := (· ∉ bytes ":/"))
    (fun c hc => decide_eq_true (hhost c hc)) fun c hc => decide_eq_false (not_not.2 (hrest c hc))
  rw [named, htake, hdrop]

/-- A handler connects to the host it is asked for, and to the port of its service. -/
theorem Asks.destinations {m : Mode} {sc : Script} {text : List Byte} {default : ℕ}
    (h : Asks m sc text default) (hread : 0 < sc.request.count) :
    destinations (handle m sc).calls =
      if sc.lookup ∧ sc.socket then [((named default text).1, default)] else [] := by
  have hcount : decide (0 < sc.request.count) = true := decide_eq_true hread
  have hskip : ∀ calls, NetCentric.destinations (.read .client 9999 sc.request :: calls) =
      NetCentric.destinations calls := fun _ => rfl
  cases h with
  | @get l a hparse hget haccept =>
    obtain ⟨hhost, c, t, hc, hurl⟩ := (accepts_of_scanGetUrl haccept).1.split
    have hport : servicePort (bytes "http") = 80 := by decide
    rw [hurl, List.drop_left, named_append hhost.2 (endsHost_cons hc), ← hport,
      ← destinations_connectServer m]
    simp only [handle, hcount, Mode.require_true, Prog.pure_bind, hparse, orUndefined, hget,
      if_true, handleGet, haccept]
    rw [Prog.calls_call_bind, hskip]
    refine destinations_bind fun _ => ?_
    exact .bind (.orUndefined _) fun _ => .bind (.call rfl) fun _ =>
      .bind (.require _ _ _) fun _ => .finishGet _ _ _
  | @connect l a hm hparse hget hconnect haccept =>
    obtain ⟨hhost, rest, hrest, hurl⟩ := split_of_scanConnectUrl haccept
    have hport : servicePort (bytes "https") = 443 := by decide
    rw [hurl, named_append hhost.2 hrest, ← hport, ← destinations_connectServer m]
    simp only [handle, hcount, Mode.require_true, Prog.pure_bind, hparse, orUndefined, hget,
      Bool.false_eq_true, if_false, hconnect, hm, ne_eq, not_false_eq_true, and_self, if_true,
      handleConnect, haccept]
    rw [Prog.calls_call_bind, hskip]
    exact destinations_bind fun _ => .finishConnect _ _ _

/-- Every connection of a handler goes to the host and port that the request names if and
only if that port is the standard one, or there is no connection at all. -/
theorem destination_iff {m : Mode} {sc : Script} {text : List Byte} {default : ℕ}
    (hread : 0 < sc.request.count) (h : Asks m sc text default) :
    (∀ d ∈ destinations (handle m sc).calls, d = named default text) ↔
      (sc.lookup = true → sc.socket = true → (named default text).2 = default) := by
  rw [h.destinations hread]
  by_cases hconn : sc.lookup ∧ sc.socket
  · rw [if_pos hconn]
    constructor
    · intro hd _ _
      exact (Prod.ext_iff.1 (hd _ (List.mem_singleton_self _))).2.symm
    · intro hport d hd
      rw [List.mem_singleton.1 hd]
      exact Prod.ext rfl (hport hconn.1 hconn.2).symm
  · rw [if_neg hconn]
    exact iff_of_true (by simp) fun hlookup hsocket => absurd ⟨hlookup, hsocket⟩ hconn

/-- A handler that accepts the url of a request is asked for what it names. -/
theorem GetRequest.asks (r : GetRequest) {host resource : List Byte}
    (hurl : AcceptsGet r.url host resource) {sc : Script} (hreq : sc.request = .data r.text)
    (m : Mode) : Asks m sc (r.url.drop (bytes "http://").length) 80 := by
  obtain ⟨l, port, hparse, hget, hlurl, -, haccept⟩ := r.scans hurl hreq
  rw [← hlurl]
  exact .get hparse hget haccept

/-- A request for a url with the port 8080. -/
def portRequest : GetRequest where
  url := bytes "http://a:8080/"
  version := bytes "HTTP/1.1"
  rest := bytes "\r\n"
  url_token := by decide
  version_token := plainRequest.version_token
  url_short := by decide
  version_short := plainRequest.version_short
  no_nul := by decide
  size := by decide

/-- A url without a port. -/
theorem destination_iff_plain :
    destinations (handle .thread (quietScript plainRequest.text)).calls ≠ [] ∧
      ∀ d ∈ destinations (handle .thread (quietScript plainRequest.text)).calls,
        d = (bytes "a", 80) := by
  have hurl : AcceptsGet plainRequest.url (bytes "a") (bytes "/") := .inr ⟨by decide, by decide⟩
  have hreq : (quietScript plainRequest.text).request = .data plainRequest.text := rfl
  have hasks := plainRequest.asks hurl hreq .thread
  have hnamed : named 80 (plainRequest.url.drop (bytes "http://").length) = (bytes "a", 80) := by
    decide
  constructor
  · rw [hasks.destinations plainRequest.count_pos, if_pos ⟨rfl, rfl⟩]
    exact List.cons_ne_nil _ _
  · rw [← hnamed]
    exact (destination_iff plainRequest.count_pos hasks).2 fun _ _ => congrArg Prod.snd hnamed

/-- A url with the port 8080 is fetched from port 80. -/
theorem destination_of_port : ¬∀ (m : Mode) (sc : Script) (text : List Byte) (default : ℕ),
    0 < sc.request.count → Asks m sc text default →
    ∀ d ∈ destinations (handle m sc).calls, d = named default text := by
  intro h
  have hurl : AcceptsGet portRequest.url (bytes "a") (bytes "/") :=
    .inl ⟨8080, by decide⟩
  have hreq : (quietScript portRequest.text).request = .data portRequest.text := rfl
  have hasks := portRequest.asks hurl hreq .thread
  have hdest := hasks.destinations portRequest.count_pos
  rw [if_pos ⟨rfl, rfl⟩] at hdest
  have hwrong := h _ _ _ _ portRequest.count_pos hasks _
    (by rw [hdest]; exact List.mem_singleton_self _)
  exact absurd (congrArg Prod.snd hwrong) (by decide)

end NetCentric
