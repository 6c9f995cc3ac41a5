import NetCentric.SentRequest
import NetCentric.Undefined

/-!
# The three implementations of GET

What a run does is seen by others in the names it looks up, the bytes it sends and the
entries it logs (`seen`). `Same` relates two handlers that do the same in this sense and
end alike, and it holds of the parts of two handlers one after the other.

The loop body of the sequential proxy, the child and `thread_handle` do the same with a
GET request, also if the arrays of the three hold different bytes before
(`same_handle`). The log file they open in two ways : `fopen` creates it, `open` in the
child does not. `agreement_iff` is when that makes no difference and none of the three does
what is undefined.
-/

open NetCentric.Scanf

namespace NetCentric

/-- What others see of a call. -/
inductive Seen
  | lookup (host service : List Byte)
  | sent (fd : Fd) (data : List Byte)
  | logged (entry : List Byte)

/-- What others see of a call. -/
def Call.seen : Call → Option Seen
  | .getaddrinfo host service _ => some (.lookup host service)
  | .write .log data _ | .fprintf data => some (.logged data)
  | .write fd data _ => some (.sent fd data)
  | _ => none

/-- What others see of a run. -/
def seen (calls : List Call) : List Seen :=
  calls.filterMap Call.seen

/-- The entries a run writes to the log. -/
def logEntries (calls : List Call) : List (List Byte) :=
  (seen calls).filterMap fun
    | .logged entry => some entry
    | _ => none

@[simp] theorem seen_nil : seen [] = [] :=
  rfl

@[simp] theorem seen_append (cs ds : List Call) : seen (cs ++ ds) = seen cs ++ seen ds :=
  List.filterMap_append

theorem logEntries_append (cs ds : List Call) :
    logEntries (cs ++ ds) = logEntries cs ++ logEntries ds := by
  rw [logEntries, seen_append, List.filterMap_append]
  rfl

/-- The relay logs nothing. -/
theorem logEntries_relays {calls : List Call} (h : ∀ c ∈ calls, c.relays = true) :
    logEntries calls = [] := by
  induction calls with
  | nil => rfl
  | cons c calls ih =>
    obtain ⟨hc, hcalls⟩ := List.forall_mem_cons.1 h
    have hnone : logEntries [c] = [] := by
      cases c with
      | write fd data count => cases fd <;> first | rfl | cases hc
      | _ => first | rfl | cases hc
    rw [← List.singleton_append, logEntries_append, hnone, ih hcalls]
    rfl

theorem seen_close (fds : List Fd) : seen (fds.map .close) = [] := by
  simp [seen, Call.seen]

theorem Mode.seen_giveUp {α : Type} (m : Mode) (fds : List Fd) :
    seen (m.giveUp fds : Handler α).calls = [] := by
  cases m <;> simp [giveUp, seen_close]

/-- The bytes sent are seen. -/
theorem written_eq_of_seen {fd : Fd} (hfd : fd ≠ .log) {cs ds : List Call}
    (h : seen cs = seen ds) : written fd cs = written fd ds := by
  have hseen : ∀ cs : List Call, written fd cs = (seen cs).flatMap fun
      | .sent f data => if f = fd then data else []
      | _ => [] := by
    intro cs
    have hlog : Fd.log ≠ fd := hfd.symm
    induction cs with
    | nil => rfl
    | cons c cs ih =>
      cases c with
      | write f data count => cases f <;> simp_all [written, seen, Call.seen]
      | _ => exact ih
  rw [hseen, hseen, h]

/-! ## Handlers that do the same -/

/-- Others see the same of both, and if one returns the other returns the same. -/
def Same {α : Type} (p q : Handler α) : Prop :=
  seen p.calls = seen q.calls ∧ ∀ a, p.result = .ok a ↔ q.result = .ok a

/-- Two connections that differ at most in what the variables hold before, in the log file
and in the answers of `poll`. -/
structure Alike (sc sc' : Script) : Prop where
  beyond : sc.memory.beyond = sc'.memory.beyond
  room : sc.memory.room = sc'.memory.room
  request : sc.request = sc'.request
  lookup : sc.lookup = sc'.lookup
  socket : sc.socket = sc'.socket
  connect : sc.connect = sc'.connect
  send : sc.send = sc'.send
  responses : sc.responses = sc'.responses
  time : sc.time = sc'.time
  address : sc.address = sc'.address

theorem Alike.relay {sc sc' : Script} (h : Alike sc sc') :
    relay sc.memory sc.responses = relay sc'.memory sc'.responses := by
  rw [h.responses]
  rcases sc'.responses with _ | ⟨r, responses⟩
  · rfl
  · simp only [NetCentric.relay, responseText, contentSize, h.beyond, h.room]

namespace Same

variable {α β : Type}

theorem refl (p : Handler α) : Same p p :=
  ⟨rfl, fun _ => Iff.rfl⟩

theorem symm {p q : Handler α} (h : Same p q) : Same q p :=
  ⟨h.1.symm, fun a => (h.2 a).symm⟩

theorem trans {p q r : Handler α} (h : Same p q) (h' : Same q r) : Same p r :=
  ⟨h.1.trans h'.1, fun a => (h.2 a).trans (h'.2 a)⟩

theorem bind {p q : Handler α} {f g : α → Handler β} (h : Same p q)
    (hf : ∀ a, p.result = .ok a → Same (f a) (g a)) : Same (p >>= f) (q >>= g) := by
  obtain ⟨hseen, hresult⟩ := h
  cases hp : p.result with
  | ok a =>
    have hq := (hresult a).1 hp
    rw [Same, Prog.calls_bind_ok hp, Prog.calls_bind_ok hq, Prog.result_bind_of_ok hp,
      Prog.result_bind_of_ok hq, seen_append, seen_append, hseen, (hf a hp).1]
    exact ⟨rfl, (hf a hp).2⟩
  | error e =>
    cases hq : q.result with
    | ok a =>
      rw [(hresult a).2 hq] at hp
      cases hp
    | error e' =>
      rw [Same, Prog.calls_bind_error hp, Prog.calls_bind_error hq, Prog.result_bind_error hp,
        Prog.result_bind_error hq]
      exact ⟨hseen, by simp⟩

theorem giveUp (m m' : Mode) (fds fds' : List Fd) :
    Same (m.giveUp fds : Handler α) (m'.giveUp fds') :=
  ⟨by rw [m.seen_giveUp, m'.seen_giveUp],
    fun a => iff_of_false (m.result_giveUp _ a) (m'.result_giveUp _ a)⟩

theorem require (m m' : Mode) (ok : Bool) (fds fds' : List Fd) :
    Same (m.require ok fds) (m'.require ok fds') := by
  cases ok
  · exact giveUp m m' fds fds'
  · exact refl _

theorem connectServer (m m' : Mode) {sc sc' : Script} (h : Alike sc sc')
    (host service : List Byte) :
    Same (connectServer m sc host service) (connectServer m' sc' host service) := by
  unfold NetCentric.connectServer
  rw [h.lookup, h.socket, h.connect]
  exact bind (refl _) fun _ _ => bind (require _ _ _ _ _) fun _ _ => bind (refl _) fun _ _ =>
    bind (require _ _ _ _ _) fun _ _ => bind (refl _) fun _ _ =>
      bind (require _ _ _ _ _) fun _ _ => refl _

theorem seen_writeLog (m : Mode) {entry : List Byte} (hlen : entry.length < 1024) :
    seen (NetCentric.writeLog m true entry).calls = [.logged entry] := by
  cases m <;> simp only [NetCentric.writeLog, orUndefined, inArray, hlen, if_true,
    Mode.require_true] <;> rfl

/-- An entry that overruns `logstring` is not written. -/
theorem seen_writeLog_long (m : Mode) {entry : List Byte} (hlen : ¬entry.length < 1024) :
    seen (NetCentric.writeLog m true entry).calls = [] := by
  cases m <;> simp only [NetCentric.writeLog, orUndefined, inArray, hlen, if_false,
    Mode.require_true] <;> rfl

/-- The three ways to write an entry, once the file is open. -/
theorem writeLog (m m' : Mode) (entry : List Byte) :
    Same (writeLog m true entry) (writeLog m' true entry) := by
  by_cases hlen : entry.length < 1024
  · refine ⟨by rw [seen_writeLog m hlen, seen_writeLog m' hlen], fun u => ?_⟩
    exact iff_of_true (writeLog_ok.2 ⟨rfl, hlen⟩) (writeLog_ok.2 ⟨rfl, hlen⟩)
  · refine ⟨by rw [seen_writeLog_long m hlen, seen_writeLog_long m' hlen], fun u => ?_⟩
    exact iff_of_false (fun h => hlen (writeLog_ok.1 h).2) fun h => hlen (writeLog_ok.1 h).2

theorem finishGet (m m' : Mode) {sc sc' : Script} (h : Alike sc sc')
    (hlog : ∀ entry, Same (NetCentric.writeLog m sc.log entry)
      (NetCentric.writeLog m' sc'.log entry))
    (url : List Byte) : Same (finishGet m sc url) (finishGet m' sc' url) := by
  unfold NetCentric.finishGet
  rw [h.relay, h.time, h.address]
  refine bind (refl _) fun total _ => bind (hlog _) fun _ _ => ?_
  cases m <;> cases m' <;> exact ⟨rfl, fun _ => Iff.rfl⟩

/-- The branch of GET does the same for the same url, if it rewrites the request to the
same. -/
theorem handleGet (m m' : Mode) {sc sc' : Script} (h : Alike sc sc')
    (hlog : ∀ entry, Same (NetCentric.writeLog m sc.log entry)
      (NetCentric.writeLog m' sc'.log entry))
    {l l' : Locals} {buffer : List Byte} (hlen : l.url.length < 1024) (hurl : l.url = l'.url)
    (hrw : ∀ host resource, AcceptsGet l.url host resource →
      rewrite resource l.version buffer = rewrite resource l'.version buffer) :
    Same (handleGet m sc l buffer) (handleGet m' sc' l' buffer) := by
  obtain ⟨accepted, a, a', ha, ha', haccept⟩ := scanGetUrl_congr hlen hurl
  simp only [NetCentric.handleGet, ha, ha', orUndefined, Prog.pure_bind]
  cases accepted with
  | false => exact bind (giveUp _ _ _ _) fun u hu => absurd hu (m.result_giveUp _ u)
  | true =>
    obtain ⟨haccepts, hhost, hresource, hau, hau', hv, hv'⟩ := haccept rfl
    rw [hhost, hresource, hau, hau', hv, hv', hrw _ _ haccepts, h.send]
    exact bind (refl _) fun _ _ => bind (connectServer m m' h _ _) fun _ _ =>
      bind (refl _) fun _ _ => bind (refl _) fun _ _ => bind (require _ _ _ _ _) fun _ _ =>
        finishGet m m' h hlog _

end Same

/-! ## What the arrays held before -/

/-- A text of two words with an accepted url has no header. -/
theorem no_keepAlive {s method url host resource : List Byte} (hwords : words s = [method, url])
    (h : AcceptsGet url host resource) : ¬KEEP_ALIVE <:+: s := by
  rintro ⟨p, q, rfl⟩
  have hspace : isspace 32 = true := by decide
  have hcr : isspace 13 = true := by decide
  have hlf : isspace 10 = true := by decide
  have hcolon : isspace 58 = false := by decide
  have htoken : IsToken (bytes "keep-alive") := by decide
  have htext : p ++ KEEP_ALIVE ++ q =
      (p ++ bytes "Connection:") ++ 32 :: (bytes "keep-alive" ++ 13 :: 10 :: q) := by
    have hheader : KEEP_ALIVE = bytes "Connection:" ++ 32 :: (bytes "keep-alive" ++ [13, 10]) := by
      decide
    simp only [hheader, List.append_assoc, List.cons_append, List.nil_append]
  have hfirst : words (p ++ bytes "Connection:") ≠ [] :=
    words_ne_nil hcolon (List.mem_append_right _ (by decide))
  rw [htext, words_append_cons hspace, words_token_cons htoken hcr, words_cons hlf] at hwords
  obtain ⟨w, ws, hw⟩ := List.exists_cons_of_ne_nil hfirst
  rw [hw, List.cons_append, List.cons.injEq] at hwords
  obtain ⟨-, hwords⟩ := hwords
  obtain rfl : ws = [] := List.eq_nil_of_length_eq_zero (by
    have := congrArg List.length hwords
    simp only [List.length_append, List.length_cons, List.length_nil] at this
    omega)
  obtain ⟨rfl, -⟩ := List.cons.inj hwords
  have hport : sscanf (bytes "keep-alive") "http://%[^:/]:%d%s" = [] := by decide
  have hplain : sscanf (bytes "keep-alive") "http://%[^:/]%s" = [] := by decide
  rcases h with ⟨port, h⟩ | ⟨-, h⟩
  · rw [hport] at h
    cases h
  · rw [hplain] at h
    cases h

/-- The version that the array held before is not sent. -/
theorem rewrite_congr {s method url host resource version version' : List Byte}
    {rest : List (List Byte)} (hwords : words s = method :: url :: rest)
    (h : AcceptsGet url host resource) (hurl : url.length < 1024)
    (hversion : version.length < 1024) (hversion' : version'.length < 1024) :
    rewrite resource (rest.headD version) s = rewrite resource (rest.headD version') s := by
  rcases rest with _ | ⟨w, rest⟩
  case cons => rfl
  have hline : ∀ version : List Byte, version.length < 1024 →
      inArray 10000 (requestLine resource version) = some (requestLine resource version) := by
    intro version hversion
    have hresource := h.length_le
    exact if_pos (by rw [length_requestLine]; omega)
  have hrewrite : ∀ version : List Byte, version.length < 1024 → rewrite resource version s =
      (strchr s 10).bind fun newline => inArray 10000 (s.drop (newline + 1)) := by
    intro version hversion
    simp only [rewrite, hline version hversion, Option.bind_eq_bind, Option.bind_some]
    congr 1
    funext newline
    have hnone : strstr (s.drop (newline + 1)) KEEP_ALIVE = none :=
      strstr_eq_none_iff.2 fun hheader =>
        no_keepAlive hwords h (hheader.trans (List.drop_suffix _ _).isInfix)
    simp only [hnone, strcat, strcpy, List.append_nil]
  exact (hrewrite version hversion).trans (hrewrite version' hversion').symm

/-- Two handlers do the same with a GET request that has a url, or with any request of two
words if they are the sequential proxy, whatever the arrays held before. -/
theorem same_handle (m m' : Mode) {sc sc' : Script} (h : Alike sc sc')
    (hlog : ∀ entry, Same (writeLog m sc.log entry) (writeLog m' sc'.log entry))
    {method url : List Byte} {rest : List (List Byte)}
    (hwords : words (cstr sc.request.stored) = method :: url :: rest)
    (hmethod : strncasecmpEq method (bytes "GET") 3 = true ∨ m = .sequential ∧ m' = .sequential)
    (hfits : sc.memory.stale.version.length < 1024)
    (hfits' : sc'.memory.stale.version.length < 1024) : Same (handle m sc) (handle m' sc') := by
  unfold handle
  rw [← h.request]
  refine .bind (.refl _) fun _ _ => .bind (.require _ _ _ _ _) fun _ _ => ?_
  simp only [scanRequest_eq, hwords]
  by_cases hshort : ∀ w ∈ (method :: url :: rest).take 3, w.length < 1024
  · have hurl : url.length < 1024 := hshort url (by simp)
    have hget : ∀ version : List Byte,
        (method :: url :: rest).getD 2 version = rest.headD version :=
      fun version => by cases rest <;> rfl
    simp only [if_pos hshort, orUndefined, Prog.pure_bind, hget, List.getD_cons_zero,
      List.getD_cons_succ]
    split
    · exact .handleGet m m' h hlog hurl rfl fun host resource haccept =>
        rewrite_congr hwords haccept hurl hfits hfits'
    · obtain ⟨rfl, rfl⟩ := hmethod.resolve_left ‹_›
      exact .refl _
  · simp only [if_neg hshort, orUndefined]
    exact .refl _

/-! ## Without a log file -/

/-- `q` does as `p` up to the log and stops there : if `p` reaches its end, it has logged an
entry last. -/
def LosesEntry (p q : Handler Unit) : Prop :=
  (p.result ≠ .ok () ∧ seen p.calls = seen q.calls) ∨
    p.result = .ok () ∧ ∃ entry, seen p.calls = seen q.calls ++ [.logged entry]

namespace LosesEntry

theorem bind {α : Type} {p : Handler α} {f g : α → Handler Unit}
    (h : ∀ a, p.result = .ok a → LosesEntry (f a) (g a)) : LosesEntry (p >>= f) (p >>= g) := by
  cases hp : p.result with
  | error e =>
    refine .inl ⟨?_, by rw [Prog.calls_bind_error hp, Prog.calls_bind_error hp]⟩
    rw [Prog.result_bind_error hp]
    exact nofun
  | ok a =>
    rw [LosesEntry, Prog.result_bind_of_ok hp, Prog.calls_bind_ok hp, Prog.calls_bind_ok hp,
      seen_append, seen_append]
    rcases h a hp with ⟨hno, hseen⟩ | ⟨hok, entry, hseen⟩
    · exact .inl ⟨hno, by rw [hseen]⟩
    · exact .inr ⟨hok, entry, by rw [hseen, List.append_assoc]⟩

theorem finishGet (m : Mode) {sc : Script} (hlog : sc.log = true) (url : List Byte) :
    LosesEntry (finishGet m sc url) (finishGet m { sc with log := false } url) := by
  refine bind fun total _ => ?_
  have hfalse : ∀ entry (f : Unit → Handler Unit),
      seen (writeLog m false entry >>= f).calls = [] := by
    intro entry f
    have hno : ∀ u, (writeLog m false entry).result ≠ .ok u :=
      fun u hu => nomatch (writeLog_ok.1 hu).1
    cases hr : (writeLog m false entry).result with
    | ok u => exact absurd hr (hno u)
    | error e =>
      rw [Prog.calls_bind_error hr]
      cases m <;> rfl
  rw [hlog, LosesEntry, hfalse]
  by_cases hlen : (formatLogEntry sc.time sc.address url total).length < 1024
  · have hok := (writeLog_ok (m := m) (u := ())).2 ⟨rfl, hlen⟩
    rw [Prog.result_bind_of_ok hok, Prog.calls_bind_ok hok, seen_append,
      Same.seen_writeLog m hlen]
    exact .inr ⟨by cases m <;> rfl, _, by cases m <;> rfl⟩
  · have hno : ∀ u, (writeLog m true (formatLogEntry sc.time sc.address url total)).result ≠
        .ok u := fun u hu => hlen (writeLog_ok.1 hu).2
    cases hr : (writeLog m true (formatLogEntry sc.time sc.address url total)).result with
    | ok u => exact absurd hr (hno u)
    | error e =>
      rw [Prog.result_bind_error hr, Prog.calls_bind_error hr, Same.seen_writeLog_long m hlen]
      exact .inl ⟨nofun, rfl⟩

theorem handle (m : Mode) {sc : Script} (hlog : sc.log = true) {method : List Byte}
    {rest : List (List Byte)} (hwords : words (cstr sc.request.stored) = method :: rest)
    (hget : strncasecmpEq method (bytes "GET") 3 = true) :
    LosesEntry (handle m sc) (handle m { sc with log := false }) := by
  refine bind fun _ _ => bind fun _ _ => bind fun l hl => ?_
  rw [orUndefined_ok, scanRequest_eq, hwords, Option.ite_none_right_eq_some] at hl
  obtain rfl := Option.some.inj hl.2
  simp only [List.getD_cons_zero, hget, if_true]
  exact bind fun _ _ => bind fun _ _ => bind fun _ _ => bind fun _ _ => bind fun _ _ =>
    bind fun _ _ => finishGet m hlog _

end LosesEntry

/-! ## The three implementations -/

/-- What the arrays for the parts of a request hold : a C string each. -/
structure Arrays where
  parts : Locals
  method_fits : parts.method.length < 1024
  url_fits : parts.url.length < 1024
  version_fits : parts.version.length < 1024
  host_fits : parts.host.length < 1024
  resource_fits : parts.resource.length < 1024

/-- The text of a GET request : a method, a url, and more. -/
def GetText (text : List Byte) : Prop :=
  ∃ method url rest, words text = method :: url :: rest ∧
    strncasecmpEq method (bytes "GET") 3 = true

/-- The connection as the handler `m` meets it, where `file` says whether the log file is
there. `fopen` creates it, and `open` in the child does not. -/
def Script.inMode (sc : Script) (m : Mode) (before : Arrays) (file : Bool) : Script :=
  { sc with
    memory := { sc.memory with stale := before.parts }
    log := m ≠ .process || file }

/-- The same bytes to the server, the same to the client, and the same entries. -/
def Agree (calls calls' : List Call) : Prop :=
  written .server calls = written .server calls' ∧
    written .client calls = written .client calls' ∧ logEntries calls = logEntries calls'

theorem agree_of_seen {calls calls' : List Call} (h : seen calls = seen calls') :
    Agree calls calls' :=
  ⟨written_eq_of_seen (by decide) h, written_eq_of_seen (by decide) h, by
    rw [logEntries, h, logEntries]⟩

section Implementations

variable {sc : Script} (before : Mode → Arrays)

/-- With the log file, the three do the same. -/
theorem same_inMode (hget : GetText (cstr sc.request.stored)) (m m' : Mode) :
    Same (handle m (sc.inMode m (before m) true)) (handle m' (sc.inMode m' (before m') true)) := by
  obtain ⟨method, url, rest, hwords, hmethod⟩ := hget
  have halike : Alike (sc.inMode m (before m) true) (sc.inMode m' (before m') true) :=
    ⟨rfl, rfl, rfl, rfl, rfl, rfl, rfl, rfl, rfl, rfl⟩
  have hopens : ∀ m, (sc.inMode m (before m) true).log = true := fun m => by simp [Script.inMode]
  refine same_handle m m' halike (fun entry => ?_) hwords (.inl hmethod) (before m).version_fits
    (before m').version_fits
  rw [hopens, hopens]
  exact .writeLog m m' entry

/-- A request that is served with the log file gets one entry. -/
theorem logEntries_of_served (hget : GetText (cstr sc.request.stored))
    (h : Served (sc.inMode .sequential (before .sequential) true)) (m : Mode) :
    ∃ entry, logEntries (handle m (sc.inMode m (before m) true)).calls = [entry] := by
  obtain ⟨l, a, request, total, hserves⟩ := h
  have hlog :
      seen (writeLog .sequential true (formatLogEntry sc.time sc.address a.url total)).calls =
        [.logged (formatLogEntry sc.time sc.address a.url total)] :=
    Same.seen_writeLog .sequential hserves.entry
  refine ⟨formatLogEntry sc.time sc.address a.url total, ?_⟩
  rw [(agree_of_seen (same_inMode before hget m .sequential).1).2.2, hserves.calls]
  simp only [logEntries_append, logEntries_relays (Relays.relay _ _).calls]
  rw [logEntries, logEntries, logEntries]
  simp only [Script.inMode, hlog]
  rfl

/-- Up to what is undefined, the three do the same if and only if the log file is there, or
the request is not served to the end. -/
theorem agree_iff (sc : Script) (before : Mode → Arrays) (file : Bool)
    (hget : GetText (cstr sc.request.stored)) :
    (∀ m m', Agree (handle m (sc.inMode m (before m) file)).calls
      (handle m' (sc.inMode m' (before m') file)).calls) ↔
        file = true ∨ ¬Served (sc.inMode .sequential (before .sequential) file) := by
  cases file with
  | true =>
    exact iff_of_true (fun m m' => agree_of_seen (same_inMode before hget m m').1) (.inl rfl)
  | false =>
    have hcreates : ∀ m, m ≠ .process →
        sc.inMode m (before m) false = sc.inMode m (before m) true := fun m hm => by
      simp [Script.inMode, hm]
    have hsame := same_inMode before hget
    have hloses : LosesEntry (handle .process (sc.inMode .process (before .process) true))
        (handle .process (sc.inMode .process (before .process) false)) := by
      obtain ⟨method, url, rest, hwords, hmethod⟩ := hget
      exact LosesEntry.handle .process rfl hwords hmethod
    rw [hcreates .sequential (by decide),
      ← handle_ok_iff (m := .sequential) (by decide), (hsame .sequential .process).2 ()]
    rcases hloses with ⟨hno, hseen⟩ | ⟨hok, entry, hseen⟩
    · refine iff_of_true (fun m m' => agree_of_seen ?_) (.inr hno)
      have hall : ∀ m, seen (handle m (sc.inMode m (before m) false)).calls =
          seen (handle .process (sc.inMode .process (before .process) true)).calls := by
        intro m
        by_cases hm : m = .process
        · rw [hm, hseen]
        · rw [hcreates m hm]
          exact (hsame m .process).1
      rw [hall m, hall m']
    · refine iff_of_false (fun hagree => ?_) (by simp [hok])
      have hentries := (hagree .sequential .process).2.2
      rw [hcreates .sequential (by decide), logEntries, (hsame .sequential .process).1, hseen,
        List.filterMap_append, logEntries] at hentries
      have hlen := congrArg List.length hentries
      rw [List.length_append] at hlen
      simp at hlen

/-- None of the three implementations does what is undefined, and they do the same. -/
structure Implements (sc : Script) (before : Mode → Arrays) (file : Bool) : Prop where
  defined : ∀ m, (handle m (sc.inMode m (before m) file)).result ≠ .error .undefined
  agree : ∀ m m', Agree (handle m (sc.inMode m (before m) file)).calls
    (handle m' (sc.inMode m' (before m') file)).calls

/-- The three implementations of GET agree on a connection if and only if none does what is
undefined, and the log file is there, or the request is not served to the end. With the
log file, a request that is served gets one entry. -/
theorem agreement_iff (sc : Script) (before : Mode → Arrays) (file : Bool)
    (hget : GetText (cstr sc.request.stored)) :
    (Implements sc before file ↔ (∀ m, ¬Undefined m (sc.inMode m (before m) file)) ∧
      (file = true ∨ ¬Served (sc.inMode .sequential (before .sequential) file))) ∧
    (file = true → Served (sc.inMode .sequential (before .sequential) file) →
      ∀ m, ∃ entry, logEntries (handle m (sc.inMode m (before m) file)).calls = [entry]) := by
  refine ⟨?_, fun hfile hserved m => ?_⟩
  · have hdefined : (∀ m, (handle m (sc.inMode m (before m) file)).result ≠ .error .undefined) ↔
        ∀ m, ¬Undefined m (sc.inMode m (before m) file) :=
      forall_congr' fun m => not_congr handle_undefined_iff
    rw [← hdefined, ← agree_iff sc before file hget]
    exact ⟨fun h => ⟨h.defined, h.agree⟩, fun h => ⟨h.1, h.2⟩⟩
  · subst hfile
    exact logEntries_of_served before hget hserved m

end Implementations

/-- Arrays of zeros. -/
def emptyArrays : Arrays where
  parts := ⟨[], [], [], [], [], 80⟩
  method_fits := by decide
  url_fits := by decide
  version_fits := by decide
  host_fits := by decide
  resource_fits := by decide

theorem getText_plainRequest : GetText (cstr (quietScript plainRequest.text).request.stored) := by
  refine ⟨bytes "GET", bytes "http://a/", bytes "HTTP/1.1" :: words (bytes "Host: a\r\n\r\n"), ?_,
    by decide⟩
  rw [show cstr (quietScript plainRequest.text).request.stored = plainRequest.text from
    cstr_of_no_nul plainRequest.no_nul]
  exact words_requestLine plainRequest.url_token plainRequest.version_token _

/-- With the log file. -/
theorem agreement_iff_file :
    Implements (quietScript plainRequest.text) (fun _ => emptyArrays) true := by
  have hserved : ∀ m,
      (handle m ((quietScript plainRequest.text).inMode m emptyArrays true)).result = .ok () := by
    intro m
    cases m <;> decide +kernel
  refine ((agreement_iff (quietScript plainRequest.text) (fun _ => emptyArrays) true
    getText_plainRequest).1).2 ⟨fun m hundefined => ?_, .inl rfl⟩
  have h := handle_undefined_iff.2 hundefined
  rw [hserved m] at h
  cases h

/-- Without the log file, the child logs nothing. -/
theorem agreement_no_file : ¬∀ (sc : Script) (before : Mode → Arrays) (file : Bool),
    GetText (cstr sc.request.stored) → Implements sc before file := by
  intro h
  have hentries :=
    ((h _ (fun _ => emptyArrays) false getText_plainRequest).agree .sequential .process).2.2
  exact absurd hentries (by decide)

end NetCentric
