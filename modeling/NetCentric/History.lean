import NetCentric.Agreement
import NetCentric.Transition

/-!
# What earlier clients leave behind

The sequential proxy reads every request into one `buffer`, and the arrays for its parts
are at the same place in every round of the loop. `Kept` is what they hold, and
`serveFrom` a round that finds it there. The end that is written into `buffer` cuts off
what an earlier client left (`cstr_receive`), so a round depends on the arrays alone
(`serveFrom_eq`).

The arrays keep what `sscanf` does not assign, and nothing looks at what the scan of the
request line returns. `no_leakage_iff` is for which requests the history makes no
difference : two words, or one that is not `GET`.
-/

open NetCentric.Scanf

namespace NetCentric

/-- `buffer` after a `read` of `data` and `buffer[read_bytes] = '\0'`. -/
def receive (buffer data : List Byte) : List Byte :=
  (overwrite buffer data).set data.length 0

/-- What an earlier request left in `buffer` is not read. -/
theorem cstr_receive {buffer data : List Byte} (h : data.length < buffer.length) :
    cstr (receive buffer data) = cstr data := by
  obtain ⟨b, rest, hrest⟩ := List.exists_cons_of_ne_nil
    (show buffer.drop data.length ≠ [] from fun h0 => by
      have := List.drop_eq_nil_iff.1 h0
      omega)
  have htext : receive buffer data = data ++ 0 :: rest := by
    rw [receive, overwrite, hrest, List.set_append_right _ _ (Nat.le_refl _), Nat.sub_self,
      List.set_cons_zero]
  rw [htext, cstr, cstr, List.takeWhile_append]
  split
  case isTrue hall =>
    rw [List.takeWhile_cons_of_neg (by simp), List.append_nil]
    exact (List.takeWhile_prefix _).eq_of_length hall |>.symm
  case isFalse => rfl

/-! ## The rounds of the loop -/

/-- What the arrays hold when a round of the loop starts. -/
structure Kept where
  parts : Locals
  buffer : List Byte

namespace Kept

/-- The arrays hold C strings that fit them, and `buffer` has its size. -/
structure Fits (k : Kept) : Prop where
  method : k.parts.method.length < 1024
  url : k.parts.url.length < 1024
  version : k.parts.version.length < 1024
  buffer : k.buffer.length = 10000

/-- The variables after the scans of a round. -/
def scanned (parts : Locals) (text : List Byte) : Locals :=
  match scanRequest parts text with
  | none => parts
  | some l =>
    if strncasecmpEq l.method (bytes "GET") 3 then
      match scanGetUrl l with
      | none => l
      | some (_, a) => a
    else l

/-- What a round leaves in the arrays. -/
def after (k : Kept) (sc : Script) : Kept where
  parts := scanned k.parts (cstr (receive k.buffer sc.request.stored))
  buffer := receive k.buffer sc.request.stored

end Kept

/-- One round of the loop of the sequential proxy, from the `read` on. -/
def serveFrom (k : Kept) (sc : Script) : Handler Unit := do
  Prog.call (.read .client 9999 sc.request)
  Mode.sequential.require (0 < sc.request.count) [.client, .proxy]
  let buffer := cstr (receive k.buffer sc.request.stored)
  let l ← orUndefined (scanRequest k.parts buffer)
  if strncasecmpEq l.method (bytes "GET") 3 then
    handleGet .sequential sc l buffer
  else
    Mode.sequential.giveUp [.client, .proxy]

/-- The connection, with the arrays as an earlier round left them. -/
def Script.holding (sc : Script) (parts : Locals) : Script :=
  { sc with memory := { sc.memory with stale := parts } }

/-- A round depends on the arrays for the parts alone. -/
theorem serveFrom_eq {k : Kept} {sc : Script} (hbuffer : k.buffer.length = 10000)
    (hlen : sc.request.stored.length ≤ 9999) : serveFrom k sc = serve (sc.holding k.parts) := by
  have htext : cstr (receive k.buffer sc.request.stored) = cstr sc.request.stored :=
    cstr_receive (by omega)
  simp only [serveFrom, serve, handle, htext, ne_eq, not_true_eq_false, false_and, if_false]
  rfl

/-- The loop over the connections that come in : it goes on after a connection that is
served to the end. -/
def keptLoop : System Kept Script where
  Init k := k.Fits ∧ k.buffer = List.replicate 10000 0
  step k sc :=
    if sc.request.stored.length ≤ 9999 ∧ (serveFrom k sc).result.isOk then some (k.after sc)
    else none

/-- The word that an array holds then, or its old contents. -/
theorem length_getD_lt {ws : List (List Byte)} {old : List Byte} {i : ℕ}
    (h : ∀ w ∈ ws.take 3, w.length < 1024) (hi : i < 3) (hold : old.length < 1024) :
    (ws.getD i old).length < 1024 := by
  rw [List.getD_eq_getElem?_getD]
  cases hw : ws[i]? with
  | none => exact hold
  | some w =>
    refine h w (List.mem_of_getElem? (i := i) ?_)
    rw [List.getElem?_take_of_lt hi, hw]

namespace Kept

theorem Fits.scanned {k : Kept} (hk : k.Fits) (text : List Byte) :
    (scanned k.parts text).method.length < 1024 ∧ (scanned k.parts text).url.length < 1024 ∧
      (scanned k.parts text).version.length < 1024 := by
  rw [Kept.scanned, scanRequest_eq]
  by_cases hshort : ∀ w ∈ (words text).take 3, w.length < 1024
  · have hmethod := length_getD_lt hshort (by decide : 0 < 3) hk.method
    have hurl := length_getD_lt hshort (by decide : 1 < 3) hk.url
    have hversion := length_getD_lt hshort (by decide : 2 < 3) hk.version
    rw [if_pos hshort]
    dsimp only
    split
    · cases haccept : scanGetUrl _ with
      | none => exact ⟨hmethod, hurl, hversion⟩
      | some r =>
        obtain ⟨hm, hu, hv⟩ := scanGetUrl_keeps haccept
        dsimp only
        rw [hm, hu, hv]
        exact ⟨hmethod, hurl, hversion⟩
    · exact ⟨hmethod, hurl, hversion⟩
  · rw [if_neg hshort]
    exact ⟨hk.method, hk.url, hk.version⟩

theorem Fits.after {k : Kept} {sc : Script} (hk : k.Fits) (hlen : sc.request.stored.length ≤ 9999) :
    (k.after sc).Fits := by
  obtain ⟨hmethod, hurl, hversion⟩ := hk.scanned (cstr (receive k.buffer sc.request.stored))
  refine ⟨hmethod, hurl, hversion, ?_⟩
  have hbuffer := hk.buffer
  simp only [Kept.after, receive, overwrite, List.length_set, List.length_append,
    List.length_drop]
  omega

theorem fits_of_reachable {k : Kept} (h : keptLoop.Reachable k) : k.Fits := by
  refine System.Reachable.invariant (S := keptLoop) (I := Kept.Fits) (fun _ hk => hk.1)
    (fun k sc k' hk hstep => ?_) h
  obtain ⟨⟨hlen, -⟩, hk'⟩ := Option.ite_none_right_eq_some.1 hstep
  exact Option.some.inj hk' ▸ hk.after hlen

end Kept

/-! ## What the proxy does with a request -/

/-- The hosts a run looks up. -/
def hosts (calls : List Call) : List (List Byte) :=
  (seen calls).filterMap fun
    | .lookup host _ => some host
    | _ => none

/-- A round accepts the request and looks its host up, or rejects it and exits, or does
neither. -/
def decision (p : Handler Unit) : Option Bool :=
  if hosts p.calls ≠ [] then some true
  else match p.result with
    | .error (.exit _) => some false
    | _ => none

@[simp] theorem hosts_append (cs ds : List Call) : hosts (cs ++ ds) = hosts cs ++ hosts ds := by
  rw [hosts, seen_append, List.filterMap_append]
  rfl

/-- A url that is accepted has its host looked up. -/
theorem hosts_handleGet (m : Mode) (sc : Script) {l a : Locals} (buffer : List Byte)
    (h : scanGetUrl l = some (true, a)) :
    ∃ rest, hosts (handleGet m sc l buffer).calls = a.host :: rest := by
  have hfirst : [Call.getaddrinfo a.host (bytes "http") sc.lookup] <+:
      (handleGet m sc l buffer).calls := by
    simp only [handleGet, h, orUndefined, Prog.pure_bind, Mode.require_true]
    refine List.IsPrefix.trans ?_ (Prog.calls_prefix_bind _ _)
    exact ⟨_, rfl⟩
  obtain ⟨calls, hcalls⟩ := hfirst
  rw [← hcalls, hosts_append]
  exact ⟨hosts calls, rfl⟩

section Round

variable {k : Kept} {sc : Script} {request : List Byte}

/-- A round for a request that arrives. -/
theorem serveFrom_data (hk : k.Fits) (hreq : sc.request = .data request) (hne : request ≠ [])
    (hlen : request.length ≤ 9999) : serveFrom k sc = (do
      Prog.call (.read .client 9999 (.data request))
      let l ← orUndefined (scanRequest k.parts (cstr request))
      if strncasecmpEq l.method (bytes "GET") 3 then handleGet .sequential sc l (cstr request)
      else Mode.sequential.giveUp [.client, .proxy]) := by
  have hcount : decide (0 < sc.request.count) = true := by
    simpa [hreq, ReadResult.count, List.length_pos_iff] using hne
  have htext : cstr (receive k.buffer sc.request.stored) = cstr request := by
    rw [hreq]
    exact cstr_receive (by rw [hk.buffer, ReadResult.stored]; omega)
  rw [← hreq]
  simp only [serveFrom, hcount, Mode.require_true, Prog.pure_bind, htext]

/-- The array overrun of a long word comes before any decision. -/
theorem decision_of_overrun (hk : k.Fits) (hreq : sc.request = .data request) (hne : request ≠ [])
    (hlen : request.length ≤ 9999) (h : ¬∀ w ∈ (words (cstr request)).take 3, w.length < 1024) :
    decision (serveFrom k sc) = none := by
  rw [serveFrom_data hk hreq hne hlen, scanRequest_eq, if_neg h]
  rfl

theorem hosts_read_cons (fd : Fd) (count : ℤ) (r : ReadResult) (calls : List Call) :
    hosts (.read fd count r :: calls) = hosts calls :=
  rfl

/-- After the scan of the request line, the request is accepted or it is rejected. -/
theorem decision_of_scanned {l : Locals} (hurl : l.url.length < 1024) (buffer : List Byte)
    {p : Handler Unit} (hp : p = (do
      Prog.call (.read .client 9999 (.data request))
      if strncasecmpEq l.method (bytes "GET") 3 then handleGet .sequential sc l buffer
      else Mode.sequential.giveUp [.client, .proxy])) :
    decision p = some (decide (hosts p.calls ≠ [])) := by
  by_cases hhosts : hosts p.calls = []
  · have hexit : ∃ status, p.result = .error (.exit status) := by
      subst hp
      rw [Prog.calls_call_bind, hosts_read_cons] at hhosts
      rw [Prog.result_call_bind]
      split at hhosts
      · obtain ⟨accepted, a, -, ha, -⟩ := scanGetUrl_congr (l := l) hurl rfl
        cases accepted with
        | true =>
          obtain ⟨rest, hrest⟩ := hosts_handleGet .sequential sc buffer ha
          rw [hrest] at hhosts
          cases hhosts
        | false =>
          rename_i hget
          simp only [if_pos hget, handleGet, ha, orUndefined, Prog.pure_bind]
          exact ⟨1, rfl⟩
      · rename_i hget
        rw [if_neg hget]
        exact ⟨1, rfl⟩
    obtain ⟨status, hstatus⟩ := hexit
    simp [decision, hhosts, hstatus]
  · simp [decision, hhosts]

/-- Without an overrun, the request is accepted or it is rejected. -/
theorem decision_of_fits (hk : k.Fits) (hreq : sc.request = .data request) (hne : request ≠ [])
    (hlen : request.length ≤ 9999) (h : ∀ w ∈ (words (cstr request)).take 3, w.length < 1024) :
    decision (serveFrom k sc) = some (decide (hosts (serveFrom k sc).calls ≠ [])) := by
  have hurl := length_getD_lt h (by decide : 1 < 3) hk.url
  have hround := serveFrom_data hk hreq hne hlen
  rw [scanRequest_eq, if_pos h] at hround
  exact decision_of_scanned (l := { k.parts with
    method := (words (cstr request)).getD 0 k.parts.method
    url := (words (cstr request)).getD 1 k.parts.url
    version := (words (cstr request)).getD 2 k.parts.version }) hurl (cstr request) hround

/-- A request of two words, or of one that is not GET, is treated in the same way after any
history. -/
theorem seen_serveFrom {k' : Kept} (hk : k.Fits) (hk' : k'.Fits) (hreq : sc.request = .data request)
    (hne : request ≠ []) (hlen : request.length ≤ 9999)
    (h : 2 ≤ (words (cstr request)).length ∨
      ∃ w, words (cstr request) = [w] ∧ strncasecmpEq w (bytes "GET") 3 = false) :
    seen (serveFrom k sc).calls = seen (serveFrom k' sc).calls := by
  rcases h with htwo | ⟨w, hw, hget⟩
  · obtain ⟨method, url, rest, hwords⟩ : ∃ method url rest,
        words (cstr request) = method :: url :: rest := by
      match hws : words (cstr request), htwo with
      | method :: url :: rest, _ => exact ⟨method, url, rest, rfl⟩
    have hstored : sc.request.stored.length ≤ 9999 := by rwa [hreq]
    rw [serveFrom_eq hk.buffer hstored, serveFrom_eq hk'.buffer hstored]
    have halike : Alike (sc.holding k.parts) (sc.holding k'.parts) :=
      ⟨rfl, rfl, rfl, rfl, rfl, rfl, rfl, rfl, rfl, rfl⟩
    have htext : words (cstr (sc.holding k.parts).request.stored) = method :: url :: rest := by
      change words (cstr sc.request.stored) = _
      rw [hreq]
      exact hwords
    exact (same_handle .sequential .sequential halike (fun _ => .refl _) htext (.inr ⟨rfl, rfl⟩)
      hk.version hk'.version).1
  · have hseen : ∀ {k : Kept}, k.Fits → seen (serveFrom k sc).calls = [] := by
      intro k hk
      rw [serveFrom_data hk hreq hne hlen, scanRequest_eq, hw]
      split
      · simp only [orUndefined, Prog.pure_bind, List.getD_cons_zero, hget]
        rfl
      · rfl
    rw [hseen hk, hseen hk']

/-- A request of no word, or of one that is GET, goes to the host that an earlier client asked
for. -/
theorem hosts_serveFrom {host resource : List Byte} (hk : k.Fits)
    (hget : k.parts.method = bytes "GET") (haccept : AcceptsGet k.parts.url host resource)
    (hreq : sc.request = .data request) (hne : request ≠ []) (hlen : request.length ≤ 9999)
    (hfits : ∀ w ∈ (words (cstr request)).take 3, w.length < 1024)
    (h : ¬(2 ≤ (words (cstr request)).length ∨
      ∃ w, words (cstr request) = [w] ∧ strncasecmpEq w (bytes "GET") 3 = false)) :
    ∃ rest, hosts (serveFrom k sc).calls = host :: rest := by
  rw [not_or, not_le] at h
  obtain ⟨hshort, hone⟩ := h
  have hmethod : strncasecmpEq ((words (cstr request)).getD 0 k.parts.method) (bytes "GET") 3 =
      true := by
    match hw : words (cstr request), hshort with
    | [], _ =>
      rw [List.getD_nil, hget]
      decide
    | [w], _ => exact eq_true_of_ne_false fun hw' => hone ⟨w, hw, hw'⟩
  have hurl : (words (cstr request)).getD 1 k.parts.url = k.parts.url := by
    rw [List.getD_eq_getElem?_getD, List.getElem?_eq_none (by omega)]
    rfl
  obtain ⟨port, hscan⟩ := scanGetUrl_of_accepts (l := { k.parts with
    method := (words (cstr request)).getD 0 k.parts.method
    url := k.parts.url
    version := (words (cstr request)).getD 2 k.parts.version }) hk.url haccept
  obtain ⟨rest, hrest⟩ := hosts_handleGet .sequential sc (cstr request) hscan
  refine ⟨rest, ?_⟩
  rw [serveFrom_data hk hreq hne hlen, scanRequest_eq, if_pos hfits, hurl]
  simp only [orUndefined, Prog.pure_bind, if_pos hmethod, Prog.calls_call_bind, hosts_read_cons]
  exact hrest

end Round

/-! ## Histories -/

/-- At the first round. -/
def firstKept : Kept where
  parts := emptyArrays.parts
  buffer := List.replicate 10000 0

theorem firstKept_init : keptLoop.Init firstKept :=
  ⟨⟨by decide, by decide, by decide, List.length_replicate⟩, rfl⟩

/-- A request that is served leaves its method and its url. -/
theorem parts_after {k : Kept} (hk : k.Fits) (r : GetRequest) :
    (k.after (quietScript r.text)).parts.method = bytes "GET" ∧
      (k.after (quietScript r.text)).parts.url = r.url := by
  have htext : cstr (receive k.buffer r.text) = r.text := by
    have hsize : r.text.length ≤ 9999 := r.size
    exact (cstr_receive (by rw [hk.buffer]; omega)).trans (cstr_of_no_nul r.no_nul)
  have hget : strncasecmpEq (bytes "GET") (bytes "GET") 3 = true := by decide
  change (Kept.scanned k.parts (cstr (receive k.buffer r.text))).method = _ ∧
    (Kept.scanned k.parts (cstr (receive k.buffer r.text))).url = _
  rw [htext, Kept.scanned, r.scanRequest_text]
  simp only [hget, if_true]
  cases hscan : scanGetUrl _ with
  | none => exact ⟨rfl, rfl⟩
  | some a =>
    obtain ⟨hm, hu, -⟩ := scanGetUrl_keeps hscan
    exact ⟨hm, hu⟩

/-- The state after one request that is served. -/
theorem reachable_after (r : GetRequest)
    (h : (serve ((quietScript r.text).holding firstKept.parts)).result.isOk) :
    keptLoop.Reachable (firstKept.after (quietScript r.text)) := by
  have hlen : (quietScript r.text).request.stored.length ≤ 9999 := r.size
  refine ⟨firstKept, [quietScript r.text], firstKept_init, ?_⟩
  refine keptLoop.run_cons_eq_some.2 ⟨_, if_pos ⟨hlen, ?_⟩, rfl⟩
  rw [serveFrom_eq firstKept_init.1.buffer hlen]
  exact h

/-- A request for `http://b/`. -/
def otherRequest : GetRequest where
  url := bytes "http://b/"
  version := plainRequest.version
  rest := bytes "Host: b\r\n\r\n"
  url_token := by decide
  version_token := plainRequest.version_token
  url_short := by decide
  version_short := plainRequest.version_short
  no_nul := by decide
  size := by decide

/-- A request of no word, or of one that is GET, goes to different hosts after different
histories. -/
theorem hosts_ne_of_histories {request : List Byte} (hne : request ≠ [])
    (hlen : request.length ≤ 9999) (hfits : ∀ w ∈ (words (cstr request)).take 3, w.length < 1024)
    (h : ¬(2 ≤ (words (cstr request)).length ∨
      ∃ w, words (cstr request) = [w] ∧ strncasecmpEq w (bytes "GET") 3 = false)) :
    ∃ k k', keptLoop.Reachable k ∧ keptLoop.Reachable k' ∧ ∀ sc : Script,
      sc.request = .data request →
        hosts (serveFrom k sc).calls ≠ hosts (serveFrom k' sc).calls := by
  have hafter : ∀ (r : GetRequest) {host resource : List Byte}, AcceptsGet r.url host resource →
      (serve ((quietScript r.text).holding firstKept.parts)).result.isOk →
      ∃ k, keptLoop.Reachable k ∧ ∀ sc : Script, sc.request = .data request →
        ∃ rest, hosts (serveFrom k sc).calls = host :: rest := by
    intro r host resource haccept hserved
    obtain ⟨hmethod, hurl⟩ := parts_after firstKept_init.1 r
    have hreach := reachable_after r hserved
    exact ⟨_, hreach, fun sc hreq => hosts_serveFrom (Kept.fits_of_reachable hreach) hmethod
      (hurl ▸ haccept) hreq hne hlen hfits h⟩
  have ha : AcceptsGet plainRequest.url (bytes "a") (bytes "/") := .inr ⟨by decide, by decide⟩
  have hb : AcceptsGet otherRequest.url (bytes "b") (bytes "/") := .inr ⟨by decide, by decide⟩
  obtain ⟨k, hk, hhost⟩ := hafter plainRequest ha rfl
  obtain ⟨k', hk', hhost'⟩ := hafter otherRequest hb rfl
  refine ⟨k, k', hk, hk', fun sc hreq heq => ?_⟩
  obtain ⟨rest, hrest⟩ := hhost sc hreq
  obtain ⟨rest', hrest'⟩ := hhost' sc hreq
  rw [hrest, hrest'] at heq
  exact absurd (List.cons.inj heq).1 (by decide)

/-- The history of earlier connections makes no difference to a request if and only if it
has two words, or one that is not GET, and none of the words that are read overruns its
array. -/
theorem no_leakage_iff {request : List Byte} (hne : request ≠ []) (hlen : request.length ≤ 9999) :
    (∀ sc : Script, sc.request = .data request →
      ∃ (accepted : Bool) (lookedUp : List (List Byte)) (toServer toClient : List Byte),
        ∀ k, keptLoop.Reachable k → decision (serveFrom k sc) = some accepted ∧
          hosts (serveFrom k sc).calls = lookedUp ∧
          written .server (serveFrom k sc).calls = toServer ∧
          written .client (serveFrom k sc).calls = toClient) ↔
      (∀ w ∈ (words (cstr request)).take 3, w.length < 1024) ∧
        (2 ≤ (words (cstr request)).length ∨
          ∃ w, words (cstr request) = [w] ∧ strncasecmpEq w (bytes "GET") 3 = false) := by
  constructor
  · intro hall
    obtain ⟨accepted, lookedUp, toServer, toClient, h⟩ := hall (quietScript request) rfl
    have hfits : ∀ w ∈ (words (cstr request)).take 3, w.length < 1024 := by
      by_contra hover
      have hdecision := (h firstKept ⟨firstKept, [], firstKept_init, rfl⟩).1
      rw [decision_of_overrun firstKept_init.1 rfl hne hlen hover] at hdecision
      cases hdecision
    refine ⟨hfits, ?_⟩
    by_contra hnot
    obtain ⟨k, k', hk, hk', hhosts⟩ := hosts_ne_of_histories hne hlen hfits hnot
    exact hhosts (quietScript request) rfl ((h k hk).2.1.trans (h k' hk').2.1.symm)
  · rintro ⟨hfits, hwords⟩ sc hreq
    refine ⟨decide (hosts (serveFrom firstKept sc).calls ≠ []),
      hosts (serveFrom firstKept sc).calls, written .server (serveFrom firstKept sc).calls,
      written .client (serveFrom firstKept sc).calls, fun k hk => ?_⟩
    have hkfits := Kept.fits_of_reachable hk
    have hseen := seen_serveFrom hkfits firstKept_init.1 hreq hne hlen hwords
    have hhosts : hosts (serveFrom k sc).calls = hosts (serveFrom firstKept sc).calls := by
      rw [hosts, hosts, hseen]
    refine ⟨?_, hhosts, written_eq_of_seen (by decide) hseen, written_eq_of_seen (by decide) hseen⟩
    rw [decision_of_fits hkfits hreq hne hlen hfits, hhosts]

/-- A request of a whole line. -/
theorem no_leakage_iff_plain :
    ∃ (accepted : Bool) (lookedUp : List (List Byte)) (toServer toClient : List Byte),
      ∀ k, keptLoop.Reachable k →
        decision (serveFrom k (quietScript plainRequest.text)) = some accepted ∧
          hosts (serveFrom k (quietScript plainRequest.text)).calls = lookedUp ∧
          written .server (serveFrom k (quietScript plainRequest.text)).calls = toServer ∧
          written .client (serveFrom k (quietScript plainRequest.text)).calls = toClient := by
  have hne : plainRequest.text ≠ [] := by decide
  have hwords : words (cstr plainRequest.text) =
      bytes "GET" :: bytes "http://a/" :: bytes "HTTP/1.1" :: words (bytes "Host: a\r\n\r\n") :=
    (congrArg words (cstr_of_no_nul plainRequest.no_nul)).trans
      (words_requestLine plainRequest.url_token plainRequest.version_token _)
  refine (no_leakage_iff hne plainRequest.size).2 ⟨?_, .inl ?_⟩ _ rfl
  · rw [hwords]
    decide
  · rw [hwords]
    simp

/-- An empty line after two histories. -/
theorem no_leakage_blank : ¬∀ request : List Byte, request ≠ [] → request.length ≤ 9999 →
    ∀ sc : Script, sc.request = .data request → ∀ k k', keptLoop.Reachable k →
      keptLoop.Reachable k' → decision (serveFrom k sc) = decision (serveFrom k' sc) ∧
        hosts (serveFrom k sc).calls = hosts (serveFrom k' sc).calls ∧
        written .server (serveFrom k sc).calls = written .server (serveFrom k' sc).calls ∧
        written .client (serveFrom k sc).calls = written .client (serveFrom k' sc).calls := by
  intro h
  have hwords : words (cstr [10]) = [] := by decide
  obtain ⟨k, k', hk, hk', hhosts⟩ := hosts_ne_of_histories (show ([10] : List Byte) ≠ [] by decide)
    (by decide) (by simp [hwords]) (by simp [hwords])
  exact hhosts (quietScript [10]) rfl (h [10] (by decide) (by decide) _ rfl k k' hk hk').2.1

end NetCentric
