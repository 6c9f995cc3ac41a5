import NetCentric.SentRequest
import NetCentric.Undefined

/-!
# Requests that arrive in pieces

A handler reads from the client once and takes what that `read` returns for the whole
request. `Script.receiving` is a connection whose client's bytes reach the proxy in
pieces : the `read` gets the first. The relay of a response has the same question, and
there the handlers read on.

`segmentation_iff` : of a request that should be forwarded, exactly the rewriting of the
whole is sent if and only if it arrives in one piece. A first piece that ends inside the
request line sends nothing (`rewrite_no_newline`), and one that ends later sends less.
Before it sends the request a handler may also do what is undefined (`BreaksOff`).
-/

open NetCentric.Scanf

namespace NetCentric

/-- A GET request : the request line, headers and the empty line. -/
structure CompleteRequest where
  url : List Byte
  version : List Byte
  rest : List Byte
  url_token : IsToken url
  version_token : IsToken version
  no_nul : 0 ∉ requestLine url version ++ rest
  size : (requestLine url version ++ rest).length ≤ 9999
  complete : rest = bytes "\r\n" ∨ bytes "\r\n\r\n" <:+ rest

/-- The text of the request. -/
def CompleteRequest.text (r : CompleteRequest) : List Byte :=
  requestLine r.url r.version ++ r.rest

/-- The connection, if the bytes of the client arrive in these pieces. -/
def Script.receiving (sc : Script) (pieces : List (List Byte)) : Script :=
  { sc with request := .data (pieces.headD []) }

/-- A request with this url and this version is to be sent on, and the server is reached. -/
structure Forwarded (url version : List Byte) (sc : Script) : Prop where
  url_short : url.length < 1024
  version_short : version.length < 1024
  accepted : ∃ host resource, AcceptsGet url host resource
  reached : sc.lookup ∧ sc.socket ∧ sc.connect

theorem forwarded_receiving {url version : List Byte} {sc : Script} (pieces : List (List Byte)) :
    Forwarded url version (sc.receiving pieces) ↔ Forwarded url version sc :=
  ⟨fun h => ⟨h.url_short, h.version_short, h.accepted, h.reached⟩,
    fun h => ⟨h.url_short, h.version_short, h.accepted, h.reached⟩⟩

/-! ## Handlers that send nothing to the server -/

/-- Nothing is written to the server. -/
def SendsNothing {α : Type} (p : Handler α) : Prop :=
  ∀ data count, .write .server data count ∉ p.calls

/-- A handler does what is undefined before it sends the request. -/
def BreaksOff (p : Handler Unit) : Prop :=
  p.result = .error .undefined ∧ SendsNothing p

namespace SendsNothing

variable {α β : Type}

theorem written {p : Handler α} (h : SendsNothing p) : written .server p.calls = [] :=
  written_eq_nil h

theorem bind {p : Handler α} {f : α → Handler β} (hp : SendsNothing p)
    (hf : ∀ a, p.result = .ok a → SendsNothing (f a)) : SendsNothing (p >>= f) := by
  intro data count hc
  have hne : ∀ c ∈ (p >>= f).calls, c ≠ .write .server data count :=
    Prog.forall_calls_bind (fun c hc h => hp data count (h ▸ hc))
      fun a ha c hc h => hf a ha data count (h ▸ hc)
  exact hne _ hc rfl

theorem call {c : Call} (h : ∀ data count, .write .server data count ≠ c) :
    SendsNothing (Prog.call c) :=
  fun data count hc => h data count (List.mem_singleton.1 hc)

theorem giveUp (m : Mode) (fds : List Fd) : SendsNothing (m.giveUp fds : Handler α) := by
  intro data count hc
  obtain ⟨fd, -, h⟩ := m.close_of_mem_giveUp hc
  cases h

theorem require (m : Mode) (ok : Bool) (fds : List Fd) : SendsNothing (m.require ok fds) := by
  cases ok
  · exact giveUp m fds
  · exact fun _ _ hc => by cases hc

theorem orUndefined (x : Option α) : SendsNothing (orUndefined x) := by
  intro _ _ hc
  cases x <;> cases hc

theorem connectServer (m : Mode) (sc : Script) (host service : List Byte) :
    SendsNothing (connectServer m sc host service) :=
  (call (by simp)).bind fun _ _ => (require _ _ _).bind fun _ _ => (call (by simp)).bind fun _ _ =>
    (require _ _ _).bind fun _ _ => (call (by simp)).bind fun _ _ =>
      (require _ _ _).bind fun _ _ => call (by simp)

theorem handleGet {m : Mode} {sc : Script} {l : Locals} {buffer : List Byte}
    (h : ∀ a, scanGetUrl l = some (true, a) → sc.lookup ∧ sc.socket ∧ sc.connect →
      rewrite a.resource a.version buffer = none) : SendsNothing (handleGet m sc l buffer) := by
  refine (orUndefined _).bind fun x hx => (require _ _ _).bind fun _ haccept =>
    (connectServer _ _ _ _).bind fun _ hconn => ?_
  obtain ⟨accepted, a⟩ := x
  obtain rfl := Mode.require_ok.1 haccept
  rw [h a (orUndefined_ok.1 hx) (connectServer_ok.1 hconn)]
  exact fun _ _ hc => by cases hc

/-- A handler that reads no CONNECT sends to the server only what `rewrite` gives. -/
theorem handle {m : Mode} {sc : Script}
    (hmethod : ∀ l, scanRequest sc.memory.stale (cstr sc.request.stored) = some l →
      strncasecmpEq l.method (bytes "CONNECT") 7 = false)
    (h : ∀ l a, scanRequest sc.memory.stale (cstr sc.request.stored) = some l →
      scanGetUrl l = some (true, a) → sc.lookup ∧ sc.socket ∧ sc.connect →
      rewrite a.resource a.version (cstr sc.request.stored) = none) :
    SendsNothing (handle m sc) := by
  refine (call (by simp)).bind fun _ _ => (require _ _ _).bind fun _ _ =>
    (orUndefined _).bind fun l hl => ?_
  have hl := orUndefined_ok.1 hl
  split
  · exact handleGet fun a => h l a hl
  · rw [if_neg (by simp [hmethod l hl])]
    exact giveUp m _

end SendsNothing

/-- The request that reaches the server is written to it. -/
theorem ReachesServer.sends {m : Mode} {sc : Script} {l a : Locals} {request : List Byte}
    (h : ReachesServer sc l a) (hread : 0 < sc.request.count)
    (hrw : rewrite a.resource a.version (cstr sc.request.stored) = some request) :
    .write .server request request.length ∈ (handle m sc).calls := by
  simp [handle, decide_eq_true hread, h.parsed, orUndefined, h.get, handleGet, h.accepted,
    connectServer_of_ok h.lookup h.socket h.connect, hrw]

/-- A handler that reads no CONNECT breaks off on the requests of `OverrunsRequest`. -/
theorem breaksOff_iff {m : Mode} {sc : Script} (hread : 0 < sc.request.count)
    (hmethod : ∀ l, scanRequest sc.memory.stale (cstr sc.request.stored) = some l →
      strncasecmpEq l.method (bytes "CONNECT") 7 = false) :
    BreaksOff (handle m sc) ↔ OverrunsRequest sc := by
  constructor
  · rintro ⟨hresult, hnone⟩
    have hreach : ∀ {l a}, ReachesServer sc l a → OverrunsRequest sc := fun {l a} hr => by
      refine .rewrite hr fun hfits => ?_
      obtain ⟨request, hrw⟩ := Option.isSome_iff_exists.1 (rewrite_isSome_iff_fits.2 hfits)
      exact hnone _ _ (hr.sends hread hrw)
    have htunnel : ∀ {l}, ¬AsksTunnel sc l := fun {l} h => by
      have hconnect := h.connects
      rw [hmethod l h.parsed] at hconnect
      cases hconnect
    cases (handle_undefined_iff.1 hresult).2 with
    | request h => exact h
    | content hr => exact hreach hr
    | entry hr => exact hreach hr
    | connectUrl _ h => exact absurd h htunnel
    | connectEntry _ h => exact absurd h.toAsksTunnel htunnel
  · intro h
    refine ⟨undefined_of_request h hread, .handle hmethod fun l a hl ha hconn => ?_⟩
    cases h with
    | word hw hlen =>
      rw [scanRequest_eq_none.2 ⟨_, hw, hlen⟩] at hl
      cases hl
    | url hl' _ hurl =>
      obtain rfl := Option.some.inj (hl.symm.trans hl')
      rw [scanGetUrl_eq_none.2 hurl] at ha
      cases ha
    | rewrite hr hrw =>
      obtain rfl := Option.some.inj (hl.symm.trans hr.parsed)
      obtain ⟨-, rfl⟩ := Prod.mk.inj (Option.some.inj (ha.symm.trans hr.accepted))
      exact rewrite_eq_none.2 hrw

/-- Without a line feed there is no request to send. -/
theorem rewrite_no_newline {resource version buffer : List Byte} (h : 10 ∉ buffer) :
    rewrite resource version buffer = none := by
  have hnl : strchr buffer 10 = none := by
    rw [strchr, List.idxOf?_eq_none_iff]
    exact h
  simp [rewrite, hnl]

/-- A request that starts with `G` is no CONNECT. -/
theorem not_connect {l l' : Locals} {s : List Byte} (h : scanRequest l (71 :: s) = some l') :
    strncasecmpEq l'.method (bytes "CONNECT") 7 = false := by
  obtain ⟨tok, rest, hwords⟩ := words_cons_of_not_space (show isspace 71 = false by decide) s
  rw [scanRequest_eq, hwords, Option.ite_none_right_eq_some] at h
  obtain rfl := Option.some.inj h.2
  have hc : ((bytes "CONNECT").take 7).map tolower = 99 :: bytes "onnect" := by decide
  have hlower : tolower 71 ≠ 99 := by decide
  simp [strncasecmpEq, hc, hlower]

/-! ## A request that arrives whole -/

/-- What the handlers make of a request for the path `resource`. -/
def rewriting (resource version rest : List Byte) : List Byte :=
  if KEEP_ALIVE <:+: rest then
    requestLine resource version ++ replaceFirst KEEP_ALIVE CLOSE rest
  else rest

section Text

variable {url version rest : List Byte}

theorem requestLine_cons (url version : List Byte) :
    ∃ s, requestLine url version = 71 :: s :=
  ⟨_, rfl⟩

/-- A request that is not to be forwarded sends nothing. -/
theorem written_server_of_not_forwarded {m : Mode} {sc : Script} (hurl : IsToken url)
    (hversion : IsToken version) (hreq : sc.request = .data (requestLine url version ++ rest))
    (hnul : 0 ∉ requestLine url version ++ rest) (h : ¬Forwarded url version sc) :
    written .server (handle m sc).calls = [] := by
  have hscan := scanRequest_requestLine hurl hversion rest sc.memory.stale
  refine (SendsNothing.handle (fun l hl => ?_) fun l a hl ha hconn => ?_).written
  · rw [ReadResult.cstr_stored hreq hnul] at hl
    exact not_connect hl
  · rw [ReadResult.cstr_stored hreq hnul, hscan, Option.ite_none_right_eq_some] at hl
    obtain ⟨⟨hu, hv⟩, hl⟩ := hl
    obtain rfl := Option.some.inj hl
    exact absurd ⟨hu, hv, ⟨_, _, (accepts_of_scanGetUrl ha).1⟩, hconn⟩ h

/-- A request that is to be forwarded is sent on. -/
theorem written_server_of_forwarded {m : Mode} {sc : Script} (hurl : IsToken url)
    (hversion : IsToken version) (hreq : sc.request = .data (requestLine url version ++ rest))
    (hnul : 0 ∉ requestLine url version ++ rest)
    (hsize : (requestLine url version ++ rest).length ≤ 9999) (h : Forwarded url version sc)
    {host resource : List Byte} (haccept : AcceptsGet url host resource) :
    written .server (handle m sc).calls = rewriting resource version rest := by
  let r : GetRequest := ⟨url, version, rest, hurl, hversion, h.url_short, h.version_short, hnul,
    hsize⟩
  refine handle_sends m r haccept hreq h.reached ?_
  by_cases hheader : KEEP_ALIVE <:+: rest
  · rw [rewriting, if_pos hheader]
    exact r.rewrite_of_header haccept.length_le hheader
  · rw [rewriting, if_neg hheader]
    exact r.rewrite_of_no_header haccept.length_le hheader

/-- A first piece is cut off in the request line, or it is the request line and the first
part of the rest. -/
theorem prefix_cases (hurl : IsToken url) (hversion : IsToken version) {p : List Byte}
    (hp : p <+: requestLine url version ++ rest) :
    10 ∉ p ∨ ∃ rest', p = requestLine url version ++ rest' ∧ rest' <+: rest := by
  have hline := newline_not_mem hurl hversion
  rw [requestLine_append] at hp
  rcases le_total p.length
    (bytes "GET " ++ url ++ bytes " " ++ version ++ bytes "\r").length with hle | hle
  · have hcut := List.prefix_of_prefix_length_le hp (List.prefix_append _ _) hle
    exact .inl fun hmem => hline (hcut.subset hmem)
  · obtain ⟨q, rfl⟩ := List.prefix_of_prefix_length_le (List.prefix_append _ _) hp hle
    have hq := (List.prefix_append_right_inj _).1 hp
    cases q with
    | nil => exact .inl (by rwa [List.append_nil])
    | cons b rest' =>
      obtain ⟨rfl, hrest⟩ := List.cons_prefix_cons.1 hq
      exact .inr ⟨rest', (requestLine_append _ _ _).symm, hrest⟩

/-- A first piece without the request line sends nothing. -/
theorem written_server_of_cut {m : Mode} {sc : Script} {p : List Byte} (hp : p ≠ [])
    (hpre : p <+: requestLine url version ++ rest) (hnl : 10 ∉ p) (hnul : 0 ∉ p)
    (hreq : sc.request = .data p) : written .server (handle m sc).calls = [] := by
  have hcstr := ReadResult.cstr_stored hreq hnul
  obtain ⟨b, s, rfl⟩ := List.exists_cons_of_ne_nil hp
  obtain ⟨rfl, -⟩ := List.cons_prefix_cons.1 hpre
  refine (SendsNothing.handle (fun l hl => ?_) fun l a _ _ _ => ?_).written
  · rw [hcstr] at hl
    exact not_connect hl
  · rw [hcstr]
    exact rewrite_no_newline hnl

theorem length_replaceFirst {s : List Byte} (h : KEEP_ALIVE <:+: s) :
    (replaceFirst KEEP_ALIVE CLOSE s).length + 5 = s.length := by
  have hkeep : KEEP_ALIVE.length = 24 := by decide
  have hclose : CLOSE.length = 19 := by decide
  obtain ⟨i, hi⟩ := Option.isSome_iff_exists.1 (strstr_isSome_iff.2 h)
  have hle := strstr_le hi
  simp only [replaceFirst_of_strstr hi, List.length_append, List.length_take, List.length_drop]
  omega

/-- Less of the rest is less to send. -/
theorem length_rewriting_lt {resource version rest rest' : List Byte} (hpre : rest' <+: rest)
    (hne : rest' ≠ rest) :
    (rewriting resource version rest').length < (rewriting resource version rest).length := by
  have hlt : rest'.length < rest.length :=
    hpre.length_le.lt_of_ne fun h => hne (hpre.eq_of_length h)
  have hline := length_requestLine resource version
  by_cases hrest' : KEEP_ALIVE <:+: rest'
  · have hrest := hrest'.trans hpre.isInfix
    have h' := length_replaceFirst hrest'
    have h := length_replaceFirst hrest
    rw [rewriting, rewriting, if_pos hrest', if_pos hrest, List.length_append, List.length_append]
    omega
  · rw [rewriting, if_neg hrest', rewriting]
    split
    case isTrue hrest =>
      have h := length_replaceFirst hrest
      rw [List.length_append]
      omega
    case isFalse => exact hlt

end Text

/-! ## Requests in pieces -/

theorem CompleteRequest.rest_ne_nil (r : CompleteRequest) : r.rest ≠ [] := by
  intro h
  rcases r.complete with hr | hr <;> rw [h] at hr
  · exact absurd hr (by decide)
  · exact absurd (List.suffix_nil.1 hr) (by decide)

/-- The first piece of a request that is not forwarded sends nothing. -/
theorem CompleteRequest.written_not_forwarded (r : CompleteRequest) {m : Mode} {sc : Script}
    {p : List Byte} (hp : p ≠ []) (hpre : p <+: r.text) (hreq : sc.request = .data p)
    (h : ¬Forwarded r.url r.version sc) : written .server (handle m sc).calls = [] := by
  have hnul : 0 ∉ p := fun hmem => r.no_nul (hpre.subset hmem)
  rcases prefix_cases r.url_token r.version_token hpre with hnl | ⟨rest', rfl, -⟩
  · exact written_server_of_cut hp hpre hnl hnul hreq
  · exact written_server_of_not_forwarded r.url_token r.version_token hreq hnul h

/-- Of a request that is forwarded less is sent if only a part is read. -/
theorem CompleteRequest.length_written_lt (r : CompleteRequest) {m : Mode} {sc : Script}
    {host resource p : List Byte} (hp : p ≠ []) (hpre : p <+: r.text) (hne : p ≠ r.text)
    (hreq : sc.request = .data p) (h : Forwarded r.url r.version sc)
    (haccept : AcceptsGet r.url host resource) :
    (written .server (handle m sc).calls).length <
      (rewriting resource r.version r.rest).length := by
  have hnul : 0 ∉ p := fun hmem => r.no_nul (hpre.subset hmem)
  rcases prefix_cases r.url_token r.version_token hpre with hnl | ⟨rest', rfl, hrest⟩
  · rw [written_server_of_cut hp hpre hnl hnul hreq]
    exact (Nat.zero_le _).trans_lt
      (length_rewriting_lt (List.nil_prefix (l := r.rest)) r.rest_ne_nil.symm)
  · have hsize : (requestLine r.url r.version ++ rest').length ≤ 9999 :=
      hpre.length_le.trans r.size
    rw [written_server_of_forwarded r.url_token r.version_token hreq hnul hsize h haccept]
    exact length_rewriting_lt hrest fun heq => hne (by rw [heq, CompleteRequest.text])

/-- The url and the version fit their arrays. -/
def CompleteRequest.Short (r : CompleteRequest) : Prop :=
  r.url.length < 1024 ∧ r.version.length < 1024

/-- A first piece is no CONNECT. -/
theorem CompleteRequest.not_connect (r : CompleteRequest) {sc : Script} {p : List Byte}
    (hp : p ≠ []) (hpre : p <+: r.text) (hreq : sc.request = .data p) :
    ∀ l, scanRequest sc.memory.stale (cstr sc.request.stored) = some l →
      strncasecmpEq l.method (bytes "CONNECT") 7 = false := by
  intro l hl
  rw [ReadResult.cstr_stored hreq fun hmem => r.no_nul (hpre.subset hmem)] at hl
  obtain ⟨b, s, rfl⟩ := List.exists_cons_of_ne_nil hp
  obtain ⟨rfl, -⟩ := List.cons_prefix_cons.1 hpre
  exact NetCentric.not_connect hl

/-- A request that arrives whole is handled up to its sending if the url and the version
fit their arrays. -/
theorem CompleteRequest.overruns_iff (r : CompleteRequest) {sc : Script}
    (hreq : sc.request = .data r.text) : OverrunsRequest sc ↔ ¬r.Short := by
  have hcstr : cstr sc.request.stored = requestLine r.url r.version ++ r.rest :=
    ReadResult.cstr_stored hreq r.no_nul
  constructor
  · rintro h ⟨hurl, hversion⟩
    have hparsed : ∀ {l}, scanRequest sc.memory.stale (cstr sc.request.stored) = some l →
        l.url = r.url ∧ l.version = r.version := fun {l} hl => by
      rw [hcstr, scanRequest_requestLine r.url_token r.version_token, if_pos ⟨hurl, hversion⟩] at hl
      obtain rfl := Option.some.inj hl
      exact ⟨rfl, rfl⟩
    cases h with
    | @word w hw hlen =>
      have hget : (bytes "GET").length < 1024 := by decide
      rw [hcstr, words_requestLine r.url_token r.version_token] at hw
      have hcases : w = bytes "GET" ∨ w = r.url ∨ w = r.version := by simpa using hw
      rcases hcases with rfl | rfl | rfl <;> omega
    | url hl _ h =>
      rw [(hparsed hl).1] at h
      exact h.elim (not_partOverruns hurl _) fun h => not_partOverruns hurl _ h.2
    | @rewrite l a hr hrw =>
      obtain ⟨hlurl, hlversion⟩ := hparsed hr.parsed
      obtain ⟨haccepts, hversion', -⟩ := accepts_of_scanGetUrl hr.accepted
      rw [hlurl] at haccepts
      rw [hlversion] at hversion'
      let g : GetRequest := ⟨r.url, r.version, r.rest, r.url_token, r.version_token, hurl, hversion,
        r.no_nul, r.size⟩
      rw [← rewrite_eq_none, hcstr, hversion'] at hrw
      by_cases hheader : KEEP_ALIVE <:+: r.rest
      · exact absurd (hrw.symm.trans (g.rewrite_of_header haccepts.length_le hheader)) (by simp)
      · exact absurd (hrw.symm.trans (g.rewrite_of_no_header haccepts.length_le hheader)) (by simp)
  · intro h
    have hnone : scanRequest sc.memory.stale (cstr sc.request.stored) = none := by
      rw [hcstr, scanRequest_requestLine r.url_token r.version_token]
      exact if_neg h
    obtain ⟨w, hw, hlen⟩ := scanRequest_eq_none.1 hnone
    exact .word hw hlen

/-- The request in these pieces is sent as the whole is, and the handler comes to the
sending, or to the end, without doing what is undefined. -/
structure SentAsWhole (m : Mode) (r : CompleteRequest) (sc : Script) (pieces : List (List Byte)) :
    Prop where
  same : written .server (handle m (sc.receiving pieces)).calls =
    written .server (handle m (sc.receiving [r.text])).calls
  pieces : ¬BreaksOff (handle m (sc.receiving pieces))
  whole : ¬BreaksOff (handle m (sc.receiving [r.text]))

/-- A request in pieces. What is sent of a request that arrives whole is its rewriting, and
a request that arrives in pieces is sent as the whole is if and only if its url and its
version fit their arrays, and there is one piece, or the request is not to be forwarded and
the first piece does not make the handler do what is undefined. -/
theorem segmentation_iff (m : Mode) (r : CompleteRequest) (sc : Script)
    {pieces : List (List Byte)} (hpieces : pieces.flatten = r.text) (hne : ∀ p ∈ pieces, p ≠ []) :
    (∀ host resource, AcceptsGet r.url host resource → Forwarded r.url r.version sc →
      written .server (handle m (sc.receiving [r.text])).calls =
        rewriting resource r.version r.rest) ∧
    (SentAsWhole m r sc pieces ↔ r.Short ∧ (pieces = [r.text] ∨
      ¬Forwarded r.url r.version sc ∧ ¬OverrunsRequest (sc.receiving pieces))) := by
  have hwhole : ∀ host resource, AcceptsGet r.url host resource →
      Forwarded r.url r.version sc →
      written .server (handle m (sc.receiving [r.text])).calls =
        rewriting resource r.version r.rest := by
    intro host resource haccept h
    have hreq : (sc.receiving [r.text]).request = .data (requestLine r.url r.version ++ r.rest) :=
      rfl
    exact written_server_of_forwarded r.url_token r.version_token hreq r.no_nul r.size
      ((forwarded_receiving _).2 h) haccept
  have htext : r.text ≠ [] := by
    obtain ⟨s, hs⟩ := requestLine_cons r.url r.version
    simp [CompleteRequest.text, hs]
  refine ⟨hwhole, ?_⟩
  obtain ⟨p, ps, rfl⟩ : ∃ p ps, pieces = p :: ps :=
    List.exists_cons_of_ne_nil fun h => htext (by rw [← hpieces, h, List.flatten_nil])
  have hp := hne p List.mem_cons_self
  have hpre : p <+: r.text := ⟨ps.flatten, by rw [← hpieces, List.flatten_cons]⟩
  have hbreaks : ∀ {q qs}, q ≠ [] → q <+: r.text →
      (BreaksOff (handle m (sc.receiving (q :: qs))) ↔ OverrunsRequest (sc.receiving (q :: qs))) :=
    fun {q qs} hq hqpre => breaksOff_iff (Int.natCast_pos.2 (List.length_pos_iff.2 hq))
      (r.not_connect hq hqpre rfl)
  have hshort := @CompleteRequest.overruns_iff r (sc.receiving [r.text]) rfl
  constructor
  · rintro ⟨hsame, hbroken, hbroken'⟩
    rw [hbreaks hp hpre] at hbroken
    rw [hbreaks htext (List.prefix_refl _), hshort, not_not] at hbroken'
    refine ⟨hbroken', ?_⟩
    by_contra hnot
    rw [not_or, and_iff_left hbroken, not_not] at hnot
    obtain ⟨hcut, h⟩ := hnot
    obtain ⟨host, resource, haccept⟩ := h.accepted
    have hpne : p ≠ r.text := by
      rintro rfl
      have hflat : ps.flatten = [] := by simpa using hpieces
      have hps : ps = [] := List.eq_nil_iff_forall_not_mem.2 fun q hq =>
        hne q (List.mem_cons_of_mem _ hq) (List.flatten_eq_nil_iff.1 hflat q hq)
      exact hcut (by rw [hps])
    have hreq : (sc.receiving (p :: ps)).request = .data p := rfl
    have hlt := r.length_written_lt (m := m) hp hpre hpne hreq
      ((forwarded_receiving _).2 h) haccept
    rw [hsame, hwhole host resource haccept h] at hlt
    exact lt_irrefl _ hlt
  · rintro ⟨hfits, h⟩
    have hunbroken : ¬BreaksOff (handle m (sc.receiving [r.text])) := by
      rw [hbreaks htext (List.prefix_refl _), hshort, not_not]
      exact hfits
    rcases h with h | ⟨h, hover⟩
    · rw [h]
      exact ⟨rfl, hunbroken, hunbroken⟩
    · refine ⟨?_, mt (hbreaks hp hpre).1 hover, hunbroken⟩
      rw [r.written_not_forwarded hp hpre rfl fun hf => h ((forwarded_receiving _).1 hf),
        r.written_not_forwarded htext (List.prefix_refl _) rfl
          fun hf => h ((forwarded_receiving _).1 hf)]

/-- A request of 35 bytes. -/
def shortRequest : CompleteRequest where
  url := plainRequest.url
  version := plainRequest.version
  rest := plainRequest.rest
  url_token := plainRequest.url_token
  version_token := plainRequest.version_token
  no_nul := plainRequest.no_nul
  size := plainRequest.size
  complete := .inr (by decide)

theorem forwarded_shortRequest :
    Forwarded shortRequest.url shortRequest.version (quietScript []) where
  url_short := by decide
  version_short := by decide
  accepted := ⟨bytes "a", bytes "/", .inr ⟨by decide, by decide⟩⟩
  reached := ⟨rfl, rfl, rfl⟩

/-- The request in one piece. -/
theorem segmentation_iff_whole :
    written .server (handle .thread ((quietScript []).receiving [shortRequest.text])).calls =
      bytes "Host: a\r\n\r\n" ∧
    SentAsWhole .thread shortRequest (quietScript []) [shortRequest.text] := by
  have hone : ∀ p ∈ [shortRequest.text], p ≠ [] := by
    intro p hp
    rw [List.mem_singleton.1 hp]
    decide
  obtain ⟨hwhole, hsent⟩ := segmentation_iff .thread shortRequest (quietScript [])
    List.flatten_singleton hone
  refine ⟨?_, hsent.2 ⟨⟨by decide, by decide⟩, .inl rfl⟩⟩
  rw [hwhole (bytes "a") (bytes "/") (.inr ⟨by decide, by decide⟩) forwarded_shortRequest]
  decide

/-- A request whose empty line comes in a second piece. -/
theorem segmentation_loses_rest : ¬∀ (m : Mode) (r : CompleteRequest) (sc : Script)
    (pieces : List (List Byte)), pieces.flatten = r.text → (∀ p ∈ pieces, p ≠ []) →
    SentAsWhole m r sc pieces := by
  intro h
  have hsame := (h .thread shortRequest (quietScript [])
    [shortRequest.text.take 33, shortRequest.text.drop 33] (by decide) (by decide)).same
  have haccept : AcceptsGet shortRequest.url (bytes "a") (bytes "/") :=
    .inr ⟨by decide, by decide⟩
  have hcut : ((quietScript []).receiving [shortRequest.text.take 33,
      shortRequest.text.drop 33]).request = .data (shortRequest.text.take 33) := rfl
  have hall : ((quietScript []).receiving [shortRequest.text]).request =
      .data (requestLine shortRequest.url shortRequest.version ++ shortRequest.rest) := rfl
  have hlt := shortRequest.length_written_lt (m := .thread) (by decide) (List.take_prefix _ _)
    (by decide) hcut ((forwarded_receiving _).2 forwarded_shortRequest) haccept
  rw [hsame, written_server_of_forwarded shortRequest.url_token shortRequest.version_token hall
    shortRequest.no_nul shortRequest.size ((forwarded_receiving _).2 forwarded_shortRequest)
    haccept] at hlt
  exact lt_irrefl _ hlt

end NetCentric
