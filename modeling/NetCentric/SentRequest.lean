import NetCentric.Outcome

/-!
# What is sent to the origin server

`GetRequest` is a request that the handlers read whole and whose parts fit their arrays.
`handle_sends` : a handler that reaches the server sends it the result of `rewrite` and
nothing else. `sent_request_iff` says when that is the request the handlers are meant to
send, with a new first line and the header `Connection: keep-alive` replaced : exactly
when the header is there. Without it the first line is lost (`sent_request_plain`).
-/

open NetCentric.Scanf

namespace NetCentric

/-! ## The first line -/

/-- The first line up to its last byte. -/
theorem requestLine_append (url version rest : List Byte) : requestLine url version ++ rest =
    (bytes "GET " ++ url ++ bytes " " ++ version ++ bytes "\r") ++ 10 :: rest := by
  have hcrlf : bytes "\r\n" = bytes "\r" ++ [10] := by decide
  simp only [requestLine, hcrlf, List.append_assoc, List.cons_append, List.nil_append]

theorem newline_not_mem {url version : List Byte} (hurl : IsToken url)
    (hversion : IsToken version) :
    10 ∉ bytes "GET " ++ url ++ bytes " " ++ version ++ bytes "\r" := by
  have hspace : isspace 10 = true := by decide
  have htoken : ∀ tok, IsToken tok → (10 : Byte) ∉ tok := fun tok ht hmem => by
    rw [ht.2 10 hmem] at hspace
    exact absurd hspace Bool.false_ne_true
  have h₁ : (10 : Byte) ∉ bytes "GET " := by decide
  have h₂ : (10 : Byte) ∉ bytes " " := by decide
  have h₃ : (10 : Byte) ∉ bytes "\r" := by decide
  simp only [List.mem_append, not_or]
  exact ⟨⟨⟨⟨h₁, htoken _ hurl⟩, h₂⟩, htoken _ hversion⟩, h₃⟩

/-- What follows the first newline is the rest. -/
theorem strchr_requestLine {url version : List Byte} (hurl : IsToken url)
    (hversion : IsToken version) (rest : List Byte) :
    ∃ newline, strchr (requestLine url version ++ rest) 10 = some newline ∧
      (requestLine url version ++ rest).drop (newline + 1) = rest := by
  rw [requestLine_append]
  refine ⟨_, strchr_append (newline_not_mem hurl hversion), ?_⟩
  rw [← List.drop_drop, List.drop_left, List.drop_one, List.tail_cons]

theorem words_requestLine {url version : List Byte} (hurl : IsToken url)
    (hversion : IsToken version) (rest : List Byte) :
    words (requestLine url version ++ rest) = bytes "GET" :: url :: version :: words rest := by
  have hget : IsToken (bytes "GET") := by decide
  have hspace : isspace 32 = true := by decide
  have hcr : isspace 13 = true := by decide
  have hlf : isspace 10 = true := by decide
  have htext : requestLine url version ++ rest =
      bytes "GET" ++ 32 :: (url ++ 32 :: (version ++ 13 :: 10 :: rest)) := by
    have h₁ : bytes "GET " = bytes "GET" ++ [32] := by decide
    have h₂ : bytes " " = [32] := by decide
    have h₃ : bytes "\r\n" = [13, 10] := by decide
    simp only [requestLine, h₁, h₂, h₃, List.append_assoc, List.cons_append, List.nil_append]
  rw [htext, words_token_cons hget hspace, words_token_cons hurl hspace,
    words_token_cons hversion hcr, words_cons hlf]

/-- The three parts are stored, unless one overruns its array. -/
theorem scanRequest_requestLine {url version : List Byte} (hurl : IsToken url)
    (hversion : IsToken version) (rest : List Byte) (l : Locals) :
    scanRequest l (requestLine url version ++ rest) =
      if url.length < 1024 ∧ version.length < 1024 then
        some { l with method := bytes "GET", url := url, version := version }
      else none := by
  have hget : (bytes "GET").length < 1024 := by decide
  rw [scanRequest_eq, words_requestLine hurl hversion]
  simp [hget]

theorem length_requestLine (resource version : List Byte) :
    (requestLine resource version).length = resource.length + version.length + 7 := by
  have h₁ : (bytes "GET ").length = 4 := by decide
  have h₂ : (bytes " ").length = 1 := by decide
  have h₃ : (bytes "\r\n").length = 2 := by decide
  simp only [requestLine, List.length_append, h₁, h₂, h₃]
  omega

/-- The header that is put in is the shorter one. -/
theorem length_replaceFirst_le (s : List Byte) :
    (replaceFirst KEEP_ALIVE CLOSE s).length ≤ s.length := by
  have h : CLOSE.length ≤ KEEP_ALIVE.length := by decide
  cases hs : strstr s KEEP_ALIVE with
  | none => rw [replaceFirst_of_none hs]
  | some i =>
    have := strstr_le hs
    simp only [replaceFirst_of_strstr hs, List.length_append, List.length_take, List.length_drop]
    omega

/-! ## The request -/

/-- A GET request with the url, the version and the rest after the first line. -/
structure GetRequest where
  url : List Byte
  version : List Byte
  rest : List Byte
  url_token : IsToken url
  version_token : IsToken version
  url_short : url.length < 1024
  version_short : version.length < 1024
  no_nul : 0 ∉ requestLine url version ++ rest
  size : (requestLine url version ++ rest).length ≤ 9999

namespace GetRequest

variable (r : GetRequest)

/-- The text of the request. -/
def text : List Byte :=
  requestLine r.url r.version ++ r.rest

/-- What the origin server should get, for the path `resource` of the url. -/
def rewritten (resource : List Byte) : List Byte :=
  requestLine resource r.version ++ replaceFirst KEEP_ALIVE CLOSE r.rest

theorem scanRequest_text (l : Locals) : scanRequest l r.text =
    some { l with method := bytes "GET", url := r.url, version := r.version } := by
  rw [text, scanRequest_requestLine r.url_token r.version_token,
    if_pos ⟨r.url_short, r.version_short⟩]

/-- With the header, `rewrite` gives the request that should be sent. -/
theorem rewrite_of_header {resource : List Byte} (hlen : resource.length ≤ r.url.length)
    (h : KEEP_ALIVE <:+: r.rest) :
    rewrite resource r.version r.text = some (r.rewritten resource) := by
  obtain ⟨newline, hnl, hrest⟩ := strchr_requestLine r.url_token r.version_token r.rest
  rw [← text] at hnl hrest
  obtain ⟨i, hi⟩ := Option.isSome_iff_exists.1 (strstr_isSome_iff.2 h)
  have hsize := r.size
  have hle := length_replaceFirst_le r.rest
  rw [List.length_append, length_requestLine] at hsize
  have hfits : (requestLine resource r.version ++
      replaceFirst KEEP_ALIVE CLOSE (r.text.drop (newline + 1))).length < 10000 := by
    rw [hrest, List.length_append, length_requestLine]
    omega
  rw [rewrite_of_keepAlive hnl (by rw [hrest]; exact hi) hfits, hrest, rewritten]

/-- Without it, `rewrite` gives the rest of the request alone. -/
theorem rewrite_of_no_header {resource : List Byte} (hlen : resource.length ≤ r.url.length)
    (h : ¬KEEP_ALIVE <:+: r.rest) : rewrite resource r.version r.text = some r.rest := by
  obtain ⟨newline, hnl, hrest⟩ := strchr_requestLine r.url_token r.version_token r.rest
  rw [← text] at hnl hrest
  have hsize := r.size
  rw [List.length_append, length_requestLine] at hsize
  have hline : (requestLine resource r.version).length < 10000 := by
    rw [length_requestLine]
    omega
  rw [rewrite_of_not_keepAlive hnl (by rw [hrest]; exact strstr_eq_none_iff.2 h) hline
    (by rw [hrest]; omega), hrest]

end GetRequest

/-! ## Nothing else is sent to the server -/

theorem Mode.written_require (m : Mode) (ok : Bool) (fds : List Fd) (fd : Fd) :
    written fd (m.require ok fds).calls = [] := by
  cases ok
  · exact m.written_giveUp fds fd
  · rfl

theorem written_server_writeLog (m : Mode) (log : Bool) (logstring : List Byte) :
    written .server (writeLog m log logstring).calls = [] := by
  refine written_eq_nil fun data count hc => ?_
  exact absurd (writeLog_keepsLog m log logstring _ hc) (by simp [Call.keepsLog])

theorem written_server_finishGet (m : Mode) (sc : Script) (url : List Byte) :
    written .server (finishGet m sc url).calls = [] := by
  refine written_bind_nil (Relays.relay _ _).written_server fun total => ?_
  refine written_bind_nil (written_server_writeLog _ _ _) fun _ => ?_
  cases m <;> rfl

/-- A handler sends to the server what `rewrite` gives, if it reaches the server. -/
theorem written_server_of_rewrite {m : Mode} {sc : Script} {l a : Locals} {request : List Byte}
    (hread : 0 < sc.request.count)
    (hparse : scanRequest sc.memory.stale (cstr sc.request.stored) = some l)
    (hget : strncasecmpEq l.method (bytes "GET") 3 = true) (haccept : scanGetUrl l = some (true, a))
    (hconn : sc.lookup ∧ sc.socket ∧ sc.connect)
    (hrw : rewrite a.resource a.version (cstr sc.request.stored) = some request) :
    written .server (handle m sc).calls = request := by
  obtain ⟨hlookup, hsocket, hconnect⟩ := hconn
  have hcount : decide (0 < sc.request.count) = true := decide_eq_true hread
  simp only [handle, Mode.require_true, hcount, if_true, Prog.pure_bind, Prog.calls_call_bind,
    hparse, orUndefined, hget, handleGet, haccept, hrw,
    connectServer_of_ok hlookup hsocket hconnect, Prog.calls_callAll_bind]
  have hrest : written .server (m.require sc.send [.client, .proxy, .server] >>= fun _ =>
      finishGet m sc a.url).calls = [] :=
    written_bind_nil (Mode.written_require _ _ _ _) fun _ => written_server_finishGet _ _ _
  rw [written_cons_read, written_append, written_cons_write, hrest]
  simp [written]

theorem GetRequest.count_pos (r : GetRequest) : 0 < (ReadResult.data r.text).count := by
  have hlen := length_requestLine r.url r.version
  rw [ReadResult.count, GetRequest.text, List.length_append]
  omega

/-- The three scans of a request whose url is accepted. -/
theorem GetRequest.scans (r : GetRequest) {host resource : List Byte}
    (hurl : AcceptsGet r.url host resource) {sc : Script} (hreq : sc.request = .data r.text) :
    ∃ l port, scanRequest sc.memory.stale (cstr sc.request.stored) = some l ∧
      strncasecmpEq l.method (bytes "GET") 3 = true ∧ l.url = r.url ∧ l.version = r.version ∧
      scanGetUrl l =
        some (true, { l with host := host, resource := resource, requestedPort := port }) := by
  have hget : strncasecmpEq (bytes "GET") (bytes "GET") 3 = true := by decide
  obtain ⟨port, haccept⟩ := scanGetUrl_of_accepts (l := { sc.memory.stale with
    method := bytes "GET", url := r.url, version := r.version }) r.url_short hurl
  refine ⟨_, port, ?_, hget, rfl, rfl, haccept⟩
  rw [ReadResult.cstr_stored hreq r.no_nul]
  exact r.scanRequest_text _

theorem handle_sends (m : Mode) (r : GetRequest) {host resource : List Byte}
    (hurl : AcceptsGet r.url host resource) {sc : Script} (hreq : sc.request = .data r.text)
    (hconn : sc.lookup ∧ sc.socket ∧ sc.connect) {request : List Byte}
    (hrw : rewrite resource r.version r.text = some request) :
    written .server (handle m sc).calls = request := by
  obtain ⟨l, port, hparse, hget, -, hversion, haccept⟩ := r.scans hurl hreq
  refine written_server_of_rewrite (hreq ▸ r.count_pos) hparse hget haccept hconn ?_
  rw [ReadResult.cstr_stored hreq r.no_nul, hversion]
  exact hrw

/-- The handlers send the request that they should if and only if the client asks to keep
the connection. -/
theorem sent_request_iff (m : Mode) (r : GetRequest) {host resource : List Byte}
    (hurl : AcceptsGet r.url host resource) {sc : Script} (hreq : sc.request = .data r.text)
    (hconn : sc.lookup ∧ sc.socket ∧ sc.connect) :
    written .server (handle m sc).calls = r.rewritten resource ↔ KEEP_ALIVE <:+: r.rest := by
  by_cases h : KEEP_ALIVE <:+: r.rest
  · have hrw := r.rewrite_of_header hurl.length_le h
    exact iff_of_true (handle_sends m r hurl hreq hconn hrw) h
  · have hrw := r.rewrite_of_no_header hurl.length_le h
    refine iff_of_false ?_ h
    rw [handle_sends m r hurl hreq hconn hrw, GetRequest.rewritten,
      replaceFirst_of_none (strstr_eq_none_iff.2 h)]
    intro hlost
    have := congrArg List.length hlost
    rw [List.length_append, length_requestLine] at this
    omega

/-- A request for `http://a/` without the header. -/
def plainRequest : GetRequest where
  url := bytes "http://a/"
  version := bytes "HTTP/1.1"
  rest := bytes "Host: a\r\n\r\n"
  url_token := by decide
  version_token := by decide
  url_short := by decide
  version_short := by decide
  no_nul := by decide
  size := by decide

/-- The same request with the header. -/
def keepAliveRequest : GetRequest where
  url := bytes "http://a/"
  version := bytes "HTTP/1.1"
  rest := bytes "Host: a\r\nConnection: keep-alive\r\n\r\n"
  url_token := by decide
  version_token := by decide
  url_short := by decide
  version_short := by decide
  no_nul := by decide
  size := by decide

/-- A request for a tunnel to `a`. -/
def tunnelRequest : List Byte :=
  bytes "CONNECT a:443 HTTP/1.1\r\n\r\n"

/-- A script in which the server is reached and closes at once. -/
def quietScript (request : List Byte) : Script where
  memory := .clear
  request := .data request
  lookup := true
  socket := true
  connect := true
  send := true
  responses := [.data []]
  polls := []
  log := true
  time := []
  address := 0

theorem sent_request_keep_alive :
    written .server (handle .thread (quietScript keepAliveRequest.text)).calls =
      bytes "GET / HTTP/1.1\r\nHost: a\r\nConnection: close\r\n\r\n" := by
  have hurl : AcceptsGet keepAliveRequest.url (bytes "a") (bytes "/") :=
    .inr ⟨by decide, by decide⟩
  have hreq : (quietScript keepAliveRequest.text).request = .data keepAliveRequest.text := rfl
  rw [(sent_request_iff .thread keepAliveRequest hurl hreq ⟨rfl, rfl, rfl⟩).2 (by decide)]
  decide

/-- Without the header the request line is lost. -/
theorem sent_request_plain : ¬∀ (m : Mode) (r : GetRequest) (host resource : List Byte)
    (sc : Script), AcceptsGet r.url host resource → sc.request = .data r.text →
    sc.lookup ∧ sc.socket ∧ sc.connect →
    written .server (handle m sc).calls = r.rewritten resource := by
  intro h
  have hurl : AcceptsGet plainRequest.url (bytes "a") (bytes "/") := .inr ⟨by decide, by decide⟩
  have hsent := h .thread plainRequest (bytes "a") (bytes "/") (quietScript plainRequest.text)
    hurl rfl ⟨rfl, rfl, rfl⟩
  rw [handle_sends .thread plainRequest hurl rfl ⟨rfl, rfl, rfl⟩
    (plainRequest.rewrite_of_no_header hurl.length_le (by decide))] at hsent
  exact absurd hsent (by decide)

end NetCentric
