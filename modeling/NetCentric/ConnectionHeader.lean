import NetCentric.Lines
import NetCentric.SentRequest

/-!
# The Connection header

What becomes of the header lines of a request on the way to the origin server. The
handlers replace the first text `"Connection: keep-alive"` CRLF in what follows the first
line. Within the headers that is the end of a line, so it may be the end of a header with
another name, or one of several lines, and where there is none the first line is lost.

`told_to_close_iff` says for which requests the server is told to close, with all other
headers as they came.
-/

open NetCentric.Scanf

namespace NetCentric

/-- The header line that asks to keep the connection. -/
def keepAliveLine : List Byte :=
  bytes "Connection: keep-alive"

/-- The header line that takes its place. -/
def closeLine : List Byte :=
  bytes "Connection: close"

theorem KEEP_ALIVE_eq : KEEP_ALIVE = keepAliveLine ++ CRLF := by
  decide

theorem CLOSE_eq : CLOSE = closeLine ++ CRLF := by
  decide

theorem withinLine_keepAliveLine : WithinLine keepAliveLine := by
  decide

/-! ## The replacement in a block of lines -/

section Replace

variable {headers before after : List (List Byte)} {p body : List Byte}

/-- The search goes on behind the lines that do not end with the header. -/
theorem skips_lines (hlines : ∀ l ∈ headers, IsLine l)
    (h : ∀ l ∈ headers, ¬keepAliveLine <:+ l) (t : List Byte) :
    Skips KEEP_ALIVE (block headers) t := by
  rw [KEEP_ALIVE_eq]
  exact .of_block fun l hl _ =>
    .of_ending (hlines l hl).2 (by decide) withinLine_keepAliveLine (h l hl)

/-- The empty line is no header. -/
theorem skips_headers (hlines : ∀ l ∈ headers, IsLine l)
    (h : ∀ l ∈ headers, ¬keepAliveLine <:+ l) (t : List Byte) :
    Skips KEEP_ALIVE (block headers ++ CRLF) t :=
  .append (skips_lines hlines h _) (.of_head (c := 67) (by decide))

/-- The first line that ends with the header gets a new end. -/
theorem replaceFirst_line (hlines : ∀ l ∈ before, IsLine l) (hp : WithinLine p)
    (h : ∀ l ∈ before, ¬keepAliveLine <:+ l) (t : List Byte) :
    replaceFirst KEEP_ALIVE CLOSE (block (before ++ (p ++ keepAliveLine) :: after) ++ t) =
      block (before ++ (p ++ closeLine) :: after) ++ t := by
  have hskip : ∀ t, Skips KEEP_ALIVE (block before ++ p) (KEEP_ALIVE ++ t) := fun t => by
    refine .append (skips_lines hlines h _) ?_
    rw [KEEP_ALIVE_eq]
    exact .of_longer hp.1 withinLine_keepAliveLine.1
  have htext : block (before ++ (p ++ keepAliveLine) :: after) ++ t =
      (block before ++ p) ++ (KEEP_ALIVE ++ (block after ++ t)) := by
    simp [KEEP_ALIVE_eq]
  rw [htext, replaceFirst_append (hskip _), replaceFirst_of_front]
  simp [CLOSE_eq]

/-- With no such line, only the body can change. -/
theorem replaceFirst_body (hlines : ∀ l ∈ headers, IsLine l)
    (h : ∀ l ∈ headers, ¬keepAliveLine <:+ l) :
    replaceFirst KEEP_ALIVE CLOSE (block headers ++ (CRLF ++ body)) =
      block headers ++ (CRLF ++ replaceFirst KEEP_ALIVE CLOSE body) := by
  rw [← List.append_assoc, replaceFirst_append (skips_headers hlines h _), List.append_assoc]

theorem keepAlive_infix_line (hmem : p ++ keepAliveLine ∈ headers) (t : List Byte) :
    KEEP_ALIVE <:+: block headers ++ t := by
  obtain ⟨before, after, rfl⟩ := List.append_of_mem hmem
  exact ⟨block before ++ p, block after ++ t, by simp [KEEP_ALIVE_eq]⟩

theorem keepAlive_infix_body (hlines : ∀ l ∈ headers, IsLine l)
    (h : ∀ l ∈ headers, ¬keepAliveLine <:+ l) :
    KEEP_ALIVE <:+: block headers ++ (CRLF ++ body) ↔ KEEP_ALIVE <:+: body := by
  rw [← List.append_assoc, ← strstr_isSome_iff, strstr_append (skips_headers hlines h _),
    Option.isSome_map, strstr_isSome_iff]

end Replace

/-! ## What the server is told -/

/-- The header lines with another name. -/
def otherHeaders (headers : List (List Byte)) : List (List Byte) :=
  headers.filter fun l => ¬Named "Connection" l

/-- What is sent is a message without the header that asks to keep the connection and with
the one that asks to close it, and its other headers are those of the client. -/
def ToldToClose (headers : List (List Byte)) (sent : List Byte) : Prop :=
  ∃ first hs body, IsMessage sent first hs body ∧ keepAliveLine ∉ hs ∧
    otherHeaders hs = otherHeaders headers ∧ closeLine ∈ hs

/-- The condition, for the first header line that ends with the searched text : it is a
Connection header, the last one that asks to keep the connection, and nothing else, unless
the client asks to close already. With no such line, the client asks to close : in any
header line if the text is in the body, and otherwise behind a Connection header that takes
the place of the lost first line. -/
def AsksToClose (headers : List (List Byte)) (body : List Byte) : Prop :=
  match headers.dropWhile fun l => ¬keepAliveLine <:+ l with
  | line :: after => Named "Connection" line ∧ keepAliveLine ∉ after ∧
      (line = keepAliveLine ∨ closeLine ∈ headers)
  | [] => if KEEP_ALIVE <:+: body then closeLine ∈ headers
      else ∃ l ∈ headers.head?, Named "Connection" l ∧ closeLine ∈ headers.tail

/-- The header lines, with or without a first line that ends with the searched text. -/
theorem dropWhile_cases (headers : List (List Byte)) :
    (∀ l ∈ headers, ¬keepAliveLine <:+ l) ∧
        headers.dropWhile (fun l => ¬keepAliveLine <:+ l) = [] ∨
      ∃ before p after, headers = before ++ (p ++ keepAliveLine) :: after ∧
        (∀ l ∈ before, ¬keepAliveLine <:+ l) ∧
        headers.dropWhile (fun l => ¬keepAliveLine <:+ l) = (p ++ keepAliveLine) :: after := by
  induction headers with
  | nil => exact .inl ⟨by simp, rfl⟩
  | cons l headers ih =>
    by_cases hl : keepAliveLine <:+ l
    · obtain ⟨p, rfl⟩ := hl
      exact .inr ⟨[], p, headers, rfl, by simp, by simp⟩
    · rw [List.dropWhile_cons_of_pos (by simpa using hl)]
      rcases ih with ⟨hno, hd⟩ | ⟨before, p, after, rfl, hno, hd⟩
      · exact .inl ⟨List.forall_mem_cons.2 ⟨hl, hno⟩, hd⟩
      · exact .inr ⟨l :: before, p, after, rfl, List.forall_mem_cons.2 ⟨hl, hno⟩, hd⟩

section Told

variable {headers hs before after : List (List Byte)} {sent first p body : List Byte}

/-- There is one way to read what is sent as a message. -/
theorem toldToClose_iff (h : IsMessage sent first hs body) : ToldToClose headers sent ↔
    keepAliveLine ∉ hs ∧ otherHeaders hs = otherHeaders headers ∧ closeLine ∈ hs := by
  constructor
  · rintro ⟨first', hs', body', h', hkeep, hothers, hclose⟩
    obtain ⟨-, rfl, -⟩ := h.unique h'
    exact ⟨hkeep, hothers, hclose⟩
  · rintro ⟨hkeep, hothers, hclose⟩
    exact ⟨first, hs, body, h, hkeep, hothers, hclose⟩

/-- The name ends with the first colon. -/
theorem headerName_colon (a s t : List Byte) :
    headerName (a ++ 58 :: s) = headerName (a ++ 58 :: t) := by
  induction a with
  | nil => rfl
  | cons c a ih =>
    simp only [headerName, List.cons_append, List.takeWhile_cons] at ih ⊢
    rw [ih]

/-- The replacement keeps the name of the line. -/
theorem named_replaced (name : String) (p : List Byte) :
    Named name (p ++ closeLine) ↔ Named name (p ++ keepAliveLine) := by
  have hkeep : keepAliveLine = bytes "Connection" ++ 58 :: bytes " keep-alive" := by decide
  have hclose : closeLine = bytes "Connection" ++ 58 :: bytes " close" := by decide
  rw [Named, Named, hkeep, hclose, ← List.append_assoc, ← List.append_assoc,
    headerName_colon _ (bytes " close")]

theorem replaced_ne (p : List Byte) : p ++ closeLine ≠ p ++ keepAliveLine := by
  have h : closeLine ≠ keepAliveLine := by decide
  exact fun heq => h (List.append_cancel_left heq)

/-- The new line is no header that asks to keep the connection. -/
theorem keepAliveLine_ne_replaced (p : List Byte) : keepAliveLine ≠ p ++ closeLine := by
  have h : ¬closeLine <:+ keepAliveLine := by decide
  exact fun heq => h ⟨p, heq.symm⟩

theorem isLine_replaced (hp : WithinLine p) : IsLine (p ++ closeLine) := by
  have hclose : IsLine closeLine := by decide
  exact ⟨List.append_ne_nil_of_right_ne_nil _ hclose.1,
    fun h => (List.mem_append.1 h).elim hp.1 hclose.2.1,
    fun h => (List.mem_append.1 h).elim hp.2 hclose.2.2⟩

/-- The other headers are kept if the replaced line is not one of them. -/
theorem otherHeaders_replaced : otherHeaders (before ++ (p ++ closeLine) :: after) =
    otherHeaders (before ++ (p ++ keepAliveLine) :: after) ↔
      Named "Connection" (p ++ keepAliveLine) := by
  have hname := named_replaced "Connection" p
  by_cases h : Named "Connection" (p ++ keepAliveLine)
  · simp [otherHeaders, h, hname.2 h]
  · have hne := replaced_ne p
    have h' : ¬Named "Connection" (p ++ closeLine) := fun hn => h (hname.1 hn)
    simp [otherHeaders, h, h', hne]

/-- What is sent when the end of a header line is replaced. -/
theorem toldToClose_line (h : IsMessage sent first (before ++ (p ++ closeLine) :: after) body)
    (hbefore : ∀ l ∈ before, ¬keepAliveLine <:+ l) :
    ToldToClose (before ++ (p ++ keepAliveLine) :: after) sent ↔
      Named "Connection" (p ++ keepAliveLine) ∧ keepAliveLine ∉ after ∧
        (p ++ keepAliveLine = keepAliveLine ∨
          closeLine ∈ before ++ (p ++ keepAliveLine) :: after) := by
  have hnot : keepAliveLine ∉ before := fun hk => hbefore _ hk (List.suffix_refl _)
  have hkeep : keepAliveLine ∉ before ++ (p ++ closeLine) :: after ↔ keepAliveLine ∉ after := by
    simp [hnot, keepAliveLine_ne_replaced]
  have hclose : closeLine ∈ before ++ (p ++ closeLine) :: after ↔
      p ++ keepAliveLine = keepAliveLine ∨ closeLine ∈ before ++ (p ++ keepAliveLine) :: after := by
    have hne : closeLine ≠ p ++ keepAliveLine := by
      have hend : ¬keepAliveLine <:+ closeLine := by decide
      exact fun heq => hend ⟨p, heq.symm⟩
    rw [List.mem_append, List.mem_cons, List.mem_append, List.mem_cons, List.self_eq_append_left,
      List.append_left_eq_self, or_iff_right hne, or_left_comm]
  rw [toldToClose_iff h, hkeep, otherHeaders_replaced, hclose]
  exact and_left_comm

/-- What is sent when the first line is lost. -/
theorem toldToClose_lost (hlines : ∀ l ∈ headers, IsLine l)
    (hno : ∀ l ∈ headers, ¬keepAliveLine <:+ l) :
    ToldToClose headers (block headers ++ (CRLF ++ body)) ↔
      ∃ l ∈ headers.head?, Named "Connection" l ∧ closeLine ∈ headers.tail := by
  rcases headers with _ | ⟨l, hs⟩
  · -- nothing is left in front of the empty line
    refine iff_of_false ?_ (by simp)
    rintro ⟨first, hs, body', h, -⟩
    exact absurd (block_unique (by simp) h.lines h.text_eq).1 (List.cons_ne_nil _ _).symm
  · have hnot : keepAliveLine ∉ hs :=
      fun hk => hno _ (List.mem_cons_of_mem _ hk) (List.suffix_refl _)
    have hothers : otherHeaders hs = otherHeaders (l :: hs) ↔ Named "Connection" l := by
      by_cases hl : Named "Connection" l <;> simp [otherHeaders, hl]
    rw [toldToClose_iff ⟨rfl, hlines⟩, hothers]
    simp [hnot]

/-- The headers as they are sent, with a new first line or without it. -/
theorem toldToClose_rest_iff (hfirst : IsLine first) (hlines : ∀ l ∈ headers, IsLine l) :
    ToldToClose headers (if KEEP_ALIVE <:+: block headers ++ (CRLF ++ body) then
        block [first] ++ replaceFirst KEEP_ALIVE CLOSE (block headers ++ (CRLF ++ body))
      else block headers ++ (CRLF ++ body)) ↔ AsksToClose headers body := by
  have hmessage : ∀ hs body', (∀ l ∈ hs, IsLine l) →
      IsMessage (block [first] ++ (block hs ++ (CRLF ++ body'))) first hs body' :=
    fun hs body' hhs => ⟨by simp, List.forall_mem_cons.2 ⟨hfirst, hhs⟩⟩
  rcases dropWhile_cases headers with ⟨hno, hdrop⟩ | ⟨before, p, after, rfl, hno, hdrop⟩
  · have hnot : keepAliveLine ∉ headers := fun hk => hno _ hk (List.suffix_refl _)
    rw [AsksToClose, hdrop]
    by_cases hbody : KEEP_ALIVE <:+: body
    · rw [if_pos ((keepAlive_infix_body hlines hno).2 hbody), replaceFirst_body hlines hno,
        toldToClose_iff (hmessage _ _ hlines), if_pos hbody]
      exact ⟨fun h => h.2.2, fun h => ⟨hnot, rfl, h⟩⟩
    · rw [if_neg fun h => hbody ((keepAlive_infix_body hlines hno).1 h), if_neg hbody]
      exact toldToClose_lost hlines hno
  · have hmem : p ++ keepAliveLine ∈ before ++ (p ++ keepAliveLine) :: after :=
      List.mem_append_right _ List.mem_cons_self
    have hp : WithinLine p := by
      have hline := (hlines _ hmem).2
      exact ⟨fun h => hline.1 (List.mem_append_left _ h),
        fun h => hline.2 (List.mem_append_left _ h)⟩
    have hlines' : ∀ l ∈ before ++ (p ++ closeLine) :: after, IsLine l := by
      rw [List.forall_mem_append, List.forall_mem_cons] at hlines ⊢
      exact ⟨hlines.1, isLine_replaced hp, hlines.2.2⟩
    rw [AsksToClose, hdrop, if_pos (keepAlive_infix_line hmem _),
      replaceFirst_line (fun l hl => hlines l (List.mem_append_left _ hl)) hp hno]
    exact toldToClose_line (hmessage _ _ hlines') hno

end Told

/-! ## The handlers -/

/-- The first line without its end. -/
def getLine (resource version : List Byte) : List Byte :=
  bytes "GET " ++ resource ++ bytes " " ++ version

theorem requestLine_eq (resource version : List Byte) :
    requestLine resource version = getLine resource version ++ CRLF := by
  have hcrlf : bytes "\r\n" = CRLF := by decide
  rw [requestLine, hcrlf, getLine]

theorem isLine_getLine {resource version : List Byte} (hresource : WithinLine resource)
    (hversion : WithinLine version) : IsLine (getLine resource version) := by
  have h₁ : WithinLine (bytes "GET ") := by decide
  have h₂ : WithinLine (bytes " ") := by decide
  have h₃ : bytes "GET " ≠ [] := by decide
  refine ⟨by simp [getLine, h₃], ?_, ?_⟩
  · simp only [getLine, List.mem_append, not_or]
    exact ⟨⟨⟨h₁.1, hresource.1⟩, h₂.1⟩, hversion.1⟩
  · simp only [getLine, List.mem_append, not_or]
    exact ⟨⟨⟨h₁.2, hresource.2⟩, h₂.2⟩, hversion.2⟩

theorem withinLine_of_token {tok : List Byte} (h : IsToken tok) : WithinLine tok := by
  have hspace : ∀ c : Byte, isspace c = true → c ∉ tok := fun c hc hmem => by
    rw [h.2 c hmem] at hc
    exact absurd hc Bool.false_ne_true
  exact ⟨hspace 13 (by decide), hspace 10 (by decide)⟩

/-- A GET request of header lines, an empty line and a body, that one `read` can return. -/
structure ClientRequest where
  url : List Byte
  version : List Byte
  headers : List (List Byte)
  body : List Byte
  url_token : IsToken url
  version_token : IsToken version
  lines : ∀ l ∈ headers, IsLine l
  no_nul : 0 ∉ requestLine url version ++ (block headers ++ (CRLF ++ body))
  size : (requestLine url version ++ (block headers ++ (CRLF ++ body))).length ≤ 9999

namespace ClientRequest

variable (r : ClientRequest)

/-- The text of the request. -/
def text : List Byte :=
  requestLine r.url r.version ++ (block r.headers ++ (CRLF ++ r.body))

/-- The url and the version fit their arrays. -/
def Short : Prop :=
  r.url.length < 1024 ∧ r.version.length < 1024

instance : Decidable r.Short :=
  inferInstanceAs (Decidable (_ ∧ _))

/-- The request with its headers as they are in the buffer. -/
def toGet (h : r.Short) : GetRequest where
  url := r.url
  version := r.version
  rest := block r.headers ++ (CRLF ++ r.body)
  url_token := r.url_token
  version_token := r.version_token
  url_short := h.1
  version_short := h.2
  no_nul := r.no_nul
  size := r.size

/-- With a part that overruns its array, nothing is sent. -/
theorem written_of_long (m : Mode) {sc : Script} (hreq : sc.request = .data r.text)
    (h : ¬r.Short) : written .server (handle m sc).calls = [] := by
  have hcstr : cstr sc.request.stored = r.text := ReadResult.cstr_stored hreq r.no_nul
  have hscan : scanRequest sc.memory.stale r.text = none := by
    rw [text, scanRequest_requestLine r.url_token r.version_token]
    exact if_neg h
  have hlen : 0 < r.text.length := by
    rw [text, List.length_append, length_requestLine]
    omega
  have hcount : decide (0 < sc.request.count) = true := by
    rw [hreq]
    exact decide_eq_true (Int.natCast_pos.2 hlen)
  simp only [handle, Mode.require_true, hcount, Prog.pure_bind, Prog.calls_call_bind, hcstr, hscan,
    orUndefined, Prog.stop_bind, Prog.calls_stop]
  rfl

/-- What the server gets : the headers behind a new first line if the text is found, and
without one otherwise. -/
theorem written_of_short (m : Mode) (hshort : r.Short) {host resource : List Byte}
    (hurl : AcceptsGet r.url host resource) {sc : Script} (hreq : sc.request = .data r.text)
    (hconn : sc.lookup ∧ sc.socket ∧ sc.connect) : written .server (handle m sc).calls =
      if KEEP_ALIVE <:+: block r.headers ++ (CRLF ++ r.body) then
        block [getLine resource r.version] ++
          replaceFirst KEEP_ALIVE CLOSE (block r.headers ++ (CRLF ++ r.body))
      else block r.headers ++ (CRLF ++ r.body) := by
  split
  case isTrue h =>
    rw [handle_sends m (r.toGet hshort) hurl hreq hconn
      ((r.toGet hshort).rewrite_of_header hurl.length_le h)]
    simp [GetRequest.rewritten, requestLine_eq, toGet]
  case isFalse h =>
    exact handle_sends m (r.toGet hshort) hurl hreq hconn
      ((r.toGet hshort).rewrite_of_no_header hurl.length_le h)

theorem isLine_first {host resource : List Byte} (hurl : AcceptsGet r.url host resource) :
    IsLine (getLine resource r.version) := by
  have hwithin := withinLine_of_token r.url_token
  have hresource : WithinLine resource :=
    ⟨fun h => hwithin.1 (hurl.isInfix.subset h), fun h => hwithin.2 (hurl.isInfix.subset h)⟩
  exact isLine_getLine hresource (withinLine_of_token r.version_token)

end ClientRequest

/-- The server is told to close, with the other headers of the client, if and only if the
url and the version fit their arrays and the client asks for it as the handlers expect. -/
theorem told_to_close_iff (m : Mode) (r : ClientRequest) {host resource : List Byte}
    (hurl : AcceptsGet r.url host resource) {sc : Script} (hreq : sc.request = .data r.text)
    (hconn : sc.lookup ∧ sc.socket ∧ sc.connect) :
    ToldToClose r.headers (written .server (handle m sc).calls) ↔
      r.Short ∧ AsksToClose r.headers r.body := by
  by_cases hshort : r.Short
  · rw [and_iff_right hshort, r.written_of_short m hshort hurl hreq hconn]
    exact toldToClose_rest_iff (r.isLine_first hurl) r.lines
  · -- nothing is sent, and that is no message
    refine iff_of_false ?_ fun h => hshort h.1
    rw [r.written_of_long m hreq hshort]
    rintro ⟨first, hs, body, h, -⟩
    exact absurd h.text_eq (by simp [CRLF])

/-- A request for `http://a/` with these headers. -/
def requestWith (headers : List (List Byte)) (hlines : ∀ l ∈ headers, IsLine l)
    (hnul : 0 ∉ block headers) (hsize : (block headers).length ≤ 1000) : ClientRequest where
  url := plainRequest.url
  version := plainRequest.version
  headers := headers
  body := []
  url_token := plainRequest.url_token
  version_token := plainRequest.version_token
  lines := hlines
  no_nul := by
    have h₁ : (0 : Byte) ∉ requestLine plainRequest.url plainRequest.version := by decide
    have h₂ : (0 : Byte) ∉ CRLF := by decide
    simpa only [List.mem_append, not_or, List.append_nil] using ⟨h₁, hnul, h₂⟩
  size := by
    have h₁ : (requestLine plainRequest.url plainRequest.version).length = 24 := by decide
    have h₂ : CRLF.length = 2 := by decide
    simp only [List.length_append, List.length_nil, h₁, h₂]
    omega

/-- A request that asks once to keep the connection. -/
def asksOnce : ClientRequest :=
  requestWith [bytes "Host: a", keepAliveLine] (by decide) (by decide) (by decide)

/-- A request that asks twice. -/
def asksTwice : ClientRequest :=
  requestWith [keepAliveLine, keepAliveLine] (by decide) (by decide) (by decide)

theorem told_to_close_once :
    ToldToClose asksOnce.headers
      (written .server (handle .thread (quietScript asksOnce.text)).calls) := by
  have hurl : AcceptsGet asksOnce.url (bytes "a") (bytes "/") := .inr ⟨by decide, by decide⟩
  have hasks : AsksToClose asksOnce.headers asksOnce.body := by
    have hdrop : asksOnce.headers.dropWhile (fun l => ¬keepAliveLine <:+ l) = [keepAliveLine] := by
      decide
    rw [AsksToClose, hdrop]
    exact ⟨by decide, by decide, .inl rfl⟩
  exact (told_to_close_iff .thread asksOnce hurl rfl ⟨rfl, rfl, rfl⟩).2 ⟨by decide, hasks⟩

/-- The second header is sent on. -/
theorem told_to_close_twice : ¬∀ (m : Mode) (r : ClientRequest) (host resource : List Byte)
    (sc : Script), AcceptsGet r.url host resource → sc.request = .data r.text →
    sc.lookup ∧ sc.socket ∧ sc.connect →
    ToldToClose r.headers (written .server (handle m sc).calls) := by
  intro h
  have hurl : AcceptsGet asksTwice.url (bytes "a") (bytes "/") := .inr ⟨by decide, by decide⟩
  have htold := h .thread asksTwice _ _ (quietScript asksTwice.text) hurl rfl ⟨rfl, rfl, rfl⟩
  have hsent : IsMessage (written .server (handle .thread (quietScript asksTwice.text)).calls)
      (bytes "GET / HTTP/1.1") [closeLine, keepAliveLine] [] := by
    refine ⟨?_, by decide⟩
    rw [asksTwice.written_of_short .thread (by decide) hurl rfl ⟨rfl, rfl, rfl⟩]
    decide
  exact ((toldToClose_iff hsent).1 htold).1 (by decide)

end NetCentric
