import NetCentric.Url
import NetCentric.SentRequest
import NetCentric.Decimal

/-!
# What the arrays have room for

Two texts are built in arrays of a fixed size : the request that is sent on, in 10000
bytes, and the entry of the log, in 1024.

The request is rebuilt from its words and from what follows its first newline. When the
newline is in front of the words, they are counted twice (`rewrite_fits_iff`), and when
it is behind them the request only gets shorter (`rewrite_fits_of_first_line`).

An entry has the url in it, which may be as long as the entry itself. `entry_fits_iff`
counts the rest, and `url_fits_iff` is what is left for the url at worst.
-/

open NetCentric.Scanf

namespace NetCentric

/-! ## The request -/

/-- The words of a text are what is left of it without the white space. -/
theorem flatten_words (s : List Byte) : (words s).flatten = s.filter (!isspace ·) := by
  rw [words, List.flatten_filter_ne_nil]
  induction s with
  | nil => rfl
  | cons c s ih =>
    rw [List.splitOnP_cons_eq_if_modifyHead]
    obtain ⟨tok, rest, h⟩ := List.exists_cons_of_ne_nil (List.splitOnP_ne_nil isspace s)
    rw [h] at ih ⊢
    by_cases hc : isspace c = true
    · simpa [hc] using ih
    · simpa [hc] using ih

theorem ne_nil_of_mem_words {s w : List Byte} (h : w ∈ words s) : w ≠ [] :=
  of_decide_eq_true (List.mem_filter.1 h).2

theorem inArray_isSome {size : ℕ} {s : List Byte} : (inArray size s).isSome ↔ s.length < size := by
  rw [inArray]
  split <;> simp [*]

section Rewrite

variable {method url version host resource buffer : List Byte} {rest : List (List Byte)}
  {newline : ℕ}

/-- The buffer has a line feed, and the request that is put together fits `request[10000]`,
the new first line alone as well. -/
def RewriteFits (resource version buffer : List Byte) : Prop :=
  (requestLine resource version).length < 10000 ∧ ∃ newline, strchr buffer 10 = some newline ∧
    if KEEP_ALIVE <:+: buffer.drop (newline + 1) then
      resource.length + version.length + (buffer.drop (newline + 1)).length ≤ 9997
    else
      (buffer.drop (newline + 1)).length < 10000

theorem rewrite_isSome_iff_fits :
    (rewrite resource version buffer).isSome ↔ RewriteFits resource version buffer := by
  have hkeep : KEEP_ALIVE.length = 24 := by decide
  have hclose : CLOSE.length = 19 := by decide
  by_cases hline : (requestLine resource version).length < 10000
  case neg =>
    rw [RewriteFits, rewrite, inArray, if_neg hline]
    exact iff_of_false (by simp) fun h => hline h.1
  have hfirst : inArray 10000 (requestLine resource version) =
      some (requestLine resource version) := if_pos hline
  rw [RewriteFits, and_iff_right hline]
  cases hnl : strchr buffer 10 with
  | none => simp [rewrite, hfirst, hnl]
  | some newline =>
    simp only [Option.some.injEq, exists_eq_left']
    split
    case isTrue hheader =>
      obtain ⟨i, hi⟩ := Option.isSome_iff_exists.1 (strstr_isSome_iff.2 hheader)
      have hle := strstr_le hi
      simp only [rewrite, hfirst, hnl, hi, strcat, strncat, Option.bind_eq_bind, Option.bind_some,
        inArray_isSome]
      simp only [List.length_append, List.length_take, List.length_drop, length_requestLine,
        hclose, hkeep] at hle ⊢
      omega
    case isFalse hheader =>
      simp only [rewrite, hfirst, hnl, strstr_eq_none_iff.2 hheader, strcat, strcpy,
        Option.bind_eq_bind, Option.bind_some, List.append_nil, inArray_isSome]

theorem rewrite_isSome_iff (hlen : buffer.length ≤ 9999) (hnl : strchr buffer 10 = some newline)
    (hline : (requestLine resource version).length < 10000) :
    (rewrite resource version buffer).isSome ↔
      (KEEP_ALIVE <:+: buffer.drop (newline + 1) →
        resource.length + version.length + (buffer.drop (newline + 1)).length ≤ 9997) := by
  have hrest : (buffer.drop (newline + 1)).length < 10000 := by
    rw [List.length_drop]
    omega
  rw [rewrite_isSome_iff_fits, RewriteFits, and_iff_right hline, hnl]
  simp only [Option.some.injEq, exists_eq_left']
  split
  case isTrue hheader => rw [forall_prop_of_true hheader]
  case isFalse hheader => exact iff_of_true hrest fun h => absurd h hheader

/-- The parts of a request that are stored fit the new first line. -/
theorem requestLine_fits (hshort : url.length < 1024 ∧ version.length < 1024)
    (hurl : AcceptsGet url host resource) : (requestLine resource version).length < 10000 := by
  have hresource := hurl.length_le
  rw [length_requestLine]
  omega

/-- The request fits `request[10000]` unless the header is found and the words are long,
compared to what precedes the first newline. -/
theorem rewrite_fits_iff (hlen : buffer.length ≤ 9999) (hnl : strchr buffer 10 = some newline)
    (hshort : url.length < 1024 ∧ version.length < 1024) (hurl : AcceptsGet url host resource) :
    (rewrite resource version buffer).isSome ↔
      (KEEP_ALIVE <:+: buffer.drop (newline + 1) →
        resource.length + version.length + (buffer.drop (newline + 1)).length ≤ 9997) :=
  rewrite_isSome_iff hlen hnl (requestLine_fits hshort hurl)

/-- The words of the first line take more room there than in the new first line. -/
theorem rewrite_fits_of_first_line (hlen : buffer.length ≤ 9999)
    (hnl : strchr buffer 10 = some newline)
    (hwords : words (buffer.take newline) = method :: url :: version :: rest)
    (hshort : url.length < 1024 ∧ version.length < 1024) (hurl : AcceptsGet url host resource) :
    (rewrite resource version buffer).isSome := by
  refine (rewrite_isSome_iff hlen hnl (requestLine_fits hshort hurl)).2 fun _ => ?_
  have hflat := congrArg List.length (flatten_words (buffer.take newline))
  have hfilter := List.length_filter_le (!isspace ·) (buffer.take newline)
  have hresource := hurl.length_le
  have hmethod : 0 < method.length :=
    List.length_pos_iff.2 (ne_nil_of_mem_words (hwords ▸ List.mem_cons_self))
  rw [hwords] at hflat
  simp only [List.flatten_cons, List.length_append] at hflat
  rw [List.length_take] at hfilter
  rw [List.length_drop]
  omega

end Rewrite

/-- A request with the header and its words in the first line. -/
theorem rewrite_fits_keep_alive :
    (rewrite (bytes "/") (bytes "HTTP/1.1") keepAliveRequest.text).isSome := by
  have hurl : AcceptsGet keepAliveRequest.url (bytes "a") (bytes "/") :=
    .inr ⟨by decide, by decide⟩
  have hnl : strchr keepAliveRequest.text 10 = some 23 := by decide
  exact (rewrite_fits_iff keepAliveRequest.size hnl
    ⟨keepAliveRequest.url_short, keepAliveRequest.version_short⟩ hurl).2 fun _ => by decide

/-- A request of 9999 bytes that starts with a newline. -/
def newlineRequest : List Byte :=
  10 :: (requestLine (bytes "http://a/") (bytes "HTTP/1.1") ++
    (KEEP_ALIVE ++ List.replicate 9950 97))

theorem length_newlineRequest : newlineRequest.length = 9999 := by
  have hkeep : KEEP_ALIVE.length = 24 := by decide
  have hurl : (bytes "http://a/").length = 9 := by decide
  have hversion : (bytes "HTTP/1.1").length = 8 := by decide
  simp only [newlineRequest, List.length_cons, List.length_append, length_requestLine, hkeep, hurl,
    hversion, List.length_replicate]

/-- It needs 10010 bytes. -/
theorem rewrite_overruns : ¬∀ (buffer method url version host resource : List Byte)
    (rest : List (List Byte)), buffer.length ≤ 9999 → 0 ∉ buffer → 10 ∈ buffer →
    words buffer = method :: url :: version :: rest →
    (∀ w ∈ [method, url, version], w.length < 1024) →
    strncasecmpEq method (bytes "GET") 3 = true → AcceptsGet url host resource →
    (rewrite resource version buffer).isSome := by
  intro h
  have hurl : AcceptsGet plainRequest.url (bytes "a") (bytes "/") := .inr ⟨by decide, by decide⟩
  have hnul : 0 ∉ newlineRequest := by
    have hline : 0 ∉ requestLine (bytes "http://a/") (bytes "HTTP/1.1") := by decide
    have hkeep : 0 ∉ KEEP_ALIVE := by decide
    simp only [newlineRequest, List.mem_cons, List.mem_append, List.mem_replicate, not_or]
    exact ⟨by decide, hline, hkeep, fun h0 => absurd h0.2 (by decide)⟩
  have hwords : words newlineRequest = bytes "GET" :: plainRequest.url :: plainRequest.version ::
      words (KEEP_ALIVE ++ List.replicate 9950 97) := by
    rw [newlineRequest, words_cons (by decide)]
    exact words_requestLine plainRequest.url_token plainRequest.version_token _
  have hfits := h newlineRequest _ _ _ _ _ _ length_newlineRequest.le hnul List.mem_cons_self
    hwords (by decide) (by decide) hurl
  have hnl : strchr newlineRequest 10 = some 0 := strchr_append (s := []) (by simp)
  have hdrop : newlineRequest.drop (0 + 1) = requestLine (bytes "http://a/") (bytes "HTTP/1.1") ++
      (KEEP_ALIVE ++ List.replicate 9950 97) := rfl
  have hheader : KEEP_ALIVE <:+: newlineRequest.drop (0 + 1) := by
    rw [hdrop, ← List.append_assoc]
    exact List.infix_append _ _ _
  have hroom := (rewrite_isSome_iff length_newlineRequest.le hnl
    (requestLine_fits ⟨plainRequest.url_short, plainRequest.version_short⟩ hurl)).1 hfits hheader
  rw [List.length_drop, length_newlineRequest] at hroom
  exact absurd hroom (by decide)

/-! ## The entry of the log -/

/-- The length of an address with its dots. -/
def addressWidth (host : BitVec 32) : ℕ :=
  width (host >>> 24).toNat + width ((host >>> 16) &&& 0xff).toNat +
    width ((host >>> 8) &&& 0xff).toNat + width (host &&& 0xff).toNat + 3

theorem length_dotted (host : BitVec 32) : (dotted host).length = addressWidth host := by
  have hdot : (bytes ".").length = 1 := by decide
  simp only [dotted, addressWidth, List.length_append, length_decimal, hdot]
  omega

section Entry

variable {time url : List Byte}

/-- `%s: %d.%d.%d.%d %s %d\n`. -/
theorem length_formatLogEntry (host : BitVec 32) (size : ℤ) :
    (formatLogEntry time host url size).length =
      time.length + addressWidth host + url.length + width size + 5 := by
  have h₁ : (bytes ": ").length = 2 := by decide
  have h₂ : (bytes " ").length = 1 := by decide
  have h₃ : (bytes "\n").length = 1 := by decide
  simp only [formatLogEntry, List.length_append, length_dotted, length_decimal, h₁, h₂, h₃]
  omega

/-- `%s CONNECT from %d.%d.%d.%d to %s, Data Transferred %d/%d\n`. -/
theorem length_formatConnectEntry (host : BitVec 32) (sent recv : ℤ) :
    (formatConnectEntry time host url sent recv).length =
      time.length + addressWidth host + url.length + width sent + width recv + 39 := by
  have h₁ : (bytes " CONNECT from ").length = 14 := by decide
  have h₂ : (bytes " to ").length = 4 := by decide
  have h₃ : (bytes ", Data Transferred ").length = 19 := by decide
  have h₄ : (bytes "/").length = 1 := by decide
  have h₅ : (bytes "\n").length = 1 := by decide
  simp only [formatConnectEntry, List.length_append, length_dotted, length_decimal, h₁, h₂, h₃,
    h₄, h₅]
  omega

/-- An entry fits `logstring` if and only if the url, the address and the counts leave room
for the time and the rest of the text. -/
theorem entry_fits_iff (htime : time.length = 28) (host : BitVec 32) (size sent recv : ℤ) :
    ((inArray 1024 (formatLogEntry time host url size)).isSome ↔
      url.length + addressWidth host + width size ≤ 990) ∧
    ((inArray 1024 (formatConnectEntry time host url sent recv)).isSome ↔
      url.length + addressWidth host + width sent + width recv ≤ 956) := by
  rw [inArray_isSome, inArray_isSome, length_formatLogEntry, length_formatConnectEntry, htime]
  omega

end Entry

/-- A time as the log has it. -/
def newYear : List Byte :=
  bytes "Mon 01 Jan 2024 00:00:00 UTC"

theorem entry_fits_short :
    (inArray 1024 (formatLogEntry newYear 0 (bytes "http://a/") 0)).isSome ∧
      (inArray 1024 (formatConnectEntry newYear 0 (bytes "a:443") 0 0)).isSome :=
  ⟨(entry_fits_iff (by decide) 0 0 0 0).1.2 (by decide),
    (entry_fits_iff (by decide) 0 0 0 0).2.2 (by decide)⟩

/-- A byte has three digits at most. -/
theorem addressWidth_le (host : BitVec 32) : addressWidth host ≤ 15 := by
  have hmask : ∀ x : BitVec 32, width (x &&& 0xff).toNat ≤ 3 := fun x => by
    refine width_natCast_le (k := 2) ?_
    have hle : (x &&& 0xff).toNat ≤ 255 := by
      rw [BitVec.toNat_and]
      exact Nat.and_le_right
    omega
  have hfirst : width (host >>> 24).toNat ≤ 3 := by
    refine width_natCast_le (k := 2) ?_
    have := host.isLt
    rw [BitVec.toNat_ushiftRight, Nat.shiftRight_eq_div_pow]
    omega
  have h₁ := hmask (host >>> 16)
  have h₂ := hmask (host >>> 8)
  have h₃ := hmask host
  rw [addressWidth]
  omega

/-- What is left for the url, for any address and any counts. -/
theorem url_fits_iff {time url : List Byte} (htime : time.length = 28) :
    ((∀ host size, FitsInt size → (inArray 1024 (formatLogEntry time host url size)).isSome) ↔
      url.length ≤ 964) ∧
    ((∀ host sent recv, FitsInt sent → FitsInt recv →
      (inArray 1024 (formatConnectEntry time host url sent recv)).isSome) ↔ url.length ≤ 919) := by
  have hmin : width INT_MIN = 11 := by decide
  have hfits : FitsInt INT_MIN := by decide
  have haddress : addressWidth 0xffffffff = 15 := by decide
  simp only [inArray_isSome, length_formatLogEntry, length_formatConnectEntry, htime]
  refine ⟨⟨fun h => ?_, fun h host size hsize => ?_⟩,
    ⟨fun h => ?_, fun h host sent recv hsent hrecv => ?_⟩⟩
  · have := h 0xffffffff INT_MIN hfits
    omega
  · have := addressWidth_le host
    have := width_le_of_fitsInt hsize
    omega
  · have := h 0xffffffff INT_MIN INT_MIN hfits hfits
    omega
  · have := addressWidth_le host
    have := width_le_of_fitsInt hsent
    have := width_le_of_fitsInt hrecv
    omega

theorem isToken_append {s t : List Byte} (hs : IsToken s) (ht : IsToken t) : IsToken (s ++ t) :=
  ⟨fun h => hs.1 (List.append_eq_nil_iff.1 h).1, fun c hc =>
    (List.mem_append.1 hc).elim (hs.2 c) (ht.2 c)⟩

/-- A url of 1023 bytes that is accepted. -/
def longUrl : List Byte :=
  bytes "http://" ++ (bytes "a" ++ 47 :: List.replicate 1014 97)

/-- The shortest entry with it needs 1065 bytes. -/
theorem entry_overruns : ¬∀ (time url : List Byte) (host : BitVec 32) (size sent recv : ℤ),
    time.length = 28 → IsToken url → url.length ≤ 1023 →
    FitsInt size → FitsInt sent → FitsInt recv →
    ((∃ name resource, AcceptsGet url name resource) →
      (inArray 1024 (formatLogEntry time host url size)).isSome) ∧
    ((∃ l a, l.url = url ∧ scanConnectUrl l = some (true, a)) →
      (inArray 1024 (formatConnectEntry time host url sent recv)).isSome) := by
  intro h
  have hlength : longUrl.length = 1023 := by
    have hscheme : (bytes "http://").length = 7 := by decide
    have hname : (bytes "a").length = 1 := by decide
    simp only [longUrl, List.length_append, List.length_cons, List.length_replicate, hscheme, hname]
  have htok : IsToken longUrl := by
    have hpath : IsToken (47 :: List.replicate 1014 97) := by
      refine ⟨List.cons_ne_nil _ _, fun c hc => ?_⟩
      rcases List.mem_cons.1 hc with rfl | hc
      · decide
      · rw [(List.mem_replicate.1 hc).2]
        decide
    exact isToken_append (by decide) (isToken_append (by decide) hpath)
  have haccepts := acceptsGet_of_host (by decide : IsHost (bytes "a")) (by decide : 47 ∈ bytes ":/")
    htok
  have hfits := (h newYear longUrl 0 0 0 0 (by decide) htok hlength.le (by decide)
    (by decide) (by decide)).1 ⟨_, haccepts⟩
  rw [inArray_isSome, length_formatLogEntry, hlength] at hfits
  have hwidth : width 0 = 1 := by decide
  have haddress : addressWidth 0 = 7 := by decide
  have htime : newYear.length = 28 := by decide
  rw [hwidth, haddress, htime] at hfits
  exact absurd hfits (by decide)

end NetCentric
