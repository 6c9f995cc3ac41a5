import NetCentric.Faults
import NetCentric.SentRequest
import NetCentric.Url

/-!
# Malformed requests

`checkThread` is `thread_handle` over arrays that know whether `sscanf` has set them. It
stops with a fault where the code uses one that is not set, stores a token that is too
long for its array, or uses the null pointer of a `strchr` that found nothing.
`checkThread_follows` : up to the fault it does what `threadHandle` does, whatever the
arrays that are not set hold.

`rejects_malformed_iff` says which texts are handled without a fault, and either rejected
or well formed, in every run.
-/

open NetCentric.Scanf

namespace NetCentric

/-! ## The handler with its faults -/

/-- What the handler must not do. -/
inductive Fault
  /-- An array is used that `sscanf` has not set. -/
  | unset
  /-- A token overruns its array. -/
  | overrun
  /-- The result of a `strchr` is used that found nothing. -/
  | notFound

/-- A handler that watches for faults. -/
abbrev Checked := Prog Call (Fault ⊕ Ending)

/-- The arrays for the parts of a request, with what is in those that are set. -/
structure Parts where
  method : Option (List Byte)
  url : Option (List Byte)
  version : Option (List Byte)
  host : Option (List Byte)
  resource : Option (List Byte)

/-- The text of an array. -/
def used : Option (List Byte) → Checked (List Byte)
  | some s => pure s
  | none => Prog.fault .unset

/-- `sscanf` into arrays of 1024 bytes. -/
def assigned (s : List Byte) (format : String) : Checked (List Value) :=
  match scanInto s format with
  | some values => pure values
  | none => Prog.fault .overrun

/-- The array that gets value `i`. -/
def setText (values : List Value) (i : ℕ) (old : Option (List Byte)) : Option (List Byte) :=
  match values[i]? with
  | some (.text s) => some s
  | _ => old

/-- `sscanf(buffer, "%s %s %s", method, url, version)`. -/
def checkRequest (buffer : List Byte) : Checked Parts := do
  let values ← assigned buffer "%s %s %s"
  return {
    method := setText values 0 none
    url := setText values 1 none
    version := setText values 2 none
    host := none
    resource := none }

/-- The test of the url of a GET request. -/
def checkGetUrl (arrays : Parts) : Checked (Bool × Parts) := do
  let url ← used arrays.url
  let values ← assigned url "http://%[^:/]:%d%s"
  let arrays := { arrays with
    host := setText values 0 arrays.host
    resource := setText values 2 arrays.resource }
  if values.length = 3 then
    return (true, arrays)
  let values ← assigned url "http://%[^:/]%s"
  let arrays := { arrays with
    host := setText values 0 arrays.host
    resource := setText values 1 arrays.resource }
  return (values.length = 2, arrays)

/-- The test of the target of a CONNECT request. -/
def checkConnectUrl (arrays : Parts) : Checked (Bool × Parts) := do
  let url ← used arrays.url
  let values ← assigned url "%[^:/]:%d"
  let arrays := { arrays with host := setText values 0 arrays.host }
  if values.length = 2 then
    return (true, arrays)
  let values ← assigned url "%[^:/]"
  let arrays := { arrays with host := setText values 0 arrays.host }
  return (values.length = 1, arrays)

/-- The contents of `request[10000]`. -/
def checkRewrite (arrays : Parts) (buffer : List Byte) : Checked (List Byte) := do
  let resource ← used arrays.resource
  let version ← used arrays.version
  match strchr buffer 10 with
  | none => Prog.fault .notFound
  | some _ => Prog.lift (orUndefined (rewrite resource version buffer))

/-- The branch of GET. -/
def checkGet (sc : Script) (arrays : Parts) (buffer : List Byte) : Checked Unit := do
  let (accepted, arrays) ← checkGetUrl arrays
  Prog.lift (Mode.thread.require accepted [.client, .proxy])
  let host ← used arrays.host
  Prog.lift (connectServer .thread sc host (bytes "http"))
  let request ← checkRewrite arrays buffer
  Prog.lift (Prog.call (.write .server request request.length))
  Prog.lift (Mode.thread.require sc.send [.client, .proxy, .server])
  let url ← used arrays.url
  Prog.lift (finishGet .thread sc url)

/-- The branch of CONNECT. -/
def checkConnect (sc : Script) (arrays : Parts) : Checked Unit := do
  let (accepted, arrays) ← checkConnectUrl arrays
  Prog.lift (Mode.thread.require accepted [.client, .proxy])
  let host ← used arrays.host
  Prog.lift (connectServer .thread sc host (bytes "https"))
  let url ← used arrays.url
  Prog.lift (finishConnect .thread sc url)

/-- From the test of the method on. -/
def checkMethod (sc : Script) (arrays : Parts) (buffer : List Byte) : Checked Unit := do
  let method ← used arrays.method
  if strncasecmpEq method (bytes "GET") 3 then
    checkGet sc arrays buffer
  else if strncasecmpEq method (bytes "CONNECT") 7 then
    checkConnect sc arrays
  else
    Prog.lift (Mode.thread.giveUp [.client, .proxy])

/-- `thread_handle`, from its `read` on. -/
def checkThread (sc : Script) : Checked Unit := do
  Prog.lift (Prog.call (.read .client 9999 sc.request))
  Prog.lift (Mode.thread.require (0 < sc.request.count) [.client, .proxy])
  let buffer := cstr sc.request.stored
  let arrays ← checkRequest buffer
  checkMethod sc arrays buffer

/-! ## The handler and its watched version -/

/-- The arrays that are set hold what the variables do. -/
structure Parts.Holds (arrays : Parts) (l : Locals) : Prop where
  method : ∀ s ∈ arrays.method, l.method = s
  url : ∀ s ∈ arrays.url, l.url = s
  version : ∀ s ∈ arrays.version, l.version = s
  host : ∀ s ∈ arrays.host, l.host = s
  resource : ∀ s ∈ arrays.resource, l.resource = s

section Follows

variable {α β : Type} {R : α → β → Prop} {arrays : Parts} {l : Locals}

/-- An array is used where the variable is. -/
theorem follows_used {array : Option (List Byte)} {s : List Byte} (h : ∀ t ∈ array, s = t)
    {k : List Byte → Checked α} {q : Handler β} (hk : Prog.Follows R (k s) q) :
    Prog.Follows R (used array >>= k) q := by
  cases array with
  | none => exact .of_fault Fault.unset q
  | some t =>
    obtain rfl := h t rfl
    exact hk

/-- A scan that overruns no array. -/
theorem follows_assigned {s : List Byte} {format : String} {k : List Value → Checked α}
    {q : List Value → Handler β} (hk : ∀ values, Prog.Follows R (k values) (q values)) :
    Prog.Follows R (assigned s format >>= k) (orUndefined (scanInto s format) >>= q) := by
  rw [assigned]
  cases scanInto s format with
  | none => exact .of_fault Fault.overrun _
  | some values => exact hk values

/-- A value goes into the array and into the variable. -/
theorem setText_holds {array : Option (List Byte)} {old : List Byte} (h : ∀ t ∈ array, old = t)
    (values : List Value) (i : ℕ) : ∀ t ∈ setText values i array, textAt values i old = t := by
  rcases hv : values[i]? with _ | s | x <;> simp only [setText, textAt, hv]
  · exact h
  · exact fun t ht => Option.some.inj ht
  · exact h

/-- The scans stop where they overrun. -/
theorem orUndefined_bind {x : Option α} {f : α → Option β} :
    orUndefined (x >>= f) = (orUndefined x >>= fun a => orUndefined (f a)) := by
  cases x <;> rfl

theorem checkRequest_follows (stale : Locals) (buffer : List Byte) :
    Prog.Follows Parts.Holds (checkRequest buffer) (orUndefined (scanRequest stale buffer)) := by
  rw [scanRequest, orUndefined_bind]
  refine follows_assigned fun values => .of_pure ⟨?_, ?_, ?_, ?_, ?_⟩
  · exact setText_holds (by simp) values 0
  · exact setText_holds (by simp) values 1
  · exact setText_holds (by simp) values 2
  · simp
  · simp

/-- The test of the url answers the same, and leaves the arrays alike. -/
def SameTest (p : Bool × Parts) (q : Bool × Locals) : Prop :=
  p.1 = q.1 ∧ p.2.Holds q.2

theorem checkGetUrl_follows (h : arrays.Holds l) :
    Prog.Follows SameTest (checkGetUrl arrays) (orUndefined (scanGetUrl l)) := by
  rw [scanGetUrl, orUndefined_bind]
  refine follows_used h.url (follows_assigned fun values => ?_)
  by_cases hlen : values.length = 3
  · simp only [if_pos hlen]
    exact .of_pure ⟨rfl, h.method, h.url, h.version, setText_holds h.host values 0,
      setText_holds h.resource values 2⟩
  · simp only [if_neg hlen]
    rw [orUndefined_bind]
    refine follows_assigned fun values' => .of_pure ⟨rfl, h.method, h.url, h.version, ?_, ?_⟩
    · exact setText_holds (setText_holds h.host values 0) values' 0
    · exact setText_holds (setText_holds h.resource values 2) values' 1

theorem checkConnectUrl_follows (h : arrays.Holds l) :
    Prog.Follows SameTest (checkConnectUrl arrays) (orUndefined (scanConnectUrl l)) := by
  rw [scanConnectUrl, orUndefined_bind]
  refine follows_used h.url (follows_assigned fun values => ?_)
  by_cases hlen : values.length = 2
  · simp only [if_pos hlen]
    exact .of_pure ⟨rfl, h.method, h.url, h.version, setText_holds h.host values 0, h.resource⟩
  · simp only [if_neg hlen]
    rw [orUndefined_bind]
    exact follows_assigned fun values' => .of_pure ⟨rfl, h.method, h.url, h.version,
      setText_holds (setText_holds h.host values 0) values' 0, h.resource⟩

theorem checkRewrite_follows (h : arrays.Holds l) (buffer : List Byte) :
    Prog.Follows Eq (checkRewrite arrays buffer)
      (orUndefined (rewrite l.resource l.version buffer)) := by
  refine follows_used h.resource (follows_used h.version ?_)
  cases strchr buffer 10 with
  | none => exact .of_fault Fault.notFound _
  | some newline => exact .of_lift _

/-- Part by part, with the same answer to the test of the url. -/
theorem checkGet_follows (sc : Script) (h : arrays.Holds l) (buffer : List Byte) :
    Prog.Follows Eq (checkGet sc arrays buffer) (handleGet .thread sc l buffer) := by
  refine (checkGetUrl_follows h).bind fun ⟨accepted, arrays⟩ ⟨accepted', l⟩ ⟨heq, h⟩ => ?_
  obtain rfl : accepted = accepted' := heq
  refine .bind (.of_lift _) fun _ _ _ => follows_used h.host ?_
  refine .bind (.of_lift _) fun _ _ _ => .bind (checkRewrite_follows h buffer) ?_
  rintro request _ rfl
  refine .bind (.of_lift _) fun _ _ _ => .bind (.of_lift _) fun _ _ _ => ?_
  exact follows_used h.url (.of_lift _)

theorem checkConnect_follows (sc : Script) (h : arrays.Holds l) :
    Prog.Follows Eq (checkConnect sc arrays) (handleConnect .thread sc l) := by
  refine (checkConnectUrl_follows h).bind fun ⟨accepted, arrays⟩ ⟨accepted', l⟩ ⟨heq, h⟩ => ?_
  obtain rfl : accepted = accepted' := heq
  refine .bind (.of_lift _) fun _ _ _ => follows_used h.host ?_
  exact .bind (.of_lift _) fun _ _ _ => follows_used h.url (.of_lift _)

/-- The watched handler does what the handler does, up to a fault. -/
theorem checkThread_follows (sc : Script) :
    Prog.Follows Eq (checkThread sc) (threadHandle sc) := by
  refine .bind (.of_lift _) fun _ _ _ => .bind (.of_lift _) fun _ _ _ => ?_
  refine .bind (checkRequest_follows _ _) fun arrays l h => follows_used h.method ?_
  have hthread : Mode.thread ≠ .sequential := by decide
  simp only [hthread, ne_eq, not_false_eq_true, true_and]
  split
  · exact checkGet_follows sc h _
  · split
    · exact checkConnect_follows sc h
    · exact .of_lift _

end Follows

/-! ## The scans without a fault -/

section Scans

variable {arrays : Parts} {buffer url : List Byte}

theorem assigned_of_short {s : List Byte} (h : s.length < 1024) (format : String) :
    assigned s format = pure (sscanf s format) := by
  rw [assigned, scanInto_of_length_lt h]

/-- The first three words are stored, and the arrays behind the last word are not set. -/
theorem checkRequest_eq (buffer : List Byte) :
    checkRequest buffer = if ∀ w ∈ (words buffer).take 3, w.length < 1024 then
      pure ⟨(words buffer)[0]?, (words buffer)[1]?, (words buffer)[2]?, none, none⟩
    else Prog.fault .overrun := by
  have htext : ∀ i, i < 3 → setText (((words buffer).take 3).map .text) i none =
      (words buffer)[i]? := by
    intro i hi
    rw [setText, List.getElem?_map, List.getElem?_take_of_lt hi]
    cases (words buffer)[i]? <;> rfl
  rw [checkRequest, assigned, scanInto_words]
  by_cases h : ∀ w ∈ (words buffer).take 3, w.length < 1024
  · simp only [if_pos h, Prog.pure_bind, htext _ (show 0 < 3 by decide),
      htext _ (show 1 < 3 by decide), htext _ (show 2 < 3 by decide)]
  · simp only [if_neg h]
    rfl

/-- The arrays after the first scan, for the words of the text. -/
def Parts.ofWords (method : List Byte) (rest : List (List Byte)) : Parts where
  method := some method
  url := rest[0]?
  version := rest[1]?
  host := none
  resource := none

theorem checkRequest_of_words {method : List Byte} {rest : List (List Byte)}
    (hshort : ∀ w ∈ (words buffer).take 3, w.length < 1024)
    (hwords : words buffer = method :: rest) :
    checkRequest buffer = pure (.ofWords method rest) := by
  rw [checkRequest_eq, if_pos hshort, hwords]
  rfl

@[simp] theorem Parts.url_ofWords (method : List Byte) (rest : List (List Byte)) :
    (Parts.ofWords method rest).url = rest.head? :=
  List.head?_eq_getElem?.symm

/-- The word behind the first fits its array. -/
theorem length_url_lt {method : List Byte} {rest : List (List Byte)}
    (hshort : ∀ w ∈ (words buffer).take 3, w.length < 1024)
    (hwords : words buffer = method :: rest) (hu : url ∈ rest.head?) : url.length < 1024 := by
  obtain ⟨rest', rfl⟩ : ∃ rest', rest = url :: rest' := List.head?_eq_some_iff.1 hu
  exact hshort url (by rw [hwords]; simp)

/-- The url has a form that the patterns for GET accept. -/
def AcceptedGet (url : List Byte) : Prop :=
  ∃ host resource, AcceptsGet url host resource

/-- The test of the url sets the host and the path if it accepts the url. -/
theorem checkGetUrl_cases (hurl : arrays.url = some url) (hlen : url.length < 1024) :
    (AcceptedGet url ∧ ∃ host resource, checkGetUrl arrays =
      pure (true, { arrays with host := some host, resource := some resource })) ∨
    ¬AcceptedGet url ∧ ∃ arrays', checkGetUrl arrays = pure (false, arrays') := by
  by_cases hthree : (sscanf url "http://%[^:/]:%d%s").length = 3
  · obtain ⟨host, port, resource, hv⟩ := port_values hthree
    refine .inl ⟨⟨host, resource, .inl ⟨port, hv⟩⟩, host, resource, ?_⟩
    simp only [checkGetUrl, hurl, used, Prog.pure_bind, assigned_of_short hlen, if_pos hthree]
    rw [hv]
    rfl
  · by_cases htwo : (sscanf url "http://%[^:/]%s").length = 2
    · obtain ⟨host, resource, hv⟩ := plain_values htwo
      refine .inl ⟨⟨host, resource, .inr ⟨hthree, hv⟩⟩, host, resource, ?_⟩
      simp only [checkGetUrl, hurl, used, Prog.pure_bind, assigned_of_short hlen, if_neg hthree]
      rw [hv]
      rfl
    · refine .inr ⟨?_, ?_⟩
      · rintro ⟨host, resource, ⟨port, hv⟩ | ⟨-, hv⟩⟩
        · exact hthree (by rw [hv]; rfl)
        · exact htwo (by rw [hv]; rfl)
      · simp only [checkGetUrl, hurl, used, Prog.pure_bind, assigned_of_short hlen,
          if_neg hthree, decide_eq_false htwo]
        exact ⟨_, rfl⟩

/-- The test of the target sets the host if there is one. -/
theorem checkConnectUrl_cases (hurl : arrays.url = some url) (hlen : url.length < 1024) :
    (¬EndsHost url ∧ ∃ host, checkConnectUrl arrays =
      pure (true, { arrays with host := some host })) ∨
    EndsHost url ∧ ∃ arrays', checkConnectUrl arrays = pure (false, arrays') := by
  obtain ⟨host, rest, rfl, hhost, hrest⟩ := exists_host url
  simp only [checkConnectUrl, hurl, used, Prog.pure_bind, assigned_of_short hlen]
  rcases host with _ | ⟨b, host⟩
  · have hport : directives "%[^:/]:%d" = [.scanset (bytes ":/"), .lit 58, .int] := by decide
    have hplain : directives "%[^:/]" = [.scanset (bytes ":/")] := by decide
    refine .inr ⟨hrest, ?_⟩
    simp only [List.nil_append, sscanf, hport, hplain, scan_scanset_of_stop hrest]
    exact ⟨_, rfl⟩
  · have hb : IsHost (b :: host) := ⟨by simp, hhost⟩
    refine .inl ⟨fun h => hhost b List.mem_cons_self (h b rfl), b :: host, ?_⟩
    rw [sscanf_target_port hb hrest, sscanf_target hb hrest]
    split <;> rfl

end Scans

/-! ## Well-formed requests -/

/-- The text begins with one line of three words, the first of which is GET or CONNECT. -/
def BeginsWithLine (s : List Byte) : Prop :=
  ∃ line rest method url version, s = line ++ 10 :: rest ∧ 10 ∉ line ∧
    words line = [method, url, version] ∧
    (method.map tolower = (bytes "GET").map tolower ∨
      method.map tolower = (bytes "CONNECT").map tolower)

/-- The client's connection is closed, and no server is contacted. -/
def Rejects (calls : List Call) : Prop :=
  .close .client ∈ calls ∧ ∀ ok, .connect ok ∉ calls

/-- In every run on the text no fault occurs, and the request is rejected or well formed. -/
def RejectsMalformed (s : List Byte) : Prop :=
  ∀ sc : Script, sc.request = .data s →
    (checkThread sc).FaultFree ∧ (Rejects (threadHandle sc).calls ∨ BeginsWithLine s)

/-- The condition. The first three words fit their arrays and there is one. Behind one that
begins with GET is another, and the text up to its first NUL is well formed if that is a url
that is accepted. Behind one that begins with CONNECT is another, and the text is well
formed if that has a host. -/
def WellHandled (s : List Byte) : Prop :=
  (∀ w ∈ (words (cstr s)).take 3, w.length < 1024) ∧
    ∃ method rest, words (cstr s) = method :: rest ∧
      if strncasecmpEq method (bytes "GET") 3 then
        ∃ url ∈ rest.head?, AcceptedGet url → BeginsWithLine (cstr s)
      else if strncasecmpEq method (bytes "CONNECT") 7 then
        ∃ url ∈ rest.head?, EndsHost url ∨ BeginsWithLine s
      else True

section Lines

variable {s : List Byte}

theorem strchr_eq_none_iff {c : Byte} : strchr s c = none ↔ c ∉ s := by
  rw [strchr, List.idxOf?_eq_none_iff]

/-- A line in front of the first NUL is a line of the text. -/
theorem BeginsWithLine.of_cstr (h : BeginsWithLine (cstr s)) : BeginsWithLine s := by
  obtain ⟨line, rest, method, url, version, hs, hline⟩ := h
  refine ⟨line, rest ++ s.dropWhile (· ≠ 0), method, url, version, ?_, hline⟩
  have hsplit : cstr s ++ s.dropWhile (· ≠ 0) = s := List.takeWhile_append_dropWhile
  rw [hs] at hsplit
  simpa using hsplit.symm

/-- The line of a text is in front of the first NUL if a line feed is. -/
theorem BeginsWithLine.cstr (h : BeginsWithLine s) (hnl : 10 ∈ cstr s) :
    BeginsWithLine (cstr s) := by
  obtain ⟨line, rest, method, url, version, rfl, hline⟩ := h
  -- the string is longer than the line, so the line has no NUL
  have hprefix : NetCentric.cstr (line ++ 10 :: rest) <+: line ++ 10 :: rest :=
    List.takeWhile_prefix _
  have hnul : 0 ∉ line := by
    rcases List.prefix_or_prefix_of_prefix hprefix (List.prefix_append line _) with hp | hp
    · exact absurd (hp.subset hnl) hline.1
    · intro h0
      exact absurd (List.mem_takeWhile_imp (hp.subset h0)) (by simp)
  have hline' : 0 ∉ line ++ [10] := by simpa using hnul
  refine ⟨line, NetCentric.cstr rest, method, url, version, ?_, hline⟩
  have happend := cstr_append_of_no_nul hline' rest
  simpa using happend

theorem BeginsWithLine.line_feed_mem (h : BeginsWithLine s) : 10 ∈ s := by
  obtain ⟨line, rest, -, -, -, rfl, -⟩ := h
  simp

/-- The words of a line are the first words of the text. -/
theorem BeginsWithLine.words_eq (h : BeginsWithLine s) :
    ∃ method url version rest, words s = method :: url :: version :: rest := by
  obtain ⟨line, rest, method, url, version, rfl, -, hwords, -⟩ := h
  exact ⟨method, url, version, words rest, by
    rw [words_append_cons (by decide), hwords]; rfl⟩

end Lines

/-! ## The runs -/

section Runs

variable {sc : Script} {s buffer url : List Byte} {arrays : Parts}

/-- A text is read, and then taken apart. -/
theorem checkThread_eq (hreq : sc.request = .data s) (hs : s ≠ []) :
    checkThread sc = (Prog.lift (Prog.call (.read .client 9999 (.data s))) >>= fun _ =>
      checkRequest (cstr s) >>= fun arrays => checkMethod sc arrays (cstr s)) := by
  have hcount : decide (0 < (ReadResult.data s).count) = true := by
    rw [decide_eq_true_eq, ReadResult.count_pos_iff]
    exact hs
  simp only [checkThread, hreq, hcount, Mode.require_true, Prog.lift_pure, Prog.pure_bind]
  rfl

theorem checkMethod_ofWords (sc : Script) (method : List Byte) (rest : List (List Byte))
    (buffer : List Byte) : checkMethod sc (.ofWords method rest) buffer =
      if strncasecmpEq method (bytes "GET") 3 then
        checkGet sc (.ofWords method rest) buffer
      else if strncasecmpEq method (bytes "CONNECT") 7 then
        checkConnect sc (.ofWords method rest)
      else Prog.lift (Mode.thread.giveUp [.client, .proxy]) :=
  rfl

/-- A url that is not accepted is rejected. -/
theorem checkGet_of_not_accepted (hurl : arrays.url = some url) (hlen : url.length < 1024)
    (h : ¬AcceptedGet url) :
    checkGet sc arrays buffer = Prog.lift (Mode.thread.giveUp [.client, .proxy]) := by
  rcases checkGetUrl_cases hurl hlen with ⟨haccepted, -⟩ | ⟨-, arrays', ha⟩
  · exact absurd haccepted h
  · simp only [checkGet, ha, Prog.pure_bind, Mode.require_false]
    rfl

/-- An accepted url leads to the server of its host. -/
theorem checkGet_of_accepted (sc : Script) (buffer : List Byte) (hurl : arrays.url = some url)
    (hlen : url.length < 1024) (h : AcceptedGet url) : ∃ host resource, checkGet sc arrays buffer =
      (Prog.lift (connectServer .thread sc host (bytes "http")) >>= fun _ =>
        checkRewrite { arrays with host := some host, resource := some resource } buffer >>=
          fun request => Prog.lift (Prog.call (.write .server request request.length)) >>= fun _ =>
            Prog.lift (Mode.thread.require sc.send [.client, .proxy, .server]) >>= fun _ =>
              Prog.lift (finishGet .thread sc url)) := by
  rcases checkGetUrl_cases hurl hlen with ⟨-, host, resource, ha⟩ | ⟨hnot, -⟩
  · refine ⟨host, resource, ?_⟩
    simp only [checkGet, ha, Prog.pure_bind, Mode.require_true, Prog.lift_pure, used, hurl]
  · exact absurd h hnot

theorem checkConnect_of_no_host (hurl : arrays.url = some url) (hlen : url.length < 1024)
    (h : EndsHost url) :
    checkConnect sc arrays = Prog.lift (Mode.thread.giveUp [.client, .proxy]) := by
  rcases checkConnectUrl_cases hurl hlen with ⟨hhost, -⟩ | ⟨-, arrays', ha⟩
  · exact absurd h hhost
  · simp only [checkConnect, ha, Prog.pure_bind, Mode.require_false]
    rfl

theorem checkConnect_of_host (sc : Script) (hurl : arrays.url = some url) (hlen : url.length < 1024)
    (h : ¬EndsHost url) : ∃ host, checkConnect sc arrays =
      (Prog.lift (connectServer .thread sc host (bytes "https")) >>= fun _ =>
        Prog.lift (finishConnect .thread sc url)) := by
  rcases checkConnectUrl_cases hurl hlen with ⟨-, host, ha⟩ | ⟨hnot, -⟩
  · refine ⟨host, ?_⟩
    simp only [checkConnect, ha, Prog.pure_bind, Mode.require_true, Prog.lift_pure, used, hurl]
  · exact absurd hnot h

/-- The request that is sent on has a version and a line feed behind its first line. -/
theorem checkRewrite_faultFree {resource version : List Byte}
    (hresource : arrays.resource = some resource) (hversion : arrays.version = some version)
    (hnl : 10 ∈ buffer) : (checkRewrite arrays buffer).FaultFree := by
  obtain ⟨newline, hnewline⟩ := Option.ne_none_iff_exists'.1
    fun h => strchr_eq_none_iff.1 h hnl
  simp only [checkRewrite, hresource, hversion, hnewline, used, Prog.pure_bind]
  exact Prog.faultFree_lift _

/-- An accepted url leads to no fault with a version and a line feed behind it. -/
theorem checkGet_faultFree {version : List Byte} (hurl : arrays.url = some url)
    (hlen : url.length < 1024) (h : AcceptedGet url) (hversion : arrays.version = some version)
    (hnl : 10 ∈ buffer) : (checkGet sc arrays buffer).FaultFree := by
  obtain ⟨host, resource, hrun⟩ := checkGet_of_accepted sc buffer hurl hlen h
  rw [hrun]
  refine (Prog.faultFree_lift _).bind fun _ _ =>
    .bind (checkRewrite_faultFree rfl hversion hnl) fun _ _ => ?_
  exact (Prog.faultFree_lift _).bind fun _ _ =>
    (Prog.faultFree_lift _).bind fun _ _ => Prog.faultFree_lift _

theorem checkConnect_faultFree (hurl : arrays.url = some url) (hlen : url.length < 1024)
    (h : ¬EndsHost url) : (checkConnect sc arrays).FaultFree := by
  obtain ⟨host, hrun⟩ := checkConnect_of_host sc hurl hlen h
  rw [hrun]
  exact (Prog.faultFree_lift _).bind fun _ _ => Prog.faultFree_lift _

/-- What goes on without a fault after an array is used finds it set. -/
theorem used_of_faultFree {α : Type} {array : Option (List Byte)} {k : List Byte → Checked α}
    (h : (used array >>= k).FaultFree) : ∃ s, array = some s ∧ (k s).FaultFree := by
  cases array with
  | none => exact absurd h (Prog.not_faultFree_fault Fault.unset)
  | some s => exact ⟨s, rfl, h⟩

theorem line_feed_of_checkRewrite (h : (checkRewrite arrays buffer).FaultFree) :
    10 ∈ buffer := by
  by_contra hnl
  obtain ⟨resource, -, h⟩ := used_of_faultFree h
  obtain ⟨version, -, h⟩ := used_of_faultFree h
  rw [strchr_eq_none_iff.2 hnl] at h
  exact Prog.not_faultFree_fault Fault.notFound h

/-- Both branches use the url. -/
theorem url_of_checkGet (h : (checkGet sc arrays buffer).FaultFree) :
    ∃ url, arrays.url = some url := by
  refine Option.ne_none_iff_exists'.1 fun hnone => ?_
  simp only [checkGet, checkGetUrl, hnone, used, Prog.fault_bind] at h
  exact Prog.not_faultFree_fault Fault.unset h

theorem url_of_checkConnect (h : (checkConnect sc arrays).FaultFree) :
    ∃ url, arrays.url = some url := by
  refine Option.ne_none_iff_exists'.1 fun hnone => ?_
  simp only [checkConnect, checkConnectUrl, hnone, used, Prog.fault_bind] at h
  exact Prog.not_faultFree_fault Fault.unset h

/-- A request that is given up on is rejected. -/
theorem rejects_of_giveUp (hreq : sc.request = .data s) (hs : s ≠ [])
    (hrequest : checkRequest (cstr s) = pure arrays)
    (h : checkMethod sc arrays (cstr s) = Prog.lift (Mode.thread.giveUp [.client, .proxy])) :
    (checkThread sc).FaultFree ∧ Rejects (threadHandle sc).calls := by
  have hcheck := checkThread_eq hreq hs
  rw [hrequest, Prog.pure_bind, h] at hcheck
  have hfree : (checkThread sc).FaultFree := by
    rw [hcheck]
    exact (Prog.faultFree_lift _).bind fun _ _ => Prog.faultFree_lift _
  refine ⟨hfree, ?_⟩
  have hcalls : (threadHandle sc).calls = [.read .client 9999 (.data s), .close .client] := by
    rw [← (checkThread_follows sc).calls_eq hfree, hcheck]
    rfl
  rw [hcalls]
  exact ⟨by simp, by simp⟩

end Runs

/-- A text that meets the condition is handled as it should, whatever the system answers. -/
theorem WellHandled.rejectsMalformed {s : List Byte} (h : WellHandled s) (hs : s ≠ []) :
    RejectsMalformed s := by
  obtain ⟨hshort, method, rest, hwords, hcond⟩ := h
  intro sc hreq
  have hrequest := checkRequest_of_words hshort hwords
  have hmethod := checkMethod_ofWords sc method rest (cstr s)
  -- a run that reaches the server has no fault either
  have hfree : (checkMethod sc (.ofWords method rest) (cstr s)).FaultFree →
      (checkThread sc).FaultFree := by
    intro hm
    rw [checkThread_eq hreq hs, hrequest]
    exact (Prog.faultFree_lift _).bind fun _ _ => hm
  have hgiveUp := rejects_of_giveUp hreq hs hrequest
  split at hcond
  case isTrue hget =>
    rw [if_pos hget] at hmethod
    obtain ⟨url, hu, hbegins⟩ := hcond
    have hset := (Parts.url_ofWords method rest).trans hu
    have hlen := length_url_lt hshort hwords hu
    by_cases haccepted : AcceptedGet url
    · have hline := hbegins haccepted
      obtain ⟨_, _, version, _, hwords'⟩ := hline.words_eq
      have hversion : (Parts.ofWords method rest).version = some version := by
        rw [hwords] at hwords'
        rw [(List.cons.inj hwords').2]
        rfl
      refine ⟨hfree ?_, .inr hline.of_cstr⟩
      rw [hmethod]
      exact checkGet_faultFree hset hlen haccepted hversion hline.line_feed_mem
    · obtain ⟨hf, hr⟩ := hgiveUp (hmethod.trans (checkGet_of_not_accepted hset hlen haccepted))
      exact ⟨hf, .inl hr⟩
  case isFalse hget =>
    rw [if_neg hget] at hmethod
    split at hcond
    case isTrue hconnect =>
      rw [if_pos hconnect] at hmethod
      obtain ⟨url, hu, hbegins⟩ := hcond
      have hset := (Parts.url_ofWords method rest).trans hu
      have hlen := length_url_lt hshort hwords hu
      by_cases hhost : EndsHost url
      · obtain ⟨hf, hr⟩ := hgiveUp (hmethod.trans (checkConnect_of_no_host hset hlen hhost))
        exact ⟨hf, .inl hr⟩
      · refine ⟨hfree ?_, .inr (hbegins.resolve_left hhost)⟩
        rw [hmethod]
        exact checkConnect_faultFree hset hlen hhost
    case isFalse hconnect =>
      rw [if_neg hconnect] at hmethod
      obtain ⟨hf, hr⟩ := hgiveUp hmethod
      exact ⟨hf, .inl hr⟩

/-- A run that connects to a server does not reject the request. -/
theorem not_rejects_of_connect {sc : Script} {s host service : List Byte} {arrays : Parts}
    {k : Unit → Checked Unit} (hreq : sc.request = .data s) (hs : s ≠ [])
    (hrequest : checkRequest (cstr s) = pure arrays)
    (hconn : sc.lookup = true ∧ sc.socket = true ∧ sc.connect = true)
    (h : checkMethod sc arrays (cstr s) =
      (Prog.lift (connectServer .thread sc host service) >>= k))
    (hfree : (checkThread sc).FaultFree) : ¬Rejects (threadHandle sc).calls := by
  rintro ⟨-, hno⟩
  refine hno true ?_
  rw [← (checkThread_follows sc).calls_eq hfree, checkThread_eq hreq hs, hrequest, Prog.pure_bind,
    h]
  refine List.mem_cons_of_mem _ ((Prog.calls_prefix_bind _ _).subset ?_)
  rw [Prog.calls_lift, connectServer_of_ok hconn.1 hconn.2.1 hconn.2.2]
  simp

/-- A text that is handled as it should meets the condition : the run on which every call
succeeds shows it. -/
theorem RejectsMalformed.wellHandled {s : List Byte} (h : RejectsMalformed s) (hs : s ≠ []) :
    WellHandled s := by
  obtain ⟨hfree, hbegins⟩ := h (quietScript s) rfl
  have hreq : (quietScript s).request = .data s := rfl
  have hconn : (quietScript s).lookup = true ∧ (quietScript s).socket = true ∧
      (quietScript s).connect = true := ⟨rfl, rfl, rfl⟩
  have hrun := hfree
  rw [checkThread_eq hreq hs] at hrun
  replace hrun := Prog.FaultFree.of_bind hrun rfl
  -- the words fit their arrays, and there is one
  have hshort : ∀ w ∈ (words (cstr s)).take 3, w.length < 1024 := by
    by_contra hlong
    rw [checkRequest_eq, if_neg hlong] at hrun
    exact Prog.not_faultFree_fault Fault.overrun hrun
  obtain ⟨method, rest, hwords⟩ : ∃ method rest, words (cstr s) = method :: rest := by
    refine List.exists_cons_of_ne_nil fun hnil => ?_
    rw [checkRequest_eq, if_pos hshort, hnil] at hrun
    exact Prog.not_faultFree_fault Fault.unset hrun
  have hrequest := checkRequest_of_words hshort hwords
  rw [hrequest, Prog.pure_bind, checkMethod_ofWords] at hrun
  refine ⟨hshort, method, rest, hwords, ?_⟩
  split
  case isTrue hget =>
    rw [if_pos hget] at hrun
    obtain ⟨url, hset⟩ := url_of_checkGet hrun
    have hu := (Parts.url_ofWords method rest).symm.trans hset
    have hlen := length_url_lt hshort hwords hu
    refine ⟨url, hu, fun haccepted => ?_⟩
    obtain ⟨host, resource, hserver⟩ :=
      checkGet_of_accepted (quietScript s) (cstr s) hset hlen haccepted
    have hline := hbegins.resolve_left (not_rejects_of_connect hreq hs hrequest hconn
      ((if_pos hget).trans hserver) hfree)
    have hreached : (connectServer .thread (quietScript s) host (bytes "http")).result =
        .ok () := connectServer_ok.2 hconn
    rw [hserver] at hrun
    exact hline.cstr (line_feed_of_checkRewrite
      (hrun.of_bind (Prog.result_lift_of_ok hreached)).left)
  case isFalse hget =>
    rw [if_neg hget] at hrun
    split
    case isTrue hconnect =>
      rw [if_pos hconnect] at hrun
      obtain ⟨url, hset⟩ := url_of_checkConnect hrun
      have hu := (Parts.url_ofWords method rest).symm.trans hset
      have hlen := length_url_lt hshort hwords hu
      refine ⟨url, hu, or_iff_not_imp_left.2 fun hhost => ?_⟩
      obtain ⟨host, hserver⟩ := checkConnect_of_host (quietScript s) hset hlen hhost
      exact hbegins.resolve_left (not_rejects_of_connect hreq hs hrequest hconn
        ((if_neg hget).trans ((if_pos hconnect).trans hserver)) hfree)
    case isFalse => trivial

/-- The thread meets no fault on a text, and rejects it unless it is well formed, if and
only if the text meets the condition. -/
theorem rejects_malformed_iff {s : List Byte} (hs : s ≠ []) :
    RejectsMalformed s ↔ WellHandled s :=
  ⟨fun h => h.wellHandled hs, fun h => h.rejectsMalformed hs⟩

theorem rejects_malformed_plain : RejectsMalformed plainRequest.text := by
  refine (rejects_malformed_iff (by decide)).2 ⟨by decide, bytes "GET", _, rfl, ?_⟩
  rw [if_pos (by decide)]
  refine ⟨plainRequest.url, by decide, fun _ => ?_⟩
  exact ⟨bytes "GET http://a/ HTTP/1.1\r", bytes "Host: a\r\n\r\n", bytes "GET",
    plainRequest.url, plainRequest.version, by decide, by decide, by decide, .inl rfl⟩

/-- A request without a url. -/
theorem rejects_malformed_no_url : ¬∀ s : List Byte, 1 ≤ s.length → s.length ≤ 9999 →
    RejectsMalformed s := by
  intro h
  obtain ⟨hfree, -⟩ := h (bytes "GET\n") (by decide) (by decide) (quietScript (bytes "GET\n")) rfl
  exact hfree .unset rfl

end NetCentric
