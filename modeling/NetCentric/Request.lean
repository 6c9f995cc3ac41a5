import NetCentric.Scanf

/-!
# The request of a client

How the proxies take a request apart and rebuild it for the origin server. All three
handlers contain this code in the same words.

`scanRequest` and the two url scans store into arrays that are declared inside the loop
body and never initialised, so they are given the arrays' old contents (`Locals`) and
keep what `sscanf` does not assign. An array overrun is `none`.

`rewrite` builds the request that is sent on. Where the client asks to keep the
connection it is the request with a new first line and the header replaced
(`rewrite_of_keepAlive`). Where it does not, `strcpy` overwrites the first line
(`rewrite_of_not_keepAlive`).
-/

open NetCentric.Scanf

namespace NetCentric

/-- The variables that hold the parts of a request. -/
structure Locals where
  method : List Byte
  url : List Byte
  version : List Byte
  host : List Byte
  resource : List Byte
  requestedPort : ℤ

/-- `s` as the contents of an array of `size` bytes, with its NUL. -/
def inArray (size : ℕ) (s : List Byte) : Option (List Byte) :=
  if s.length < size then some s else none

/-- The value fits the variable it is stored in : a text an array of 1024 bytes. -/
def storable : Value → Bool
  | .text s => s.length < 1024
  | .number _ => true

/-- `sscanf` into arrays of 1024 bytes. -/
def scanInto (s : List Byte) (format : String) : Option (List Value) :=
  if (sscanf s format).all storable then some (sscanf s format) else none

/-- The text variable that gets value `i`. -/
def textAt (values : List Value) (i : ℕ) (old : List Byte) : List Byte :=
  match values[i]? with
  | some (.text s) => s
  | _ => old

/-- The integer variable that gets value `i`. -/
def numberAt (values : List Value) (i : ℕ) (old : ℤ) : ℤ :=
  match values[i]? with
  | some (.number x) => x
  | _ => old

/-- `sscanf(buffer, "%s %s %s", method, url, version)`. -/
def scanRequest (l : Locals) (buffer : List Byte) : Option Locals := do
  let values ← scanInto buffer "%s %s %s"
  return { l with
    method := textAt values 0 l.method
    url := textAt values 1 l.url
    version := textAt values 2 l.version }

/-- The test of the url of a GET request, and the parts it leaves behind. -/
def scanGetUrl (l : Locals) : Option (Bool × Locals) := do
  let values ← scanInto l.url "http://%[^:/]:%d%s"
  let l := { l with
    host := textAt values 0 l.host
    requestedPort := numberAt values 1 80
    resource := textAt values 2 l.resource }
  if values.length = 3 then
    return (true, l)
  let values ← scanInto l.url "http://%[^:/]%s"
  let l := { l with
    host := textAt values 0 l.host
    resource := textAt values 1 l.resource }
  return (values.length = 2, l)

/-- The test of the target of a CONNECT request, and the parts it leaves behind. -/
def scanConnectUrl (l : Locals) : Option (Bool × Locals) := do
  let values ← scanInto l.url "%[^:/]:%d"
  let l := { l with
    host := textAt values 0 l.host
    requestedPort := numberAt values 1 80 }
  if values.length = 2 then
    return (true, l)
  let values ← scanInto l.url "%[^:/]"
  let l := { l with host := textAt values 0 l.host }
  return (values.length = 1, l)

/-- The header that asks to keep the connection. -/
def KEEP_ALIVE : List Byte :=
  bytes "Connection: keep-alive\r\n"

/-- The header that takes its place. -/
def CLOSE : List Byte :=
  bytes "Connection: close\r\n"

/-- `sprintf(request, "GET %s %s\r\n", resource, version)`. -/
def requestLine (resource version : List Byte) : List Byte :=
  bytes "GET " ++ resource ++ bytes " " ++ version ++ bytes "\r\n"

/-- The contents of `request[10000]`, for the `buffer` the client's request is in. -/
def rewrite (resource version buffer : List Byte) : Option (List Byte) := do
  let request ← inArray 10000 (requestLine resource version)
  let newline ← strchr buffer 10
  let remaining := buffer.drop (newline + 1)
  match strstr remaining KEEP_ALIVE with
  | some modReqLen =>
    let request := strcat (strncat request remaining modReqLen) CLOSE
    inArray 10000 (strcat request (remaining.drop (modReqLen + KEEP_ALIVE.length)))
  | none => inArray 10000 (strcat (strcpy request remaining) [])

/-! ## What the scans leave -/

theorem scanInto_of_length_lt {s : List Byte} (h : s.length < 1024) (format : String) :
    scanInto s format = some (sscanf s format) := by
  have hall : (sscanf s format).all storable = true := by
    refine List.all_eq_true.2 fun v hv => ?_
    cases v with
    | text t => exact decide_eq_true ((isInfix_of_text_mem hv).length_le.trans_lt h)
    | number x => rfl
  rw [scanInto, if_pos hall]

/-- The values of the first scan are the first three words. -/
theorem scanInto_words (s : List Byte) :
    scanInto s "%s %s %s" = if ∀ w ∈ (words s).take 3, w.length < 1024 then
      some (((words s).take 3).map .text) else none := by
  have hall : (((words s).take 3).map .text).all storable = true ↔
      ∀ w ∈ (words s).take 3, w.length < 1024 := by
    rw [List.all_map, List.all_eq_true]
    exact forall₂_congr fun w _ => decide_eq_true_iff
  simp only [scanInto, sscanf_words, hall]

/-- The first three words are stored, unless one overruns its array. -/
theorem scanRequest_eq (l : Locals) (s : List Byte) :
    scanRequest l s = if ∀ w ∈ (words s).take 3, w.length < 1024 then
      some { l with
        method := (words s).getD 0 l.method
        url := (words s).getD 1 l.url
        version := (words s).getD 2 l.version }
    else none := by
  have htext : ∀ i old, i < 3 →
      textAt (((words s).take 3).map .text) i old = (words s).getD i old := by
    intro i old hi
    rw [textAt, List.getElem?_map, List.getElem?_take_of_lt hi, List.getD_eq_getElem?_getD]
    cases (words s)[i]? <;> rfl
  rw [scanRequest, scanInto_words]
  split
  · simp only [htext _ _ (show 0 < 3 by decide), htext _ _ (show 1 < 3 by decide),
      htext _ _ (show 2 < 3 by decide), Option.bind_eq_bind, Option.bind_some, Option.pure_def]
  · rfl

/-- The url is accepted with this host and path : the first pattern assigns all three
values, or it does not and the second assigns both. -/
def AcceptsGet (url host resource : List Byte) : Prop :=
  (∃ port, sscanf url "http://%[^:/]:%d%s" = [.text host, .number port, .text resource]) ∨
    (sscanf url "http://%[^:/]:%d%s").length ≠ 3 ∧
      sscanf url "http://%[^:/]%s" = [.text host, .text resource]

/-- An accepted url sets the host and the path, whatever the arrays held before. -/
theorem scanGetUrl_of_accepts {l : Locals} {host resource : List Byte}
    (hlen : l.url.length < 1024) (h : AcceptsGet l.url host resource) :
    ∃ port, scanGetUrl l = some (true, { l with
      host := host, resource := resource, requestedPort := port }) := by
  simp only [scanGetUrl, scanInto_of_length_lt hlen, Option.bind_eq_bind, Option.bind_some]
  rcases h with ⟨port, h⟩ | ⟨hne, h⟩
  · exact ⟨port, by simp [h, textAt, numberAt]⟩
  · exact ⟨_, by simp [h, hne, textAt]; rfl⟩

/-- The test of the url stores into the host and the path only. -/
theorem scanGetUrl_keeps {l a : Locals} {accepted : Bool} (h : scanGetUrl l = some (accepted, a)) :
    a.method = l.method ∧ a.url = l.url ∧ a.version = l.version := by
  simp only [scanGetUrl, Option.bind_eq_bind, Option.bind_eq_some_iff] at h
  obtain ⟨values, -, h⟩ := h
  split at h
  · obtain ⟨-, rfl⟩ := Prod.mk.inj (Option.some.inj h)
    exact ⟨rfl, rfl, rfl⟩
  · obtain ⟨values', -, h⟩ := Option.bind_eq_some_iff.1 h
    obtain ⟨-, rfl⟩ := Prod.mk.inj (Option.some.inj h)
    exact ⟨rfl, rfl, rfl⟩

/-- The values of the pattern with a port, if all three are assigned. -/
theorem port_values {url : List Byte} (h : (sscanf url "http://%[^:/]:%d%s").length = 3) :
    ∃ host port resource, sscanf url "http://%[^:/]:%d%s" =
      [.text host, .number port, .text resource] := by
  have hkinds : (sscanf url "http://%[^:/]:%d%s").map Value.isText = [true, false, true] :=
    (kinds_of_scan _ url).eq_of_length (by rw [List.length_map]; exact h)
  match hv : sscanf url "http://%[^:/]:%d%s", hkinds with
  | [.text host, .number port, .text resource], _ => exact ⟨host, port, resource, rfl⟩

/-- The values of the pattern without a port, if both are assigned. -/
theorem plain_values {url : List Byte} (h : (sscanf url "http://%[^:/]%s").length = 2) :
    ∃ host resource, sscanf url "http://%[^:/]%s" = [.text host, .text resource] := by
  have hkinds : (sscanf url "http://%[^:/]%s").map Value.isText = [true, true] :=
    (kinds_of_scan _ url).eq_of_length (by rw [List.length_map]; exact h)
  match hv : sscanf url "http://%[^:/]%s", hkinds with
  | [.text host, .text resource], _ => exact ⟨host, resource, rfl⟩

/-- What is stored is what `sscanf` assigns. -/
theorem scanInto_eq {s : List Byte} {format : String} {values : List Value}
    (h : scanInto s format = some values) : values = sscanf s format :=
  (Option.some.inj (Option.ite_none_right_eq_some.1 h).2).symm

/-- The url of a request that passes the test is accepted. -/
theorem accepts_of_scanGetUrl {l a : Locals} (h : scanGetUrl l = some (true, a)) :
    AcceptsGet l.url a.host a.resource ∧ a.version = l.version ∧ a.url = l.url := by
  simp only [scanGetUrl, Option.bind_eq_bind, Option.bind_eq_some_iff] at h
  obtain ⟨values, hvalues, h⟩ := h
  rw [scanInto_eq hvalues] at h
  split at h
  case isTrue hthree =>
    obtain ⟨host, port, resource, hv⟩ := port_values hthree
    obtain ⟨-, rfl⟩ := Prod.mk.inj (Option.some.inj h)
    exact ⟨.inl ⟨port, by simp [hv, textAt]⟩, rfl, rfl⟩
  case isFalse hthree =>
    obtain ⟨values', hvalues', h⟩ := Option.bind_eq_some_iff.1 h
    rw [scanInto_eq hvalues'] at h
    obtain ⟨htwo, rfl⟩ := Prod.mk.inj (Option.some.inj h)
    obtain ⟨host, resource, hv⟩ := plain_values (of_decide_eq_true htwo)
    exact ⟨.inr ⟨hthree, by simp [hv, textAt]⟩, rfl, rfl⟩

/-- The path is cut out of the url. -/
theorem AcceptsGet.isInfix {url host resource : List Byte} (h : AcceptsGet url host resource) :
    resource <:+: url := by
  have hcut : ∀ format, .text resource ∈ sscanf url format → resource <:+: url :=
    fun _ hmem => isInfix_of_text_mem hmem
  rcases h with ⟨port, h⟩ | ⟨-, h⟩
  · exact hcut _ (by rw [h]; simp)
  · exact hcut _ (by rw [h]; simp)

theorem AcceptsGet.length_le {url host resource : List Byte}
    (h : AcceptsGet url host resource) : resource.length ≤ url.length :=
  h.isInfix.length_le

/-- An accepted url has one host and one path. -/
theorem AcceptsGet.unique {url host host' resource resource' : List Byte}
    (h : AcceptsGet url host resource) (h' : AcceptsGet url host' resource') :
    host = host' ∧ resource = resource' := by
  rcases h with ⟨port, h⟩ | ⟨hne, h⟩ <;> rcases h' with ⟨port', h'⟩ | ⟨hne', h'⟩
  · simp only [h, List.cons.injEq, Value.text.injEq, and_true] at h'
    exact ⟨h'.1, h'.2.2⟩
  · rw [h] at hne'
    exact absurd rfl hne'
  · rw [h'] at hne
    exact absurd rfl hne
  · simp only [h, List.cons.injEq, Value.text.injEq, and_true] at h'
    exact h'

/-- The test of the url depends on the url alone. -/
theorem scanGetUrl_congr {l l' : Locals} (hlen : l.url.length < 1024) (hurl : l.url = l'.url) :
    ∃ accepted a a', scanGetUrl l = some (accepted, a) ∧ scanGetUrl l' = some (accepted, a') ∧
      (accepted = true → AcceptsGet l.url a.host a.resource ∧ a'.host = a.host ∧
        a'.resource = a.resource ∧ a.url = l.url ∧ a'.url = l.url ∧ a.version = l.version ∧
        a'.version = l'.version) := by
  have hlen' : l'.url.length < 1024 := hurl ▸ hlen
  have hsome : ∀ l : Locals, l.url.length < 1024 → ∃ r, scanGetUrl l = some r := by
    intro l hlen
    simp only [scanGetUrl, scanInto_of_length_lt hlen, Option.bind_eq_bind, Option.bind_some]
    split
    · exact ⟨_, rfl⟩
    · exact ⟨_, rfl⟩
  obtain ⟨⟨accepted, a⟩, ha⟩ := hsome l hlen
  obtain ⟨⟨accepted', a'⟩, ha'⟩ := hsome l' hlen'
  have hok : ∀ {l l' a a' : Locals} {accepted : Bool}, l.url.length < 1024 → l.url = l'.url →
      scanGetUrl l = some (true, a) → scanGetUrl l' = some (accepted, a') → accepted = true := by
    intro l l' a a' accepted hlen hurl ha ha'
    obtain ⟨port, h⟩ := scanGetUrl_of_accepts (hurl ▸ hlen)
      (hurl ▸ (accepts_of_scanGetUrl ha).1)
    rw [h] at ha'
    exact (Prod.mk.inj (Option.some.inj ha')).1.symm
  have heq : accepted = accepted' := by
    cases accepted
    · cases accepted'
      · rfl
      · exact hok hlen' hurl.symm ha' ha
    · exact (hok hlen hurl ha ha').symm
  subst heq
  refine ⟨accepted, a, a', ha, ha', fun h => ?_⟩
  subst h
  obtain ⟨haccepts, hversion, hu⟩ := accepts_of_scanGetUrl ha
  obtain ⟨haccepts', hversion', hu'⟩ := accepts_of_scanGetUrl ha'
  obtain ⟨hhost, hresource⟩ := haccepts.unique (hurl ▸ haccepts')
  exact ⟨haccepts, hhost.symm, hresource.symm, hu, hu'.trans hurl.symm, hversion, hversion'⟩

/-! ## What is sent -/

theorem rewrite_of_keepAlive {resource version buffer : List Byte} {newline i : ℕ}
    (hnl : strchr buffer 10 = some newline)
    (hhdr : strstr (buffer.drop (newline + 1)) KEEP_ALIVE = some i)
    (hlen : (requestLine resource version ++
      replaceFirst KEEP_ALIVE CLOSE (buffer.drop (newline + 1))).length < 10000) :
    rewrite resource version buffer = some (requestLine resource version ++
      replaceFirst KEEP_ALIVE CLOSE (buffer.drop (newline + 1))) := by
  have hline : (requestLine resource version).length < 10000 := by
    rw [List.length_append] at hlen
    omega
  rw [replaceFirst_of_strstr hhdr] at hlen ⊢
  simp only [rewrite, inArray, if_pos hline, hnl, hhdr, strcat, strncat, Option.bind_eq_bind,
    Option.bind_some, List.append_assoc] at hlen ⊢
  rw [if_pos hlen]

/-- Without the header, `strcpy` leaves the rest of the request only. -/
theorem rewrite_of_not_keepAlive {resource version buffer : List Byte} {newline : ℕ}
    (hnl : strchr buffer 10 = some newline)
    (hhdr : strstr (buffer.drop (newline + 1)) KEEP_ALIVE = none)
    (hline : (requestLine resource version).length < 10000)
    (hlen : (buffer.drop (newline + 1)).length < 10000) :
    rewrite resource version buffer = some (buffer.drop (newline + 1)) := by
  simp only [rewrite, inArray, if_pos hline, hnl, hhdr, strcat, strcpy, Option.bind_eq_bind,
    Option.bind_some, List.append_nil]
  rw [if_pos hlen]

end NetCentric
