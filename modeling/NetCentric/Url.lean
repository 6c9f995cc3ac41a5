import NetCentric.Request

/-!
# The url of a request

The urls that a proxy is meant to take are `http://HOST/PATH` and `http://HOST:PORT/PATH`
(`HttpUrl`), and the targets of a tunnel `HOST` and `HOST:PORT` (`ConnectTarget`). They
are given here as texts, without a word about `sscanf`.

The second pattern of each pair has no port, and it takes what the first one leaves : a
host and anything behind it that starts with `:` or `/` (`acceptsGet_of_host`). So a url whose
host is followed by a colon is accepted whatever comes then, and `parses_iff` says that
the patterns are right about a url exactly when that is a port and a path.
-/

open NetCentric.Scanf

namespace NetCentric

/-! ## The grammar -/

/-- A name of a host : not empty, and free of `:` and `/`. -/
def IsHost (host : List Byte) : Prop :=
  host ≠ [] ∧ ∀ c ∈ host, c ∉ bytes ":/"

instance (host : List Byte) : Decidable (IsHost host) :=
  @instDecidableAnd _ _ inferInstance (List.decidableBAll _ host)

/-- The digits write this port. -/
structure IsPort (digits : List Byte) (port : ℤ) : Prop where
  ne_nil : digits ≠ []
  isDigit : ∀ c ∈ digits, isdigit c = true
  value : port = digitsValue digits
  pos : 1 ≤ port
  le : port ≤ 65535

/-- The url of a GET request, with the host, the port and the path it names. -/
inductive HttpUrl : List Byte → List Byte → ℤ → List Byte → Prop
  | plain {host : List Byte} (path : List Byte) : IsHost host →
      HttpUrl (bytes "http://" ++ (host ++ (bytes "/" ++ path))) host 80 (bytes "/" ++ path)
  | port {host digits : List Byte} {port : ℤ} (path : List Byte) : IsHost host →
      IsPort digits port →
      HttpUrl (bytes "http://" ++ (host ++ (bytes ":" ++ (digits ++ (bytes "/" ++ path))))) host
        port (bytes "/" ++ path)

/-- The target of a CONNECT request, with the host and the port it names. The port is set
to 80 where there is none. -/
inductive ConnectTarget : List Byte → List Byte → ℤ → Prop
  | plain {host : List Byte} : IsHost host → ConnectTarget host host 80
  | port {host digits : List Byte} {port : ℤ} : IsHost host → IsPort digits port →
      ConnectTarget (host ++ (bytes ":" ++ digits)) host port

/-- The patterns for GET accept `url` if and only if it is one, and set the host, the port
and the path to the ones it names. -/
def ParsesGet (url : List Byte) : Prop :=
  ∀ l : Locals, l.url = url → ∃ accepted a, scanGetUrl l = some (accepted, a) ∧
    (accepted = true ↔ ∃ host port resource, HttpUrl url host port resource) ∧
    ∀ host port resource, HttpUrl url host port resource →
      a.host = host ∧ a.requestedPort = port ∧ a.resource = resource

/-- The patterns for CONNECT accept `target` if and only if it is one, and set the host and
the port to the ones it names. -/
def ParsesConnect (target : List Byte) : Prop :=
  ∀ l : Locals, l.url = target → ∃ accepted a, scanConnectUrl l = some (accepted, a) ∧
    (accepted = true ↔ ∃ host port, ConnectTarget target host port) ∧
    ∀ host port, ConnectTarget target host port → a.host = host ∧ a.requestedPort = port

/-! ## The end of the host -/

/-- Where the host ends : a colon, a slash, or the end of the text. -/
def EndsHost (rest : List Byte) : Prop :=
  ∀ c ∈ rest.head?, c ∈ bytes ":/"

theorem endsHost_nil : EndsHost [] :=
  fun _ hc => by cases hc

theorem endsHost_cons {c : Byte} {t : List Byte} (hc : c ∈ bytes ":/") : EndsHost (c :: t) :=
  fun _ hd => Option.some.inj hd ▸ hc

/-- Every text has one host in front, if it has any. -/
theorem exists_host (s : List Byte) :
    ∃ host rest, s = host ++ rest ∧ (∀ c ∈ host, c ∉ bytes ":/") ∧ EndsHost rest := by
  refine ⟨s.takeWhile (· ∉ bytes ":/"), s.dropWhile (· ∉ bytes ":/"),
    List.takeWhile_append_dropWhile.symm, fun c hc => ?_, fun c hc => ?_⟩
  · exact of_decide_eq_true (List.mem_takeWhile_imp (p := (· ∉ bytes ":/")) hc)
  · have hnot := List.head?_dropWhile_not (· ∉ bytes ":/") s
    rw [Option.mem_def.1 hc] at hnot
    simpa using hnot

theorem host_unique {host host' rest rest' : List Byte} (hhost : ∀ c ∈ host, c ∉ bytes ":/")
    (hhost' : ∀ c ∈ host', c ∉ bytes ":/") (hrest : EndsHost rest) (hrest' : EndsHost rest')
    (h : host ++ rest = host' ++ rest') : host = host' ∧ rest = rest' := by
  have hcut : ∀ {host rest : List Byte}, (∀ c ∈ host, c ∉ bytes ":/") → EndsHost rest →
      (host ++ rest).takeWhile (· ∉ bytes ":/") = host ∧
        (host ++ rest).dropWhile (· ∉ bytes ":/") = rest := fun hhost hrest =>
    takeWhile_append (fun c hc => decide_eq_true (hhost c hc))
      fun c hc => decide_eq_false (not_not.2 (hrest c hc))
  obtain ⟨htake, hdrop⟩ := hcut hhost hrest
  obtain ⟨htake', hdrop'⟩ := hcut hhost' hrest'
  rw [h] at htake hdrop
  exact ⟨htake.symm.trans htake', hdrop.symm.trans hdrop'⟩

/-! ## The patterns for GET -/

theorem bytes_colon : bytes ":" = [58] := by
  decide

theorem bytes_slash : bytes "/" = [47] := by
  decide

theorem separator_cases {c : Byte} (hc : c ∈ bytes ":/") : c = 58 ∨ c = 47 := by
  have hset : bytes ":/" = [58, 47] := by decide
  simpa [hset] using hc

theorem IsPort.value_le {digits : List Byte} {port : ℤ} (h : IsPort digits port) :
    intValue false digits = port := by
  have hle := h.le
  rw [h.value] at hle
  rw [intValue_of_fits (by rw [INT_MAX]; omega), h.value]

/-- The pattern with a port. -/
theorem directives_port : directives "http://%[^:/]:%d%s" =
    (bytes "http://").map .lit ++ [.scanset (bytes ":/"), .lit 58, .int, .str] := by
  decide

/-- The pattern without a port. -/
theorem directives_plain : directives "http://%[^:/]%s" =
    (bytes "http://").map .lit ++ [.scanset (bytes ":/"), .str] := by
  decide

section Get

variable {host : List Byte}

/-- The pattern with a port takes the url of this form as it should. -/
theorem sscanf_port (hhost : IsHost host) {digits path : List Byte} {port : ℤ}
    (hport : IsPort digits port) (hpath : IsToken (47 :: path)) :
    sscanf (bytes "http://" ++ (host ++ 58 :: (digits ++ 47 :: path))) "http://%[^:/]:%d%s" =
      [.text host, .number port, .text (47 :: path)] := by
  have hslash : ∀ c ∈ (47 :: path).head?, isdigit c = false := fun c hc => by
    rw [← Option.some.inj hc]
    decide
  rw [sscanf, directives_port, scan_lits, scan_scanset hhost.1 hhost.2 (endsHost_cons (by decide)),
    scan, if_pos rfl, scan_int_digits hport.ne_nil hport.isDigit hslash, hport.value_le,
    scan_str_token hpath, scan]

/-- Without a colon, it stops behind the host. -/
theorem sscanf_port_of_slash (hhost : IsHost host) (path : List Byte) :
    sscanf (bytes "http://" ++ (host ++ 47 :: path)) "http://%[^:/]:%d%s" = [.text host] := by
  rw [sscanf, directives_port, scan_lits, scan_scanset hhost.1 hhost.2 (endsHost_cons (by decide)),
    scan, if_neg (by decide)]

/-- The pattern without a port takes anything behind the host. -/
theorem sscanf_plain (hhost : IsHost host) {c : Byte} {t : List Byte} (hc : c ∈ bytes ":/")
    (ht : IsToken (c :: t)) :
    sscanf (bytes "http://" ++ (host ++ c :: t)) "http://%[^:/]%s" =
      [.text host, .text (c :: t)] := by
  rw [sscanf, directives_plain, scan_lits, scan_scanset hhost.1 hhost.2 (endsHost_cons hc),
    scan_str_token ht, scan]

/-- A url that is not a host with something behind it is rejected. -/
theorem sscanf_short {url : List Byte} (h : ∀ host c t, IsHost host → c ∈ bytes ":/" →
    url ≠ bytes "http://" ++ (host ++ c :: t)) :
    (sscanf url "http://%[^:/]:%d%s").length < 2 ∧ (sscanf url "http://%[^:/]%s").length < 2 := by
  rw [sscanf, sscanf, directives_port, directives_plain]
  by_cases hscheme : bytes "http://" <+: url
  case neg =>
    rw [scan_lits_of_mismatch hscheme, scan_lits_of_mismatch hscheme]
    decide
  obtain ⟨s, rfl⟩ := hscheme
  rw [scan_lits, scan_lits]
  obtain ⟨host, rest, rfl, hhost, hrest⟩ := exists_host s
  rcases host with _ | ⟨b, host⟩
  · rw [List.nil_append, scan_scanset_of_stop hrest, scan_scanset_of_stop hrest]
    decide
  rcases rest with _ | ⟨c, t⟩
  · rw [scan_scanset (by simp) hhost hrest, scan_scanset (by simp) hhost hrest]
    simp [scan]
  · exact absurd rfl (h _ c t ⟨by simp, hhost⟩ (hrest c rfl))

/-- The pattern with a port reads the host first. -/
theorem sscanf_port_host (hhost : IsHost host) {c : Byte} {t : List Byte} (hc : c ∈ bytes ":/") :
    sscanf (bytes "http://" ++ (host ++ c :: t)) "http://%[^:/]:%d%s" =
      .text host :: scan [.lit 58, .int, .str] (c :: t) := by
  rw [sscanf, directives_port, scan_lits, scan_scanset hhost.1 hhost.2 (endsHost_cons hc)]

theorem isToken_of_append {s t : List Byte} (h : IsToken (s ++ t)) (ht : t ≠ []) : IsToken t :=
  ⟨ht, fun c hc => h.2 c (List.mem_append_right s hc)⟩

/-- A url with something behind the host is accepted. -/
theorem acceptsGet_of_host (hhost : IsHost host) {c : Byte} {t : List Byte} (hc : c ∈ bytes ":/")
    (htok : IsToken (bytes "http://" ++ (host ++ c :: t))) :
    ∃ resource, AcceptsGet (bytes "http://" ++ (host ++ c :: t)) host resource := by
  by_cases hthree : (sscanf (bytes "http://" ++ (host ++ c :: t)) "http://%[^:/]:%d%s").length = 3
  · obtain ⟨host', port, resource, hvalues⟩ := port_values hthree
    have hfirst := sscanf_port_host hhost (t := t) hc
    rw [hvalues] at hfirst
    obtain rfl := Value.text.inj (List.cons.inj hfirst).1
    exact ⟨resource, .inl ⟨port, hvalues⟩⟩
  · have ht : IsToken (c :: t) := isToken_of_append (isToken_of_append htok (by simp)) (by simp)
    exact ⟨c :: t, .inr ⟨hthree, sscanf_plain hhost hc ht⟩⟩

end Get

/-- An accepted url has something behind the host that is stored. -/
theorem AcceptsGet.split {url host resource : List Byte} (h : AcceptsGet url host resource) :
    IsHost host ∧ ∃ c t, c ∈ bytes ":/" ∧ url = bytes "http://" ++ (host ++ c :: t) := by
  have hsplit : ∃ host c t, IsHost host ∧ c ∈ bytes ":/" ∧
      url = bytes "http://" ++ (host ++ c :: t) := by
    by_contra hno
    have hshort := sscanf_short fun host c t hhost hc hurl => hno ⟨host, c, t, hhost, hc, hurl⟩
    rcases h with ⟨port, h⟩ | ⟨-, h⟩
    · rw [h] at hshort
      exact absurd hshort.1 (by simp)
    · rw [h] at hshort
      exact absurd hshort.2 (by simp)
  obtain ⟨host', c, t, hhost, hc, rfl⟩ := hsplit
  have hfirst : host' = host := by
    rcases h with ⟨port, h⟩ | ⟨-, h⟩
    · rw [sscanf_port_host hhost hc] at h
      exact Value.text.inj (List.cons.inj h).1
    · rw [sscanf, directives_plain, scan_lits,
        scan_scanset hhost.1 hhost.2 (endsHost_cons hc)] at h
      exact Value.text.inj (List.cons.inj h).1
  exact hfirst ▸ ⟨hhost, c, t, hc, rfl⟩

/-- The patterns take a url of the grammar as they should. -/
theorem HttpUrl.accepted {l : Locals} {host resource : List Byte} {port : ℤ}
    (h : HttpUrl l.url host port resource) (htok : IsToken l.url) (hlen : l.url.length < 1024) :
    ∃ a, scanGetUrl l = some (true, a) ∧
      a.host = host ∧ a.requestedPort = port ∧ a.resource = resource := by
  simp only [scanGetUrl, scanInto_of_length_lt hlen, Option.bind_eq_bind, Option.bind_some]
  generalize l.url = url at h htok
  cases h with
  | plain path hhost =>
    rw [bytes_slash, List.singleton_append] at htok ⊢
    have hpath := isToken_of_append (isToken_of_append htok (by simp)) (by simp)
    rw [sscanf_port_of_slash hhost path, sscanf_plain hhost (by decide) hpath]
    exact ⟨_, rfl, rfl, rfl, rfl⟩
  | port path hhost hport =>
    rw [bytes_slash, bytes_colon, List.singleton_append, List.singleton_append] at htok ⊢
    have hrest := isToken_of_append (isToken_of_append htok (by simp)) (by simp)
    rw [← List.singleton_append] at hrest
    have hpath := isToken_of_append (isToken_of_append hrest (by simp)) (by simp)
    rw [sscanf_port hhost hport hpath]
    exact ⟨_, rfl, rfl, rfl, rfl⟩

/-- Where a colon follows the host, a port and a path follow the colon. -/
def PortAndPath (url : List Byte) : Prop :=
  ∀ host t, IsHost host → url = bytes "http://" ++ (host ++ (bytes ":" ++ t)) →
    ∃ digits port path, IsPort digits port ∧ t = digits ++ (bytes "/" ++ path)

theorem parsesGet_iff {url : List Byte} (htok : IsToken url) (hlen : url.length < 1024) :
    ParsesGet url ↔ PortAndPath url := by
  constructor
  · intro h host t hhost hurl
    obtain ⟨accepted, a, ha, hiff, -⟩ := h ⟨[], url, [], [], [], 0⟩ rfl
    have hcolon : (58 : Byte) ∈ bytes ":/" := by decide
    have hurl' := hurl
    rw [bytes_colon, List.singleton_append] at hurl'
    obtain ⟨resource, haccepts⟩ := acceptsGet_of_host hhost hcolon (hurl' ▸ htok)
    rw [← hurl'] at haccepts
    obtain ⟨p, hscan⟩ := scanGetUrl_of_accepts (l := ⟨[], url, [], [], [], 0⟩) hlen haccepts
    rw [hscan] at ha
    obtain ⟨host', port, resource', hgrammar⟩ := hiff.1 (Prod.mk.inj (Option.some.inj ha)).1.symm
    clear ha hscan haccepts hiff h
    -- a url has one host, and what follows it is the colon
    have hrest : ∀ {host' rest : List Byte}, IsHost host' → EndsHost rest →
        url = bytes "http://" ++ (host' ++ rest) → rest = 58 :: t := by
      intro host' rest hhost' hend h'
      rw [hurl', List.append_cancel_left_eq] at h'
      exact (host_unique hhost.2 hhost'.2 (endsHost_cons hcolon) hend h').2.symm
    generalize hu : url = u at hgrammar
    cases hgrammar with
    | plain path hhost' =>
      have hs : bytes "/" ++ path = 58 :: t := hrest hhost' (endsHost_cons (by decide)) hu
      rw [bytes_slash] at hs
      exact absurd (List.cons.inj hs).1 (by decide)
    | @port host' digits port path hhost' hport =>
      have hs : bytes ":" ++ (digits ++ (bytes "/" ++ path)) = 58 :: t :=
        hrest hhost' (endsHost_cons (by decide)) hu
      rw [bytes_colon] at hs
      exact ⟨digits, port, path, hport, (List.cons.inj hs).2.symm⟩
  · intro h l hl
    subst hl
    obtain ⟨accepted, a, a', ha, -, haccepts⟩ := scanGetUrl_congr hlen (rfl : l.url = l.url)
    have hgrammar : ∀ host port resource, HttpUrl l.url host port resource → accepted = true ∧
        a.host = host ∧ a.requestedPort = port ∧ a.resource = resource := by
      intro host port resource hg
      obtain ⟨a', ha', hparts⟩ := hg.accepted htok hlen
      rw [ha'] at ha
      obtain ⟨rfl, rfl⟩ := Prod.mk.inj (Option.some.inj ha)
      exact ⟨rfl, hparts⟩
    refine ⟨accepted, a, ha, ⟨fun hok => ?_, fun ⟨host, port, resource, hg⟩ =>
      (hgrammar host port resource hg).1⟩, fun host port resource hg =>
      (hgrammar host port resource hg).2⟩
    obtain ⟨hhost, c, t, hc, hurl⟩ := (haccepts hok).1.split
    rcases separator_cases hc with rfl | rfl
    · obtain ⟨digits, port, path, hport, rfl⟩ := h a.host t hhost
        (by rw [hurl, bytes_colon, List.singleton_append])
      rw [hurl, ← List.singleton_append, ← bytes_colon]
      exact ⟨_, _, _, .port path hhost hport⟩
    · rw [hurl, ← List.singleton_append, ← bytes_slash]
      exact ⟨_, _, _, .plain t hhost⟩

/-! ## The patterns for CONNECT -/

theorem sscanf_target_port {host rest : List Byte} (hhost : IsHost host) (hrest : EndsHost rest) :
    sscanf (host ++ rest) "%[^:/]:%d" = .text host :: scan [.lit 58, .int] rest := by
  have hfmt : directives "%[^:/]:%d" = [.scanset (bytes ":/"), .lit 58, .int] := by decide
  rw [sscanf, hfmt, scan_scanset hhost.1 hhost.2 hrest]

theorem sscanf_target {host rest : List Byte} (hhost : IsHost host) (hrest : EndsHost rest) :
    sscanf (host ++ rest) "%[^:/]" = [.text host] := by
  have hfmt : directives "%[^:/]" = [.scanset (bytes ":/")] := by decide
  rw [sscanf, hfmt, scan_scanset hhost.1 hhost.2 hrest, scan]

/-- A target with a host is accepted, whatever follows the host. -/
theorem scanConnectUrl_of_host {l : Locals} {host rest : List Byte} (hlen : l.url.length < 1024)
    (hhost : IsHost host) (hrest : EndsHost rest) (hurl : l.url = host ++ rest) :
    scanConnectUrl l = some (true, { l with
      host := host
      requestedPort := numberAt (.text host :: scan [.lit 58, .int] rest) 1 80 }) := by
  have hport := sscanf_target_port hhost hrest
  have hplain := sscanf_target hhost hrest
  rw [← hurl] at hport hplain
  simp only [scanConnectUrl, scanInto_of_length_lt hlen, hport, hplain, Option.bind_eq_bind,
    Option.bind_some]
  split <;> rfl

/-- A target without a host is rejected. -/
theorem scanConnectUrl_of_no_host {l : Locals} (hlen : l.url.length < 1024)
    (hrest : EndsHost l.url) : ∃ a, scanConnectUrl l = some (false, a) := by
  have hport : directives "%[^:/]:%d" = [.scanset (bytes ":/"), .lit 58, .int] := by decide
  have hplain : directives "%[^:/]" = [.scanset (bytes ":/")] := by decide
  simp only [scanConnectUrl, scanInto_of_length_lt hlen, Option.bind_eq_bind, Option.bind_some,
    sscanf, hport, hplain, scan_scanset_of_stop hrest]
  exact ⟨_, rfl⟩

/-- An accepted target starts with the host that is stored. -/
theorem split_of_scanConnectUrl {l a : Locals} (h : scanConnectUrl l = some (true, a)) :
    IsHost a.host ∧ ∃ rest, EndsHost rest ∧ l.url = a.host ++ rest := by
  obtain ⟨host, rest, hurl, hhost, hrest⟩ := exists_host l.url
  have hport : directives "%[^:/]:%d" = [.scanset (bytes ":/"), .lit 58, .int] := by decide
  have hplain : directives "%[^:/]" = [.scanset (bytes ":/")] := by decide
  simp only [scanConnectUrl, Option.bind_eq_bind, Option.bind_eq_some_iff] at h
  obtain ⟨values, hvalues, h⟩ := h
  rw [scanInto_eq hvalues, hurl] at h
  rcases host with _ | ⟨b, host⟩
  · -- nothing is read without a host
    rw [List.nil_append, sscanf, hport, scan_scanset_of_stop hrest] at h
    obtain ⟨values', hvalues', h⟩ := Option.bind_eq_some_iff.1 h
    rw [scanInto_eq hvalues', sscanf, hplain, scan_scanset_of_stop hrest] at h
    exact absurd (Prod.mk.inj (Option.some.inj h)).1 (by decide)
  · have hb : IsHost (b :: host) := ⟨by simp, hhost⟩
    rw [sscanf_target_port hb hrest] at h
    split at h
    · obtain ⟨-, rfl⟩ := Prod.mk.inj (Option.some.inj h)
      exact ⟨hb, rest, hrest, hurl⟩
    · obtain ⟨values', hvalues', h⟩ := Option.bind_eq_some_iff.1 h
      rw [scanInto_eq hvalues', sscanf_target hb hrest] at h
      obtain ⟨-, rfl⟩ := Prod.mk.inj (Option.some.inj h)
      exact ⟨hb, rest, hrest, hurl⟩

/-- Behind the host is nothing, or a colon and a port. -/
def PortOnly (target : List Byte) : Prop :=
  ∀ host c t, IsHost host → c ∈ bytes ":/" → target = host ++ c :: t →
    ∃ digits port, IsPort digits port ∧ c :: t = bytes ":" ++ digits

/-- The patterns take a target of the grammar as they should. -/
theorem ConnectTarget.accepted {l : Locals} {host : List Byte} {port : ℤ}
    (h : ConnectTarget l.url host port) (hlen : l.url.length < 1024) :
    ∃ a, scanConnectUrl l = some (true, a) ∧ a.host = host ∧ a.requestedPort = port := by
  generalize hu : l.url = url at h
  cases h with
  | plain hhost =>
    rw [scanConnectUrl_of_host hlen hhost endsHost_nil (by rw [hu, List.append_nil])]
    exact ⟨_, rfl, rfl, rfl⟩
  | port hhost hport =>
    rename_i digits
    have hnumber : scan [.lit 58, .int] (58 :: digits) = [.number port] := by
      have hint : scan [.int] (digits ++ []) = _ :=
        scan_int_digits hport.ne_nil hport.isDigit (by simp) []
      rw [List.append_nil, hport.value_le] at hint
      rw [scan, if_pos rfl, hint, scan]
    rw [bytes_colon, List.singleton_append] at hu
    rw [scanConnectUrl_of_host hlen hhost (endsHost_cons (by decide)) hu, hnumber]
    exact ⟨_, rfl, rfl, rfl⟩

theorem parsesConnect_iff {target : List Byte} (hne : target ≠ []) (hlen : target.length < 1024) :
    ParsesConnect target ↔ PortOnly target := by
  constructor
  · intro h host c t hhost hc hurl
    obtain ⟨accepted, a, ha, hiff, -⟩ := h ⟨[], target, [], [], [], 0⟩ rfl
    rw [scanConnectUrl_of_host hlen hhost (endsHost_cons hc) hurl] at ha
    obtain ⟨host', port, hgrammar⟩ := hiff.1 (Prod.mk.inj (Option.some.inj ha)).1.symm
    clear ha hiff h
    generalize hu : target = u at hgrammar
    rw [hurl] at hu
    cases hgrammar with
    | plain hhost' =>
      rw [← List.append_nil host'] at hu
      exact absurd (host_unique hhost.2 hhost'.2 (endsHost_cons hc) endsHost_nil hu).2 (by simp)
    | @port host' digits port hhost' hport =>
      exact ⟨digits, port, hport, (host_unique hhost.2 hhost'.2 (endsHost_cons hc)
        (by rw [bytes_colon]; exact endsHost_cons (by decide)) hu).2⟩
  · intro h l hl
    subst hl
    obtain ⟨host, rest, hurl, hhost, hrest⟩ := exists_host l.url
    rcases host with _ | ⟨b, host⟩
    · rw [List.nil_append] at hurl
      obtain ⟨a, ha⟩ := scanConnectUrl_of_no_host hlen (hurl ▸ hrest)
      have hno : ∀ host port, ¬ConnectTarget l.url host port := by
        intro host port hg
        obtain ⟨a', ha', -⟩ := hg.accepted hlen
        rw [ha] at ha'
        exact absurd (Prod.mk.inj (Option.some.inj ha')).1 Bool.false_ne_true
      exact ⟨false, a, ha, ⟨fun hok => absurd hok Bool.false_ne_true,
        fun ⟨host, port, hg⟩ => absurd hg (hno host port)⟩,
        fun host port hg => absurd hg (hno host port)⟩
    · have hb : IsHost (b :: host) := ⟨by simp, hhost⟩
      have hgrammar : ∃ port, ConnectTarget l.url (b :: host) port := by
        rcases rest with _ | ⟨c, t⟩
        · rw [hurl, List.append_nil]
          exact ⟨80, .plain hb⟩
        · obtain ⟨digits, port, hport, ht⟩ := h _ c t hb (hrest c rfl) hurl
          rw [hurl, ht]
          exact ⟨port, .port hb hport⟩
      have ha := scanConnectUrl_of_host hlen hb hrest hurl
      refine ⟨true, _, ha, iff_of_true rfl ⟨_, hgrammar⟩, fun host' port' hg => ?_⟩
      obtain ⟨a', ha', hparts⟩ := hg.accepted hlen
      rw [ha] at ha'
      obtain ⟨-, rfl⟩ := Prod.mk.inj (Option.some.inj ha')
      exact hparts

/-! ## Both -/

/-- The patterns are right about a token as the url of a GET request if and only if no
colon follows the host, or a port and a path follow the colon, and as the target of a
CONNECT request if and only if nothing follows the host, or a colon and a port. -/
theorem parses_iff {url : List Byte} (htok : IsToken url) (hlen : url.length < 1024) :
    (ParsesGet url ↔ PortAndPath url) ∧ (ParsesConnect url ↔ PortOnly url) :=
  ⟨parsesGet_iff htok hlen, parsesConnect_iff htok.1 hlen⟩

/-- A url without a port. -/
theorem parses_iff_plain : ParsesGet (bytes "http://a/b") := by
  refine (parses_iff (by decide) (by decide)).1.2 fun host t _ hurl => ?_
  have hcolons := congrArg (List.count 58) hurl
  simp only [List.count_append] at hcolons
  have h₁ : (bytes "http://a/b").count 58 = 1 := by decide
  have h₂ : (bytes "http://").count 58 = 1 := by decide
  have h₃ : (bytes ":").count 58 = 1 := by decide
  omega

/-- A url with a port and no path is accepted. -/
theorem parses_no_path : ¬∀ url : List Byte, IsToken url → url.length < 1024 →
    ParsesGet url ∧ ParsesConnect url := by
  intro h
  have hparses := (h (bytes "http://a:8080") (by decide) (by decide)).1
  obtain ⟨digits, port, path, -, ht⟩ := (parsesGet_iff (by decide) (by decide)).1 hparses
    (bytes "a") (bytes "8080") (by decide) (by decide)
  have hslash : (47 : Byte) ∈ bytes "8080" := by
    rw [ht]
    exact List.mem_append_right _ (List.mem_append_left _ (by decide))
  exact absurd hslash (by decide)

end NetCentric
