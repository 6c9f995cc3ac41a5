import NetCentric.Capacity
import NetCentric.Endings

/-!
# Handlers that wait or run into undefined behaviour

`Undefined` is the connections on which a handler does what C leaves undefined : a word of
the request, a part of the url or a log entry overruns its array, the request that is sent
on has no line feed or is too long, or the rest of a response has no size. `Waits` is the
connections on which it waits for ever, or goes round in its poll loop. Both are conditions
on what the client, the server and the system do, with the sizes of the arrays.

`handle_error_iff` says that these are all : on every other connection a handler comes to
the end of its body or ends as it means to.
-/

open NetCentric.Scanf

namespace NetCentric

/-! ## The connections -/

/-- A part that the format takes out of the text overruns an array of 1024 bytes. -/
def PartOverruns (s : List Byte) (format : String) : Prop :=
  ∃ part, .text part ∈ sscanf s format ∧ 1024 ≤ part.length

/-- A part of the url of a GET request does. -/
def GetUrlOverruns (url : List Byte) : Prop :=
  PartOverruns url "http://%[^:/]:%d%s" ∨
    (sscanf url "http://%[^:/]:%d%s").length ≠ 3 ∧ PartOverruns url "http://%[^:/]%s"

/-- A part of the target of a CONNECT request does. -/
def ConnectUrlOverruns (url : List Byte) : Prop :=
  PartOverruns url "%[^:/]:%d" ∨
    (sscanf url "%[^:/]:%d").length ≠ 2 ∧ PartOverruns url "%[^:/]"

/-- A GET request that is accepted, and the server is reached. -/
structure ReachesServer (sc : Script) (l a : Locals) : Prop where
  parsed : scanRequest sc.memory.stale (cstr sc.request.stored) = some l
  get : strncasecmpEq l.method (bytes "GET") 3 = true
  accepted : scanGetUrl l = some (true, a)
  lookup : sc.lookup = true
  socket : sc.socket = true
  connect : sc.connect = true

/-- A CONNECT request. -/
structure AsksTunnel (sc : Script) (l : Locals) : Prop where
  parsed : scanRequest sc.memory.stale (cstr sc.request.stored) = some l
  notGet : strncasecmpEq l.method (bytes "GET") 3 = false
  connects : strncasecmpEq l.method (bytes "CONNECT") 7 = true

/-- A CONNECT request that is accepted, and the server is reached. -/
structure OpensTunnel (sc : Script) (l a : Locals) : Prop extends AsksTunnel sc l where
  accepted : scanConnectUrl l = some (true, a)
  lookup : sc.lookup = true
  socket : sc.socket = true
  connect : sc.connect = true

/-- What is undefined before a GET request is sent on. -/
inductive OverrunsRequest (sc : Script) : Prop
  /-- A word of the request overruns its array. -/
  | word {w : List Byte} : w ∈ (words (cstr sc.request.stored)).take 3 → 1024 ≤ w.length →
      OverrunsRequest sc
  /-- A part of the url does. -/
  | url {l : Locals} : scanRequest sc.memory.stale (cstr sc.request.stored) = some l →
      strncasecmpEq l.method (bytes "GET") 3 = true → GetUrlOverruns l.url → OverrunsRequest sc
  /-- There is no line feed to look for a header after, or too much to send. -/
  | rewrite {l a : Locals} : ReachesServer sc l a →
      ¬RewriteFits a.resource a.version (cstr sc.request.stored) → OverrunsRequest sc

/-- What is undefined for a request that is read. -/
inductive Overruns (m : Mode) (sc : Script) : Prop
  | request : OverrunsRequest sc → Overruns m sc
  | content {l a : Locals} : ReachesServer sc l a → sc.send = true →
      OverrunsContent sc.memory sc.responses → Overruns m sc
  | entry {l a : Locals} {total : ℤ} : ReachesServer sc l a → sc.send = true →
      Counts sc.memory total sc.responses → sc.log = true →
      1024 ≤ sc.time.length + addressWidth sc.address + a.url.length + width total + 5 →
      Overruns m sc
  /-- A part of the target of a CONNECT request overruns its array. -/
  | connectUrl {l : Locals} : m ≠ .sequential → AsksTunnel sc l → ConnectUrlOverruns l.url →
      Overruns m sc
  | connectEntry {l a : Locals} {total : Totals} : m ≠ .sequential → OpensTunnel sc l a →
      TunnelCounts total sc.polls → sc.log = true →
      1024 ≤ sc.time.length + addressWidth sc.address + a.url.length +
        width (toInt total.sent) + width (toInt total.recv) + 39 → Overruns m sc

/-- A connection on which a handler does what is undefined. -/
def Undefined (m : Mode) (sc : Script) : Prop :=
  0 < sc.request.count ∧ Overruns m sc

/-- A connection on which a handler waits for ever. -/
inductive Waits (m : Mode) (sc : Script) : Prop
  /-- The response does not come to its end. -/
  | response {l a : Locals} : 0 < sc.request.count → ReachesServer sc l a →
      RewriteFits a.resource a.version (cstr sc.request.stored) → sc.send = true →
      RelayWaits sc.memory sc.responses → Waits m sc
  /-- Nothing leaves the poll loop. -/
  | tunnel {l a : Locals} : 0 < sc.request.count → m ≠ .sequential → OpensTunnel sc l a →
      (∀ answer ∈ sc.polls, answer.GoesOn) → Waits m sc

/-! ## The scans -/

theorem scanInto_eq_none {s : List Byte} {format : String} :
    scanInto s format = none ↔ PartOverruns s format := by
  rw [scanInto, ite_eq_right_iff]
  constructor
  · intro h
    by_contra hno
    refine absurd (h (List.all_eq_true.2 fun v hv => ?_)) (by simp)
    cases v with
    | number x => rfl
    | text part => exact decide_eq_true (not_le.1 fun hlen => hno ⟨part, hv, hlen⟩)
  · rintro ⟨part, hpart, hlen⟩ hall
    exact absurd (of_decide_eq_true (List.all_eq_true.1 hall _ hpart)) hlen.not_gt

/-- A text that fits an array has no part that overruns one. -/
theorem not_partOverruns {s : List Byte} (h : s.length < 1024) (format : String) :
    ¬PartOverruns s format := by
  rintro ⟨part, hpart, hlen⟩
  exact absurd ((isInfix_of_text_mem hpart).length_le.trans_lt h) hlen.not_gt

theorem scanGetUrl_eq_none {l : Locals} : scanGetUrl l = none ↔ GetUrlOverruns l.url := by
  rw [GetUrlOverruns, ← scanInto_eq_none, ← scanInto_eq_none]
  cases h : scanInto l.url "http://%[^:/]:%d%s" with
  | none => simp [scanGetUrl, h]
  | some values =>
    obtain rfl := scanInto_eq h
    simp only [scanGetUrl, h, Option.bind_eq_bind, Option.bind_some]
    split
    case isTrue hthree => simp [hthree]
    case isFalse hthree =>
      cases h' : scanInto l.url "http://%[^:/]%s" <;> simp [hthree]

theorem scanConnectUrl_eq_none {l : Locals} :
    scanConnectUrl l = none ↔ ConnectUrlOverruns l.url := by
  rw [ConnectUrlOverruns, ← scanInto_eq_none, ← scanInto_eq_none]
  cases h : scanInto l.url "%[^:/]:%d" with
  | none => simp [scanConnectUrl, h]
  | some values =>
    obtain rfl := scanInto_eq h
    simp only [scanConnectUrl, h, Option.bind_eq_bind, Option.bind_some]
    split
    case isTrue htwo => simp [htwo]
    case isFalse htwo => cases h' : scanInto l.url "%[^:/]" <;> simp [htwo]

theorem scanRequest_eq_none {stale : Locals} {buffer : List Byte} :
    scanRequest stale buffer = none ↔ ∃ w ∈ (words buffer).take 3, 1024 ≤ w.length := by
  rw [scanRequest_eq, ite_eq_right_iff]
  simp

theorem rewrite_eq_none {resource version buffer : List Byte} :
    rewrite resource version buffer = none ↔ ¬RewriteFits resource version buffer := by
  rw [← rewrite_isSome_iff_fits, Option.not_isSome_iff_eq_none]

/-! ## The parts of a handler -/

section Parts

variable {m : Mode} {e : Ending} {sc : Script}

theorem finishGet_error (he : ¬m.Ends e) {url : List Byte} :
    (finishGet m sc url).result = .error e ↔
      e = .blocked ∧ RelayWaits sc.memory sc.responses ∨
      e = .undefined ∧ (OverrunsContent sc.memory sc.responses ∨
        ∃ total, Counts sc.memory total sc.responses ∧ sc.log = true ∧
          1024 ≤ sc.time.length + addressWidth sc.address + url.length + width total + 5) := by
  have hparts : (finishGet m sc url).result = .error e ↔
      (relay sc.memory sc.responses).result = .error e ∨
        ∃ total, (relay sc.memory sc.responses).result = .ok total ∧
          (writeLog m sc.log (formatLogEntry sc.time sc.address url total)).result = .error e := by
    cases m <;> simp [finishGet, Prog.result_bind_eq_error]
  simp only [hparts, relay_error, relay_ok, writeLog_error he, length_formatLogEntry, or_assoc,
    and_or_left]
  refine or_congr_right (or_congr_right ⟨?_, ?_⟩)
  · rintro ⟨total, hcounts, rfl, hlog⟩
    exact ⟨rfl, total, hcounts, hlog⟩
  · rintro ⟨rfl, total, hcounts, hlog⟩
    exact ⟨total, hcounts, rfl, hlog⟩

theorem finishConnect_error (he : ¬m.Ends e) {url : List Byte} :
    (finishConnect m sc url).result = .error e ↔
      e = .blocked ∧ (∀ answer ∈ sc.polls, answer.GoesOn) ∨
      e = .undefined ∧ ∃ total, TunnelCounts total sc.polls ∧ sc.log = true ∧
        1024 ≤ sc.time.length + addressWidth sc.address + url.length +
          width (toInt total.sent) + width (toInt total.recv) + 39 := by
  have hexit : Ending.exit 0 ≠ e := fun h => he (.inr h.symm)
  have hparts : (finishConnect m sc url).result = .error e ↔
      (pollLoop m (fun _ => 0) sc.polls).result = .error e ∨
        ∃ total, (pollLoop m (fun _ => 0) sc.polls).result = .ok total ∧
          (writeLog m sc.log (formatConnectEntry sc.time sc.address url (toInt total.sent)
            (toInt total.recv))).result = .error e := by
    cases m <;> simp [finishConnect, Prog.result_bind_eq_error, hexit]
  simp only [hparts, pollLoop_error he, pollLoop_ok, writeLog_error he, length_formatConnectEntry]
  refine or_congr_right ⟨?_, ?_⟩
  · rintro ⟨total, hcounts, rfl, hlog⟩
    exact ⟨rfl, total, hcounts, hlog⟩
  · rintro ⟨rfl, total, hcounts, hlog⟩
    exact ⟨total, hcounts, rfl, hlog⟩

theorem handleGet_error (he : ¬m.Ends e) {l : Locals} {buffer : List Byte} :
    (handleGet m sc l buffer).result = .error e ↔ e = .undefined ∧ GetUrlOverruns l.url ∨
      ∃ a, scanGetUrl l = some (true, a) ∧
        (sc.lookup = true ∧ sc.socket = true ∧ sc.connect = true) ∧
        (e = .undefined ∧ ¬RewriteFits a.resource a.version buffer ∨
          RewriteFits a.resource a.version buffer ∧ sc.send = true ∧
            (finishGet m sc a.url).result = .error e) := by
  simp [handleGet, Prog.result_bind_eq_error, orUndefined_error, orUndefined_ok,
    Mode.require_ne he, Mode.require_ok, connectServer_ne he, connectServer_ok,
    scanGetUrl_eq_none, rewrite_eq_none, ← rewrite_isSome_iff_fits, Option.isSome_iff_exists]

theorem handleConnect_error (he : ¬m.Ends e) {l : Locals} :
    (handleConnect m sc l).result = .error e ↔ e = .undefined ∧ ConnectUrlOverruns l.url ∨
      ∃ a, scanConnectUrl l = some (true, a) ∧
        (sc.lookup = true ∧ sc.socket = true ∧ sc.connect = true) ∧
        (finishConnect m sc a.url).result = .error e := by
  simp [handleConnect, Prog.result_bind_eq_error, orUndefined_error, orUndefined_ok,
    Mode.require_ne he, Mode.require_ok, connectServer_ne he, connectServer_ok,
    scanConnectUrl_eq_none]

/-- A GET request is handled by its branch. -/
theorem handle_of_get {l : Locals} (hread : 0 < sc.request.count)
    (hl : scanRequest sc.memory.stale (cstr sc.request.stored) = some l)
    (hget : strncasecmpEq l.method (bytes "GET") 3 = true) :
    (handle m sc).result = (handleGet m sc l (cstr sc.request.stored)).result := by
  simp only [handle, decide_eq_true hread, Mode.require_true, hl, orUndefined, hget, if_true,
    Prog.pure_bind, Prog.result_call_bind]

/-- So is a CONNECT request. -/
theorem handle_of_connect {l : Locals} (hread : 0 < sc.request.count) (hm : m ≠ .sequential)
    (h : AsksTunnel sc l) : (handle m sc).result = (handleConnect m sc l).result := by
  simp only [handle, decide_eq_true hread, Mode.require_true, h.parsed, orUndefined, h.notGet,
    Bool.false_eq_true, if_false, ne_eq, hm, not_false_eq_true, h.connects, and_self, if_true,
    Prog.pure_bind, Prog.result_call_bind]

/-- A request that reaches the server, from the rewriting on. -/
theorem ReachesServer.error_iff (he : ¬m.Ends e) {l a : Locals} (h : ReachesServer sc l a)
    (hread : 0 < sc.request.count) : (handle m sc).result = .error e ↔
      e = .undefined ∧ ¬RewriteFits a.resource a.version (cstr sc.request.stored) ∨
        RewriteFits a.resource a.version (cstr sc.request.stored) ∧ sc.send = true ∧
          (finishGet m sc a.url).result = .error e := by
  have hurl : ¬GetUrlOverruns l.url := by
    rw [← scanGetUrl_eq_none, h.accepted]
    simp
  rw [handle_of_get hread h.parsed h.get, handleGet_error he]
  simp [hurl, h.accepted, h.lookup, h.socket, h.connect]

/-- A tunnel, from the reply on. -/
theorem OpensTunnel.error_iff (he : ¬m.Ends e) {l a : Locals} (h : OpensTunnel sc l a)
    (hread : 0 < sc.request.count) (hm : m ≠ .sequential) : (handle m sc).result = .error e ↔
      (finishConnect m sc a.url).result = .error e := by
  have hurl : ¬ConnectUrlOverruns l.url := by
    rw [← scanConnectUrl_eq_none, h.accepted]
    simp
  rw [handle_of_connect hread hm h.toAsksTunnel, handleConnect_error he]
  simp [hurl, h.accepted, h.lookup, h.socket, h.connect]

theorem undefined_of_request (h : OverrunsRequest sc) (hread : 0 < sc.request.count) :
    (handle m sc).result = .error .undefined := by
  have he := m.not_ends_undefined
  cases h with
  | word hw hlen =>
    have hnone : scanRequest sc.memory.stale (cstr sc.request.stored) = none :=
      scanRequest_eq_none.2 ⟨_, hw, hlen⟩
    simp only [handle, decide_eq_true hread, Mode.require_true, hnone, orUndefined,
      Prog.pure_bind, Prog.result_call_bind, Prog.stop_bind, Prog.result_stop]
  | url hl hget hurl =>
    rw [handle_of_get hread hl hget]
    exact (handleGet_error he).2 (.inl ⟨rfl, hurl⟩)
  | rewrite hr hrw => exact (hr.error_iff he hread).2 (.inl ⟨rfl, hrw⟩)

/-- A handler ends otherwise than it means to on the connections of `Undefined` and `Waits`. -/
theorem handle_error_iff (he : ¬m.Ends e) : (handle m sc).result = .error e ↔
    e = .undefined ∧ Undefined m sc ∨ e = .blocked ∧ Waits m sc := by
  constructor
  · intro h
    simp only [handle, Prog.result_call_bind, Prog.result_bind_eq_error, Mode.require_ne he,
      false_or, Mode.require_ok, decide_eq_true_eq, orUndefined_error, orUndefined_ok,
      exists_const, scanRequest_eq_none] at h
    obtain ⟨hread, ⟨rfl, w, hw, hlen⟩ | ⟨l, hl, h⟩⟩ := h
    · exact .inl ⟨rfl, hread, .request (.word hw hlen)⟩
    split at h
    case isTrue hget =>
      rcases (handleGet_error he).1 h with ⟨rfl, hurl⟩ | ⟨a, ha, ⟨hlookup, hsocket, hconnect⟩, h⟩
      · exact .inl ⟨rfl, hread, .request (.url hl hget hurl)⟩
      have hreach : ReachesServer sc l a := ⟨hl, hget, ha, hlookup, hsocket, hconnect⟩
      rcases h with ⟨rfl, hrw⟩ | ⟨hrw, hsend, h⟩
      · exact .inl ⟨rfl, hread, .request (.rewrite hreach hrw)⟩
      rcases (finishGet_error he).1 h with ⟨rfl, hwait⟩ | ⟨rfl, hcontent | ⟨total, hcounts, hlog,
        hlen⟩⟩
      · exact .inr ⟨rfl, .response hread hreach hrw hsend hwait⟩
      · exact .inl ⟨rfl, hread, .content hreach hsend hcontent⟩
      · exact .inl ⟨rfl, hread, .entry hreach hsend hcounts hlog hlen⟩
    case isFalse hget =>
      split at h
      case isFalse => exact absurd h (m.giveUp_ne he _)
      case isTrue hconn =>
        have hasks : AsksTunnel sc l := ⟨hl, by simpa using hget, hconn.2⟩
        rcases (handleConnect_error he).1 h with ⟨rfl, hurl⟩ | ⟨a, ha, ⟨hlookup, hsocket, hconnect⟩,
          h⟩
        · exact .inl ⟨rfl, hread, .connectUrl hconn.1 hasks hurl⟩
        have hopens : OpensTunnel sc l a := ⟨hasks, ha, hlookup, hsocket, hconnect⟩
        rcases (finishConnect_error he).1 h with ⟨rfl, hwait⟩ | ⟨rfl, total, hcounts, hlog, hlen⟩
        · exact .inr ⟨rfl, .tunnel hread hconn.1 hopens hwait⟩
        · exact .inl ⟨rfl, hread, .connectEntry hconn.1 hopens hcounts hlog hlen⟩
  · have hget : ∀ {l a}, ReachesServer sc l a → 0 < sc.request.count → sc.send = true →
        e = .undefined ∨ RewriteFits a.resource a.version (cstr sc.request.stored) →
        (finishGet m sc a.url).result = .error e → (handle m sc).result = .error e := by
      intro l a hr hread hsend hrw h
      rw [hr.error_iff he hread]
      by_cases hfits : RewriteFits a.resource a.version (cstr sc.request.stored)
      · exact .inr ⟨hfits, hsend, h⟩
      · exact .inl ⟨hrw.resolve_right hfits, hfits⟩
    rintro (⟨rfl, hread, h⟩ | ⟨rfl, h⟩)
    · cases h with
      | request h => exact undefined_of_request h hread
      | content hr hsend h =>
        exact hget hr hread hsend (.inl rfl) ((finishGet_error he).2 (.inr ⟨rfl, .inl h⟩))
      | entry hr hsend hcounts hlog hlen =>
        exact hget hr hread hsend (.inl rfl)
          ((finishGet_error he).2 (.inr ⟨rfl, .inr ⟨_, hcounts, hlog, hlen⟩⟩))
      | connectUrl hm hasks hurl =>
        rw [handle_of_connect hread hm hasks]
        exact (handleConnect_error he).2 (.inl ⟨rfl, hurl⟩)
      | connectEntry hm hopens hcounts hlog hlen =>
        exact (hopens.error_iff he hread hm).2
          ((finishConnect_error he).2 (.inr ⟨rfl, _, hcounts, hlog, hlen⟩))
    · cases h with
      | response hread hr hrw hsend hwait =>
        exact hget hr hread hsend (.inr hrw) ((finishGet_error he).2 (.inl ⟨rfl, hwait⟩))
      | tunnel hread hm hopens hwait =>
        exact (hopens.error_iff he hread hm).2 ((finishConnect_error he).2 (.inl ⟨rfl, hwait⟩))

end Parts

/-- A handler does what is undefined on the connections of `Undefined` and on no other. -/
theorem handle_undefined_iff {m : Mode} {sc : Script} :
    (handle m sc).result = .error .undefined ↔ Undefined m sc := by
  simp [handle_error_iff m.not_ends_undefined]

/-- It waits for ever on the connections of `Waits` and on no other. -/
theorem handle_blocked_iff {m : Mode} {sc : Script} :
    (handle m sc).result = .error .blocked ↔ Waits m sc := by
  simp [handle_error_iff m.not_ends_blocked]

end NetCentric
