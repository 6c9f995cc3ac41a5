import NetCentric.Accounting
import NetCentric.LogFile
import NetCentric.LogFormat

/-!
# The log as it is read

What a session passes to the log is an entry with the address of its client and the url of
its request, if the request has a url (`entry_of_handle`). A request of one word leaves the
url that was in memory before, and then nothing is known of the entry.

`reads_back` : at every moment of every run of the handlers, also while some are in their
sections, the log file can be read. It is the log as it was and an entry for each session
that has written its own, whole and once.
-/

open NetCentric.Scanf

namespace NetCentric

namespace LogReading

open LogFile LogFormat

/-! ## What a session logs -/

/-- The call writes to the log only what `Q` holds of. -/
def Logs (Q : List Byte → Prop) (c : Call) : Prop :=
  ∀ entry, c.seen = some (.logged entry) → Q entry

theorem mem_logEntries {entry : List Byte} {calls : List Call} :
    entry ∈ logEntries calls ↔ ∃ c ∈ calls, c.seen = some (.logged entry) := by
  rw [logEntries, List.mem_filterMap]
  constructor
  · rintro ⟨x, hx, hentry⟩
    obtain ⟨c, hc, hseen⟩ := List.mem_filterMap.1 hx
    cases x with
    | logged => exact ⟨c, hc, hseen.trans (congrArg _ (congrArg _ (Option.some.inj hentry)))⟩
    | _ => cases hentry
  · rintro ⟨c, hc, hseen⟩
    exact ⟨_, List.mem_filterMap.2 ⟨c, hc, hseen⟩, rfl⟩

variable {Q : List Byte → Prop} {m : Mode} {sc : Script}

theorem Logs.of_not_logs {c : Call} (h : c.logs = false) : Logs Q c := by
  intro entry hentry
  cases c with
  | fprintf => cases h
  | write fd data count =>
    cases fd with
    | log => cases h
    | _ => cases hentry
  | _ => cases hentry

theorem Logs.of_relays {c : Call} (h : c.relays = true) : Logs Q c := by
  intro entry hentry
  cases c with
  | fprintf => cases h
  | write fd =>
    cases fd with
    | log => cases h
    | _ => cases hentry
  | _ => cases hentry

theorem logs_giveUp {α : Type} (m : Mode) (fds : List Fd) :
    ∀ c ∈ (m.giveUp fds : Handler α).calls, Logs Q c := by
  intro c hc
  obtain ⟨fd, -, rfl⟩ := m.close_of_mem_giveUp hc
  exact .of_not_logs rfl

theorem logs_require (m : Mode) (ok : Bool) (fds : List Fd) :
    ∀ c ∈ (m.require ok fds).calls, Logs Q c := by
  cases ok with
  | true => exact List.forall_mem_nil _
  | false => exact logs_giveUp m fds

theorem logs_call {c : Call} (h : c.logs = false) :
    ∀ d ∈ (Prog.call c : Handler Unit).calls, Logs Q d :=
  List.forall_mem_singleton.2 (.of_not_logs h)

theorem logs_callAll {cs : List Call} (h : ∀ c ∈ cs, c.logs = false) :
    ∀ c ∈ (Prog.callAll cs : Handler Unit).calls, Logs Q c :=
  fun c hc => .of_not_logs (h c hc)

theorem logs_orUndefined {α : Type} (x : Option α) :
    ∀ c ∈ (orUndefined x).calls, Logs Q c := by
  cases x <;> exact List.forall_mem_nil _

theorem logs_connectServer (m : Mode) (sc : Script) (host service : List Byte) :
    ∀ c ∈ (connectServer m sc host service).calls, Logs Q c := by
  unfold connectServer
  refine Prog.forall_calls_bind (logs_call rfl) fun _ _ => ?_
  refine Prog.forall_calls_bind (logs_require _ _ _) fun _ _ => ?_
  refine Prog.forall_calls_bind (logs_call rfl) fun _ _ => ?_
  refine Prog.forall_calls_bind (logs_require _ _ _) fun _ _ => ?_
  refine Prog.forall_calls_bind (logs_call rfl) fun _ _ => ?_
  exact Prog.forall_calls_bind (logs_require _ _ _) fun _ _ => logs_call rfl

theorem logs_writeLog (m : Mode) (log : Bool) {logstring : List Byte} (h : Q logstring) :
    ∀ c ∈ (writeLog m log logstring).calls, Logs Q c := by
  intro c hc entry hentry
  have heq := logEntries_writeLog (mem_logEntries.2 ⟨c, hc, hentry⟩)
  exact heq ▸ h

theorem logs_finishGet (m : Mode) (sc : Script) {url : List Byte}
    (h : ∀ size, Q (formatLogEntry sc.time sc.address url size)) :
    ∀ c ∈ (finishGet m sc url).calls, Logs Q c := by
  unfold finishGet
  refine Prog.forall_calls_bind (fun c hc => ?_) fun total _ => ?_
  · exact .of_relays ((Relays.relay _ _).calls c hc)
  refine Prog.forall_calls_bind (logs_writeLog m _ (h total)) fun _ _ => ?_
  cases m with
  | thread => exact logs_callAll (by simp [Call.logs])
  | _ => exact logs_call rfl

theorem logs_finishConnect (m : Mode) (sc : Script) {url : List Byte}
    (h : ∀ sent recv, Q (formatConnectEntry sc.time sc.address url sent recv)) :
    ∀ c ∈ (finishConnect m sc url).calls, Logs Q c := by
  unfold finishConnect
  refine Prog.forall_calls_bind (logs_call rfl) fun _ _ => ?_
  refine Prog.forall_calls_bind (fun c hc => .of_not_logs (pollLoop_not_logs _ _ _ c hc))
    fun total _ => ?_
  refine Prog.forall_calls_bind (logs_writeLog m _ (h _ _)) fun _ _ => ?_
  cases m with
  | thread => exact logs_callAll (by simp [Call.logs])
  | _ =>
    refine Prog.forall_calls_bind (logs_callAll (by simp [Call.logs])) fun _ _ => ?_
    exact List.forall_mem_nil _

/-- The test of the target keeps the url. -/
theorem scanConnectUrl_url {l a : Locals} {accepted : Bool}
    (h : scanConnectUrl l = some (accepted, a)) : a.url = l.url := by
  simp only [scanConnectUrl, Option.bind_eq_bind, Option.bind_eq_some_iff] at h
  obtain ⟨values, -, h⟩ := h
  split at h
  · obtain ⟨-, rfl⟩ := Prod.mk.inj (Option.some.inj h)
    rfl
  · obtain ⟨values', -, h⟩ := Option.bind_eq_some_iff.1 h
    obtain ⟨-, rfl⟩ := Prod.mk.inj (Option.some.inj h)
    rfl

/-- A session logs only entries for the url that its request leaves. -/
theorem logs_handle (m : Mode) (sc : Script) (h : ∀ l,
    scanRequest sc.memory.stale (cstr sc.request.stored) = some l →
      (∀ size, Q (formatLogEntry sc.time sc.address l.url size)) ∧
        ∀ sent recv, Q (formatConnectEntry sc.time sc.address l.url sent recv)) :
    ∀ c ∈ (handle m sc).calls, Logs Q c := by
  unfold handle
  refine Prog.forall_calls_bind (logs_call rfl) fun _ _ => ?_
  refine Prog.forall_calls_bind (logs_require _ _ _) fun _ _ => ?_
  refine Prog.forall_calls_bind (logs_orUndefined _) fun l hl => ?_
  obtain ⟨hget, hconnect⟩ := h l (orUndefined_ok.1 hl)
  split
  · unfold handleGet
    refine Prog.forall_calls_bind (logs_orUndefined _) fun a ha => ?_
    refine Prog.forall_calls_bind (logs_require _ _ _) fun _ _ => ?_
    refine Prog.forall_calls_bind (logs_connectServer _ _ _ _) fun _ _ => ?_
    refine Prog.forall_calls_bind (logs_orUndefined _) fun _ _ => ?_
    refine Prog.forall_calls_bind (logs_call rfl) fun _ _ => ?_
    refine Prog.forall_calls_bind (logs_require _ _ _) fun _ _ => ?_
    have hurl := (scanGetUrl_keeps (orUndefined_ok.1 ha)).2.1
    exact logs_finishGet m sc fun size => hurl ▸ hget size
  · split
    · unfold handleConnect
      refine Prog.forall_calls_bind (logs_orUndefined _) fun a ha => ?_
      refine Prog.forall_calls_bind (logs_require _ _ _) fun _ _ => ?_
      refine Prog.forall_calls_bind (logs_connectServer _ _ _ _) fun _ _ => ?_
      have hurl := scanConnectUrl_url (orUndefined_ok.1 ha)
      exact logs_finishConnect m sc fun sent recv => hurl ▸ hconnect sent recv
    · exact logs_giveUp m _

/-! ## Sessions whose request has a url -/

/-- The request of the session has a url, and its time is one line. -/
structure HasUrl (sc : Script) : Prop where
  url : 2 ≤ (words (cstr sc.request.stored)).length
  time : 10 ∉ sc.time

/-- The address of the client. -/
def address : LogFormat.Entry → BitVec 32
  | .get host _ _ => host
  | .connect host _ _ _ => host

theorem isToken_of_mem_words {s w : List Byte} (h : w ∈ words s) : IsToken w := by
  refine ⟨ne_nil_of_mem_words h, fun c hc => ?_⟩
  have hmem : c ∈ (words s).flatten := List.mem_flatten.2 ⟨w, h, hc⟩
  rw [flatten_words, List.mem_filter, Bool.not_eq_true'] at hmem
  exact hmem.2

/-- The entry is for the client and the url of the session. -/
structure EntryOf (sc : Script) (e : LogFormat.Entry) : Prop where
  address : address e = sc.address
  url : some e.url = (words (cstr sc.request.stored))[1]?

theorem EntryOf.isToken {e : LogFormat.Entry} (h : EntryOf sc e) : IsToken e.url :=
  isToken_of_mem_words (List.mem_of_getElem? h.url.symm)

/-- What a session logs is an entry for its client and its url. -/
theorem entry_of_handle {entry : List Byte} (hsc : HasUrl sc)
    (h : entry ∈ logEntries (handle m sc).calls) :
    ∃ e, EntryOf sc e ∧ entry = e.format sc.time := by
  obtain ⟨c, hc, hseen⟩ := mem_logEntries.1 h
  refine logs_handle (Q := fun entry => ∃ e, EntryOf sc e ∧ entry = e.format sc.time) m sc
    (fun l hl => ?_) c hc entry hseen
  have hurl : some l.url = (words (cstr sc.request.stored))[1]? := by
    rw [scanRequest_eq, Option.ite_none_right_eq_some] at hl
    obtain rfl := Option.some.inj hl.2
    dsimp only
    rw [List.getD_eq_getElem?_getD (i := 1), List.getElem?_eq_getElem hsc.url]
    rfl
  exact ⟨fun size => ⟨.get sc.address l.url size, ⟨rfl, hurl⟩, rfl⟩,
    fun sent recv => ⟨.connect sc.address l.url sent recv, ⟨rfl, hurl⟩, rfl⟩⟩

/-! ## The handlers -/

/-- The entry is one of a session. -/
def OfSession (m : Mode) (entry : List Byte) : Prop :=
  ∃ sc, HasUrl sc ∧ entry ∈ logEntries (handle m sc).calls

variable {k : ℕ} {s t u : State k}

/-- Each section that is entered, and that comes to its end, is one of a session. -/
def Enters (m : Mode) (as : List (Action k)) : Prop :=
  ∀ h ok entry, .enter h ok entry ∈ as → (writeLog m ok entry).result = .ok () →
    OfSession m entry

/-- All that is logged, or being logged, is of sessions. -/
structure Sessions (m : Mode) (s : State k) : Prop where
  handler : ∀ h x, s.handler h = some x → x.result = .ok () → OfSession m x.entry
  logged : ∀ entry ∈ s.logged, OfSession m entry

theorem Sessions.put {x : Option Section} {h : Fin k} (hs : Sessions m s)
    (ht : t.handler = Function.update s.handler h x)
    (hx : ∀ y, x = some y → y.result = .ok () → OfSession m y.entry)
    (hlogged : ∀ entry ∈ t.logged, OfSession m entry) : Sessions m t := by
  refine ⟨fun g z hz => ?_, hlogged⟩
  rw [ht] at hz
  by_cases hg : g = h
  · rw [hg, Function.update_self] at hz
    exact hx z hz
  · rw [Function.update_of_ne hg] at hz
    exact hs.handler g z hz

theorem Sessions.step {a : Action k} (hs : Sessions m s) (ha : Enters m [a])
    (hstep : LogFile.step m s a = some t) : Sessions m t := by
  cases a with
  | enter h ok entry =>
    unfold LogFile.step at hstep
    dsimp only at hstep
    cases hh : s.handler h with
    | none =>
      rw [hh] at hstep
      obtain rfl := Option.some.inj hstep
      refine hs.put rfl (fun y hy hok => ?_) hs.logged
      obtain rfl := Option.some.inj hy
      exact ha h ok entry List.mem_cons_self hok
    | some x =>
      rw [hh] at hstep
      cases hstep
  | call h =>
    unfold LogFile.step at hstep
    dsimp only at hstep
    rcases hh : s.handler h with _ | ⟨entry, _ | ⟨c, todo⟩, result, offset, buffer⟩
    · rw [hh] at hstep
      cases hstep
    · rw [hh] at hstep
      cases hstep
    · rw [hh] at hstep
      obtain ⟨⟨o, b, hy⟩, hlogged, -⟩ := perform_frame hstep
      refine hs.put hy (fun y hy hok => ?_) (hlogged ▸ hs.logged)
      obtain rfl := Option.some.inj hy
      have hown := hs.handler h _ hh
      exact hown hok
  | leave h =>
    rcases hh : s.handler h with _ | ⟨entry, _ | ⟨c, todo⟩, result, offset, buffer⟩
    · simp [LogFile.step, hh] at hstep
    · rcases result with (status | _ | _ | _) | _ <;> simp [LogFile.step, hh] at hstep
      · obtain rfl := hstep
        exact hs.put (x := none) rfl (fun _ hy => by cases hy) hs.logged
      · obtain rfl := hstep
        exact hs.put (x := none) rfl (fun _ hy => by cases hy) hs.logged
      · obtain rfl := hstep
        refine hs.put (x := none) rfl (fun _ hy => by cases hy) fun e he => ?_
        rcases List.mem_append.1 he with he | he
        · exact hs.logged e he
        · exact List.mem_singleton.1 he ▸ hs.handler h _ hh rfl
    · simp [LogFile.step, hh] at hstep

/-- The file is only appended to. -/
theorem prefix_file {initial : List Byte} {a : Action k} (hI : Inv m initial s)
    (hstep : LogFile.step m s a = some t) : s.file <+: t.file := by
  rcases step_cases hstep with ⟨h, ok, entry, hh, rfl⟩ | ⟨h, x, c, todo, hx, htodo, hc⟩ |
    ⟨h, x, hx, htodo, hresult, rfl⟩ | ⟨h, x, hx, hresult, rfl⟩
  · exact List.prefix_rfl
  · cases hch : Changes c with
    | true =>
      obtain ⟨-, hext, -⟩ := (hI.handler h x hx).changes htodo hch hc
      exact hext ▸ List.prefix_append _ _
    | false => exact ((perform_frame hc).2.2.2 hch).symm ▸ List.prefix_rfl
  · exact List.prefix_rfl
  · exact List.prefix_rfl

/-- After some run the handlers go on. -/
theorem run_sessions {initial : List Byte} {as : List (Action k)} (hI : Inv m initial s)
    (hs : Sessions m s) (ha : Enters m as) (hrun : (logFile m k initial).run s as = some t) :
    Inv m initial t ∧ Sessions m t ∧ s.file <+: t.file := by
  induction as generalizing s with
  | nil =>
    obtain rfl := Option.some.inj hrun
    exact ⟨hI, hs, List.prefix_rfl⟩
  | cons a as ih =>
    obtain ⟨u, hu, hrun⟩ := (System.run_cons_eq_some _).1 hrun
    have hhead : Enters m [a] := fun h ok entry hmem =>
      ha h ok entry (List.mem_singleton.1 hmem ▸ List.mem_cons_self)
    obtain ⟨hI', hs', hprefix⟩ := ih (hI.step hu) (hs.step hhead hu) (fun h ok entry hmem =>
      ha h ok entry (List.mem_cons_of_mem _ hmem)) hrun
    exact ⟨hI', hs', (prefix_file hI hu).trans hprefix⟩

/-! ## Lines -/

/-- A text of lines is taken apart in one way only, also if more lines follow. -/
theorem prefix_of_flatten {xs ys : List (List Byte)}
    (hxs : ∀ x ∈ xs, ∃ line, x = line ++ [10] ∧ 10 ∉ line)
    (hys : ∀ y ∈ ys, ∃ line, y = line ++ [10] ∧ 10 ∉ line) (h : xs.flatten <+: ys.flatten) :
    xs <+: ys := by
  induction xs generalizing ys with
  | nil => exact List.nil_prefix
  | cons x xs ih =>
    obtain ⟨⟨line, rfl, hline⟩, hlines⟩ := List.forall_mem_cons.1 hxs
    obtain ⟨rest, hrest⟩ := h
    cases ys with
    | nil => simp at hrest
    | cons y ys =>
      obtain ⟨⟨line', rfl, hline'⟩, hlines'⟩ := List.forall_mem_cons.1 hys
      simp only [List.flatten_cons, List.append_assoc, List.singleton_append] at hrest
      have hsplit := congrArg (List.splitOn 10) hrest
      rw [List.cons_append, List.splitOn_append_cons_self_of_not_mem hline,
        List.splitOn_append_cons_self_of_not_mem hline'] at hsplit
      obtain ⟨rfl, -⟩ := List.cons.inj hsplit
      have htail := (List.cons.inj (List.append_cancel_left hrest)).2
      exact List.cons_prefix_cons.2 ⟨rfl, ih hlines hlines' ⟨rest, htail⟩⟩

/-- An entry of a session, with its time, is one line. -/
theorem OfSession.exists_entry {entry : List Byte} (h : OfSession m entry) :
    ∃ x : List Byte × LogFormat.Entry, entry = x.2.format x.1 ∧ 10 ∉ x.1 ∧ IsToken x.2.url := by
  obtain ⟨sc, hsc, hentry⟩ := h
  obtain ⟨e, he, rfl⟩ := entry_of_handle hsc hentry
  exact ⟨(sc.time, e), rfl, hsc.time, he.isToken⟩

theorem OfSession.exists_line {entry : List Byte} (h : OfSession m entry) :
    ∃ line, entry = line ++ [10] ∧ 10 ∉ line := by
  obtain ⟨x, rfl, htime, hurl⟩ := h.exists_entry
  exact ⟨x.2.line x.1, x.2.format_eq x.1, x.2.notMem_line htime hurl⟩

/-! ## The log file -/

/-- The log of some entries, each with its time. -/
def log (entries : List (List Byte × LogFormat.Entry)) : List Byte :=
  entries.flatMap fun x => x.2.format x.1

/-- The entry with its time is that of a session which has a url : it is for its client and
its url. -/
def Logged (m : Mode) (x : List Byte × LogFormat.Entry) : Prop :=
  ∃ sc, HasUrl sc ∧ x.1 = sc.time ∧ EntryOf sc x.2 ∧
    x.2.format x.1 ∈ logEntries (handle m sc).calls

/-- All entries in the file so far are those of sessions. -/
theorem ofSession_of_mem (hs : Sessions m s) {order : List (List Byte)}
    (hperm : (order : Multiset (List Byte)) = s.logged + ∑ h, landed (s.handler h)) :
    ∀ entry ∈ order, OfSession m entry := by
  intro entry hentry
  rw [← Multiset.mem_coe, hperm, Multiset.mem_add] at hentry
  rcases hentry with hentry | hentry
  · exact hs.logged entry hentry
  · obtain ⟨h, -, hmem⟩ := Multiset.mem_sum.1 hentry
    cases hx : s.handler h with
    | none =>
      rw [hx] at hmem
      cases hmem
    | some x =>
      rw [hx, landed_some] at hmem
      split at hmem
      case isTrue hlanded =>
        obtain rfl := Multiset.mem_singleton.1 hmem
        refine hs.handler h x hx ?_
        by_contra hresult
        rw [landed_of_failed hresult] at hlanded
        cases hlanded
      case isFalse => cases hmem

theorem exists_logged {order : List (List Byte)} (h : ∀ entry ∈ order, OfSession m entry) :
    ∃ new : List (List Byte × LogFormat.Entry), order = new.map (fun x => x.2.format x.1) ∧
      ∀ x ∈ new, Logged m x := by
  induction order with
  | nil => exact ⟨[], rfl, nofun⟩
  | cons entry order ih =>
    obtain ⟨⟨sc, hsc, hentry⟩, horder⟩ := List.forall_mem_cons.1 h
    obtain ⟨e, he, rfl⟩ := entry_of_handle hsc hentry
    obtain ⟨new, rfl, hnew⟩ := ih horder
    exact ⟨(sc.time, e) :: new, rfl,
      List.forall_mem_cons.2 ⟨⟨sc, hsc, rfl, he, hentry⟩, hnew⟩⟩

theorem Logged.reads {x : List Byte × LogFormat.Entry} (h : Logged m x) :
    10 ∉ x.1 ∧ IsToken x.2.url := by
  obtain ⟨sc, hsc, htime, hentry, -⟩ := h
  exact ⟨htime ▸ hsc.time, hentry.isToken⟩

/-- A file that has the old log and entries of sessions in front of it is read back. -/
theorem readLog_append {old new : List (List Byte × LogFormat.Entry)}
    (hold : ∀ x ∈ old, 10 ∉ x.1 ∧ IsToken x.2.url) (hnew : ∀ x ∈ new, Logged m x) :
    readLog (log old ++ (new.map fun x => x.2.format x.1).flatten) =
      some ((old ++ new).map Prod.snd) := by
  rw [← List.flatMap_def, log, ← List.flatMap_append]
  refine readLog_flatMap fun x hx => ?_
  rcases List.mem_append.1 hx with hx | hx
  · exact hold x hx
  · exact (hnew x hx).reads

/-- What is read from the log : what was read before it was opened, and an entry for each
session that has written its own. What is read once is read again ever after. -/
theorem reads_back {old : List (List Byte × LogFormat.Entry)} {as bs : List (Action k)}
    (hold : ∀ x ∈ old, 10 ∉ x.1 ∧ IsToken x.2.url) (ha : Enters m (as ++ bs))
    (hrun : (logFile m k (log old)).run ⟨log old, none, none, fun _ => none, []⟩ as = some s)
    (hrun' : (logFile m k (log old)).run s bs = some t) :
    ∃ new more : List (List Byte × LogFormat.Entry), (∀ x ∈ new ++ more, Logged m x) ∧
      readLog s.file = some ((old ++ new).map Prod.snd) ∧
      readLog t.file = some ((old ++ (new ++ more)).map Prod.snd) ∧
      (new.map (fun x => x.2.format x.1) : Multiset (List Byte)) =
        s.logged + ∑ h, landed (s.handler h) ∧
      ((new ++ more).map (fun x => x.2.format x.1) : Multiset (List Byte)) =
        t.logged + ∑ h, landed (t.handler h) := by
  have hinv : Inv m (log old) (⟨log old, none, none, fun _ => none, []⟩ : State k) :=
    ⟨nofun, [], by simp, by simp⟩
  obtain ⟨hI, hs, -⟩ := run_sessions hinv ⟨nofun, nofun⟩
    (fun h ok entry hmem => ha h ok entry (List.mem_append_left _ hmem)) hrun
  obtain ⟨hI', hs', hprefix⟩ := run_sessions hI hs
    (fun h ok entry hmem => ha h ok entry (List.mem_append_right _ hmem)) hrun'
  obtain ⟨order, hfile, hperm⟩ := hI.file
  obtain ⟨order', hfile', hperm'⟩ := hI'.file
  have horder := ofSession_of_mem hs hperm
  have horder' := ofSession_of_mem hs' hperm'
  rw [hfile, hfile', List.prefix_append_right_inj] at hprefix
  -- the entries that were in the file are the first ones that are in it now
  obtain ⟨rest, rfl⟩ := prefix_of_flatten (fun x hx => (horder x hx).exists_line)
    (fun x hx => (horder' x hx).exists_line) hprefix
  obtain ⟨new, rfl, hnew⟩ := exists_logged horder
  obtain ⟨more, rfl, hmore⟩ := exists_logged fun entry hentry =>
    horder' entry (List.mem_append_right _ hentry)
  have hall : ∀ x ∈ new ++ more, Logged m x := List.forall_mem_append.2 ⟨hnew, hmore⟩
  refine ⟨new, more, hall, ?_, ?_, hperm, ?_⟩
  · rw [hfile, readLog_append hold hnew]
  · rw [hfile', ← List.map_append, readLog_append hold hall]
  · rw [List.map_append]
    exact hperm'

/-- The plain request, answered with five bytes. -/
theorem plainRequest_logged : ∃ sc, HasUrl sc ∧
    logEntries (handle .thread sc).calls = [formatLogEntry [] 0 plainRequest.url 5] := by
  have hrelay : (relay .clear [.data (bytes "hello")]).result = .ok 5 := by
    rw [relay_of_ne (by decide)]
    decide
  obtain ⟨l, a, h, hurl⟩ := plainRequest_serves hrelay (by decide)
  refine ⟨_, ⟨?_, List.not_mem_nil⟩, hurl ▸ h.logEntries .thread⟩
  exact (by decide : 2 ≤ (words (cstr plainRequest.text)).length)

/-- A thread that has opened the file when the log is read, and is back from its section when
it is read again. -/
theorem reads_back_hello : ∃ s t : State 1, ∃ new more : List (List Byte × LogFormat.Entry),
    readLog s.file = some (new.map Prod.snd) ∧ readLog t.file = some ((new ++ more).map Prod.snd) ∧
      ((new ++ more).map (fun x => x.2.format x.1) : Multiset (List Byte)) =
        {formatLogEntry [] 0 plainRequest.url 5} := by
  obtain ⟨sc, hsc, hentry⟩ := plainRequest_logged
  generalize he : formatLogEntry [] 0 plainRequest.url 5 = entry at hentry
  have hlen : entry.length < 1024 := by
    rw [← he]
    decide
  have henter : LogFile.step .thread (⟨[], none, none, fun _ => none, []⟩ : State 1)
      (.enter 0 true entry) = some (State.put ⟨[], none, none, fun _ => none, []⟩ 0
        (some ⟨entry, [.fopen true, .mutexLock, .fprintf entry, .mutexUnlock, .fclose], .ok (), 0,
          []⟩)) := by
    simp only [LogFile.step, writeLog, orUndefined, inArray, hlen, if_true, Mode.require_true]
    rfl
  have hrun : ∃ s t : State 1, (logFile .thread 1 []).run ⟨[], none, none, fun _ => none, []⟩
      [.enter 0 true entry, .call 0] = some s ∧
      (logFile .thread 1 []).run s (List.replicate 4 (.call 0) ++ [.leave 0]) = some t ∧
      t.logged = [entry] ∧ ∀ h, t.handler h = none :=
    ⟨_, _, (System.run_cons_eq_some _).2 ⟨_, henter, rfl⟩, rfl, rfl,
      Fin.forall_fin_one.2 rfl⟩
  obtain ⟨s, t, hs, ht, hlogged, hidle⟩ := hrun
  have henters : Enters .thread ([Action.enter (0 : Fin 1) true entry, .call 0] ++
      (List.replicate 4 (.call 0) ++ [.leave 0])) := by
    intro h ok e hmem _
    obtain rfl : e = entry := by
      simp only [List.cons_append, List.nil_append, List.mem_cons, Action.enter.injEq,
        reduceCtorEq, List.mem_append, List.mem_replicate, and_false, List.not_mem_nil,
        or_false] at hmem
      exact hmem.2.2
    exact ⟨sc, hsc, hentry ▸ List.mem_cons_self⟩
  have hold : ∀ x ∈ ([] : List (List Byte × LogFormat.Entry)), 10 ∉ x.1 ∧ IsToken x.2.url :=
    List.forall_mem_nil _
  obtain ⟨new, more, -, hread, hread', -, hperm⟩ := reads_back hold henters hs ht
  have hnone : ∑ h, landed (t.handler h) = 0 := Finset.sum_eq_zero fun h _ => by
    rw [hidle h, landed_none]
  refine ⟨s, t, new, more, hread, hread', hperm.trans ?_⟩
  rw [hlogged, hnone, add_zero]
  rfl

end LogReading

end NetCentric
