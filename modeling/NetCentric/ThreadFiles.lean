import NetCentric.FileTable
import NetCentric.Handoff
import NetCentric.Resources
import Mathlib.Algebra.BigOperators.Group.Finset.Basic
import Mathlib.Algebra.Order.Group.Multiset

/-!
# The descriptors of the proxy in thread mode

All threads have one table of descriptors. A number that one thread closes is the next
number that `accept`, or the `socket` of another thread, returns, and a thread knows its files by
number only. `threadFiles` is `Handoff.threadProxy` with this table and the descriptor
variables of each thread : `accept` allocates, the copy of the argument sets `client_fd`, and
the calls act on the table.

`Call.effect` is what a call does about descriptors. `Sound` checks the calls of one thread
alone : it uses and closes what it has opened and not closed. `Opens.threadHandle` proves it
of `thread_handle`, for all answers of the system.

`own_files` : as long as each thread makes its copy in time, each call of a thread is on the
connection, the socket or the log file of this thread, in any interleaving, and what was open
before stays open under its number. A thread that comes to its end leaves nothing open, or its
socket to the server if its `fopen` has failed.
-/

namespace NetCentric

namespace ThreadFiles

/-! ## The calls of one thread -/

/-- What a call does about the descriptor variables. -/
inductive Effect
  /-- A new descriptor in a variable. -/
  | opens (v : Fd)
  | closes (v : Fd)
  | uses (vs : List Fd)
  deriving DecidableEq

end ThreadFiles

open ThreadFiles (Effect)

def Call.effect : Call → Effect
  | .read v _ _ | .write v _ _ => .uses [v]
  | .close v => .closes v
  | .socket true => .opens .server
  | .connect _ => .uses [.server]
  | .poll _ => .uses [.client, .server]
  | .fopen true | .openLog true => .opens .log
  | .fprintf _ | .lockFile | .unlockFile | .seekEnd => .uses [.log]
  | .fclose => .closes .log
  | .getaddrinfo _ _ _ | .freeaddrinfo | .mutexLock | .mutexUnlock => .uses []
  | .socket false | .fopen false | .openLog false => .uses []

namespace ThreadFiles

/-- What the effect needs, if the variables in `held` have an open descriptor. -/
def Effect.Fits (held : Finset Fd) : Effect → Prop
  | .opens v => v ∉ held
  | .closes v => v ∈ held
  | .uses vs => ∀ v ∈ vs, v ∈ held

instance (held : Finset Fd) : (e : Effect) → Decidable (e.Fits held)
  | .opens v => inferInstanceAs (Decidable (v ∉ held))
  | .closes v => inferInstanceAs (Decidable (v ∈ held))
  | .uses vs => inferInstanceAs (Decidable (∀ v ∈ vs, v ∈ held))

/-- The variables that have an open descriptor then. -/
def Effect.after (held : Finset Fd) : Effect → Finset Fd
  | .opens v => insert v held
  | .closes v => held.erase v
  | .uses _ => held

/-- The variables that have an open descriptor after the calls. -/
def after (held : Finset Fd) (calls : List Call) : Finset Fd :=
  calls.foldl (fun held c => c.effect.after held) held

/-- Each call uses and closes what is open when its turn comes. -/
def Sound : Finset Fd → List Call → Prop
  | _, [] => True
  | held, c :: cs => c.effect.Fits held ∧ Sound (c.effect.after held) cs

instance : (held : Finset Fd) → (calls : List Call) → Decidable (Sound held calls)
  | _, [] => inferInstanceAs (Decidable True)
  | held, c :: cs =>
    have := instDecidableSound (c.effect.after held) cs
    inferInstanceAs (Decidable (_ ∧ _))

theorem after_append (held : Finset Fd) (cs ds : List Call) :
    after held (cs ++ ds) = after (after held cs) ds :=
  List.foldl_append

theorem sound_append {held : Finset Fd} {cs ds : List Call} :
    Sound held (cs ++ ds) ↔ Sound held cs ∧ Sound (after held cs) ds := by
  induction cs generalizing held with
  | nil => exact (iff_of_eq (true_and _)).symm
  | cons c cs ih =>
    change _ ∧ Sound _ (cs ++ ds) ↔ _
    rw [ih, ← and_assoc]
    rfl

/-- What a thread that returns early has open. -/
def leftOpen (calls : List Call) : Finset Fd :=
  if .openLog false ∈ ledger calls then {.server} else ∅

/-- A part of a thread that starts with `held` open, and has `held'` open if it goes on. -/
structure Opens {α : Type} (p : Handler α) (held held' : Finset Fd) : Prop where
  sound : Sound held p.calls
  ok : ∀ a, p.result = .ok a → after held p.calls = held' ∧ .openLog false ∉ ledger p.calls
  returned : p.result = .error .returned → after held p.calls = leftOpen p.calls

namespace Opens

variable {α β : Type} {held held' held'' : Finset Fd}

theorem bind {p : Handler α} {f : α → Handler β} (hp : Opens p held held')
    (hf : ∀ a, Opens (f a) held' held'') : Opens (p >>= f) held held'' := by
  cases hr : p.result with
  | ok a =>
    obtain ⟨hafter, hlog⟩ := hp.ok a hr
    have hledger : .openLog false ∈ ledger (p >>= f).calls ↔
        .openLog false ∈ ledger (f a).calls := by
      rw [Prog.calls_bind_ok hr, ledger_append, List.mem_append]
      exact or_iff_right hlog
    have hcalls : after held (p >>= f).calls = after held' (f a).calls := by
      rw [Prog.calls_bind_ok hr, after_append, hafter]
    refine ⟨?_, fun b hb => ?_, fun hb => ?_⟩
    · rw [Prog.calls_bind_ok hr, sound_append, hafter]
      exact ⟨hp.sound, (hf a).sound⟩
    · rw [Prog.result_bind_of_ok hr] at hb
      rw [hcalls, hledger]
      exact (hf a).ok b hb
    · rw [Prog.result_bind_of_ok hr] at hb
      rw [hcalls, (hf a).returned hb]
      simp only [leftOpen, hledger]
  | error e =>
    refine ⟨?_, fun b hb => ?_, fun hb => ?_⟩
    · rw [Prog.calls_bind_error hr]
      exact hp.sound
    · rw [Prog.result_bind_error hr] at hb
      cases hb
    · rw [Prog.result_bind_error hr] at hb
      obtain rfl := Except.error.inj hb
      rw [Prog.calls_bind_error hr]
      exact hp.returned hr

/-- Calls that open nothing and close nothing. -/
theorem of_uses {p : Handler α} (h : ∀ c ∈ p.calls, ∃ vs, c.effect = .uses vs ∧ ∀ v ∈ vs, v ∈ held)
    (hlog : ∀ c ∈ p.calls, c.entry ≠ some (.openLog false))
    (hresult : p.result ≠ .error .returned) : Opens p held held := by
  have hall : ∀ cs : List Call, (∀ c ∈ cs, ∃ vs, c.effect = .uses vs ∧ ∀ v ∈ vs, v ∈ held) →
      Sound held cs ∧ after held cs = held := by
    intro cs hcs
    induction cs with
    | nil => exact ⟨trivial, rfl⟩
    | cons c cs ih =>
      obtain ⟨⟨vs, hc, hvs⟩, hcs⟩ := List.forall_mem_cons.1 hcs
      change (c.effect.Fits held ∧ Sound (c.effect.after held) cs) ∧
        after (c.effect.after held) cs = _
      rw [hc]
      exact ⟨⟨hvs, (ih hcs).1⟩, (ih hcs).2⟩
  obtain ⟨hsound, hafter⟩ := hall p.calls h
  refine ⟨hsound, fun _ _ => ⟨hafter, fun hmem => ?_⟩, fun hr => absurd hr hresult⟩
  obtain ⟨c, hc, hentry⟩ := List.mem_filterMap.1 hmem
  exact hlog c hc hentry

theorem callAll {cs : List Call} (h : Sound held cs) (hafter : after held cs = held')
    (hlog : .openLog false ∉ ledger cs) : Opens (Prog.callAll cs) held held' :=
  ⟨h, fun _ _ => ⟨hafter, hlog⟩, fun hr => by cases hr⟩

theorem call {c : Call} (h : c.effect.Fits held) (hafter : c.effect.after held = held')
    (hlog : .openLog false ∉ ledger [c]) : Opens (Prog.call c) held held' := by
  have hsound : Sound held [c] := ⟨h, trivial⟩
  exact callAll hsound hafter hlog

theorem orUndefined (x : Option α) : Opens (orUndefined x) held held := by
  cases x with
  | none => exact ⟨trivial, fun _ h => (by cases h), fun h => by cases h⟩
  | some a => exact ⟨trivial, fun _ _ => ⟨rfl, List.not_mem_nil⟩, fun h => by cases h⟩

theorem giveUp {fds : List Fd} (h : Sound held ((fds.filter (· ≠ .proxy)).map .close))
    (hleft : after held ((fds.filter (· ≠ .proxy)).map .close) = ∅) :
    Opens (Mode.thread.giveUp fds : Handler α) held held' := by
  have hcalls : (Mode.thread.giveUp fds : Handler α).calls =
      (fds.filter (· ≠ .proxy)).map .close := by
    simp [Mode.giveUp]
  refine ⟨by rwa [hcalls], fun _ hr => (by cases hr), fun _ => ?_⟩
  rw [hcalls, hleft, leftOpen, if_neg]
  intro hmem
  obtain ⟨c, hc, hentry⟩ := List.mem_filterMap.1 hmem
  obtain ⟨v, -, rfl⟩ := List.mem_map.1 hc
  cases v <;> cases hentry

theorem require (ok : Bool) {fds : List Fd}
    (h : Sound held ((fds.filter (· ≠ .proxy)).map .close))
    (hleft : after held ((fds.filter (· ≠ .proxy)).map .close) = ∅) :
    Opens (Mode.thread.require ok fds) held held := by
  cases ok with
  | true => exact ⟨trivial, fun _ _ => ⟨rfl, List.not_mem_nil⟩, fun h => by cases h⟩
  | false => exact giveUp h hleft

theorem relay (m : Memory) (responses : List ReadResult) :
    Opens (relay m responses) {.client, .server} {.client, .server} := by
  have hrelays := Relays.relay m responses
  refine of_uses (fun c hc => ?_) (fun c hc hentry => ?_) fun hr => ?_
  · have hcall := hrelays.calls c hc
    cases c with
    | read v _ _ => exact ⟨[v], rfl, by cases v <;> first | decide | cases hcall⟩
    | write v _ _ => exact ⟨[v], rfl, by cases v <;> first | decide | cases hcall⟩
    | _ => cases hcall
  · have hcall := hrelays.calls c hc
    cases c with
    | read _ _ _ | write _ _ _ => cases hentry
    | _ => cases hcall
  · rcases hrelays.stops _ hr with h | h <;> cases h

theorem iteration (total : Totals) (answer : PollAnswer) :
    Sound {.client, .server} (iteration total answer).calls ∧
      after {.client, .server} (NetCentric.iteration total answer).calls = {.client, .server} ∧
      .openLog false ∉ ledger (NetCentric.iteration total answer).calls := by
  have huses : Opens (Prog.callAll (NetCentric.iteration total answer).calls)
      {.client, .server} {.client, .server} := by
    refine of_uses (fun c hc => ?_) (fun c hc hentry => ?_) nofun
    · have hcall := iteration_transfers total answer c hc
      cases c with
      | read v _ _ => exact ⟨[v], rfl, by cases v <;> first | decide | cases hcall⟩
      | write v _ _ => exact ⟨[v], rfl, by cases v <;> first | decide | cases hcall⟩
      | poll _ => exact ⟨_, rfl, by decide⟩
      | _ => cases hcall
    · have hcall := iteration_transfers total answer c hc
      cases c with
      | read _ _ _ | write _ _ _ | poll _ => cases hentry
      | _ => cases hcall
  exact ⟨huses.sound, huses.ok () rfl⟩

/-- A part after calls that open nothing and close nothing. -/
theorem prepend {p : Handler α} {cs : List Call} (hp : Opens p held held') (hs : Sound held cs)
    (hafter : after held cs = held) (hlog : .openLog false ∉ ledger cs) :
    Opens ⟨cs ++ p.calls, p.result⟩ held held' :=
  bind (p := ⟨cs, .ok ()⟩) (f := fun _ => p) ⟨hs, fun _ _ => ⟨hafter, hlog⟩, nofun⟩ fun _ => hp

theorem pollLoop (total : Totals) (answers : List PollAnswer) :
    Opens (pollLoop .thread total answers) {.client, .server} {.client, .server} := by
  induction answers generalizing total with
  | nil => exact ⟨trivial, fun _ h => (by cases h), fun h => by cases h⟩
  | cons answer answers ih =>
    obtain ⟨hs, hafter, hlog⟩ := iteration total answer
    rw [NetCentric.pollLoop]
    cases hr : (NetCentric.iteration total answer).result with
    | ok s =>
      rw [Prog.handle_of_ok hr]
      exact (ih s.2).prepend hs hafter hlog
    | error e =>
      rw [Prog.handle_of_error hr]
      obtain ⟨_ | _ | _, t⟩ := e
      · have hleave : Opens (pure t : Handler Totals) {.client, .server} {.client, .server} :=
          orUndefined (some t)
        exact hleave.prepend hs hafter hlog
      · exact (giveUp (by decide) (by decide)).prepend hs hafter hlog
      · exact (giveUp (by decide) (by decide)).prepend hs hafter hlog

theorem connectServer (sc : Script) (host service : List Byte) :
    Opens (connectServer .thread sc host service) {.client} {.client, .server} := by
  have hlookup : Opens (Prog.call (.getaddrinfo host service sc.lookup)) {.client} {.client} :=
    call nofun rfl (by simp [ledger, Call.entry])
  have hconnect : Opens (Prog.call (.connect sc.connect)) {.client, .server} {.client, .server} :=
    call (by cases sc.connect <;> decide) rfl (by cases sc.connect <;> decide)
  have hfree : Opens (Prog.call .freeaddrinfo) {.client, .server} {.client, .server} :=
    call nofun rfl (by decide)
  have hrequire : Opens (Mode.thread.require sc.connect [.client, .proxy, .server])
      {.client, .server} {.client, .server} := require _ (by decide) (by decide)
  have hrest := hconnect.bind fun _ => hrequire.bind fun _ => hfree
  refine hlookup.bind fun _ => (require _ (by decide) (by decide)).bind fun _ => ?_
  cases sc.socket with
  | true =>
    have hsocket : Opens (Prog.call (.socket true)) {.client} {.client, .server} :=
      call (by decide) (by decide) (by decide)
    exact hsocket.bind fun _ => hrest
  | false =>
    have hsocket : Opens (Prog.call (.socket false)) {.client} {.client} :=
      call nofun rfl (by decide)
    exact hsocket.bind fun _ => (giveUp (by decide) (by decide)).bind fun _ => hrest

/-- The log section and the calls after it. -/
theorem writeLog (log : Bool) (logstring : List Byte) : Opens (writeLog .thread log logstring >>=
    fun _ => Prog.callAll [.close .server, .close .client]) {.client, .server} ∅ := by
  cases log with
  | false =>
    have hcalls : Sound {.client, .server} [.fopen false, .close .client] ∧
        after {.client, .server} [.fopen false, .close .client] =
          leftOpen [.fopen false, .close .client] := by decide
    exact ⟨hcalls.1, fun _ h => (by cases h), fun _ => hcalls.2⟩
  | true =>
    have hopen : Opens (Prog.callAll [.fopen true, .mutexLock]) {.client, .server}
        {.client, .server, .log} := callAll (by decide) (by decide) (by decide)
    have herase : Finset.erase {.client, .server, .log} Fd.log = {.client, .server} := by decide
    have hprint : ∀ t, Opens (Prog.callAll [.fprintf t, .mutexUnlock, .fclose])
        {.client, .server, .log} {.client, .server} := fun t =>
      callAll (by simp [Sound, Call.effect, Effect.Fits, Effect.after]) herase
        (by simp [ledger, Call.entry])
    have hclose : Opens (Prog.callAll [.close .server, .close .client]) {.client, .server} ∅ :=
      callAll (by decide) (by decide) (by decide)
    have hsection := hopen.bind fun _ => (orUndefined (inArray 1024 logstring)).bind hprint
    exact hsection.bind fun _ => hclose

theorem finishGet (sc : Script) (url : List Byte) :
    Opens (finishGet .thread sc url) {.client, .server} ∅ :=
  (relay _ _).bind fun _ => writeLog _ _

theorem finishConnect (sc : Script) (url : List Byte) :
    Opens (finishConnect .thread sc url) {.client, .server} ∅ := by
  have hreply : Opens (Prog.call (.write .client ESTABLISHED ESTABLISHED.length))
      {.client, .server} {.client, .server} := call (by decide) rfl (by simp [ledger, Call.entry])
  exact hreply.bind fun _ => (pollLoop _ _).bind fun _ => writeLog _ _

theorem handleGet (sc : Script) (l : Locals) (buffer : List Byte) :
    Opens (handleGet .thread sc l buffer) {.client} ∅ := by
  have hsend : ∀ request : List Byte, Opens (Prog.call (.write .server request request.length))
      {.client, .server} {.client, .server} := fun request =>
    call (by simp [Call.effect, Effect.Fits]) rfl (by simp [ledger, Call.entry])
  exact (orUndefined _).bind fun _ => (require _ (by decide) (by decide)).bind fun _ =>
    (connectServer _ _ _).bind fun _ => (orUndefined _).bind fun request =>
    (hsend request).bind fun _ => (require _ (by decide) (by decide)).bind fun _ => finishGet _ _

theorem handleConnect (sc : Script) (l : Locals) :
    Opens (handleConnect .thread sc l) {.client} ∅ :=
  (orUndefined _).bind fun _ => (require _ (by decide) (by decide)).bind fun _ =>
    (connectServer _ _ _).bind fun _ => finishConnect _ _

/-- A thread uses and closes what it has opened and not closed, and closes all of it unless its
`fopen` fails. -/
theorem threadHandle (sc : Script) : Opens (threadHandle sc) {.client} ∅ := by
  have hread : Opens (Prog.call (.read .client 9999 sc.request)) {.client} {.client} :=
    call (by simp [Call.effect, Effect.Fits]) rfl (by simp [ledger, Call.entry])
  refine hread.bind fun _ => (require _ (by decide) (by decide)).bind fun _ =>
    (orUndefined _).bind fun l => ?_
  split
  · exact handleGet _ _ _
  split
  · exact handleConnect _ _
  · exact giveUp (by decide) (by decide)

end Opens

/-! ## The table of the process -/

/-- An open file : the connection of a thread, its socket to the server or its log file, by the
variable that holds it, or another file. -/
inductive File
  | own (thread : ℕ) (v : Fd)
  | other (k : ℕ)
  deriving DecidableEq

structure State where
  hand : Handoff.State
  table : FileTable File
  /-- The descriptor variables of each thread. -/
  fd : ℕ → Fd → ℕ
  /-- What each thread meets, and the calls it has made. They are history. -/
  script : ℕ → Option Script
  made : ℕ → List Call

/-- The table before the first `accept`, with nothing of any connection. -/
structure Startup where
  table : FileTable File
  fresh : ∀ i v, .own i v ∉ table.contents

def start (first : Startup) : State where
  hand := Handoff.start
  table := first.table
  fd := fun _ _ => 0
  script := fun _ => none
  made := fun _ => []

namespace State

/-- Thread `i` sets a variable. -/
def assign (s : State) (i : ℕ) (v : Fd) (number : ℕ) : State :=
  { s with fd := Function.update s.fd i (Function.update (s.fd i) v number) }

@[simp] theorem fd_assign (s : State) (i : ℕ) (v : Fd) (number : ℕ) :
    (s.assign i v number).fd i v = number := by
  simp only [assign, Function.update_self]

theorem fd_assign_of_ne {s : State} {i j : ℕ} {v w : Fd} (number : ℕ) (h : j = i → w ≠ v) :
    (s.assign i v number).fd j w = s.fd j w := by
  by_cases hj : j = i
  · simp only [assign, hj, Function.update_self, Function.update_of_ne (h hj)]
  · simp only [assign, Function.update_of_ne hj]

/-- What a call of thread `i` does. -/
def apply (s : State) (i : ℕ) : Effect → State
  | .opens v => { s.assign i v (FileTable.free s.table.slots) with
      table := s.table.alloc (.own i v) }
  | .closes v => { s with table := s.table.close (s.fd i v) }
  | .uses _ => s

/-- The table and the variables after an action. -/
def after (s : State) : Handoff.Action → State
  | .accept _ _ => { s with table := s.table.alloc (.own s.hand.accepted.length .client) }
  | .store | .create _ => s
  | .copy i sc =>
    match s.hand.client with
    | some conn => { s.assign i .client conn.clifd with
        script := Function.update s.script i (some sc) }
    | none => s
  | .call i =>
    match s.hand.threads[i]? with
    | some ⟨_, some _, c :: _⟩ => { s.apply i c.effect with
        made := Function.update s.made i (s.made i ++ [c]) }
    | _ => s

/-- `accept` returns the lowest number that is free. -/
def Lowest (s : State) : Handoff.Action → Prop
  | .accept clifd _ => clifd = FileTable.free s.table.slots
  | _ => True

instance (s : State) : (a : Handoff.Action) → Decidable (s.Lowest a)
  | .accept _ _ => inferInstanceAs (Decidable (_ = _))
  | .store | .create _ | .copy _ _ | .call _ => inferInstanceAs (Decidable True)

end State

def step (s : State) (a : Handoff.Action) : Option State :=
  if s.Lowest a then (Handoff.step s.hand a).map fun hand => { s.after a with hand := hand }
  else none

/-- The proxy in thread mode with its descriptors. -/
def threadFiles (first : Startup) : System State Handoff.Action where
  Init s := s = start first
  step := step

instance (s : Handoff.State) : (a : Handoff.Action) → Decidable (Handoff.InTime s a)
  | .store => inferInstanceAs (Decidable (∀ th ∈ s.threads, th.client ≠ none))
  | .create ok => inferInstanceAs (Decidable (ok = true))
  | .accept _ _ | .copy _ _ | .call _ => inferInstanceAs (Decidable True)

/-- Its runs in which every thread has its copy before the next store. -/
def inTime (first : Startup) : System State Handoff.Action :=
  (threadFiles first).restrict fun s a => Handoff.InTime s.hand a

/-! ## Who has what open -/

/-- What the variable `v` of thread `i` refers to. -/
def State.held (s : State) (i : ℕ) (v : Fd) : Option File :=
  s.table.get? (s.fd i v)

/-- What the effect refers to is the thread's own. -/
def State.OnOwn (s : State) (i : ℕ) : Effect → Prop
  | .opens _ => True
  | .closes v => s.held i v = some (.own i v)
  | .uses vs => ∀ v ∈ vs, s.held i v = some (.own i v)

/-- The variables of thread `i` of `n` that have an open descriptor, after the calls `made`. -/
def opened (n : ℕ) (made : ℕ → List Call) (i : ℕ) : Finset Fd :=
  if i < n then after {.client} (made i) else ∅

theorem opened_of_lt {n i : ℕ} (hi : i < n) (made : ℕ → List Call) :
    opened n made i = after {.client} (made i) :=
  if_pos hi

theorem opened_of_le {n i : ℕ} (hi : n ≤ i) (made : ℕ → List Call) : opened n made i = ∅ :=
  if_neg (Nat.not_lt_of_le hi)

/-- One connection more. -/
theorem opened_succ {n : ℕ} {made : ℕ → List Call} (hn : made n = []) :
    opened (n + 1) made = Function.update (opened n made) n {.client} := by
  funext j
  rcases Nat.lt_trichotomy j n with hj | rfl | hj
  · rw [Function.update_of_ne hj.ne, opened_of_lt hj, opened_of_lt (Nat.lt_succ_of_lt hj)]
  · rw [Function.update_self, opened_of_lt (Nat.lt_succ_self _), hn]
    rfl
  · rw [Function.update_of_ne hj.ne', opened_of_le hj.le, opened_of_le hj]

theorem opened_update {n i : ℕ} (hi : i < n) (made : ℕ → List Call) (cs : List Call) :
    opened n (Function.update made i cs) =
      Function.update (opened n made) i (after {.client} cs) := by
  funext j
  by_cases hj : j = i
  · rw [hj, Function.update_self, opened_of_lt hi, Function.update_self]
  · rw [Function.update_of_ne hj, opened, Function.update_of_ne hj, opened]

/-- What thread `i` has open : its connection from the `accept` on. -/
def State.opened (s : State) : ℕ → Finset Fd :=
  ThreadFiles.opened s.hand.accepted.length s.made

/-- What is open is what was open at first, and under `number` the files of `n` threads. -/
structure Owned (first : Startup) (n : ℕ) (opened : ℕ → Finset Fd) (number : ℕ → Fd → ℕ)
    (table : FileTable File) : Prop where
  held : ∀ i, ∀ v ∈ opened i, table.get? (number i v) = some (.own i v)
  before : ∀ k f, first.table.get? k = some f → table.get? k = some f
  contents : table.contents =
    first.table.contents + ∑ i ∈ Finset.range n, (opened i).val.map (.own i)

namespace Owned

variable {first : Startup} {n i : ℕ} {v : Fd} {opened : ℕ → Finset Fd} {number number' : ℕ → Fd → ℕ}
  {table : FileTable File}

theorem congr (h : Owned first n opened number table)
    (hnumber : ∀ j, ∀ w ∈ opened j, number' j w = number j w) :
    Owned first n opened number' table :=
  ⟨fun j w hw => by rw [hnumber j w hw, h.held j w hw], h.before, h.contents⟩

/-- One thread more, with nothing open. -/
theorem succ (h : Owned first n opened number table) (hn : opened n = ∅) :
    Owned first (n + 1) opened number table := by
  refine ⟨h.held, h.before, ?_⟩
  rw [Finset.sum_range_succ, hn, h.contents]
  exact congrArg (first.table.contents + ·) (Multiset.add_zero _).symm

theorem sum_update (hi : i < n) (held : Finset Fd) :
    ∑ j ∈ Finset.range n, (Function.update opened i held j).val.map (File.own j) =
      held.val.map (File.own i) +
        ∑ j ∈ (Finset.range n).erase i, (opened j).val.map (File.own j) := by
  rw [← Finset.add_sum_erase _ _ (Finset.mem_range.2 hi), Function.update_self]
  refine congrArg _ (Finset.sum_congr rfl fun j hj => ?_)
  rw [Function.update_of_ne (Finset.ne_of_mem_erase hj)]

/-- A new descriptor, whose variable had none. -/
theorem opens (h : Owned first n opened number table) (hi : i < n) (hv : v ∉ opened i)
    (hnew : number' i v = FileTable.free table.slots)
    (hold : ∀ j, ∀ w ∈ opened j, number' j w = number j w) :
    Owned first n (Function.update opened i (insert v (opened i))) number'
      (table.alloc (.own i v)) := by
  refine ⟨fun j w hw => ?_, fun k f hk => FileTable.get?_alloc_of_some _ _ (h.before k f hk), ?_⟩
  · have hcases : (j = i ∧ w = v) ∨ w ∈ opened j := by
      by_cases hj : j = i
      · subst hj
        rw [Function.update_self] at hw
        exact (Finset.mem_insert.1 hw).imp_left fun hw => ⟨rfl, hw⟩
      · rw [Function.update_of_ne hj] at hw
        exact .inr hw
    rcases hcases with ⟨rfl, rfl⟩ | hmem
    · rw [hnew, FileTable.get?_alloc]
    · rw [hold j w hmem]
      exact FileTable.get?_alloc_of_some _ _ (h.held j w hmem)
  · rw [FileTable.contents_alloc, h.contents, sum_update hi, Finset.insert_val_of_notMem hv,
      Multiset.map_cons, Multiset.cons_add, Multiset.add_cons]
    rw [← Finset.add_sum_erase _ _ (Finset.mem_range.2 hi)]

theorem closes (h : Owned first n opened number table) (hi : i < n) (hv : v ∈ opened i) :
    Owned first n (Function.update opened i ((opened i).erase v)) number
      (table.close (number i v)) := by
  have hheld := h.held i v hv
  refine ⟨fun j w hw => ?_, fun k f hk => ?_, ?_⟩
  · have hold : w ∈ opened j ∧ ¬(j = i ∧ w = v) := by
      by_cases hj : j = i
      · subst hj
        rw [Function.update_self] at hw
        obtain ⟨hne, hmem⟩ := Finset.mem_erase.1 hw
        exact ⟨hmem, fun hv => hne hv.2⟩
      · rw [Function.update_of_ne hj] at hw
        exact ⟨hw, fun hv => hj hv.1⟩
    -- two files of threads have two numbers
    have hother := h.held j w hold.1
    refine (FileTable.get?_close_of_ne _ fun heq => hold.2 ?_).trans hother
    rw [heq, hheld] at hother
    obtain ⟨rfl, rfl⟩ := File.own.inj (Option.some.inj hother)
    exact ⟨rfl, rfl⟩
  · refine (FileTable.get?_close_of_ne _ fun heq => ?_).trans (h.before k f hk)
    subst heq
    obtain rfl := Option.some.inj ((h.before _ f hk).symm.trans hheld)
    have hmem := FileTable.contents_close _ hk
    exact first.fresh i v (hmem ▸ Multiset.mem_cons_self _ _)
  · have hclose := FileTable.contents_close _ hheld
    rw [h.contents, ← Finset.add_sum_erase _ _ (Finset.mem_range.2 hi), ← Finset.insert_erase hv,
      Finset.insert_val_of_notMem (Finset.notMem_erase v _), Multiset.map_cons,
      Multiset.cons_add, Multiset.add_cons] at hclose
    rw [sum_update hi]
    exact ((Multiset.cons_inj_right _).1 hclose).symm

end Owned

/-! ## The runs in time -/

/-- The number of what thread `i` has in `v`. That of its connection is known from the `accept`
on. -/
def State.number (s : State) (i : ℕ) : Fd → ℕ
  | .client => (s.hand.accepted[i]?.map Handoff.Conn.clifd).getD 0
  | v => s.fd i v

/-- The invariant of the runs in time. -/
structure Inv (first : Startup) (s : State) : Prop where
  hand : Handoff.Inv s.hand
  owned : Owned first s.hand.accepted.length s.opened s.number s.table
  copied : ∀ i createdFor conn todo, s.hand.threads[i]? = some ⟨createdFor, some conn, todo⟩ →
    s.fd i .client = conn.clifd ∧ ∃ sc, s.script i = some sc ∧
      s.made i ++ todo = (threadHandle sc).calls
  unmade : ∀ i, (∀ createdFor conn todo,
    s.hand.threads[i]? ≠ some ⟨createdFor, some conn, todo⟩) → s.made i = []

variable {first : Startup} {s t : State} {i : ℕ} {createdFor conn : Handoff.Conn} {c : Call}
  {todo : List Call}

theorem inv_start : Inv first (start first) where
  hand := Handoff.inv_start
  owned := ⟨fun _ _ h => absurd h (Finset.notMem_empty _), fun _ _ h => h,
    (Multiset.add_zero _).symm⟩
  copied _ _ _ _ h := by cases h
  unmade _ _ := rfl

/-- The connection of a thread that has its copy is the one of its number. -/
theorem Inv.accepted (hI : Inv first s)
    (hi : s.hand.threads[i]? = some ⟨createdFor, some conn, todo⟩) :
    s.hand.accepted[i]? = some conn := by
  obtain rfl : conn = createdFor := hI.hand.own _ (List.mem_of_getElem? hi) conn rfl
  have hlt := (List.getElem?_eq_some_iff.1 hi).1
  rw [hI.hand.accepted, List.getElem?_append_left (by simpa using hlt), List.getElem?_map, hi]
  rfl

/-- Its variables hold the numbers. -/
theorem Inv.fd_eq (hI : Inv first s)
    (hi : s.hand.threads[i]? = some ⟨createdFor, some conn, todo⟩) (v : Fd) :
    s.fd i v = s.number i v := by
  cases v with
  | client =>
    rw [(hI.copied i _ _ _ hi).1, State.number, hI.accepted hi]
    rfl
  | _ => rfl

/-- The call that comes next is sound. -/
theorem Inv.fits (hI : Inv first s)
    (hi : s.hand.threads[i]? = some ⟨createdFor, some conn, c :: todo⟩) :
    i < s.hand.accepted.length ∧ c.effect.Fits (s.opened i) := by
  obtain ⟨-, sc, -, hcalls⟩ := hI.copied i _ _ _ hi
  have hlt := (List.getElem?_eq_some_iff.1 (hI.accepted hi)).1
  have hsound := (Opens.threadHandle sc).sound
  rw [← hcalls, sound_append] at hsound
  rw [State.opened, opened_of_lt hlt]
  exact ⟨hlt, hsound.2.1⟩

theorem Inv.onOwn (hI : Inv first s)
    (hi : s.hand.threads[i]? = some ⟨createdFor, some conn, c :: todo⟩) :
    s.OnOwn i c.effect := by
  have hheld : ∀ v ∈ s.opened i, s.held i v = some (.own i v) := fun v hv => by
    rw [State.held, hI.fd_eq hi]
    exact hI.owned.held i v hv
  have hfits := (hI.fits hi).2
  cases he : c.effect with
  | opens v => trivial
  | closes v =>
    rw [he] at hfits
    exact hheld v hfits
  | uses vs =>
    rw [he] at hfits
    exact fun v hv => hheld v (hfits v hv)

theorem Inv.accept (hI : Inv first s) (hmain : s.hand.main = .accept) {clifd : ℕ}
    (hlow : clifd = FileTable.free s.table.slots) (cliaddr : BitVec 32) {hand : Handoff.State}
    (hhand : Handoff.Inv hand) (hthreads : hand.threads = s.hand.threads)
    (haccepted : hand.accepted = s.hand.accepted ++ [⟨s.hand.accepted.length, clifd, cliaddr⟩]) :
    Inv first { s.after (.accept clifd cliaddr) with hand := hand } := by
  have hlength : s.hand.accepted.length = s.hand.threads.length := by
    rw [hI.hand.accepted, hmain]
    simp [Handoff.Main.holds]
  have hmade : s.made s.hand.accepted.length = [] := hI.unmade _ fun _ _ _ h => by
    have hlt := (List.getElem?_eq_some_iff.1 h).1
    omega
  refine ⟨hhand, ?_, fun j => hthreads ▸ hI.copied j, fun j => hthreads ▸ hI.unmade j⟩
  have hempty : s.opened s.hand.accepted.length = ∅ := opened_of_le (Nat.le_refl _) _
  have hopened := opened_succ hmade
  have hnone : Fd.client ∉ s.opened s.hand.accepted.length := by
    rw [hempty]
    exact Finset.notMem_empty _
  change Owned first hand.accepted.length (opened hand.accepted.length s.made) _
    (s.table.alloc (.own s.hand.accepted.length .client))
  rw [haccepted, List.length_append, List.length_singleton, hopened, ← insert_empty_eq, ← hempty]
  refine (hI.owned.succ hempty).opens (Nat.lt_succ_self _) hnone ?_ fun j w hw => ?_
  · change (hand.accepted[s.hand.accepted.length]?.map Handoff.Conn.clifd).getD 0 = _
    rw [haccepted, List.getElem?_concat_length]
    exact hlow
  · cases w with
    | client =>
      -- only a connection that is accepted has something open
      have hlt : j < s.hand.accepted.length := by
        by_contra hge
        rw [State.opened, opened_of_le (Nat.le_of_not_lt hge)] at hw
        exact Finset.notMem_empty _ hw
      change (hand.accepted[j]?.map Handoff.Conn.clifd).getD 0 = _
      rw [haccepted, List.getElem?_append_left hlt]
      rfl
    | _ => rfl

@[simp] theorem State.hand_apply (s : State) (i : ℕ) (e : Effect) :
    (s.apply i e).hand = s.hand := by
  cases e <;> rfl

@[simp] theorem State.script_apply (s : State) (i : ℕ) (e : Effect) :
    (s.apply i e).script = s.script := by
  cases e <;> rfl

theorem State.fd_apply_of_ne {e : Effect} {j : ℕ} {w : Fd} (h : j = i → e ≠ .opens w) :
    (s.apply i e).fd j w = s.fd j w := by
  cases e with
  | opens v =>
    refine State.fd_assign_of_ne _ fun hj hw => h hj ?_
    rw [hw]
  | _ => rfl

/-- No call opens a client. -/
theorem effect_ne_opens_client (c : Call) : c.effect ≠ .opens .client := by
  unfold Call.effect
  split <;> nofun

/-- A call that fits what the thread has open. -/
theorem Inv.apply (hI : Inv first s)
    (hi : s.hand.threads[i]? = some ⟨createdFor, some conn, c :: todo⟩) :
    Owned first s.hand.accepted.length
      (Function.update s.opened i (c.effect.after (s.opened i))) (s.apply i c.effect).number
      (s.apply i c.effect).table := by
  obtain ⟨hlt, hfits⟩ := hI.fits hi
  cases he : c.effect with
  | opens v =>
    rw [he] at hfits
    have hclient : v ≠ .client := by
      rintro rfl
      exact effect_ne_opens_client c he
    refine hI.owned.opens hlt hfits ?_ fun j w hw => ?_
    · cases v <;> first | exact absurd rfl hclient | simp [State.number, State.apply, State.assign]
    · have hfd : (s.apply i (.opens v)).fd j w = s.fd j w := by
        refine State.fd_apply_of_ne fun hj heq => hfits ?_
        obtain rfl := Effect.opens.inj heq
        exact hj ▸ hw
      cases w with
      | client => rfl
      | _ => exact hfd
  | closes v =>
    rw [he] at hfits
    have hclosed := hI.owned.closes hlt hfits
    rw [← hI.fd_eq hi] at hclosed
    exact hclosed
  | uses vs =>
    rw [Effect.after, Function.update_eq_self]
    exact hI.owned

theorem Inv.call (hI : Inv first s)
    (hi : s.hand.threads[i]? = some ⟨createdFor, some conn, c :: todo⟩) {hand : Handoff.State}
    (hhand : Handoff.Inv hand)
    (hthreads : hand.threads = s.hand.threads.set i ⟨createdFor, some conn, todo⟩)
    (haccepted : hand.accepted = s.hand.accepted) :
    Inv first { s.after (.call i) with hand := hand } := by
  have hafter : s.after (.call i) = { s.apply i c.effect with
      made := Function.update s.made i (s.made i ++ [c]) } := by
    simp only [State.after, hi]
  have hlt := (hI.fits hi).1
  have hlen := (List.getElem?_eq_some_iff.1 hi).1
  have hself : hand.threads[i]? = some ⟨createdFor, some conn, todo⟩ := by
    rw [hthreads, List.getElem?_set_self hlen]
  have hothers : ∀ j ≠ i, hand.threads[j]? = s.hand.threads[j]? := fun j hj => by
    rw [hthreads, List.getElem?_set_ne (Ne.symm hj)]
  rw [hafter]
  refine ⟨hhand, ?_, fun j a b l hj => ?_, fun j hj => ?_⟩
  · have howned := hI.apply hi
    change Owned first hand.accepted.length
      (opened hand.accepted.length (Function.update s.made i (s.made i ++ [c]))) _ _
    rw [haccepted, opened_update hlt, after_append, ← opened_of_lt hlt]
    refine howned.congr fun j w _ => ?_
    cases w with
    | client =>
      change (hand.accepted[j]?.map _).getD 0 =
        ((s.apply i c.effect).hand.accepted[j]?.map _).getD 0
      rw [State.hand_apply, haccepted]
    | _ => rfl
  · change (s.apply i c.effect).fd j .client = _ ∧ ∃ sc, (s.apply i c.effect).script j = some sc ∧
      Function.update s.made i _ j ++ _ = _
    rw [State.fd_apply_of_ne fun _ => effect_ne_opens_client c, State.script_apply]
    by_cases hne : j = i
    · subst hne
      obtain ⟨hfd, sc, hsc, hcalls⟩ := hI.copied j _ _ _ hi
      obtain ⟨rfl, hb, rfl⟩ := Handoff.Thread.mk.inj (Option.some.inj (hself.symm.trans hj))
      obtain rfl := Option.some.inj hb
      refine ⟨hfd, sc, hsc, ?_⟩
      rw [Function.update_self, List.append_assoc]
      exact hcalls
    · rw [Function.update_of_ne hne]
      rw [hothers j hne] at hj
      exact hI.copied j a b l hj
  · have hne : j ≠ i := by
      rintro rfl
      exact hj _ _ _ hself
    rw [hothers j hne] at hj
    exact (Function.update_of_ne hne _ _).trans (hI.unmade j hj)

theorem Inv.copy (hI : Inv first s) (hi : s.hand.threads[i]? = some ⟨createdFor, none, todo⟩)
    (hclient : s.hand.client = some conn) (sc : Script) {hand : Handoff.State}
    (hhand : Handoff.Inv hand) (hthreads : hand.threads =
      s.hand.threads.set i ⟨createdFor, some conn, (threadHandle sc).calls⟩)
    (haccepted : hand.accepted = s.hand.accepted) :
    Inv first { s.after (.copy i sc) with hand := hand } := by
  have hafter : s.after (.copy i sc) = { s.assign i .client conn.clifd with
      script := Function.update s.script i (some sc) } := by
    simp only [State.after, hclient]
  have hlen := (List.getElem?_eq_some_iff.1 hi).1
  have hself : hand.threads[i]? = some ⟨createdFor, some conn, (threadHandle sc).calls⟩ := by
    rw [hthreads, List.getElem?_set_self hlen]
  have hothers : ∀ j ≠ i, hand.threads[j]? = s.hand.threads[j]? := fun j hj => by
    rw [hthreads, List.getElem?_set_ne (Ne.symm hj)]
  rw [hafter]
  refine ⟨hhand, ?_, fun j a b l hj => ?_, fun j hj => ?_⟩
  · have howned : Owned first hand.accepted.length (opened hand.accepted.length s.made)
        s.number s.table := by
      rw [haccepted]
      exact hI.owned
    refine howned.congr fun j w _ => ?_
    cases w with
    | client =>
      change (hand.accepted[j]?.map _).getD 0 = (s.hand.accepted[j]?.map _).getD 0
      rw [haccepted]
    | _ => exact State.fd_assign_of_ne _ fun _ h => by cases h
  · change (s.assign i .client conn.clifd).fd j .client = _ ∧
      ∃ sc', Function.update s.script i (some sc) j = some sc' ∧ s.made j ++ _ = _
    by_cases hne : j = i
    · subst hne
      obtain ⟨rfl, hb, rfl⟩ := Handoff.Thread.mk.inj (Option.some.inj (hself.symm.trans hj))
      obtain rfl := Option.some.inj hb
      rw [State.fd_assign, Function.update_self]
      refine ⟨rfl, sc, rfl, ?_⟩
      have hmade : s.made j = [] := hI.unmade j fun _ _ _ h => by cases hi.symm.trans h
      rw [hmade, List.nil_append]
    · rw [State.fd_assign_of_ne _ fun h => absurd h hne, Function.update_of_ne hne]
      rw [hothers j hne] at hj
      exact hI.copied j a b l hj
  · have hne : j ≠ i := by
      rintro rfl
      exact hj _ _ _ hself
    rw [hothers j hne] at hj
    exact hI.unmade j hj

theorem Inv.step {a : Handoff.Action} (hI : Inv first s) (ha : Handoff.InTime s.hand a)
    (hstep : step s a = some t) : Inv first t := by
  obtain ⟨hlow, hmap⟩ := Option.ite_none_right_eq_some.1 hstep
  obtain ⟨hand, h, rfl⟩ := Option.map_eq_some_iff.1 hmap
  have hhand := hI.hand.step ha h
  cases a with
  | accept clifd cliaddr =>
    simp only [Handoff.step] at h
    split at h
    case h_1 hmain =>
      obtain rfl := Option.some.inj h
      exact hI.accept hmain hlow cliaddr hhand rfl rfl
    case h_2 => cases h
  | store =>
    simp only [Handoff.step] at h
    split at h
    case h_1 conn hmain =>
      obtain rfl := Option.some.inj h
      exact ⟨hhand, hI.owned, hI.copied, hI.unmade⟩
    case h_2 => cases h
  | create ok =>
    obtain rfl : ok = true := ha
    simp only [Handoff.step] at h
    split at h
    case h_1 conn hmain =>
      obtain rfl := Option.some.inj h
      -- the new thread has no copy yet
      have hiff : ∀ (j : ℕ) (th : Handoff.Thread), th.client ≠ none →
          ((s.hand.threads ++ [⟨conn, none, []⟩])[j]? = some th ↔
            s.hand.threads[j]? = some th) := by
        intro j th hth
        rcases Nat.lt_or_ge j s.hand.threads.length with hlt | hge
        · rw [List.getElem?_append_left hlt]
        · rw [List.getElem?_append_right hge, List.getElem?_eq_none hge, List.getElem?_singleton]
          split
          · refine iff_of_false (fun heq => hth ?_) fun h => by cases h
            rw [← Option.some.inj heq]
          · rfl
      refine ⟨hhand, hI.owned, fun j a b l hj => ?_, fun j hj => hI.unmade j fun a b l h => ?_⟩
      · exact hI.copied j a b l ((hiff j _ (Option.some_ne_none _)).1 hj)
      · exact hj a b l ((hiff j _ (Option.some_ne_none _)).2 h)
    case h_2 => cases h
  | copy i sc =>
    simp only [Handoff.step] at h
    split at h
    case h_1 createdFor todo conn hi hclient =>
      obtain rfl := Option.some.inj h
      exact hI.copy hi hclient sc hhand rfl rfl
    case h_2 => cases h
  | call i =>
    simp only [Handoff.step] at h
    split at h
    case h_1 createdFor conn c todo hi =>
      obtain rfl := Option.some.inj h
      exact hI.call hi hhand rfl rfl
    case h_2 => cases h

/-- What a thread that has come to its end has open. -/
theorem Inv.ended (hI : Inv first s)
    (hi : s.hand.threads[i]? = some ⟨createdFor, some conn, []⟩) : ∃ sc, s.script i = some sc ∧
      s.made i = (threadHandle sc).calls ∧
      ((threadHandle sc).result = .ok () ∨ (threadHandle sc).result = .error .returned →
        s.opened i = leftOpen (s.made i)) := by
  obtain ⟨-, sc, hsc, hcalls⟩ := hI.copied i _ _ _ hi
  rw [List.append_nil] at hcalls
  refine ⟨sc, hsc, hcalls, fun hend => ?_⟩
  have hlt := (List.getElem?_eq_some_iff.1 (hI.accepted hi)).1
  have hopens := Opens.threadHandle sc
  rw [State.opened, opened_of_lt hlt, hcalls]
  rcases hend with hok | hreturned
  · obtain ⟨hafter, hlog⟩ := hopens.ok () hok
    rw [hafter, leftOpen, if_neg hlog]
  · exact hopens.returned hreturned

/-- In every state of a run in time the call that a thread makes next is on the files of this
thread alone, though other threads have had their numbers. What was open before the first
`accept` is open under its number. What is open beside it is what the threads have opened and
not closed, each once : nothing for a thread that has come to its end, or its socket to the
server if its `fopen` has failed. -/
theorem own_files (h : (inTime first).Reachable s) :
    (∀ i createdFor conn c todo, s.hand.threads[i]? = some ⟨createdFor, some conn, c :: todo⟩ →
      s.OnOwn i c.effect) ∧
    (∀ k f, first.table.get? k = some f → s.table.get? k = some f) ∧
    s.table.contents = first.table.contents +
      ∑ i ∈ Finset.range s.hand.accepted.length, (s.opened i).val.map (.own i) ∧
    ∀ i createdFor conn, s.hand.threads[i]? = some ⟨createdFor, some conn, []⟩ →
      ∃ sc, s.script i = some sc ∧ s.made i = (threadHandle sc).calls ∧
        ((threadHandle sc).result = .ok () ∨ (threadHandle sc).result = .error .returned →
          s.opened i = if .openLog false ∈ ledger (s.made i) then {.server} else ∅) := by
  have hI : Inv first s := by
    refine System.Reachable.invariant ?_ (fun s a t hI hstep => ?_) h
    · rintro s rfl
      exact inv_start
    · obtain ⟨ha, hstep⟩ := System.restrict_step.1 hstep
      exact hI.step ha hstep
  exact ⟨fun i a b c l hi => hI.onOwn hi, hI.owned.before, hI.owned.contents,
    fun i a b hi => hI.ended hi⟩

/-- A table with nothing open. -/
def nothing : Startup :=
  ⟨.empty, fun _ _ => Multiset.notMem_zero _⟩

/-- A request that is answered, and a log file that does not open. -/
def unlogged : Script :=
  { quietScript plainRequest.text with responses := [.data okResponse], log := false }

def twoUnlogged : List Handoff.Action :=
  [.accept 0 0, .store, .create true, .copy 0 unlogged] ++ List.replicate 10 (.call 0) ++
    [.accept 0 0, .store, .create true, .copy 1 unlogged]

/-- The second thread gets the number of the first one's client, and reads from its own. The
first one has left its socket to the server open. -/
theorem own_files_unlogged : ∃ s, (inTime nothing).run (start nothing) twoUnlogged = some s ∧
    s.fd 1 .client = s.fd 0 .client ∧ s.held 1 .client = some (.own 1 .client) ∧
    s.table.contents = {.own 0 .server, .own 1 .client} := by
  have hrun : ((inTime nothing).run (start nothing) twoUnlogged).map (fun s => decide (
      s.fd 1 .client = s.fd 0 .client ∧
      s.hand.accepted.length = 2 ∧ s.opened 0 = {.server} ∧ s.opened 1 = {.client} ∧
      (s.hand.threads[1]?.map fun th => (th.client.isSome, th.todo.head?.map Call.effect)) =
        some (true, some (.uses [.client])))) = some true := by
    decide +kernel
  obtain ⟨s, hs, hfacts⟩ := Option.map_eq_some_iff.1 hrun
  obtain ⟨hfd, hlength, hopened₀, hopened₁, hthread⟩ := of_decide_eq_true hfacts
  obtain ⟨hown, -, hcontents, -⟩ := own_files ⟨_, _, rfl, hs⟩
  obtain ⟨⟨createdFor, client, todo⟩, hth, hnext⟩ := Option.map_eq_some_iff.1 hthread
  obtain ⟨hclient, hhead⟩ := Prod.mk.inj hnext
  obtain ⟨conn, rfl⟩ := Option.isSome_iff_exists.1 hclient
  obtain ⟨c, hc, heffect⟩ := Option.map_eq_some_iff.1 hhead
  obtain ⟨rest, rfl⟩ := List.head?_eq_some_iff.1 hc
  have hread := hown 1 createdFor conn c rest hth
  rw [heffect] at hread
  refine ⟨s, hs, hfd, hread _ (List.mem_singleton_self _), ?_⟩
  rw [hcontents, hlength, Finset.sum_range_succ, Finset.sum_range_one, hopened₀, hopened₁]
  rfl

/-- Copies that come too late. Both threads have the second connection, and the second `close`
hits the third one. -/
example : ((threadFiles nothing).run (start nothing)
    ([.accept 0 0, .store, .create true, .accept 1 0, .store, .create true,
      .copy 0 silentClient, .copy 1 silentClient] ++ List.replicate 2 (.call 0) ++
      [.accept 1 0] ++ List.replicate 2 (.call 1))).map (fun s => s.table.slots) =
    some [some (.own 0 .client), none] := by
  decide +kernel

end ThreadFiles

end NetCentric
