import NetCentric.FileTable
import NetCentric.ProcessTree

/-!
# The descriptors of the forking proxy

`forkingFiles` is the forking proxy with the descriptors of each process : a child starts
with the table and the variables of the process that forks it. A step is a step of
`forkingProxy` (`step_tree`), with what it does to the table of the process that takes it.
`accept`, `socket` and `open` return the lowest number that is free, and a process that exits
has nothing open.

A child that comes back to the loop has closed its client and its log, and keeps the socket to
the origin server, which its children inherit. `inherited` : in every reachable state a process
at `accept` has open what the original parent had at the first `accept`, and one such socket
for each connection in its `lineage`, which are the connections that it and its ancestors were
forked for. A client is open in the process that has accepted it, up to its `close`, and in the
child that was forked for it, and nowhere else. `sockets_pile_up` : the number of sockets that
a process keeps has no bound, and each is one of a connection that was served to the end
(`lineage_served`).
-/

namespace NetCentric

namespace InheritedFiles

open ProcessTree (Pc Process Event turn forked)

/-- An open file. The number is that of the connection it belongs to. -/
inductive File
  | listening
  | client (connection : ℕ)
  /-- A socket to an origin server. -/
  | server (connection : ℕ)
  | log
  | other (k : ℕ)
  deriving DecidableEq

/-- The open files of a process, and the variables that hold descriptors. -/
structure Table where
  files : FileTable File
  fd : Fd → ℕ

namespace Table

/-- A new descriptor in a variable. -/
def alloc (t : Table) (v : Fd) (f : File) : Table where
  files := t.files.alloc f
  fd := Function.update t.fd v (FileTable.free t.files.slots)

/-- The descriptor in a variable is closed. -/
def close (t : Table) (v : Fd) : Table :=
  { t with files := t.files.close (t.fd v) }

/-- After `exit`. -/
def exit (t : Table) : Table :=
  { t with files := .empty }

/-- What the variable refers to. -/
def held (t : Table) (v : Fd) : Option File :=
  t.files.get? (t.fd v)

/-- What a call does in a process that serves the connection `n`. -/
def apply (n : ℕ) (t : Table) : Call → Table
  | .socket true => t.alloc .server (.server n)
  | .fopen true | .openLog true => t.alloc .log .log
  | .fclose => t.close .log
  | .close v => t.close v
  | _ => t

def applyAll (n : ℕ) (t : Table) (calls : List Call) : Table :=
  calls.foldl (apply n) t

end Table

/-- A process with its descriptors. -/
structure Proc where
  process : Process
  table : Table
  /-- The connections that the process and its ancestors were forked for, its own first. -/
  lineage : List ℕ

/-- The table behind a step that the process takes. -/
def Proc.after (x : Proc) (next : ℕ) (e : Event) : Table :=
  match x.process.pc, e with
  | .accept, .accept => x.table.alloc .client (.client next)
  | .close _, .close => x.table.close .client
  | .handling (c :: _) _, .call => x.table.apply (x.lineage.headD 0) c
  | .fork _, .fork _ | .handling [] (.ok _), .finish => x.table
  -- all others exit
  | _, _ => x.table.exit

/-- The child takes over the descriptors. -/
def Proc.child (x : Proc) (p : Process) : Proc where
  process := p
  table := x.table
  lineage := p.forkedFor.toList ++ x.lineage

structure State where
  procs : List Proc
  next : ℕ

/-- The original parent at the first `accept` : the listening socket is open, and nothing of
any connection. -/
structure Startup where
  table : Table
  listening : table.held .proxy = some .listening
  fresh : ∀ n, .client n ∉ table.files.contents ∧ .server n ∉ table.files.contents

def start (first : Startup) : State where
  procs := [⟨⟨none, [], .accept⟩, first.table, []⟩]
  next := 0

/-- Process `a.1` takes the step `a.2`. -/
def step (s : State) (a : ℕ × Event) : Option State := do
  let x ← s.procs[a.1]?
  let (p, children) ← turn s.next x.process a.2
  let next := match a.2 with
    | .accept => s.next + 1
    | _ => s.next
  return ⟨s.procs.set a.1 ⟨p, x.after s.next a.2, x.lineage⟩ ++ children.map x.child, next⟩

/-- The forking proxy with its descriptors. -/
def forkingFiles (first : Startup) : System State (ℕ × Event) where
  Init s := s = start first
  step := step

/-! ## The processes -/

/-- The state without the descriptors. -/
def State.tree (s : State) : ProcessTree.State where
  procs := s.procs.map Proc.process
  next := s.next

theorem tree_start (first : Startup) : (start first).tree = ProcessTree.start :=
  rfl

/-- The steps are those of the processes. -/
theorem step_tree (s : State) (a : ℕ × Event) :
    (step s a).map State.tree = ProcessTree.step s.tree a := by
  obtain ⟨i, e⟩ := a
  have hprocs : s.tree.procs[i]? = (s.procs[i]?).map Proc.process := List.getElem?_map
  simp only [step, ProcessTree.step, hprocs, Option.bind_eq_bind]
  cases s.procs[i]? with
  | none => rfl
  | some x =>
    rw [Option.map_some, Option.bind_some, Option.bind_some]
    change Option.map _ ((turn s.next x.process e).bind _) = (turn s.next x.process e).bind _
    cases turn s.next x.process e with
    | none => rfl
    | some q =>
      obtain ⟨p, children⟩ := q
      simp only [Option.bind_some, Option.pure_def, Option.map_some, State.tree, List.map_append,
        List.map_set, List.map_map]
      congr 3
      exact List.map_id'' (fun _ => rfl) children

/-- The reachable states are those of `forkingProxy` with descriptors. -/
theorem reachable_tree {first : Startup} {s : State} (h : (forkingFiles first).Reachable s) :
    ProcessTree.forkingProxy.Reachable s.tree := by
  refine System.Reachable.invariant (I := fun s => ProcessTree.forkingProxy.Reachable s.tree)
    ?_ (fun s a t hs ht => ?_) h
  · rintro s rfl
    exact ⟨_, [], tree_start first, rfl⟩
  · refine hs.step (a := a) ?_
    change ProcessTree.step s.tree a = some t.tree
    rw [← step_tree, show step s a = some t from ht, Option.map_some]

/-! ## The tables -/

namespace Table

variable {t : Table} {v w : Fd} {f g : File} {n : ℕ}

theorem held_alloc (t : Table) (v : Fd) (f : File) : (t.alloc v f).held v = some f := by
  simp [held, alloc]

theorem held_alloc_of_ne (h : t.held w = some g) (hw : w ≠ v) (f : File) :
    (t.alloc v f).held w = some g := by
  have hfd : (t.alloc v f).fd w = t.fd w := Function.update_of_ne hw _ _
  rw [held, hfd]
  exact t.files.get?_alloc_of_some f h

theorem held_close_of_ne (hv : t.held v = some f) (hw : t.held w = some g) (h : f ≠ g) :
    (t.close v).held w = some g := by
  have hfd : t.fd w ≠ t.fd v := fun heq => h <| by
    rw [held, heq] at hw
    exact Option.some.inj (hv.symm.trans hw)
  exact (t.files.get?_close_of_ne hfd).trans hw

theorem contents_alloc (t : Table) (v : Fd) (f : File) :
    (t.alloc v f).files.contents = f ::ₘ t.files.contents :=
  t.files.contents_alloc f

theorem contents_close (h : t.held v = some f) :
    t.files.contents = f ::ₘ (t.close v).files.contents :=
  t.files.contents_close h

/-- A call brings a socket or a log, or nothing. -/
theorem mem_apply {c : Call} (h : f ∈ (t.apply n c).files.contents) :
    f ∈ t.files.contents ∨ f = .server n ∨ f = .log := by
  have halloc : ∀ v g, f ∈ (t.alloc v g).files.contents → f ∈ t.files.contents ∨ f = g :=
    fun v g hf => by
      rw [contents_alloc] at hf
      exact (Multiset.mem_cons.1 hf).symm
  unfold apply at h
  split at h
  · exact (halloc _ _ h).imp_right .inl
  · exact (halloc _ _ h).imp_right .inr
  · exact (halloc _ _ h).imp_right .inr
  · exact .inl (t.files.mem_of_mem_close h)
  · exact .inl (t.files.mem_of_mem_close h)
  · exact .inl h

theorem applyAll_append (t : Table) (cs ds : List Call) :
    t.applyAll n (cs ++ ds) = (t.applyAll n cs).applyAll n ds :=
  List.foldl_append

theorem applyAll_relays {calls : List Call} (h : ∀ c ∈ calls, c.relays = true) (t : Table) :
    t.applyAll n calls = t := by
  induction calls generalizing t with
  | nil => rfl
  | cons c calls ih =>
    obtain ⟨hc, hcalls⟩ := List.forall_mem_cons.1 h
    have ht : t.apply n c = t := by
      cases c <;> first | rfl | cases hc
    exact (congrArg (fun u => applyAll n u calls) ht).trans (ih hcalls t)

/-- A child that serves a GET request to the end opens a socket and a log, and closes the log
and the client. -/
theorem applyAll_child {sc : Script} (h : Served sc) (t : Table) :
    t.applyAll n (NetCentric.child sc).calls =
      (((t.alloc .server (.server n)).alloc .log .log).close .log).close .client := by
  obtain ⟨l, a, request, total, h⟩ := h
  have hlog : (writeLog .process true (formatLogEntry sc.time sc.address a.url total)).calls =
      [.openLog true, .lockFile, .seekEnd, .write .log
        (formatLogEntry sc.time sc.address a.url total)
        (formatLogEntry sc.time sc.address a.url total).length, .unlockFile, .close .log] := by
    simp [writeLog, inArray, h.entry, orUndefined]
  simp only [NetCentric.child, h.calls, hlog, applyAll_append,
    applyAll_relays (Relays.relay _ _).calls]
  rfl

end Table

/-! ## The invariant -/

/-- The sockets to the origin servers of these connections. -/
def servers (lineage : List ℕ) : Multiset File :=
  lineage.map File.server

/-- The process has a listening socket, what the original parent had, and the sockets. -/
structure Rests (first : Startup) (t : Table) (lineage : List ℕ) : Prop where
  contents : t.files.contents = first.table.files.contents + servers lineage
  listening : t.held .proxy = some .listening

/-- It has a client besides. -/
structure Serves (first : Startup) (t : Table) (lineage : List ℕ) (n : ℕ) : Prop where
  contents : t.files.contents =
    .client n ::ₘ (first.table.files.contents + servers lineage)
  listening : t.held .proxy = some .listening
  client : t.held .client = some (.client n)

/-- A child : it has no client but its own and no sockets but those of its lineage, and if it
comes back to the loop it rests. -/
structure Handles (first : Startup) (x : Proc) (calls : List Call)
    (result : Except Ending Unit) : Prop where
  own : ∃ n l, x.lineage = n :: l ∧ x.process.forkedFor = some n
  client : ∀ n, .client n ∈ x.table.files.contents → x.process.forkedFor = some n
  server : ∀ n, .server n ∈ x.table.files.contents → n ∈ x.lineage
  rests : result = .ok () →
    Rests first (x.table.applyAll (x.lineage.headD 0) calls) x.lineage

/-- What a process has open. -/
def Keeps (first : Startup) (x : Proc) : Prop :=
  match x.process.pc with
  | .accept => Rests first x.table x.lineage
  | .fork n | .close n => Serves first x.table x.lineage n
  | .handling calls result => Handles first x calls result
  | .ended => x.table.files.contents = 0

variable {first : Startup} {x : Proc} {t : Table} {lineage : List ℕ} {n m : ℕ}

theorem not_client_mem (first : Startup) (lineage : List ℕ) (n : ℕ) :
    .client n ∉ first.table.files.contents + servers lineage := by
  rw [Multiset.mem_add, not_or]
  exact ⟨(first.fresh n).1, by simp [servers]⟩

theorem server_mem_iff : .server n ∈ first.table.files.contents + servers lineage ↔
    n ∈ lineage := by
  rw [Multiset.mem_add, or_iff_right (first.fresh n).2]
  simp [servers]

/-- `accept`. -/
theorem Rests.accept (h : Rests first t lineage) (n : ℕ) :
    Serves first (t.alloc .client (.client n)) lineage n where
  contents := by rw [Table.contents_alloc, h.contents]
  listening := Table.held_alloc_of_ne h.listening (by decide) _
  client := Table.held_alloc _ _ _

/-- The `close` of the client. -/
theorem Serves.close (h : Serves first t lineage n) :
    Rests first (t.close .client) lineage where
  contents := (Multiset.cons_inj_right _).1 ((Table.contents_close h.client).symm.trans h.contents)
  listening := Table.held_close_of_ne h.client h.listening nofun

/-- A socket to the origin server. -/
theorem Serves.socket (h : Serves first t lineage n) :
    Serves first (t.alloc .server (.server n)) (n :: lineage) n where
  contents := by
    rw [Table.contents_alloc, h.contents, Multiset.cons_swap, ← Multiset.add_cons]
    rfl
  listening := Table.held_alloc_of_ne h.listening (by decide) _
  client := Table.held_alloc_of_ne h.client (by decide) _

/-- The log is opened and closed again. -/
theorem Serves.log (h : Serves first t lineage n) :
    Serves first ((t.alloc .log .log).close .log) lineage n where
  contents := by
    have hclose := Table.contents_close (Table.held_alloc t .log .log)
    rw [Table.contents_alloc] at hclose
    rw [← (Multiset.cons_inj_right _).1 hclose, h.contents]
  listening := Table.held_close_of_ne (Table.held_alloc _ _ _)
    (Table.held_alloc_of_ne h.listening (by decide) _) nofun
  client := Table.held_close_of_ne (Table.held_alloc _ _ _)
    (Table.held_alloc_of_ne h.client (by decide) _) nofun

/-- The child that is forked for a client. -/
theorem Serves.child {sc : Script} (hx : Serves first x.table x.lineage n) :
    Keeps first (x.child (forked n sc)) where
  own := ⟨n, x.lineage, rfl, rfl⟩
  client m hm := by
    have hmem : .client m ∈ x.table.files.contents := hm
    rw [hx.contents, Multiset.mem_cons, or_iff_left (not_client_mem first _ _)] at hmem
    rw [File.client.inj hmem]
    rfl
  server m hm := by
    have hmem : .server m ∈ x.table.files.contents := hm
    rw [hx.contents, Multiset.mem_cons, or_iff_right nofun, server_mem_iff] at hmem
    exact List.mem_cons_of_mem _ hmem
  rests hok := by
    have hserved : Served sc := (handle_ok_iff (m := .process) (by decide) sc).1 hok
    change Rests first (x.table.applyAll n (NetCentric.child sc).calls) (n :: x.lineage)
    rw [Table.applyAll_child hserved]
    exact hx.socket.log.close

/-- A call of a child. -/
theorem Handles.call {c : Call} {calls : List Call} {result : Except Ending Unit}
    (h : Handles first x (c :: calls) result) :
    Handles first ⟨{ x.process with pc := .handling calls result },
      x.table.apply (x.lineage.headD 0) c, x.lineage⟩ calls result where
  own := h.own
  client m hm := h.client m <| (Table.mem_apply hm).resolve_right (by simp)
  server m hm := by
    obtain ⟨n, l, hlineage, -⟩ := h.own
    rcases Table.mem_apply hm with hmem | hn | hlog
    · exact h.server m hmem
    · rw [hlineage] at hn ⊢
      exact File.server.inj hn ▸ List.mem_cons_self
    · cases hlog
  rests := h.rests

/-- What a step does to the process that takes it, and to the children. -/
theorem Keeps.turn {next : ℕ} {e : Event} {p : Process} {children : List Process}
    (hx : Keeps first x) (h : ProcessTree.turn next x.process e = some (p, children)) :
    Keeps first ⟨p, x.after next e, x.lineage⟩ ∧ ∀ q ∈ children, Keeps first (x.child q) := by
  obtain ⟨⟨forkedFor, handled, pc⟩, t, lineage⟩ := x
  unfold ProcessTree.turn at h
  split at h <;> cases h
  case h_1 hpc =>
    obtain rfl : pc = .accept := hpc
    exact ⟨Rests.accept hx next, nofun⟩
  case h_2 hpc =>
    obtain rfl : pc = .accept := hpc
    exact ⟨FileTable.contents_empty, nofun⟩
  case h_3 client_fd sc hpc =>
    obtain rfl : pc = .fork client_fd := hpc
    refine ⟨hx, fun q hq => ?_⟩
    obtain rfl := List.mem_singleton.1 hq
    exact Serves.child hx
  case h_4 client_fd hpc =>
    obtain rfl : pc = .fork client_fd := hpc
    exact ⟨FileTable.contents_empty, nofun⟩
  case h_5 client_fd hpc =>
    obtain rfl : pc = .close client_fd := hpc
    exact ⟨Serves.close hx, nofun⟩
  case h_6 c calls result hpc =>
    obtain rfl : pc = .handling (c :: calls) result := hpc
    exact ⟨Handles.call hx, nofun⟩
  case h_7 u hpc =>
    obtain rfl : pc = .handling [] (.ok u) := hpc
    exact ⟨Handles.rests hx rfl, nofun⟩
  case h_8 status hpc =>
    obtain rfl : pc = .handling [] (.error (.exit status)) := hpc
    exact ⟨FileTable.contents_empty, nofun⟩

/-! ## The runs -/

variable {s t : State} {i : ℕ} {e : Event}

theorem step_cases (h : step s (i, e) = some t) :
    ∃ x p children, s.procs[i]? = some x ∧ turn s.next x.process e = some (p, children) ∧
      t.procs = s.procs.set i ⟨p, x.after s.next e, x.lineage⟩ ++ children.map x.child := by
  simp only [step, Option.bind_eq_bind, Option.bind_eq_some_iff] at h
  obtain ⟨x, hx, ⟨p, children⟩, hturn, ht⟩ := h
  obtain rfl := Option.some.inj ht
  exact ⟨x, p, children, hx, hturn, rfl⟩

/-- What holds of each process. -/
structure Inv (first : Startup) (x : Proc) : Prop where
  keeps : Keeps first x
  lineage : x.lineage.head? = x.process.forkedFor

theorem inv_of_reachable (h : (forkingFiles first).Reachable s) : ∀ x ∈ s.procs, Inv first x := by
  refine System.Reachable.invariant (I := fun s => ∀ x ∈ s.procs, Inv first x) ?_
    (fun s a t hI hstep y hy => ?_) h
  · rintro s rfl x hx
    obtain rfl := List.mem_singleton.1 hx
    have hrests : Rests first first.table [] :=
      ⟨(Multiset.add_zero _).symm, first.listening⟩
    exact ⟨hrests, rfl⟩
  · obtain ⟨i, e⟩ := a
    obtain ⟨x, p, children, hx, hturn, hprocs⟩ := step_cases hstep
    have hxI := hI x (List.mem_of_getElem? hx)
    obtain ⟨hself, hchild⟩ := hxI.keeps.turn hturn
    rw [hprocs] at hy
    rcases List.mem_append.1 hy with hy | hy
    · rcases List.mem_or_eq_of_mem_set hy with hy | rfl
      · exact hI y hy
      · exact ⟨hself, hxI.lineage.trans (ProcessTree.turn_self hturn).1.symm⟩
    · obtain ⟨q, hq, rfl⟩ := List.mem_map.1 hy
      refine ⟨hchild q hq, ?_⟩
      rcases ProcessTree.turn_children hturn with ⟨rfl, -⟩ | ⟨client_fd, sc, -, rfl⟩
      · cases hq
      · obtain rfl := List.mem_singleton.1 hq
        rfl

theorem Serves.of_client_mem {t : Table} (h : Serves first t lineage n)
    (hm : .client m ∈ t.files.contents) : m = n := by
  rw [h.contents, Multiset.mem_cons, or_iff_left (not_client_mem first _ _)] at hm
  exact File.client.inj hm

theorem Serves.of_server_mem {t : Table} (h : Serves first t lineage n)
    (hm : .server m ∈ t.files.contents) : m ∈ lineage := by
  rwa [h.contents, Multiset.mem_cons, or_iff_right nofun, server_mem_iff] at hm

/-- Where a client is open. -/
theorem Keeps.client (h : Keeps first x) (hm : .client m ∈ x.table.files.contents) :
    x.process.pc = .fork m ∨ x.process.pc = .close m ∨
      x.process.forkedFor = some m ∧ ∃ calls result, x.process.pc = .handling calls result := by
  unfold Keeps at h
  split at h
  case h_1 =>
    rw [h.contents] at hm
    exact absurd hm (not_client_mem first _ m)
  case h_2 hpc => exact .inl (h.of_client_mem hm ▸ hpc)
  case h_3 hpc => exact .inr (.inl (h.of_client_mem hm ▸ hpc))
  case h_4 calls result hpc => exact .inr (.inr ⟨h.client m hm, calls, result, hpc⟩)
  case h_5 =>
    rw [h] at hm
    exact absurd hm (Multiset.notMem_zero _)

/-- Where a socket is open. -/
theorem Keeps.server (h : Keeps first x) (hm : .server m ∈ x.table.files.contents) :
    m ∈ x.lineage := by
  unfold Keeps at h
  split at h
  case h_1 => rwa [h.contents, server_mem_iff] at hm
  case h_2 => exact h.of_server_mem hm
  case h_3 => exact h.of_server_mem hm
  case h_4 => exact h.server m hm
  case h_5 =>
    rw [h] at hm
    exact absurd hm (Multiset.notMem_zero _)

/-- In every reachable state, a process at `accept` listens, and has open what the original
parent had and the sockets of its lineage, each once. A client is open only in a process that
is about to fork for it or to close it, or in a child that was forked for it and makes its
calls, a socket only in a process whose lineage has its connection, and a process that has
ended has nothing open. The lineage starts with what the process was forked for, and that of
the original parent is empty. -/
theorem inherited (h : (forkingFiles first).Reachable s) {x : Proc} (hx : x ∈ s.procs) :
    (x.process.pc = .accept → x.table.held .proxy = some .listening ∧
      x.table.files.contents = first.table.files.contents + servers x.lineage) ∧
    (∀ n, .client n ∈ x.table.files.contents →
      x.process.pc = .fork n ∨ x.process.pc = .close n ∨
        x.process.forkedFor = some n ∧ ∃ calls result, x.process.pc = .handling calls result) ∧
    (∀ n, .server n ∈ x.table.files.contents → n ∈ x.lineage) ∧
    (x.process.pc = .ended → x.table.files.contents = 0) ∧
    x.lineage.head? = x.process.forkedFor := by
  obtain ⟨hkeeps, hlineage⟩ := inv_of_reachable h x hx
  refine ⟨fun hpc => ?_, fun n => hkeeps.client, fun n => hkeeps.server, fun hpc => ?_, hlineage⟩
  · have hrests : Rests first x.table x.lineage := by simpa only [Keeps, hpc] using hkeeps
    exact ⟨hrests.listening, hrests.contents⟩
  · simpa only [Keeps, hpc] using hkeeps

/-- Behind standard input, output and error the first free descriptor is `3`. -/
def startup : Startup where
  table := ⟨⟨[some (.other 0), some (.other 1), some (.other 2), some .listening]⟩,
    fun v => if v = .proxy then 3 else 0⟩
  listening := rfl
  fresh n := by simp [FileTable.contents, List.reduceOption]

/-- The child of a GET request comes back to `accept`, and forks a child of its own. -/
def leakRun : List (ℕ × Event) :=
  [(0, .accept), (0, .fork (quietScript keepAliveRequest.text)), (0, .close)] ++
    (List.replicate 15 (1, .call) ++
      [(1, .finish), (1, .accept), (1, .fork silentClient), (1, .close)])

/-- It keeps its socket, and its child has it from the start. -/
theorem inherited_leak : ∃ s x y, (forkingFiles startup).run (start startup) leakRun = some s ∧
    s.procs[1]? = some x ∧ s.procs[2]? = some y ∧
    x.table.files.contents = startup.table.files.contents + servers [0] ∧
    .server 0 ∈ y.table.files.contents ∧ 0 ∈ y.lineage := by
  obtain ⟨s, hs⟩ : ∃ s, (forkingFiles startup).run (start startup) leakRun = some s := ⟨_, rfl⟩
  obtain ⟨x, hx, hpc, hlineage⟩ : ∃ x, s.procs[1]? = some x ∧ x.process.pc = .accept ∧
      x.lineage = [0] := by
    obtain rfl := Option.some.inj hs
    exact ⟨_, rfl, rfl, rfl⟩
  obtain ⟨y, hy, hmem⟩ : ∃ y, s.procs[2]? = some y ∧ .server 0 ∈ y.table.files.contents := by
    obtain rfl := Option.some.inj hs
    exact ⟨_, rfl, by decide⟩
  have hreach : (forkingFiles startup).Reachable s := ⟨_, _, rfl, hs⟩
  obtain ⟨haccept, -⟩ := inherited hreach (List.mem_of_getElem? hx)
  obtain ⟨-, -, hserver, -⟩ := inherited hreach (List.mem_of_getElem? hy)
  exact ⟨s, x, y, hs, hx, hy, by rw [(haccept hpc).2, hlineage], hmem, hserver 0 hmem⟩

/-! ## The sockets that are kept -/

/-- A process can take a step that `turn` allows. -/
theorem exists_step {x : Proc} {p : Process} {children : List Process}
    (hx : s.procs[i]? = some x) (h : turn s.next x.process e = some (p, children)) :
    ∃ t, step s (i, e) = some t ∧
      t.procs = s.procs.set i ⟨p, x.after s.next e, x.lineage⟩ ++ children.map x.child := by
  have hstep : ∃ t, step s (i, e) = some t := by
    simp only [step, Option.bind_eq_bind, hx, Option.bind_some, h]
    exact ⟨_, rfl⟩
  obtain ⟨t, ht⟩ := hstep
  obtain ⟨y, q, cs, hy, hturn, hprocs⟩ := step_cases ht
  obtain rfl := Option.some.inj (hx.symm.trans hy)
  obtain ⟨rfl, rfl⟩ := Prod.mk.inj (Option.some.inj (h.symm.trans hturn))
  exact ⟨t, ht, hprocs⟩

theorem getElem?_set_append {ps qs : List Proc} {x y : Proc} (h : ps[i]? = some x) :
    (ps.set i y ++ qs)[i]? = some y := by
  obtain ⟨hi, -⟩ := List.getElem?_eq_some_iff.1 h
  rw [List.getElem?_append_left (by simpa using hi), List.getElem?_set_self hi]

/-- A step of a process, and where it is then. -/
theorem exists_reachable {x : Proc} {p : Process} {children : List Process}
    (hs : (forkingFiles first).Reachable s) (hx : s.procs[i]? = some x)
    (h : turn s.next x.process e = some (p, children)) :
    ∃ t table, (forkingFiles first).Reachable t ∧ t.procs[i]? = some ⟨p, table, x.lineage⟩ := by
  obtain ⟨t, ht, hprocs⟩ := exists_step hx h
  exact ⟨t, _, hs.step ht, by rw [hprocs, getElem?_set_append hx]⟩

/-- A child that serves its connection to the end comes to `accept`. -/
theorem exists_served {calls : List Call} {u : Unit} {forkedFor : Option ℕ} {handled : List ℕ}
    {table : Table} (hs : (forkingFiles first).Reachable s)
    (hx : s.procs[i]? = some ⟨⟨forkedFor, handled, .handling calls (.ok u)⟩, table, lineage⟩) :
    ∃ t table, (forkingFiles first).Reachable t ∧
      t.procs[i]? = some ⟨⟨forkedFor, handled, .accept⟩, table, lineage⟩ := by
  induction calls generalizing s table with
  | nil => exact exists_reachable (e := .finish) hs hx rfl
  | cons c calls ih =>
    obtain ⟨t, table', ht, hy⟩ := exists_reachable (e := .call) hs hx rfl
    exact ih ht hy

/-- The run forks a child for the connection `n`, whose GET request is served to the end. -/
def ServedIn (first : Startup) (as : List (ℕ × Event)) (n : ℕ) : Prop :=
  ∃ t i x sc, (forkingFiles first).Takes (start first) as t (i, .fork sc) ∧
    t.procs[i]? = some x ∧ x.process.pc = .fork n ∧ Served sc

/-- A process in the loop was forked, with its ancestors, for connections of `served`. -/
def Descends (served : ℕ → Prop) (x : Proc) : Prop :=
  x.process.pc.InLoop → ∀ n ∈ x.lineage, served n

/-- The child of a connection that is served descends as its parent does. -/
theorem Descends.child {served : ℕ → Prop} {sc : Script} (hx : Descends served x)
    (hpc : x.process.pc = .fork n) (hn : Served sc → served n) :
    Descends served (x.child (forked n sc)) := by
  intro hin
  have hserved : Served sc := (ProcessTree.forked_inLoop_iff n sc).1 hin
  have hrest : ∀ k ∈ x.lineage, served k := hx (by rw [hpc]; trivial)
  intro k hk
  rcases List.mem_cons.1 hk with rfl | hk
  · exact hn hserved
  · exact hrest k hk

/-- The children of a step, and the connection that they are forked for. -/
theorem turn_fork {next : ℕ} {p p' q : Process} {children : List Process}
    (h : turn next p e = some (p', children)) (hq : q ∈ children) :
    ∃ n sc, e = .fork sc ∧ p.pc = .fork n ∧ q = forked n sc := by
  obtain ⟨forkedFor, handled, pc⟩ := p
  unfold ProcessTree.turn at h
  split at h <;> cases h
  case h_3 client_fd sc hpc => exact ⟨client_fd, sc, rfl, hpc, List.mem_singleton.1 hq⟩
  all_goals cases hq

/-- A step keeps it so, if the connection of a child that serves it is one of `served`. -/
theorem descends_step {served : ℕ → Prop} (h : step s (i, e) = some t)
    (hs : ∀ x ∈ s.procs, Descends served x)
    (hserved : ∀ x n sc, e = .fork sc → s.procs[i]? = some x → x.process.pc = .fork n →
      Served sc → served n) : ∀ x ∈ t.procs, Descends served x := by
  obtain ⟨x, p, children, hx, hturn, hprocs⟩ := step_cases h
  have hxD := hs x (List.mem_of_getElem? hx)
  rw [hprocs]
  intro y hy
  rcases List.mem_append.1 hy with hy | hy
  · rcases List.mem_or_eq_of_mem_set hy with hy | rfl
    · exact hs y hy
    · exact fun hin => hxD ((ProcessTree.turn_self hturn).2.2.1.1 hin).1
  · obtain ⟨q, hq, rfl⟩ := List.mem_map.1 hy
    obtain ⟨n, sc, rfl, hpc, rfl⟩ := turn_fork hturn hq
    exact hxD.child hpc (hserved x n sc rfl hx hpc)

/-- The connections in the lineage of a process at `accept` were served to the end. -/
theorem lineage_served {as : List (ℕ × Event)}
    (h : (forkingFiles first).run (start first) as = some s) {x : Proc} (hx : x ∈ s.procs)
    (hpc : x.process.pc = .accept) : ∀ n ∈ x.lineage, ServedIn first as n := by
  have hall : ∀ x ∈ s.procs, Descends (ServedIn first as) x := by
    refine System.visits_invariant (I := fun s => ∀ x ∈ s.procs, Descends (ServedIn first as) x)
      (P := fun t a => (forkingFiles first).Takes (start first) as t a) (fun t a u ht ha hu => ?_)
      ?_ (fun _ _ ha => ha) (System.visits_last h)
    · obtain ⟨j, e⟩ := a
      refine descends_step hu ht fun x n sc he hx hpc hserved => ?_
      subst he
      exact ⟨t, j, x, sc, ha, hx, hpc, hserved⟩
    · intro x hx
      obtain rfl := List.mem_singleton.1 hx
      exact fun _ _ hn => (by cases hn)
  exact hall x hx (by rw [hpc]; trivial)

/-- There is no bound on the sockets that a process at `accept` keeps : beside what the
original parent had it keeps one for each connection of its lineage, each of which was
served to the end. -/
theorem sockets_pile_up (first : Startup) (k : ℕ) :
    ∃ as s x, (forkingFiles first).run (start first) as = some s ∧ x ∈ s.procs ∧
      x.process.pc = .accept ∧ x.lineage.length = k ∧
      x.table.files.contents = first.table.files.contents + servers x.lineage ∧
      ∀ n ∈ x.lineage, ServedIn first as n := by
  have hlong : ∃ (s : State) (i : ℕ) (forkedFor : Option ℕ) (handled : List ℕ) (table : Table)
      (lineage : List ℕ), (forkingFiles first).Reachable s ∧
      s.procs[i]? = some ⟨⟨forkedFor, handled, .accept⟩, table, lineage⟩ ∧
        lineage.length = k := by
    induction k with
    | zero => exact ⟨start first, 0, none, [], first.table, [], ⟨_, [], rfl, rfl⟩, rfl, rfl⟩
    | succ k ih =>
      obtain ⟨s, i, forkedFor, handled, table, lineage, hs, hx, hlength⟩ := ih
      obtain ⟨t, table', ht, hy⟩ := exists_reachable (e := .accept) hs hx rfl
      -- the child serves a GET request to the end
      obtain ⟨v, hv, hprocs⟩ :=
        exists_step (e := .fork (quietScript keepAliveRequest.text)) hy rfl
      have hok := (handle_ok_iff (m := .process) (by decide) _).2 ProcessTree.served_keepAlive
      have hchild : v.procs[t.procs.length]? = some ⟨⟨some s.next, [s.next], .handling
          (child (quietScript keepAliveRequest.text)).calls (.ok ())⟩, table',
            s.next :: lineage⟩ := by
        rw [hprocs, List.getElem?_append_right (by simp)]
        simp [Proc.child, forked, child, hok]
      obtain ⟨w, table'', hw, hz⟩ := exists_served (ht.step hv) hchild
      exact ⟨w, _, _, _, _, _, hw, hz, by rw [List.length_cons, hlength]⟩
  obtain ⟨s, i, forkedFor, handled, table, lineage, ⟨_, as, rfl, hrun⟩, hx, hlength⟩ := hlong
  have hmem := List.mem_of_getElem? hx
  have hrests : Rests first table lineage :=
    (inv_of_reachable ⟨_, as, rfl, hrun⟩ _ hmem).keeps
  exact ⟨as, s, _, hrun, hmem, rfl, hlength, hrests.contents, lineage_served hrun hmem rfl⟩

end InheritedFiles

end NetCentric
