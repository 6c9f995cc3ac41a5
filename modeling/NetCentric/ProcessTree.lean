import NetCentric.SentRequest
import NetCentric.Transition
import NetCentric.Undefined

/-!
# The processes of the forking proxy

The processes of `proxy -p`, numbered as they are forked, the original parent being `0`.
A process is in the loop, at `accept`, at `fork` or at the `close` after it, or it is a
child that makes the calls of `child`. A child that reaches the end of its body is back
in the loop, for it falls through to the parent's `close` (`turn`). Any process that is
at `accept` may take the next connection.

`one_acceptor_iff` : in all states of a run exactly the original parent can come to
`accept`, and each child handles the one connection it was forked for and is gone after
finitely many steps (`Exits`), if and only if no `accept` or `fork` fails and no child is
forked for a connection that is a GET request served to the end, keeps it waiting, or makes
it do what is undefined.
-/

namespace NetCentric

namespace ProcessTree

/-- Where a process is. `client_fd` is the number of a connection. -/
inductive Pc
  | accept
  | fork (client_fd : ℕ)
  /-- The parent, at the `close` after `fork`. -/
  | close (client_fd : ℕ)
  /-- A child with the calls it has yet to make, and what they come to. -/
  | handling (calls : List Call) (result : Except Ending Unit)
  | ended

/-- One process. -/
structure Process where
  /-- The connection the process was forked for. -/
  forkedFor : Option ℕ
  /-- The connections the process has handled. -/
  handled : List ℕ
  pc : Pc

/-- What a process does next. -/
inductive Event
  | accept
  | acceptFails
  /-- `fork`, the child meeting `sc`. -/
  | fork (sc : Script)
  | forkFails
  | close
  /-- The child makes a call. -/
  | call
  /-- The child comes to the end of its calls. -/
  | finish

/-- The child that `fork` makes. -/
def forked (client_fd : ℕ) (sc : Script) : Process where
  forkedFor := some client_fd
  handled := [client_fd]
  pc := .handling (child sc).calls (child sc).result

/-- A process takes a step : what becomes of it, and the child it forks. -/
def turn (next : ℕ) (p : Process) (e : Event) : Option (Process × List Process) :=
  match p.pc, e with
  | .accept, .accept => some ({ p with pc := .fork next }, [])
  | .accept, .acceptFails => some ({ p with pc := .ended }, [])
  | .fork client_fd, .fork sc => some ({ p with pc := .close client_fd }, [forked client_fd sc])
  | .fork _, .forkFails => some ({ p with pc := .ended }, [])
  | .close _, .close => some ({ p with pc := .accept }, [])
  | .handling (_ :: calls) result, .call => some ({ p with pc := .handling calls result }, [])
  -- the end of the loop body
  | .handling [] (.ok _), .finish => some ({ p with pc := .accept }, [])
  | .handling [] (.error (.exit _)), .finish => some ({ p with pc := .ended }, [])
  -- a child that waits stays where it is, and nothing is said of one that does what is undefined
  | _, _ => none

/-- The processes, and the number of the next connection. -/
structure State where
  procs : List Process
  next : ℕ

/-- The original parent before its first `accept`. -/
def start : State where
  procs := [⟨none, [], .accept⟩]
  next := 0

/-- Process `a.1` takes the step `a.2`. -/
def step (s : State) (a : ℕ × Event) : Option State := do
  let p ← s.procs[a.1]?
  let (p, children) ← turn s.next p a.2
  let next := match a.2 with
    | .accept => s.next + 1
    | _ => s.next
  return ⟨s.procs.set a.1 p ++ children, next⟩

/-- The forking proxy. -/
def forkingProxy : System State (ℕ × Event) where
  Init s := s = start
  step := step

/-! ## What a step can do -/

/-- The process is in the loop or comes back to it. -/
def Pc.InLoop : Pc → Prop
  | .accept | .fork _ | .close _ => True
  | .handling _ result => result.isOk
  | .ended => False

/-- The process is gone, or it is a child that comes to an `exit`. -/
def Pc.ToExit : Pc → Prop
  | .handling _ (.error (.exit _)) | .ended => True
  | _ => False

theorem Pc.toExit_handling {calls : List Call} {result : Except Ending Unit} :
    (Pc.handling calls result).ToExit ↔ ∃ status, result = .error (.exit status) := by
  rcases result with (status | _ | _ | _) | _ <;> simp [ToExit]

/-- The process is gone after finitely many steps of its own, on every path. -/
inductive Exits : Process → Prop
  | ended {p : Process} : p.pc = .ended → Exits p
  | step {p : Process} : (∃ next e q, turn next p e = some q) →
      (∀ next e p' children, turn next p e = some (p', children) → Exits p') → Exits p

theorem Exits.turn {next : ℕ} {p p' : Process} {e : Event} {children : List Process}
    (h : Exits p) (hturn : turn next p e = some (p', children)) : Exits p' := by
  cases h with
  | ended hpc =>
    obtain ⟨forkedFor, handled, pc⟩ := p
    obtain rfl : pc = .ended := hpc
    cases e <;> cases hturn
  | step _ hall => exact hall _ _ _ _ hturn

/-- The processes that exit are the children that come to an `exit`. -/
theorem exits_iff {p : Process} : Exits p ↔ p.pc.ToExit := by
  constructor
  · intro h
    induction h with
    | ended hpc =>
      rw [hpc]
      trivial
    | @step p hstep _ ih =>
      obtain ⟨forkedFor, handled, pc⟩ := p
      cases pc with
      | accept => exact (ih 0 .accept _ _ rfl).elim
      | fork client_fd => exact (ih 0 (.fork silentClient) _ _ rfl).elim
      | close client_fd => exact (ih 0 .close _ _ rfl).elim
      | ended => trivial
      | handling calls result =>
        cases calls with
        | cons c calls =>
          have hrest := ih 0 .call ⟨forkedFor, handled, .handling calls result⟩ [] rfl
          exact Pc.toExit_handling.2 (Pc.toExit_handling.1 hrest)
        | nil =>
          cases result with
          | ok u => exact (ih 0 .finish _ _ rfl).elim
          | error e =>
            obtain ⟨next, e', q, hq⟩ := hstep
            cases e with
            | exit status => trivial
            | _ => cases e' <;> cases hq
  · obtain ⟨forkedFor, handled, pc⟩ := p
    intro h
    cases pc with
    | ended => exact .ended rfl
    | handling calls result =>
      obtain ⟨status, rfl⟩ := Pc.toExit_handling.1 h
      clear h
      induction calls with
      | nil =>
        refine .step ⟨0, .finish, _, rfl⟩ fun next e p' children hturn => ?_
        cases e <;> cases hturn
        exact .ended rfl
      | cons c calls ih =>
        refine .step ⟨0, .call, _, rfl⟩ fun next e p' children hturn => ?_
        cases e <;> cases hturn
        exact ih
    | _ => exact h.elim

/-- `accept` or `fork` fails. -/
def Event.Fails : Event → Prop
  | .acceptFails | .forkFails => True
  | _ => False

/-- A process keeps what it was forked for and what it handled. It is in the loop after
the step if it was before, unless a call of the loop fails. -/
theorem turn_self {next : ℕ} {p p' : Process} {e : Event} {children : List Process}
    (h : turn next p e = some (p', children)) :
    p'.forkedFor = p.forkedFor ∧ p'.handled = p.handled ∧
      (p'.pc.InLoop ↔ p.pc.InLoop ∧ ¬e.Fails) ∧ (e.Fails → p.pc.InLoop) := by
  obtain ⟨forkedFor, handled, pc⟩ := p
  unfold turn at h
  split at h <;> cases h <;> simp_all [Pc.InLoop, Event.Fails, Except.isOk, Except.toBool]

/-- Only `fork` makes a process, and it makes one. -/
theorem turn_children {next : ℕ} {p p' : Process} {e : Event} {children : List Process}
    (h : turn next p e = some (p', children)) :
    children = [] ∧ (∀ sc, e ≠ .fork sc) ∨
      ∃ client_fd sc, e = .fork sc ∧ children = [forked client_fd sc] := by
  unfold turn at h
  split at h <;> cases h
  case h_3 => exact .inr ⟨_, _, rfl, rfl⟩
  all_goals exact .inl ⟨rfl, fun sc => by simp⟩

/-- One step : the process that takes it, and the other ones. -/
theorem step_cases {s t : State} {i : ℕ} {e : Event} (h : step s (i, e) = some t) :
    ∃ p p' children, s.procs[i]? = some p ∧ turn s.next p e = some (p', children) ∧
      t.procs[i]? = some p' ∧ (∀ j < s.procs.length, j ≠ i → t.procs[j]? = s.procs[j]?) ∧
      t.procs.length = s.procs.length + children.length ∧
      ∀ j q, t.procs[s.procs.length + j]? = some q → q ∈ children := by
  simp only [step, Option.bind_eq_bind, Option.bind_eq_some_iff] at h
  obtain ⟨p, hp, ⟨p', children⟩, hturn, ht⟩ := h
  obtain rfl := Option.some.inj ht
  obtain ⟨hi, -⟩ := List.getElem?_eq_some_iff.1 hp
  refine ⟨p, p', children, hp, hturn, ?_, fun j hj hij => ?_, by simp, fun j q hq => ?_⟩
  · rw [List.getElem?_append_left (by simpa using hi), List.getElem?_set_self hi]
  · rw [List.getElem?_append_left (by simpa using hj), List.getElem?_set_ne (Ne.symm hij)]
  · rw [List.getElem?_append_right (by simp)] at hq
    exact List.mem_of_getElem? hq

/-! ## Coming to accept -/

/-- The process `i` exists, and in some run from here it comes to `accept`. -/
def CanAccept (s : State) (i : ℕ) : Prop :=
  i < s.procs.length ∧
    ∃ as t p, forkingProxy.run s as = some t ∧ t.procs[i]? = some p ∧ p.pc = .accept

/-- A process that is out of the loop does not come to `accept`. -/
theorem run_not_inLoop {s t : State} {i : ℕ} {as : List (ℕ × Event)}
    (hs : ∃ p, s.procs[i]? = some p ∧ ¬p.pc.InLoop) (h : forkingProxy.run s as = some t) :
    ∃ p, t.procs[i]? = some p ∧ ¬p.pc.InLoop := by
  refine System.run_invariant (I := fun s => ∃ p, s.procs[i]? = some p ∧ ¬p.pc.InLoop)
    (fun s a t hs ht => ?_) hs h
  obtain ⟨p, hp, hout⟩ := hs
  obtain ⟨j, e⟩ := a
  obtain ⟨q, q', children, hq, hturn, hq', hothers, -⟩ := step_cases ht
  by_cases hij : i = j
  · subst hij
    obtain rfl := Option.some.inj (hp.symm.trans hq)
    exact ⟨q', hq', fun h => hout ((turn_self hturn).2.2.1.1 h).1⟩
  · obtain ⟨hi, -⟩ := List.getElem?_eq_some_iff.1 hp
    exact ⟨p, by rw [hothers i hi hij, hp], hout⟩

/-- One step of the process itself on its way to `accept`. -/
theorem CanAccept.of_step {s : State} {i : ℕ} {e : Event} {p p' : Process}
    {children : List Process} (hp : s.procs[i]? = some p)
    (hturn : turn s.next p e = some (p', children))
    (h : ∀ t, t.procs[i]? = some p' → CanAccept t i) : CanAccept s i := by
  have hstep : ∃ t, step s (i, e) = some t := by
    simp only [step, Option.bind_eq_bind, hp, Option.bind_some, hturn]
    exact ⟨_, rfl⟩
  obtain ⟨t, ht⟩ := hstep
  obtain ⟨q, q', children', hq, hturn', hq', -⟩ := step_cases ht
  obtain rfl := Option.some.inj (hp.symm.trans hq)
  obtain ⟨rfl, -⟩ := Prod.mk.inj (Option.some.inj (hturn.symm.trans hturn'))
  obtain ⟨-, as, u, r, hrun, hr⟩ := h t hq'
  obtain ⟨hi, -⟩ := List.getElem?_eq_some_iff.1 hp
  exact ⟨hi, (i, e) :: as, u, r, forkingProxy.run_cons_eq_some.2 ⟨t, ht, hrun⟩, hr⟩

theorem canAccept_of_accept {s : State} {i : ℕ} {p : Process} (hp : s.procs[i]? = some p)
    (hpc : p.pc = .accept) : CanAccept s i :=
  ⟨(List.getElem?_eq_some_iff.1 hp).1, [], s, p, rfl, hp, hpc⟩

theorem canAccept_of_close {s : State} {i client_fd : ℕ} {p : Process}
    (hp : s.procs[i]? = some p) (hpc : p.pc = .close client_fd) : CanAccept s i := by
  obtain ⟨forkedFor, handled, pc⟩ := p
  obtain rfl : pc = .close client_fd := hpc
  exact .of_step (e := .close) hp rfl fun t ht => canAccept_of_accept ht rfl

theorem canAccept_of_fork {s : State} {i client_fd : ℕ} {p : Process}
    (hp : s.procs[i]? = some p) (hpc : p.pc = .fork client_fd) : CanAccept s i := by
  obtain ⟨forkedFor, handled, pc⟩ := p
  obtain rfl : pc = .fork client_fd := hpc
  exact .of_step (e := .fork silentClient) hp rfl fun t ht => canAccept_of_close ht rfl

/-- A child that comes to the end of its body makes the calls that are left first. -/
theorem canAccept_of_handling {s : State} {i : ℕ} {p : Process} {calls : List Call} {u : Unit}
    (hp : s.procs[i]? = some p) (hpc : p.pc = .handling calls (.ok u)) : CanAccept s i := by
  induction calls generalizing s p with
  | nil =>
    obtain ⟨forkedFor, handled, pc⟩ := p
    obtain rfl : pc = .handling [] (.ok u) := hpc
    exact .of_step (e := .finish) hp rfl fun t ht => canAccept_of_accept ht rfl
  | cons c calls ih =>
    obtain ⟨forkedFor, handled, pc⟩ := p
    obtain rfl : pc = .handling (c :: calls) (.ok u) := hpc
    exact .of_step (e := .call) hp rfl fun t ht => ih ht rfl

/-- The processes that can come to `accept` are the ones in the loop. -/
theorem canAccept_iff {s : State} {i : ℕ} :
    CanAccept s i ↔ ∃ p, s.procs[i]? = some p ∧ p.pc.InLoop := by
  constructor
  · rintro ⟨hi, as, t, q, hrun, hq, hacc⟩
    refine ⟨s.procs[i], List.getElem?_eq_getElem hi, ?_⟩
    by_contra hout
    obtain ⟨q', hq', hout'⟩ := run_not_inLoop ⟨_, List.getElem?_eq_getElem hi, hout⟩ hrun
    obtain rfl := Option.some.inj (hq.symm.trans hq')
    rw [hacc] at hout'
    exact hout' trivial
  · rintro ⟨p, hp, hin⟩
    cases hpc : p.pc with
    | accept => exact canAccept_of_accept hp hpc
    | fork client_fd => exact canAccept_of_fork hp hpc
    | close client_fd => exact canAccept_of_close hp hpc
    | handling calls result =>
      rw [hpc] at hin
      cases result with
      | ok u => exact canAccept_of_handling hp hpc
      | error e => exact absurd hin (by simp [Pc.InLoop, Except.isOk, Except.toBool])
    | ended =>
      rw [hpc] at hin
      exact hin.elim

/-! ## One acceptor -/

/-- The original parent and no other process can come to `accept`, and each child handles
the connection it was forked for and exits. -/
structure OneAcceptor (s : State) : Prop where
  acceptor : ∀ i, CanAccept s i ↔ i = 0
  own : ∀ i p, s.procs[i]? = some p → i ≠ 0 → ∃ client_fd, p.forkedFor = some client_fd ∧
    p.handled = [client_fd] ∧ Exits p

/-- No `accept` or `fork` fails, and the child that is forked does not serve a GET request
to the end, does nothing undefined, and does not wait for ever. -/
def Allowed : Event → Prop
  | .acceptFails | .forkFails => False
  | .fork sc => ¬Served sc ∧ ¬Undefined .process sc ∧ ¬Waits .process sc
  | _ => True

theorem Allowed.not_fails {e : Event} (h : Allowed e) : ¬e.Fails := by
  cases e <;> simp_all [Allowed, Event.Fails]

/-- A child comes back to the loop if it serves a GET request to the end, and only then. -/
theorem forked_inLoop_iff (client_fd : ℕ) (sc : Script) :
    (forked client_fd sc).pc.InLoop ↔ Served sc := by
  rw [← handle_ok_iff (m := .process) (by decide) sc]
  change (child sc).result.isOk = true ↔ (child sc).result = .ok ()
  cases (child sc).result <;> simp [Except.isOk, Except.toBool]

/-- A child exits unless it comes back to the loop, does what is undefined, or waits. -/
theorem forked_exits_iff (client_fd : ℕ) (sc : Script) : Exits (forked client_fd sc) ↔
    ¬Served sc ∧ ¬Undefined .process sc ∧ ¬Waits .process sc := by
  rw [exits_iff, ← handle_ok_iff (m := .process) (by decide) sc, ← handle_undefined_iff,
    ← handle_blocked_iff]
  change Pc.ToExit (.handling (child sc).calls (child sc).result) ↔
    (child sc).result ≠ .ok () ∧ (child sc).result ≠ .error .undefined ∧
      (child sc).result ≠ .error .blocked
  cases hr : (child sc).result with
  | ok u => simp [Pc.ToExit]
  | error e =>
    by_cases he : Mode.process.Ends e
    · rcases he with rfl | rfl <;> simp [Pc.ToExit, Mode.ending]
    · rcases (handle_error_iff he).1 hr with ⟨rfl, -⟩ | ⟨rfl, -⟩ <;> simp [Pc.ToExit]

theorem oneAcceptor_start : OneAcceptor start := by
  have hnone : ∀ i p, start.procs[i]? = some p → i = 0 := fun i p hp => by
    have hi := (List.getElem?_eq_some_iff.1 hp).1
    simpa [start] using hi
  refine ⟨fun i => ⟨fun h => ?_, fun h => ?_⟩, fun i p hp hi => absurd (hnone i p hp) hi⟩
  · obtain ⟨p, hp, -⟩ := canAccept_iff.1 h
    exact hnone i p hp
  · subst h
    exact canAccept_of_accept (p := ⟨none, [], .accept⟩) rfl rfl

/-- An allowed step keeps it so. -/
theorem OneAcceptor.step {s t : State} {a : ℕ × Event} (hI : OneAcceptor s) (ha : Allowed a.2)
    (h : ProcessTree.step s a = some t) : OneAcceptor t := by
  obtain ⟨i, e⟩ := a
  obtain ⟨p, p', children, hp, hturn, hp', hothers, -, hnew⟩ := step_cases h
  obtain ⟨hfor, hhandled, hloop, -⟩ := turn_self hturn
  have hchild : ∀ j q, t.procs[j]? = some q → s.procs.length ≤ j →
      ∃ client_fd sc, Allowed (.fork sc) ∧ q = forked client_fd sc := fun j q hq hj => by
    obtain ⟨k, rfl⟩ := Nat.exists_eq_add_of_le hj
    rcases turn_children hturn with ⟨rfl, -⟩ | ⟨client_fd, sc, rfl, rfl⟩
    · exact absurd (hnew k q hq) (by simp)
    · exact ⟨client_fd, sc, ha, List.mem_singleton.1 (hnew k q hq)⟩
  refine ⟨fun j => ⟨fun hj => ?_, fun hj => ?_⟩, fun j q hq hj => ?_⟩
  · obtain ⟨q, hq, hin⟩ := canAccept_iff.1 hj
    rcases Nat.lt_or_ge j s.procs.length with hlt | hge
    · by_cases hij : j = i
      · subst hij
        obtain rfl := Option.some.inj (hp'.symm.trans hq)
        exact (hI.acceptor j).1 (canAccept_iff.2 ⟨p, hp, (hloop.1 hin).1⟩)
      · rw [hothers j hlt hij] at hq
        exact (hI.acceptor j).1 (canAccept_iff.2 ⟨q, hq, hin⟩)
    · obtain ⟨client_fd, sc, hsc, rfl⟩ := hchild j q hq hge
      exact absurd ((forked_inLoop_iff _ _).1 hin) hsc.1
  · subst hj
    obtain ⟨q, hq, hin⟩ := canAccept_iff.1 ((hI.acceptor 0).2 rfl)
    by_cases hij : 0 = i
    · subst hij
      obtain rfl := Option.some.inj (hp.symm.trans hq)
      exact canAccept_iff.2 ⟨p', hp', hloop.2 ⟨hin, ha.not_fails⟩⟩
    · have hlt := (List.getElem?_eq_some_iff.1 hq).1
      exact canAccept_iff.2 ⟨q, by rw [hothers 0 hlt hij, hq], hin⟩
  · rcases Nat.lt_or_ge j s.procs.length with hlt | hge
    · by_cases hij : j = i
      · subst hij
        obtain rfl := Option.some.inj (hp'.symm.trans hq)
        obtain ⟨client_fd, howns, hone, hexits⟩ := hI.own j p hp hj
        exact ⟨client_fd, hfor.trans howns, hhandled.trans hone, hexits.turn hturn⟩
      · rw [hothers j hlt hij] at hq
        exact hI.own j q hq hj
    · obtain ⟨client_fd, sc, hsc, rfl⟩ := hchild j q hq hge
      exact ⟨client_fd, rfl, rfl, (forked_exits_iff _ _).2 hsc⟩

/-- A step that is not allowed ends it : the parent is gone, or a child does not exit. -/
theorem not_oneAcceptor {s t : State} {a : ℕ × Event} (hI : OneAcceptor s) (ha : ¬Allowed a.2)
    (h : ProcessTree.step s a = some t) : ¬OneAcceptor t := by
  obtain ⟨i, e⟩ := a
  obtain ⟨p, p', children, hp, hturn, hp', -, hlen, hnew⟩ := step_cases h
  obtain ⟨-, -, hloop, hfails⟩ := turn_self hturn
  intro hJ
  rcases turn_children hturn with ⟨-, hfork⟩ | ⟨client_fd, sc, rfl, rfl⟩
  · have he : e.Fails := by
      cases e <;> simp_all [Allowed, Event.Fails]
    obtain rfl := (hI.acceptor i).1 (canAccept_iff.2 ⟨p, hp, hfails he⟩)
    obtain ⟨q, hq, hin⟩ := canAccept_iff.1 ((hJ.acceptor 0).2 rfl)
    obtain rfl := Option.some.inj (hp'.symm.trans hq)
    exact (hloop.1 hin).2 he
  · have hlast : s.procs.length + 0 < t.procs.length := by simp [hlen]
    have hq := List.getElem?_eq_getElem hlast
    have hforked := List.mem_singleton.1 (hnew 0 _ hq)
    have hi := (List.getElem?_eq_some_iff.1 hp).1
    obtain ⟨-, -, -, hexits⟩ := hJ.own _ _ hq (by omega)
    rw [hforked] at hexits
    exact ha ((forked_exits_iff _ _).1 hexits)

/-- In all states of a run the original parent is the only acceptor, and each child
handles its own connection and exits, if and only if all steps are allowed. -/
theorem one_acceptor_iff {s : State} {as : List (ℕ × Event)}
    (h : forkingProxy.run start as = some s) :
    (∀ t, forkingProxy.Visits start as t → OneAcceptor t) ↔
      ∀ t a, forkingProxy.Takes start as t a → Allowed a.2 := by
  constructor
  · intro hgood t a hta
    obtain ⟨u, hu, ht, hu'⟩ := hta.visits h
    by_contra ha
    exact not_oneAcceptor (hgood t ht) ha hu (hgood u hu')
  · intro hall t ht
    exact System.visits_invariant (P := fun _ a => Allowed a.2)
      (fun _ _ _ hI ha hstep => hI.step ha hstep) oneAcceptor_start hall ht

/-- Whether a step is allowed. -/
def allows (_ : State) : ℕ × Event → Bool
  | (_, .acceptFails) | (_, .forkFails) => false
  | (_, .fork sc) =>
    match (child sc).result with
    | .error (.exit _) => true
    | _ => false
  | _ => true

theorem allowed_of_allows {s : State} {a : ℕ × Event} (h : allows s a = true) : Allowed a.2 := by
  obtain ⟨i, e⟩ := a
  cases e with
  | fork sc =>
    refine (forked_exits_iff 0 sc).1 (exits_iff.2 (Pc.toExit_handling.2 ?_))
    simp only [allows] at h
    split at h
    case h_1 status hr => exact ⟨status, hr⟩
    case h_2 => cases h
  | acceptFails => cases h
  | forkFails => cases h
  | _ => trivial

/-- A client that closes before it sends a request, and one with a tunnel, which is left at
the timeout. The child of the second is gone at the end. -/
def tunnelRun : List (ℕ × Event) :=
  [(0, .accept), (0, .fork silentClient), (0, .close), (0, .accept),
    (0, .fork { quietScript tunnelRequest with polls := [.timeout] }), (1, .call)] ++
      (List.replicate 16 (2, .call) ++ [(2, .finish), (0, .close)])

theorem one_acceptor_tunnel :
    ∃ s, forkingProxy.run start tunnelRun = some s ∧ OneAcceptor s := by
  have hruns : (forkingProxy.run start tunnelRun).isSome := by decide +kernel
  have hpasses : forkingProxy.passes allows start tunnelRun = true := by decide +kernel
  obtain ⟨s, hs⟩ := Option.isSome_iff_exists.1 hruns
  exact ⟨s, hs, (one_acceptor_iff hs).2
    (fun t a ha => allowed_of_allows (ha.of_passes hpasses)) s (System.visits_last hs)⟩

/-- A GET request that is served to the end. -/
theorem served_keepAlive : Served (quietScript keepAliveRequest.text) :=
  (handle_ok_iff (m := .process) (by decide) _).1 rfl

/-- The child of a GET request is a second acceptor. -/
theorem second_acceptor : ¬∀ (s : State) (as : List (ℕ × Event)),
    forkingProxy.run start as = some s → (∀ a ∈ as, ¬a.2.Fails) →
    ∀ t, forkingProxy.Visits start as t → OneAcceptor t := by
  intro h
  obtain ⟨s, hs⟩ : ∃ s, forkingProxy.run start
      [(0, .accept), (0, .fork (quietScript keepAliveRequest.text))] = some s := ⟨_, rfl⟩
  have hchild : s.procs[1]? = some (forked 0 (quietScript keepAliveRequest.text)) := by
    obtain rfl := Option.some.inj hs
    rfl
  have hloop := (forked_inLoop_iff 0 _).2 served_keepAlive
  have hone := (h s _ hs (by simp [Event.Fails]) s (System.visits_last hs)).acceptor 1
  exact absurd (hone.1 (canAccept_iff.2 ⟨_, hchild, hloop⟩)) (by decide)

end ProcessTree

end NetCentric
