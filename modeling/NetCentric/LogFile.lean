import NetCentric.Handler
import NetCentric.Threads
import NetCentric.Transition

/-!
# The log file

Any number of handlers run the logging section (`writeLog`), each any number of times,
and the calls of the sections interleave. The log file exists when they start.

A child of the forking proxy has a descriptor with an offset of its own. `F_SETLKW` is
disabled while another child has the lock on the file, `lseek` and `write` are two steps,
and a `write` replaces what stands at its offset. A thread writes through a stream in
append mode : `fprintf` fills the buffer of the stream, and `fclose` appends it in one
write, after the mutex is released. A section that overruns `logstring` does not end.

`log_integrity` : while no handler is in its section the file is the initial text followed
by the entries logged, each once, in some order.
-/

open Finset

namespace NetCentric

namespace LogFile

/-- A logging section that a handler is in. -/
structure Section where
  entry : List Byte
  /-- The calls still to make, and what comes after them. -/
  todo : List Call
  result : Except Ending Unit
  /-- The offset of `log_fd`. -/
  offset : ℕ
  /-- The buffer of `log_fp`. -/
  buffer : List Byte

/-- The file, its lock, the mutex, and the handlers that are in their section. -/
structure State (k : ℕ) where
  file : List Byte
  lock : Option (Fin k)
  mutex : Option (Fin k)
  handler : Fin k → Option Section
  /-- The entries whose sections have ended well. -/
  logged : List (List Byte)

/-- `write` at an offset. -/
def writeAt (file : List Byte) (offset : ℕ) (data : List Byte) : List Byte :=
  file.take offset ++ List.replicate (offset - file.length) 0 ++ data ++
    file.drop (offset + data.length)

variable {k : ℕ}

/-- Handler `h` goes on at `x`. -/
def State.put (s : State k) (h : Fin k) (x : Option Section) : State k :=
  { s with handler := Function.update s.handler h x }

/-- Handler `h` makes a call, and is then at `x`, up to its offset and its buffer. -/
def State.perform (s : State k) (h : Fin k) (x : Section) : Call → Option (State k)
  | .openLog _ => some (s.put h (some { x with offset := 0 }))
  | .fopen _ => some (s.put h (some { x with buffer := [] }))
  | .lockFile =>
    if s.lock = none ∨ s.lock = some h then some { s.put h (some x) with lock := some h }
    else none
  | .unlockFile | .close .log =>
    some { s.put h (some x) with lock := if s.lock = some h then none else s.lock }
  | .seekEnd => some (s.put h (some { x with offset := s.file.length }))
  | .write .log data _ =>
    some { s.put h (some { x with offset := x.offset + data.length }) with
      file := writeAt s.file x.offset data }
  | .mutexLock => if s.mutex = none then some { s.put h (some x) with mutex := some h } else none
  | .mutexUnlock => some { s.put h (some x) with mutex := none }
  | .fprintf text => some (s.put h (some { x with buffer := x.buffer ++ text }))
  | .fclose => some { s.put h (some { x with buffer := [] }) with file := s.file ++ x.buffer }
  | _ => some (s.put h (some x))

/-- A handler enters its section, makes the next call of it, or leaves it. -/
inductive Action (k : ℕ)
  /-- `ok` says whether the file opens. -/
  | enter (h : Fin k) (ok : Bool) (entry : List Byte)
  | call (h : Fin k)
  | leave (h : Fin k)

/-- One step of one handler. -/
def step (m : Mode) (s : State k) : Action k → Option (State k)
  | .enter h ok entry =>
    match s.handler h with
    | none => some (s.put h (some
        { entry, todo := (writeLog m ok entry).calls, result := (writeLog m ok entry).result,
          offset := 0, buffer := [] }))
    | some _ => none
  | .call h =>
    match s.handler h with
    | some { entry, todo := c :: todo, result, offset, buffer } =>
      s.perform h { entry, todo, result, offset, buffer } c
    | _ => none
  | .leave h =>
    match s.handler h with
    | some { entry, todo := [], result := .ok _, .. } =>
      some { s.put h none with logged := s.logged ++ [entry] }
    | some { todo := [], result := .error (.exit _), .. } => some (s.put h none)
    | some { todo := [], result := .error .returned, .. } => some (s.put h none)
    | _ => none

/-- `k` handlers of one kind, and a log file that holds `initial`. -/
def logFile (m : Mode) (k : ℕ) (initial : List Byte) : System (State k) (Action k) where
  Init s := s = ⟨initial, none, none, fun _ => none, []⟩
  step := step m

/-! ## What a step can do -/

/-- The call changes the file. -/
def Changes : Call → Bool
  | .write .log _ _ | .fclose => true
  | _ => false

variable {m : Mode} {s t : State k}

theorem step_cases {a : Action k} (hstep : step m s a = some t) :
    (∃ h ok entry, s.handler h = none ∧ t = s.put h (some ⟨entry, (writeLog m ok entry).calls,
        (writeLog m ok entry).result, 0, []⟩)) ∨
      (∃ h x c todo, s.handler h = some x ∧ x.todo = c :: todo ∧
        s.perform h { x with todo := todo } c = some t) ∨
      (∃ h x, s.handler h = some x ∧ x.todo = [] ∧ x.result = .ok () ∧
        t = { s.put h none with logged := s.logged ++ [x.entry] }) ∨
      ∃ h x, s.handler h = some x ∧ x.result ≠ .ok () ∧ t = s.put h none := by
  cases a with
  | enter h ok entry =>
    cases hh : s.handler h with
    | none => exact .inl ⟨h, ok, entry, hh, by simpa [step, hh] using hstep.symm⟩
    | some x => simp [step, hh] at hstep
  | call h =>
    rcases hh : s.handler h with _ | ⟨entry, _ | ⟨c, todo⟩, result, offset, buffer⟩
    · simp [step, hh] at hstep
    · simp [step, hh] at hstep
    · exact .inr (.inl ⟨h, _, c, todo, hh, rfl, by simpa [step, hh] using hstep⟩)
  | leave h =>
    rcases hh : s.handler h with _ | ⟨entry, _ | ⟨c, todo⟩, result, offset, buffer⟩
    · simp [step, hh] at hstep
    · rcases result with (status | _ | _ | _) | _ <;> simp [step, hh] at hstep
      · exact .inr (.inr (.inr ⟨h, _, hh, by simp, hstep.symm⟩))
      · exact .inr (.inr (.inr ⟨h, _, hh, by simp, hstep.symm⟩))
      · exact .inr (.inr (.inl ⟨h, _, hh, rfl, rfl, hstep.symm⟩))
    · simp [step, hh] at hstep

/-- What a call leaves as it is. -/
theorem perform_frame {h : Fin k} {x : Section} {c : Call} (hc : s.perform h x c = some t) :
    (∃ offset buffer, t.handler = Function.update s.handler h
        (some { x with offset := offset, buffer := buffer })) ∧
      t.logged = s.logged ∧ (∀ g ≠ h, s.lock = some g → t.lock = some g) ∧
      (Changes c = false → t.file = s.file) := by
  unfold State.perform at hc
  split at hc
  case h_3 =>
    split at hc
    case isTrue hlock =>
      obtain rfl := Option.some.inj hc
      exact ⟨⟨_, _, rfl⟩, rfl, fun g hne hg => by simp [hg, hne] at hlock, fun _ => rfl⟩
    case isFalse => cases hc
  case h_8 =>
    split at hc
    case isTrue =>
      obtain rfl := Option.some.inj hc
      exact ⟨⟨_, _, rfl⟩, rfl, fun _ _ hg => hg, fun _ => rfl⟩
    case isFalse => cases hc
  case h_4 =>
    obtain rfl := Option.some.inj hc
    exact ⟨⟨_, _, rfl⟩, rfl, fun g hne hg => by simp [hg, hne], fun _ => rfl⟩
  case h_5 =>
    obtain rfl := Option.some.inj hc
    exact ⟨⟨_, _, rfl⟩, rfl, fun g hne hg => by simp [hg, hne], fun _ => rfl⟩
  case h_7 =>
    obtain rfl := Option.some.inj hc
    exact ⟨⟨_, _, rfl⟩, rfl, fun _ _ hg => hg, nofun⟩
  case h_11 =>
    obtain rfl := Option.some.inj hc
    exact ⟨⟨_, _, rfl⟩, rfl, fun _ _ hg => hg, nofun⟩
  all_goals
    obtain rfl := Option.some.inj hc
    exact ⟨⟨_, _, rfl⟩, rfl, fun _ _ hg => hg, fun _ => rfl⟩

/-! ## The invariant -/

/-- The file has the entry of the section. -/
def Section.landed (x : Section) : Bool :=
  match x.result with
  | .ok _ => x.todo.all fun c => !Changes c
  | .error _ => false

/-- The entry of the handler's section, if the file has it. -/
def landed : Option Section → Multiset (List Byte)
  | some x => if x.landed then {x.entry} else 0
  | none => 0

@[simp] theorem landed_none : landed none = 0 :=
  rfl

theorem landed_some (x : Section) : landed (some x) = if x.landed then {x.entry} else 0 :=
  rfl

theorem landed_of_failed {x : Section} (h : x.result ≠ .ok ()) : x.landed = false := by
  unfold Section.landed
  cases hr : x.result with
  | ok u => exact absurd hr h
  | error e => rfl

/-- How far handler `h` is in its section. -/
inductive At (s : State k) (h : Fin k) : Mode → Section → Prop
  | openLog {e : List Byte} {o : ℕ} {b : List Byte} : At s h .process
      ⟨e, [.openLog true, .lockFile, .seekEnd, .write .log e e.length, .unlockFile, .close .log],
        .ok (), o, b⟩
  | lockFile {e : List Byte} {o : ℕ} {b : List Byte} : At s h .process
      ⟨e, [.lockFile, .seekEnd, .write .log e e.length, .unlockFile, .close .log], .ok (), o, b⟩
  | seekEnd {e : List Byte} {o : ℕ} {b : List Byte} : s.lock = some h → At s h .process
      ⟨e, [.seekEnd, .write .log e e.length, .unlockFile, .close .log], .ok (), o, b⟩
  | write {e b : List Byte} : s.lock = some h → At s h .process
      ⟨e, [.write .log e e.length, .unlockFile, .close .log], .ok (), s.file.length, b⟩
  | unlockFile {e : List Byte} {o : ℕ} {b : List Byte} :
      At s h .process ⟨e, [.unlockFile, .close .log], .ok (), o, b⟩
  | close {e : List Byte} {o : ℕ} {b : List Byte} :
      At s h .process ⟨e, [.close .log], .ok (), o, b⟩
  | fopen {e : List Byte} {o : ℕ} {b : List Byte} : At s h .thread
      ⟨e, [.fopen true, .mutexLock, .fprintf e, .mutexUnlock, .fclose], .ok (), o, b⟩
  | mutexLock {e : List Byte} {o : ℕ} :
      At s h .thread ⟨e, [.mutexLock, .fprintf e, .mutexUnlock, .fclose], .ok (), o, []⟩
  | fprintf {e : List Byte} {o : ℕ} :
      At s h .thread ⟨e, [.fprintf e, .mutexUnlock, .fclose], .ok (), o, []⟩
  | mutexUnlock {e : List Byte} {o : ℕ} :
      At s h .thread ⟨e, [.mutexUnlock, .fclose], .ok (), o, e⟩
  | fopenAlone {e : List Byte} {o : ℕ} {b : List Byte} :
      At s h .sequential ⟨e, [.fopen true, .fprintf e, .fclose], .ok (), o, b⟩
  | fprintfAlone {e : List Byte} {o : ℕ} :
      At s h .sequential ⟨e, [.fprintf e, .fclose], .ok (), o, []⟩
  | fclose {m : Mode} {e : List Byte} {o : ℕ} : m ≠ .process →
      At s h m ⟨e, [.fclose], .ok (), o, e⟩
  | finished {m : Mode} {e : List Byte} {o : ℕ} {b : List Byte} :
      At s h m ⟨e, [], .ok (), o, b⟩
  /-- The file did not open, or the entry overruns `logstring`. -/
  | failed {m : Mode} {x : Section} : x.result ≠ .ok () → (∀ c ∈ x.todo, Changes c = false) →
      At s h m x

/-- The invariant. -/
structure Inv (m : Mode) (initial : List Byte) (s : State k) : Prop where
  handler : ∀ h x, s.handler h = some x → At s h m x
  file : ∃ order : List (List Byte), s.file = initial ++ order.flatten ∧
    (order : Multiset (List Byte)) = s.logged + ∑ h, landed (s.handler h)

variable {initial : List Byte}

/-- Where a handler begins, with its entry not in the file. -/
theorem at_enter (s : State k) (h : Fin k) (m : Mode) (ok : Bool) (entry : List Byte) :
    At s h m ⟨entry, (writeLog m ok entry).calls, (writeLog m ok entry).result, 0, []⟩ ∧
      landed (some ⟨entry, (writeLog m ok entry).calls, (writeLog m ok entry).result, 0, []⟩) =
        0 := by
  cases ok with
  | false =>
    cases m with
    | sequential =>
      have hall : ∀ c ∈ [Call.fopen false, .close .client, .close .proxy], Changes c = false := by
        simp [Changes]
      exact ⟨.failed nofun hall, rfl⟩
    | process =>
      have hall : ∀ c ∈ [Call.openLog false, .close .client, .close .proxy],
          Changes c = false := by
        simp [Changes]
      exact ⟨.failed nofun hall, rfl⟩
    | thread =>
      have hall : ∀ c ∈ [Call.fopen false, .close .client], Changes c = false := by
        simp [Changes]
      exact ⟨.failed nofun hall, rfl⟩
  | true =>
    by_cases hlen : entry.length < 1024
    · cases m <;> simp only [writeLog, orUndefined, inArray, hlen, if_true, Mode.require_true]
      · exact ⟨.fopenAlone, rfl⟩
      · exact ⟨.openLog, rfl⟩
      · exact ⟨.fopen, rfl⟩
    · have harray : inArray 1024 entry = none := by simp [inArray, hlen]
      have hresult : (writeLog m true entry).result ≠ .ok () := by
        cases m <;> simp [writeLog, orUndefined, harray]
      refine ⟨.failed hresult ?_, by rw [landed_some, landed_of_failed hresult]; rfl⟩
      cases m <;> simp [writeLog, orUndefined, harray, Changes]

/-- Another handler's step leaves a handler where it is. -/
theorem At.congr {h : Fin k} {x : Section} (hx : At s h m x)
    (hlock : s.lock = some h → t.lock = some h)
    (hfile : m = .process → s.lock = some h → t.file = s.file) : At t h m x := by
  cases hx with
  | openLog => exact .openLog
  | lockFile => exact .lockFile
  | seekEnd hl => exact .seekEnd (hlock hl)
  | write hl =>
    rw [← hfile rfl hl]
    exact .write (hlock hl)
  | unlockFile => exact .unlockFile
  | close => exact .close
  | fopen => exact .fopen
  | mutexLock => exact .mutexLock
  | fprintf => exact .fprintf
  | mutexUnlock => exact .mutexUnlock
  | fopenAlone => exact .fopenAlone
  | fprintfAlone => exact .fprintfAlone
  | fclose hm => exact .fclose hm
  | finished => exact .finished
  | failed hresult htodo => exact .failed hresult htodo

theorem writeAt_end (file data : List Byte) : writeAt file file.length data = file ++ data := by
  simp [writeAt]

/-- A call takes the handler to the next place. -/
theorem At.call {h : Fin k} {x : Section} {c : Call} {todo : List Call} (hx : At s h m x)
    (htodo : x.todo = c :: todo) (hc : s.perform h { x with todo := todo } c = some t) :
    ∃ y, t.handler h = some y ∧ At t h m y := by
  cases hx with
  | finished => cases htodo
  | failed hresult hchanges =>
    obtain ⟨⟨o, b, hy⟩, -⟩ := perform_frame hc
    refine ⟨_, (congrFun hy h).trans (Function.update_self _ _ _), .failed hresult fun d hd => ?_⟩
    exact hchanges d (htodo ▸ List.mem_cons_of_mem c hd)
  | lockFile =>
    obtain ⟨rfl, rfl⟩ := List.cons.inj htodo
    simp only [State.perform, Option.ite_none_right_eq_some, Option.some.injEq] at hc
    obtain ⟨-, rfl⟩ := hc
    exact ⟨_, Function.update_self _ _ _, .seekEnd rfl⟩
  | openLog =>
    obtain ⟨rfl, rfl⟩ := List.cons.inj htodo
    obtain rfl := Option.some.inj hc
    exact ⟨_, Function.update_self _ _ _, .lockFile⟩
  | seekEnd hl =>
    obtain ⟨rfl, rfl⟩ := List.cons.inj htodo
    obtain rfl := Option.some.inj hc
    exact ⟨_, Function.update_self _ _ _, .write hl⟩
  | write =>
    obtain ⟨rfl, rfl⟩ := List.cons.inj htodo
    obtain rfl := Option.some.inj hc
    exact ⟨_, Function.update_self _ _ _, .unlockFile⟩
  | unlockFile =>
    obtain ⟨rfl, rfl⟩ := List.cons.inj htodo
    obtain rfl := Option.some.inj hc
    exact ⟨_, Function.update_self _ _ _, .close⟩
  | close =>
    obtain ⟨rfl, rfl⟩ := List.cons.inj htodo
    obtain rfl := Option.some.inj hc
    exact ⟨_, Function.update_self _ _ _, .finished⟩
  | fopen =>
    obtain ⟨rfl, rfl⟩ := List.cons.inj htodo
    obtain rfl := Option.some.inj hc
    exact ⟨_, Function.update_self _ _ _, .mutexLock⟩
  | mutexLock =>
    obtain ⟨rfl, rfl⟩ := List.cons.inj htodo
    simp only [State.perform, Option.ite_none_right_eq_some, Option.some.injEq] at hc
    obtain ⟨-, rfl⟩ := hc
    exact ⟨_, Function.update_self _ _ _, .fprintf⟩
  | fprintf =>
    obtain ⟨rfl, rfl⟩ := List.cons.inj htodo
    obtain rfl := Option.some.inj hc
    exact ⟨_, Function.update_self _ _ _, .mutexUnlock⟩
  | mutexUnlock =>
    obtain ⟨rfl, rfl⟩ := List.cons.inj htodo
    obtain rfl := Option.some.inj hc
    exact ⟨_, Function.update_self _ _ _, .fclose nofun⟩
  | fopenAlone =>
    obtain ⟨rfl, rfl⟩ := List.cons.inj htodo
    obtain rfl := Option.some.inj hc
    exact ⟨_, Function.update_self _ _ _, .fprintfAlone⟩
  | fprintfAlone =>
    obtain ⟨rfl, rfl⟩ := List.cons.inj htodo
    obtain rfl := Option.some.inj hc
    exact ⟨_, Function.update_self _ _ _, .fclose nofun⟩
  | fclose =>
    obtain ⟨rfl, rfl⟩ := List.cons.inj htodo
    obtain rfl := Option.some.inj hc
    exact ⟨_, Function.update_self _ _ _, .finished⟩

/-- The entry that a handler's section puts into the file, and its place there. -/
theorem At.changes {h : Fin k} {x : Section} {c : Call} {todo : List Call} (hx : At s h m x)
    (htodo : x.todo = c :: todo) (hchanges : Changes c = true)
    (hc : s.perform h { x with todo := todo } c = some t) :
    (m = .process → s.lock = some h) ∧ t.file = s.file ++ x.entry ∧ x.landed = false ∧
      ({ x with todo := todo } : Section).landed = true := by
  cases hx with
  | write hl =>
    obtain ⟨rfl, rfl⟩ := List.cons.inj htodo
    obtain rfl := Option.some.inj hc
    exact ⟨fun _ => hl, writeAt_end _ _, rfl, rfl⟩
  | fclose hm =>
    obtain ⟨rfl, rfl⟩ := List.cons.inj htodo
    obtain rfl := Option.some.inj hc
    exact ⟨fun h => absurd h hm, rfl, rfl, rfl⟩
  | finished => cases htodo
  | failed _ hall =>
    rw [hall c (htodo ▸ List.mem_cons_self)] at hchanges
    cases hchanges
  | _ =>
    obtain ⟨rfl, rfl⟩ := List.cons.inj htodo
    cases hchanges

/-- A call that changes nothing leaves the entry where it is. -/
theorem landed_of_not_changes {x : Section} {c : Call} {todo : List Call}
    (htodo : x.todo = c :: todo) (hc : Changes c = false) :
    ({ x with todo := todo } : Section).landed = x.landed := by
  simp [Section.landed, htodo, hc]

/-- The handlers after a step of handler `h`. -/
theorem Inv.handlers (hI : Inv m initial s) {h : Fin k} {x : Option Section}
    (ht : t.handler = Function.update s.handler h x) (hx : ∀ y, x = some y → At t h m y)
    (hlock : ∀ g ≠ h, s.lock = some g → t.lock = some g)
    (hfile : ∀ g ≠ h, m = .process → s.lock = some g → t.file = s.file) (g : Fin k) (z : Section)
    (hz : t.handler g = some z) : At t g m z := by
  by_cases hg : g = h
  · rw [ht, hg, Function.update_self] at hz
    exact hg ▸ hx z hz
  · rw [ht, Function.update_of_ne hg] at hz
    exact (hI.handler g z hz).congr (hlock g hg) (hfile g hg)

theorem Inv.call (hI : Inv m initial s) {h : Fin k} {x : Section} {c : Call} {todo : List Call}
    (hx : s.handler h = some x) (htodo : x.todo = c :: todo)
    (hc : s.perform h { x with todo := todo } c = some t) : Inv m initial t := by
  have hat := hI.handler h x hx
  obtain ⟨⟨o, b, hy⟩, hlogged, hlock, hfile⟩ := perform_frame hc
  obtain ⟨y, hty, haty⟩ := hat.call htodo hc
  obtain ⟨order, horder, hperm⟩ := hI.file
  have hsum := Threads.sum_update landed s.handler h (some { x with
    todo := todo
    offset := o
    buffer := b })
  rw [← hy, hx] at hsum
  have hown : ∀ z, some { x with todo := todo, offset := o, buffer := b } = some z →
      At t h m z := by
    intro z hz
    rw [hy, Function.update_self, hz] at hty
    exact Option.some.inj hty ▸ haty
  cases hch : Changes c with
  | true =>
    obtain ⟨hlocked, hext, hbefore, hafter⟩ := hat.changes htodo hch hc
    refine ⟨hI.handlers hy hown hlock fun g hg hm hl => ?_, order ++ [x.entry], ?_, ?_⟩
    · exact absurd (Option.some.inj (hl.symm.trans (hlocked hm))) hg
    · rw [hext, horder, List.flatten_append, List.flatten_singleton, List.append_assoc]
    · have hsec : ({ x with todo := todo, offset := o, buffer := b } : Section).landed = true :=
        hafter
      simp only [landed_some, hbefore, hsec, if_true, Bool.false_eq_true, if_false, add_zero]
        at hsum
      rw [hsum, hlogged, ← Multiset.coe_add, hperm, Multiset.coe_singleton, add_assoc]
  | false =>
    refine ⟨hI.handlers hy hown hlock fun _ _ _ _ => hfile hch, order,
      (hfile hch).trans horder, ?_⟩
    have hsec : ({ x with todo := todo, offset := o, buffer := b } : Section).landed = x.landed :=
      landed_of_not_changes htodo hch
    simp only [landed_some, hsec] at hsum
    rw [hperm, hlogged, add_right_cancel hsum]

theorem Inv.step {a : Action k} (hI : Inv m initial s) (hstep : step m s a = some t) :
    Inv m initial t := by
  obtain ⟨order, horder, hperm⟩ := hI.file
  rcases step_cases hstep with ⟨h, ok, entry, hh, rfl⟩ | ⟨h, x, c, todo, hx, htodo, hc⟩ |
    ⟨h, x, hx, htodo, hresult, rfl⟩ | ⟨h, x, hx, hresult, rfl⟩
  · obtain ⟨hat, hzero⟩ := at_enter (s.put h (some ⟨entry, (writeLog m ok entry).calls,
      (writeLog m ok entry).result, 0, []⟩)) h m ok entry
    have hsum := Threads.sum_update landed s.handler h (some ⟨entry,
      (writeLog m ok entry).calls, (writeLog m ok entry).result, 0, []⟩)
    rw [hh, hzero, landed_none] at hsum
    exact ⟨hI.handlers rfl (fun y hy => Option.some.inj hy ▸ hat) (fun _ _ hl => hl)
      fun _ _ _ _ => rfl, order, horder,
      hperm.trans (congrArg _ (add_right_cancel hsum).symm)⟩
  · exact hI.call hx htodo hc
  · have hsum := Threads.sum_update landed s.handler h none
    have hone : landed (some x) = {x.entry} := by
      rw [landed_some, Section.landed, hresult, htodo]
      rfl
    rw [hx, hone, landed_none, add_zero] at hsum
    refine ⟨hI.handlers rfl nofun (fun _ _ hl => hl) fun _ _ _ _ => rfl, order, horder, ?_⟩
    rw [hperm, ← hsum]
    simp only [State.put, ← Multiset.coe_add, Multiset.coe_singleton]
    ac_rfl
  · have hsum := Threads.sum_update landed s.handler h none
    rw [hx, landed_some, landed_of_failed hresult, landed_none] at hsum
    exact ⟨hI.handlers rfl nofun (fun _ _ hl => hl) fun _ _ _ _ => rfl, order, horder,
      hperm.trans (congrArg _ (add_right_cancel hsum).symm)⟩

theorem inv_of_reachable (h : (logFile m k initial).Reachable s) : Inv m initial s :=
  h.invariant (I := Inv m initial)
    (fun s hs => by
      obtain rfl : s = ⟨initial, none, none, fun _ => none, []⟩ := hs
      exact ⟨nofun, [], by simp, by simp⟩)
    fun _ _ _ hI hstep => hI.step hstep

/-- The log while no handler is in its section : the initial text and then the entries
logged, each whole and once. -/
theorem log_integrity (h : (logFile m k initial).Reachable s) (hidle : ∀ h, s.handler h = none) :
    ∃ order : List (List Byte), order.Perm s.logged ∧ s.file = initial ++ order.flatten := by
  obtain ⟨-, order, horder, hperm⟩ := inv_of_reachable h
  refine ⟨order, Multiset.coe_eq_coe.1 ?_, horder⟩
  rw [hperm]
  simp [hidle, landed]

/-- Two children, each with the file open before the other writes. -/
theorem log_integrity_two : ∃ s : State 2, (logFile .process 2 [1]).Reachable s ∧
    s.logged = [[3], [2]] ∧ ∃ order : List (List Byte), order.Perm [[3], [2]] ∧
      s.file = [1] ++ order.flatten := by
  have h : ∃ s : State 2, (logFile .process 2 [1]).Reachable s ∧ (∀ h, s.handler h = none) ∧
      s.logged = [[3], [2]] := by
    refine ⟨_, ⟨_, [.enter 0 true [2], .enter 1 true [3], .call 0, .call 1] ++
      List.replicate 4 (.call 0) ++ List.replicate 5 (.call 1) ++
      [.leave 1, .call 0, .leave 0], rfl, rfl⟩, fun h => ?_, rfl⟩
    match h with
    | 0 => rfl
    | 1 => rfl
  obtain ⟨s, hs, hidle, hlogged⟩ := h
  exact ⟨s, hs, hlogged, hlogged ▸ log_integrity hs hidle⟩

end LogFile

end NetCentric
