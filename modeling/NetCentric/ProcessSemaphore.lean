import NetCentric.CString
import NetCentric.Sections

/-!
# Children that share memory under a System V semaphore

The children of `process_semaphore.c` append a line each to the shared memory : `strlen` finds
its end, and `sprintf` writes the line and a NUL there, a byte at a time. They do so between
`sem_wait` and `sem_post`, which use `SEM_UNDO` : the kernel keeps for each process what it
has taken off the semaphore (`semadj`), and gives it back when the process ends. A child may
be killed at any point.

`lines_kept` : no kill keeps the other children from writing, and when all have ended the
memory is made of the lines in some order, where the line of a child that was killed may be
cut off or missing, and the other lines are whole.
-/

open Finset

namespace NetCentric

namespace ProcessSemaphore

open Sections

/-- `SHM_SIZE`. -/
def SHM_SIZE : ℕ :=
  1024

/-- What a child does with the shared memory. Its own memory is what `strlen` has returned. -/
inductive Op
  | strlen
  /-- `sprintf` writes the byte `c` at `shmaddr + strlen(shmaddr) + k`. -/
  | put (k : ℕ) (c : Byte)
  deriving DecidableEq

variable {ι : Type*}

def exec (_ : ι) : Op → List Byte × ℕ → List Byte × ℕ
  | .strlen, (memory, _) => (memory, (cstr memory).length)
  | .put k c, (memory, len) => (memory.set (len + k) c, len)

/-- `sprintf`, where `k` bytes are written before. -/
def sprintf (k : ℕ) : List Byte → List Op
  | [] => [.put k 0]
  | c :: text => .put k c :: sprintf (k + 1) text

/-- `sprintf(shmaddr + strlen(shmaddr), …)` and `sem_post`. -/
def append (line : List Byte) : List (Instr Op) :=
  .op .strlen :: ((sprintf 0 line).map .op ++ [.post])

/-- A child that writes this line. -/
def child (line : List Byte) : List (Instr Op) :=
  .wait :: append line

/-- The children, with their `semadj` and whether they were killed. -/
structure State (ι : Type*) where
  base : Sections.State ι Op (List Byte) ℕ
  semadj : ι → ℕ
  killed : ι → Bool

inductive Action (ι : Type*)
  | step (i : ι)
  | kill (i : ι)

/-- `semadj` after this instruction, with `SEM_UNDO`. -/
def adjust (semadj : ℕ) : List (Instr Op) → ℕ
  | .wait :: _ => semadj + 1
  | .post :: _ => semadj - 1
  | _ => semadj

def step [DecidableEq ι] (s : State ι) : Action ι → Option (State ι)
  | .step i => do
    let base ← Sections.step exec s.base i
    return { s with
      base := base
      semadj := Function.update s.semadj i (adjust (s.semadj i) (s.base.left i)) }
  | .kill i =>
    if s.base.left i = [] then none
    else some {
      base := { s.base with
        sem := s.base.sem + s.semadj i
        left := Function.update s.base.left i [] }
      semadj := Function.update s.semadj i 0
      killed := Function.update s.killed i true }

/-- The children after the semaphore is set to one and the memory to zeros. -/
def start (line : ι → List Byte) : State ι where
  base := ⟨1, List.replicate SHM_SIZE 0, fun _ => 0, fun i => child (line i)⟩
  semadj _ := 0
  killed _ := false

/-- The children, which write these lines. -/
def children [DecidableEq ι] (line : ι → List Byte) : System (State ι) (Action ι) where
  Init s := s = start line
  step := step

/-! ## The memory -/

/-- The memory holds this text, and zeros behind it. -/
def Holds (memory text : List Byte) : Prop :=
  text.length < SHM_SIZE ∧ memory = text ++ List.replicate (SHM_SIZE - text.length) 0

variable {memory text : List Byte}

theorem Holds.cstr_eq (h : Holds memory text) (hnul : 0 ∉ text) : cstr memory = text := by
  obtain ⟨hlt, rfl⟩ := h
  obtain ⟨k, hk⟩ := Nat.exists_eq_succ_of_ne_zero (Nat.sub_ne_zero_of_lt hlt)
  rw [hk, List.replicate_succ, cstr_append_of_no_nul hnul]
  simp [cstr]

/-- A byte behind the text. -/
theorem Holds.put (h : Holds memory text) {c : Byte} (hlt : text.length + 1 < SHM_SIZE) :
    Holds (memory.set text.length c) (text ++ [c]) := by
  obtain ⟨-, rfl⟩ := h
  refine ⟨by simpa using hlt, ?_⟩
  have hsub : SHM_SIZE - text.length = SHM_SIZE - (text ++ [c]).length + 1 := by
    rw [List.length_append, List.length_singleton]
    omega
  rw [List.set_append_right _ _ le_rfl, Nat.sub_self, hsub, List.replicate_succ,
    List.set_cons_zero, List.append_assoc, List.singleton_append]

/-- The NUL behind the text stands there already. -/
theorem Holds.put_nul (h : Holds memory text) : Holds (memory.set text.length 0) text := by
  obtain ⟨hlt, rfl⟩ := h
  refine ⟨hlt, ?_⟩
  obtain ⟨k, hk⟩ := Nat.exists_eq_succ_of_ne_zero (Nat.sub_ne_zero_of_lt hlt)
  rw [List.set_append_right _ _ le_rfl, Nat.sub_self, hk, List.replicate_succ,
    List.set_cons_zero]

/-! ## The lines -/

/-- What the children have written, in this order. -/
def content (pieces : List (ι × List Byte)) : List Byte :=
  pieces.flatMap Prod.snd

theorem content_concat (pieces : List (ι × List Byte)) (k : ι) (written : List Byte) :
    content (pieces ++ [(k, written)]) = content pieces ++ written := by
  simp [content]

/-- Each child has written at most once, and a part of its line. -/
structure Pieces (line : ι → List Byte) (pieces : List (ι × List Byte)) : Prop where
  once : (pieces.map Prod.fst).Nodup
  part : ∀ p ∈ pieces, p.2 <+: line p.1

section Pieces

variable {line : ι → List Byte} {pieces : List (ι × List Byte)} {k : ι} {written : List Byte}

theorem Pieces.concat (hp : Pieces line pieces) (hk : k ∉ pieces.map Prod.fst)
    (hwritten : written <+: line k) : Pieces line (pieces ++ [(k, written)]) where
  once := by
    rw [List.map_append]
    exact hp.once.append (List.nodup_singleton k) (by simpa using hk)
  part p h := by
    rcases List.mem_append.1 h with h | h
    · exact hp.part p h
    · obtain rfl := List.mem_singleton.1 h
      exact hwritten

theorem Pieces.init (hp : Pieces line (pieces ++ [(k, written)])) :
    Pieces line pieces ∧ k ∉ pieces.map Prod.fst := by
  have honce := hp.once
  rw [List.map_append] at honce
  refine ⟨⟨honce.of_append_left, fun p h => hp.part p (List.mem_append_left _ h)⟩, fun hk => ?_⟩
  exact List.disjoint_of_nodup_append honce hk (by simp)

theorem Pieces.length_le [Fintype ι] [DecidableEq ι] (hp : Pieces line pieces) :
    (content pieces).length ≤ ∑ i, (line i).length := by
  have hparts : (content pieces).length ≤ (pieces.map fun p => (line p.1).length).sum := by
    rw [content, List.length_flatMap]
    exact List.sum_le_sum fun p h => (hp.part p h).length_le
  have hsum := List.sum_toFinset (fun i => (line i).length) hp.once
  rw [List.map_map] at hsum
  refine hparts.trans (hsum.symm.le.trans (sum_le_sum_of_subset (subset_univ _)))

theorem Pieces.no_nul (hp : Pieces line pieces) (hnul : ∀ i, 0 ∉ line i) :
    0 ∉ content pieces := fun h => by
  obtain ⟨p, hmem, h0⟩ := List.mem_flatMap.1 h
  exact hnul p.1 ((hp.part p hmem).subset h0)

end Pieces

/-! ## Where the children are -/

/-- The instructions that a child has left in its section, when it has written this part of
its line behind `len` bytes. -/
inductive Writing (line : List Byte) (len : ℕ) : List (Instr Op) → ℕ → List Byte → Prop
  | strlen (own : ℕ) : Writing line len (append line) own []
  | sprintf (done rest : List Byte) : line = done ++ rest →
      Writing line len ((sprintf done.length rest).map .op ++ [.post]) len done
  | post (own : ℕ) : Writing line len [.post] own line

variable {line : ι → List Byte} {s t : State ι} {pieces : List (ι × List Byte)} {i j k : ι}

/-- The child has not begun, or it has ended, with its line in the memory unless it was
killed. -/
def Idle (line : ι → List Byte) (s : State ι) (pieces : List (ι × List Byte)) (i : ι) : Prop :=
  s.semadj i = 0 ∧
    (s.base.left i = child (line i) ∧ s.killed i = false ∧ i ∉ pieces.map Prod.fst ∨
      s.base.left i = [] ∧ (s.killed i = false → (i, line i) ∈ pieces))

/-- At most one child is in its section, with the semaphore at zero. -/
inductive Inv (line : ι → List Byte) (s : State ι) : Prop
  | outside (pieces : List (ι × List Byte)) (sem : s.base.sem = 1) (parts : Pieces line pieces)
      (memory : Holds s.base.shared (content pieces)) (idle : ∀ i, Idle line s pieces i)
  | inside (pieces : List (ι × List Byte)) (k : ι) (written : List Byte) (sem : s.base.sem = 0)
      (semadj : s.semadj k = 1) (alive : s.killed k = false)
      (parts : Pieces line (pieces ++ [(k, written)]))
      (writing : Writing (line k) (content pieces).length (s.base.left k) (s.base.own k) written)
      (memory : Holds s.base.shared (content pieces ++ written))
      (idle : ∀ j ≠ k, Idle line s pieces j)

/-- A child that the step does not touch stays idle. -/
theorem Idle.of_eq (h : Idle line s pieces j) (hleft : t.base.left j = s.base.left j)
    (hsemadj : t.semadj j = s.semadj j) (hkilled : t.killed j = s.killed j) :
    Idle line t pieces j := by
  rw [Idle, hleft, hsemadj, hkilled]
  exact h

/-- Another child has written. -/
theorem Idle.concat (h : Idle line s pieces j) (hj : j ≠ k) (written : List Byte) :
    Idle line s (pieces ++ [(k, written)]) j := by
  obtain ⟨hsemadj, ⟨hleft, hkilled, hmem⟩ | ⟨hleft, hmem⟩⟩ := h
  · refine ⟨hsemadj, .inl ⟨hleft, hkilled, ?_⟩⟩
    rw [List.map_append, List.mem_append, not_or]
    exact ⟨hmem, by simpa using hj⟩
  · exact ⟨hsemadj, .inr ⟨hleft, fun hkilled => List.mem_append_left _ (hmem hkilled)⟩⟩

variable [DecidableEq ι]

/-- A step that is no kill is a step of the section library, with its `semadj`. -/
theorem step_base (h : step s (.step i) = some t) : Sections.step exec s.base i = some t.base ∧
    t.semadj = Function.update s.semadj i (adjust (s.semadj i) (s.base.left i)) ∧
    t.killed = s.killed := by
  simp only [step, Option.bind_eq_bind, Option.bind_eq_some_iff] at h
  obtain ⟨base, hbase, ht⟩ := h
  obtain rfl := Option.some.inj ht
  exact ⟨hbase, rfl, rfl⟩

/-- A kill gives the semaphore back. -/
theorem step_kill (h : step s (.kill i) = some t) : s.base.left i ≠ [] ∧
    t.base.sem = s.base.sem + s.semadj i ∧ t.base.shared = s.base.shared ∧
    t.base.own = s.base.own ∧ t.base.left = Function.update s.base.left i [] ∧
    t.semadj = Function.update s.semadj i 0 ∧ t.killed = Function.update s.killed i true := by
  simp only [step] at h
  split at h
  case isTrue => cases h
  case isFalse hleft =>
    obtain rfl := Option.some.inj h
    exact ⟨hleft, rfl, rfl, rfl, rfl, rfl, rfl⟩

/-- A process at its end takes no step. -/
theorem not_step_nil {s t : Sections.State ι Op (List Byte) ℕ} (hleft : s.left i = [])
    (h : Sections.step exec s i = some t) : False := by
  simp [Sections.step, hleft] at h

/-- The child that is idle and takes a step waits for the semaphore. -/
theorem Idle.enters (hidle : Idle line s pieces i) (h : step s (.step i) = some t) :
    0 < s.base.sem ∧ s.killed i = false ∧ i ∉ pieces.map Prod.fst ∧
      t.base.sem = s.base.sem - 1 ∧ t.base.shared = s.base.shared ∧ t.semadj i = 1 ∧
      t.base.left i = append (line i) := by
  obtain ⟨hbase, hsemadj, -⟩ := step_base h
  obtain ⟨hzero, ⟨hleft, hkilled, hmem⟩ | ⟨hleft, -⟩⟩ := hidle
  · obtain ⟨hpos, hsem, hshared, -, hnext, -⟩ := step_wait_spec hleft hbase
    refine ⟨hpos, hkilled, hmem, hsem, hshared, ?_, hnext⟩
    rw [hsemadj, Function.update_self, hleft, hzero]
    rfl
  · exact (not_step_nil hleft hbase).elim

/-- The children that do not take the step. -/
theorem Idle.others (hidle : Idle line s pieces j) (hj : j ≠ i)
    (h : step s (.step i) = some t) : Idle line t pieces j := by
  obtain ⟨hbase, hsemadj, hkilled⟩ := step_base h
  obtain ⟨x, is, -, hleft⟩ := step_left hbase
  refine hidle.of_eq ?_ ?_ (congrFun hkilled j)
  · rw [hleft, Function.update_of_ne hj]
  · rw [hsemadj, Function.update_of_ne hj]

/-- The children when one is killed. -/
theorem Idle.kill (hidle : Idle line s pieces j) (h : step s (.kill i) = some t) :
    Idle line t pieces j := by
  obtain ⟨-, -, -, -, hleft, hsemadj, hkilled⟩ := step_kill h
  rcases eq_or_ne j i with rfl | hj
  · refine ⟨by rw [hsemadj, Function.update_self], .inr ⟨?_, fun halive => ?_⟩⟩
    · rw [hleft, Function.update_self]
    · rw [hkilled, Function.update_self] at halive
      cases halive
  · exact hidle.of_eq (by rw [hleft, Function.update_of_ne hj])
      (by rw [hsemadj, Function.update_of_ne hj]) (by rw [hkilled, Function.update_of_ne hj])

/-- A killed child is idle, whatever it has written. -/
theorem idle_killed (h : step s (.kill i) = some t) : Idle line t pieces i := by
  obtain ⟨-, -, -, -, hleft, hsemadj, hkilled⟩ := step_kill h
  refine ⟨by rw [hsemadj, Function.update_self], .inr ⟨?_, fun halive => ?_⟩⟩
  · rw [hleft, Function.update_self]
  · rw [hkilled, Function.update_self] at halive
    cases halive

/-- The child in the section takes a step. -/
theorem Inv.step_inside [Fintype ι] (hfit : ∑ i, (line i).length < SHM_SIZE)
    (hnul : ∀ i, 0 ∉ line i) {written : List Byte} (hsem : s.base.sem = 0)
    (hsemadj : s.semadj k = 1) (halive : s.killed k = false)
    (hparts : Pieces line (pieces ++ [(k, written)]))
    (hwriting : Writing (line k) (content pieces).length (s.base.left k) (s.base.own k) written)
    (hmemory : Holds s.base.shared (content pieces ++ written))
    (hidle : ∀ j ≠ k, Idle line s pieces j) (h : step s (.step k) = some t) : Inv line t := by
  obtain ⟨hbase, hadjust, hkilled⟩ := step_base h
  have hothers : ∀ j ≠ k, Idle line t pieces j := fun j hj => (hidle j hj).others hj h
  have halive' : t.killed k = false := by rw [hkilled, halive]
  obtain ⟨hinit, hnot⟩ := hparts.init
  generalize hleft : s.base.left k = left at hwriting
  generalize hown : s.base.own k = own at hwriting
  cases hwriting with
  | strlen =>
    obtain ⟨hshared, hown', hleft', -⟩ := step_op_spec hleft hbase
    rw [List.append_nil] at hmemory
    have hlen : t.base.own k = (content pieces).length := by
      rw [hown']
      change (cstr s.base.shared).length = _
      rw [hmemory.cstr_eq (hinit.no_nul hnul)]
    refine .inside pieces k [] ((step_op_sem hleft hbase).trans hsem) ?_ halive' hparts ?_ ?_
      hothers
    · rw [hadjust, Function.update_self, hleft, hsemadj]
      rfl
    · rw [hleft', hlen]
      exact .sprintf [] (line k) rfl
    · rw [hshared, List.append_nil]
      exact hmemory
  | sprintf written rest hline =>
    cases rest with
    | nil =>
      obtain ⟨hshared, hown', hleft', -⟩ := step_op_spec hleft hbase
      refine .inside pieces k written ((step_op_sem hleft hbase).trans hsem) ?_ halive' hparts ?_
        ?_ hothers
      · rw [hadjust, Function.update_self, hleft, hsemadj]
        rfl
      · rw [hleft', ← List.append_nil written, ← hline]
        exact .post _
      · rw [hshared, hown]
        change Holds (s.base.shared.set ((content pieces).length + written.length) 0) _
        rw [← List.length_append]
        exact hmemory.put_nul
    | cons c rest =>
      obtain ⟨hshared, hown', hleft', -⟩ := step_op_spec hleft hbase
      have hline' : line k = written ++ [c] ++ rest := by rw [hline]; simp
      have hparts' : Pieces line (pieces ++ [(k, written ++ [c])]) :=
        hinit.concat hnot ⟨rest, hline'.symm⟩
      have hlength := hparts'.length_le.trans_lt hfit
      rw [content_concat, ← List.append_assoc, List.length_append, List.length_singleton]
        at hlength
      refine .inside pieces k (written ++ [c]) ((step_op_sem hleft hbase).trans hsem) ?_ halive'
        hparts' ?_ ?_ hothers
      · rw [hadjust, Function.update_self, hleft, hsemadj]
        rfl
      · rw [hleft', hown', hown]
        have hlast : (written ++ [c]).length = written.length + 1 := by simp
        exact hlast ▸ .sprintf (written ++ [c]) rest hline'
      · rw [hshared, hown, ← List.append_assoc]
        change Holds (s.base.shared.set ((content pieces).length + written.length) c) _
        rw [← List.length_append]
        exact hmemory.put hlength
  | post =>
    obtain ⟨hsem', hshared, -, hleft', -⟩ := step_post_spec hleft hbase
    refine .outside (pieces ++ [(k, line k)]) (by rw [hsem', hsem]) hparts ?_ fun j => ?_
    · rw [hshared, content_concat]
      exact hmemory
    · rcases eq_or_ne j k with rfl | hj
      · refine ⟨?_, .inr ⟨hleft', fun _ => by simp⟩⟩
        rw [hadjust, Function.update_self, hleft, hsemadj]
        rfl
      · exact (hothers j hj).concat hj (line k)

theorem Inv.step [Fintype ι] (hfit : ∑ i, (line i).length < SHM_SIZE) (hnul : ∀ i, 0 ∉ line i)
    {a : Action ι} (hI : Inv line s) (h : step s a = some t) : Inv line t := by
  cases hI with
  | outside pieces hsem hparts hmemory hidle =>
    cases a with
    | step i =>
      obtain ⟨-, halive, hnot, hsem', hshared, hsemadj, hleft⟩ := (hidle i).enters h
      have hkilled := (step_base h).2.2
      refine .inside pieces i [] (by rw [hsem', hsem]) hsemadj (by rw [hkilled, halive])
        (hparts.concat hnot List.nil_prefix) ?_ ?_ fun j hj => (hidle j).others hj h
      · rw [hleft]
        exact .strlen _
      · rw [hshared, List.append_nil]
        exact hmemory
    | kill i =>
      obtain ⟨-, hsem', hshared, -⟩ := step_kill h
      refine .outside pieces ?_ hparts (by rwa [hshared]) fun j => (hidle j).kill h
      rw [hsem', hsem, (hidle i).1]
  | inside pieces k written hsem hsemadj halive hparts hwriting hmemory hidle =>
    cases a with
    | step i =>
      rcases eq_or_ne i k with rfl | hik
      · exact Inv.step_inside hfit hnul hsem hsemadj halive hparts hwriting hmemory hidle h
      · have hpos := ((hidle i hik).enters h).1
        omega
    | kill i =>
      obtain ⟨-, hsem', hshared, hown, hleft, hsemadj', hkilled⟩ := step_kill h
      rcases eq_or_ne i k with rfl | hik
      · refine .outside (pieces ++ [(i, written)]) (by rw [hsem', hsem, hsemadj]) hparts ?_
          fun j => ?_
        · rw [hshared, content_concat]
          exact hmemory
        · rcases eq_or_ne j i with rfl | hj
          · exact idle_killed h
          · exact ((hidle j hj).kill h).concat hj written
      · refine .inside pieces k written ?_ ?_ ?_ hparts ?_ (by rwa [hshared])
          fun j hj => (hidle j hj).kill h
        · rw [hsem', hsem, (hidle i hik).1]
        · rw [hsemadj', Function.update_of_ne (Ne.symm hik), hsemadj]
        · rw [hkilled, Function.update_of_ne (Ne.symm hik), halive]
        · rw [hleft, hown, Function.update_of_ne (Ne.symm hik)]
          exact hwriting

omit [DecidableEq ι] in
theorem inv_start (line : ι → List Byte) : Inv line (start line) :=
  .outside [] rfl ⟨List.nodup_nil, nofun⟩ ⟨Nat.succ_pos _, rfl⟩ fun _ =>
    ⟨rfl, .inl ⟨rfl, rfl, List.not_mem_nil⟩⟩

/-- The child in its section can take a step, and any child that has not begun if there is
none. -/
theorem Inv.exists_step (hI : Inv line s) (h : ¬Ended s.base) :
    ∃ i t, ProcessSemaphore.step s (.step i) = some t := by
  have hstep : ∀ i t, Sections.step exec s.base i = some t →
      ∃ i t, ProcessSemaphore.step s (.step i) = some t := fun i t ht =>
    ⟨i, _, by simp only [ProcessSemaphore.step, ht, Option.bind_eq_bind, Option.bind_some]; rfl⟩
  cases hI with
  | outside pieces hsem hparts hmemory hidle =>
    obtain ⟨i, hi⟩ := not_forall.1 h
    obtain ⟨-, ⟨hleft, -, -⟩ | ⟨hleft, -⟩⟩ := hidle i
    · exact hstep i _ ((step_wait hleft).trans (if_pos (by omega)))
    · exact absurd hleft hi
  | inside pieces k written hsem hsemadj halive hparts hwriting =>
    generalize hleft : s.base.left k = left at hwriting
    generalize s.base.own k = own at hwriting
    cases hwriting with
    | strlen => exact hstep k _ (step_op hleft)
    | sprintf written rest => cases rest <;> exact hstep k _ (step_op hleft)
    | post => exact hstep k _ (step_post hleft)

omit [DecidableEq ι] in
/-- When all children have ended, the memory is made of what they have written. -/
theorem Inv.ended (hnul : ∀ i, 0 ∉ line i) (hI : Inv line s) (h : Ended s.base) :
    ∃ pieces, Pieces line pieces ∧ (∀ i, s.killed i = false → (i, line i) ∈ pieces) ∧
      cstr s.base.shared = content pieces := by
  cases hI with
  | outside pieces hsem hparts hmemory hidle =>
    refine ⟨pieces, hparts, fun i halive => ?_, hmemory.cstr_eq (hparts.no_nul hnul)⟩
    obtain ⟨-, ⟨hleft, -, -⟩ | ⟨-, hmem⟩⟩ := hidle i
    · rw [h i] at hleft
      cases hleft
    · exact hmem halive
  | inside pieces k written hsem hsemadj halive hparts hwriting =>
    have hnil := h k
    generalize s.base.left k = left at hwriting hnil
    generalize s.base.own k = own at hwriting
    cases hwriting with
    | strlen => cases hnil
    | sprintf _ rest => cases rest <;> cases hnil
    | post => cases hnil

/-! ## The two children -/

/-- `"Child process %d wrote to shared memory\n"`, for `i + 1`. -/
def message (i : Fin 2) : List Byte :=
  bytes "Child process " ++ bytes (toString (i.val + 1)) ++ bytes " wrote to shared memory\n"

theorem message_fits : ∑ i, (message i).length < SHM_SIZE := by
  decide

theorem message_no_nul : ∀ i, 0 ∉ message i := by
  decide

/-- Whatever children are killed, and at whatever points, the ones that are left are not
blocked, and when all have ended the string in the memory consists of one piece for each child
at most : the whole line of a child that was not killed, and a part of the line of one that
was. -/
theorem lines_kept {s : State (Fin 2)} (h : (children message).Reachable s) :
    (¬Ended s.base → ∃ i t, step s (.step i) = some t) ∧
    (Ended s.base → ∃ pieces, Pieces message pieces ∧
      (∀ i, s.killed i = false → (i, message i) ∈ pieces) ∧
      cstr s.base.shared = content pieces) := by
  have hI : Inv message s :=
    System.Reachable.invariant (fun _ hs => hs ▸ inv_start _)
      (fun _ _ _ hI hstep => hI.step message_fits message_no_nul hstep) h
  exact ⟨hI.exists_step, hI.ended message_no_nul⟩

/-- A child is killed in its section, and the other one goes on. -/
theorem lines_kept_kill : ∃ s, (children message).run
    (start message) [.step 0, .step 0, .step 0, .kill 0] = some s ∧
      s.base.shared.head? = some 67 ∧ ∃ i t, step s (.step i) = some t := by
  obtain ⟨s, hs, hhead, hleft⟩ : ∃ s, (children message).run
      (start message) [.step 0, .step 0, .step 0, .kill 0] = some s ∧
        s.base.shared.head? = some 67 ∧ s.base.left 1 = child (message 1) :=
    ⟨_, rfl, rfl, rfl⟩
  refine ⟨s, hs, hhead, (lines_kept ⟨_, _, rfl, hs⟩).1 fun hended => ?_⟩
  cases hleft.symm.trans (hended 1)

end ProcessSemaphore

end NetCentric
