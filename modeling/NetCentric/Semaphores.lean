import NetCentric.CString
import NetCentric.Sections

/-!
# Two processes that print, with a semaphore and without

`charatatime` prints a string one character at a time, on an unbuffered `stdout`. In
`race_condition.c` a parent and its child do so at once. `unnamed_semaphore.c` and
`named_semaphore.c` have them wait for a semaphore before, and post it after. The semaphore is
made with the value one, but `sem_open` takes a named one that is left from before as it is.

`race_outputs` : without the semaphore the output is any interleaving of the two strings.
`semaphore_outputs` : with a semaphore of value one it is one string and then the other, in
either order, with a larger value it is any interleaving again, and with the value zero
neither process prints anything or comes to its end.
-/

namespace NetCentric

namespace Semaphores

open Sections

/-- What is printed, each character with its process. -/
abbrev Output := List (Side × Byte)

/-- `putc(c, stdout)`. -/
def exec (i : Side) (c : Byte) : Output × Unit → Output × Unit
  | (output, _) => (output ++ [(i, c)], ())

/-- `charatatime` : the characters up to the NUL. -/
def charatatime (str : List Byte) : List Byte :=
  cstr str

/-- `main` of `race_condition.c` after the `fork`, for these strings. -/
def startRace (str : Side → List Byte) : State Side Byte Output Unit where
  sem := 0
  shared := []
  own _ := ()
  left i := (charatatime (str i)).map .op

/-- The processes of `race_condition.c`. -/
def raceCondition (str : Side → List Byte) : System (State Side Byte Output Unit) Side :=
  processes exec fun s => s = startRace str

/-- The sections of the processes, between `sem_wait` and `sem_post`. -/
def guarded (str : Side → List Byte) : Atomic Side Byte Output Unit where
  shared := []
  own _ := ()
  todo i := [charatatime (str i)]

/-- The processes of `unnamed_semaphore.c` and `named_semaphore.c` after the `fork`, with a
semaphore of this value. -/
def semaphore (value : ℕ) (str : Side → List Byte) :
    System (State Side Byte Output Unit) Side :=
  processes exec fun s => s = start value (guarded str)

/-! ## Each process prints its string -/

/-- What a process has printed. -/
def printed (i : Side) (output : Output) : List Byte :=
  (output.filter (·.1 = i)).map Prod.snd

@[simp] theorem printed_nil (i : Side) : printed i [] = [] :=
  rfl

theorem printed_append (i : Side) (o o' : Output) :
    printed i (o ++ o') = printed i o ++ printed i o' := by
  simp [printed]

@[simp] theorem printed_cons_self (i : Side) (c : Byte) (o : Output) :
    printed i ((i, c) :: o) = c :: printed i o := by
  simp [printed]

@[simp] theorem printed_cons_ne {i j : Side} (h : j ≠ i) (c : Byte) (o : Output) :
    printed i ((j, c) :: o) = printed i o := by
  simp [printed, h]

theorem printed_map_self (i : Side) (text : List Byte) :
    printed i (text.map fun c => (i, c)) = text := by
  induction text with
  | nil => rfl
  | cons c text ih => rw [List.map_cons, printed_cons_self, ih]

theorem printed_map_ne {i j : Side} (h : j ≠ i) (text : List Byte) :
    printed i (text.map fun c => (j, c)) = [] := by
  induction text with
  | nil => rfl
  | cons c text ih => rw [List.map_cons, printed_cons_ne h, ih]

/-- What an instruction prints. -/
def emits : Instr Byte → List Byte
  | .op c => [c]
  | _ => []

/-- The characters that a process has yet to print. -/
def pending (is : List (Instr Byte)) : List Byte :=
  is.flatMap emits

theorem pending_cons (x : Instr Byte) (is : List (Instr Byte)) :
    pending (x :: is) = emits x ++ pending is :=
  List.flatMap_cons

theorem pending_map_op (text : List Byte) (is : List (Instr Byte)) :
    pending (text.map .op ++ is) = text ++ pending is := by
  induction text with
  | nil => rfl
  | cons c text ih =>
    rw [List.map_cons, List.cons_append, pending_cons, ih]
    rfl

variable {str : Side → List Byte} {s t : State Side Byte Output Unit} {i : Side}

/-- A step prints what the instruction prints. -/
theorem step_prints (h : step exec s i = some t) : ∃ x is, s.left i = x :: is ∧
    t.left = Function.update s.left i is ∧
    t.shared = s.shared ++ (emits x).map fun c => (i, c) := by
  obtain ⟨is, ⟨hleft, -, rfl⟩ | ⟨hleft, rfl⟩ | ⟨c, hleft, rfl⟩⟩ := step_cases h
  · exact ⟨.wait, is, hleft, rfl, (List.append_nil _).symm⟩
  · exact ⟨.post, is, hleft, rfl, (List.append_nil _).symm⟩
  · exact ⟨.op c, is, hleft, rfl, rfl⟩

/-- What is printed and what is pending make up the strings. -/
def Prints (str : Side → List Byte) (s : State Side Byte Output Unit) : Prop :=
  ∀ i, printed i s.shared ++ pending (s.left i) = charatatime (str i)

theorem prints_startRace : Prints str (startRace str) := fun i => by
  have h := pending_map_op (charatatime (str i)) []
  rwa [List.append_nil, show pending [] = [] from rfl, List.append_nil] at h

theorem left_start (str : Side → List Byte) (value : ℕ) (i : Side) :
    (start value (guarded str)).left i =
      .wait :: ((charatatime (str i)).map .op ++ [.post]) :=
  sections_cons _ _

theorem prints_start (value : ℕ) : Prints str (start value (guarded str)) := fun i => by
  rw [left_start, pending_cons, pending_map_op]
  exact List.append_nil _

theorem Prints.step (hp : Prints str s) (h : step exec s i = some t) : Prints str t := fun j => by
  obtain ⟨x, is, hleft, hupdate, hshared⟩ := step_prints h
  rw [← hp j, hshared, hupdate, printed_append, List.append_assoc]
  rcases eq_or_ne j i with rfl | hne
  · rw [Function.update_self, printed_map_self, hleft, pending_cons]
  · rw [Function.update_of_ne hne, printed_map_ne hne.symm, List.nil_append]

/-- At their ends both processes have printed their strings. -/
theorem Prints.ended (hp : Prints str s) (h : Ended s) (i : Side) :
    printed i s.shared = charatatime (str i) := by
  rw [← hp i, h i, pending, List.flatMap_nil, List.append_nil]

/-! ## Every interleaving -/

/-- Processes that are not held up can print any interleaving of what is pending. -/
theorem leads_interleaving {tail : Side → List (Instr Byte)} {o : Output}
    (h : ∀ i, s.left i = (printed i o).map .op ++ tail i) :
    ∃ t, Leads exec s t ∧ t.sem = s.sem ∧ t.shared = s.shared ++ o ∧ t.left = tail := by
  induction o generalizing s with
  | nil => exact ⟨s, .refl s, rfl, (List.append_nil _).symm, funext h⟩
  | cons x o ih =>
    obtain ⟨i, c⟩ := x
    have hleft : s.left i = .op c :: ((printed i o).map .op ++ tail i) := by
      rw [h i, printed_cons_self, List.map_cons, List.cons_append]
    obtain ⟨t, ht, hsem, hshared, hend⟩ := ih (s := { s with
        shared := s.shared ++ [(i, c)]
        left := Function.update s.left i ((printed i o).map .op ++ tail i) }) (fun j => by
      dsimp only
      rcases eq_or_ne j i with rfl | hne
      · rw [Function.update_self]
      · rw [Function.update_of_ne hne, h j, printed_cons_ne hne.symm])
    refine ⟨t, (Leads.single (step_op hleft)).trans ht, hsem, ?_, hend⟩
    rw [hshared, List.append_assoc]
    rfl

/-- Without a semaphore, the processes print any interleaving of their strings, and nothing
else. -/
theorem race_outputs (str : Side → List Byte) (o : Output) :
    (∃ s, (raceCondition str).Reachable s ∧ Ended s ∧ s.shared = o) ↔
      ∀ i, printed i o = charatatime (str i) := by
  constructor
  · rintro ⟨s, hs, hended, rfl⟩
    have hp : Prints str s := System.Reachable.invariant (fun _ h => h ▸ prints_startRace)
      (fun _ _ _ hp hstep => hp.step hstep) hs
    exact hp.ended hended
  · intro ho
    have hleft : ∀ i, (startRace str).left i = (printed i o).map .op ++ [] := fun i => by
      rw [ho i, List.append_nil]
      rfl
    obtain ⟨t, ht, -, hshared, hend⟩ := leads_interleaving hleft
    exact ⟨t, ht.reachable ⟨_, [], rfl, rfl⟩, fun i => by rw [hend], hshared⟩

/-! ## With a semaphore -/

/-- The string of a process, as it prints it. -/
def text (str : Side → List Byte) (i : Side) : Output :=
  (charatatime (str i)).map fun c => (i, c)

theorem execAll_text (i : Side) (m : Output × Unit) (text : List Byte) :
    execAll exec i m text = (m.1 ++ text.map fun c => (i, c), ()) := by
  induction text generalizing m with
  | nil => simp [execAll]
  | cons c text ih =>
    have hcons : execAll exec i m (c :: text) = execAll exec i (exec i c m) text := rfl
    rw [hcons, ih]
    simp [exec]

/-- The sections, in the order in which the processes do them. -/
theorem atomic_shared {u v : Atomic Side Byte Output Unit} {order : List Side}
    (hu : ∀ i, ∀ ops ∈ u.todo i, ops = charatatime (str i))
    (h : (atomic exec).run u order = some v) :
    v.shared = u.shared ++ order.flatMap (text str) := by
  induction order generalizing u with
  | nil =>
    obtain rfl := Option.some.inj h
    exact (List.append_nil _).symm
  | cons i order ih =>
    obtain ⟨w, hw, hv⟩ := System.run_cons_eq_some _ |>.1 h
    obtain ⟨ops, secs, htodo, hshared, -, hupdate⟩ := atomicStep_cases hw
    obtain rfl : ops = charatatime (str i) := hu i ops (by simp [htodo])
    have hw' : ∀ j, ∀ ops ∈ w.todo j, ops = charatatime (str j) := fun j ops hops => by
      rw [hupdate] at hops
      rcases eq_or_ne j i with rfl | hne
      · rw [Function.update_self] at hops
        exact hu j ops (by simp [htodo, hops])
      · rw [Function.update_of_ne hne] at hops
        exact hu j ops hops
    rw [ih hw' hv, hshared, execAll_text, List.flatMap_cons, List.append_assoc]
    rfl

/-- With the value one, the one string comes after the other. -/
theorem outputs_one (str : Side → List Byte) (o : Output) :
    (∃ s, (semaphore 1 str).Reachable s ∧ Ended s ∧ s.shared = o) ↔
      o = text str .parent ++ text str .child ∨ o = text str .child ++ text str .parent := by
  have hguarded : ∀ i, ∀ ops ∈ (guarded str).todo i, ops = charatatime (str i) :=
    fun i ops hops => List.mem_singleton.1 hops
  constructor
  · rintro ⟨s, ⟨s₀, as, rfl, hrun⟩, hended, rfl⟩
    obtain ⟨order, v, hv, htodo, rfl⟩ := ended_atomic hrun hended
    have hcount : ∀ i, order.count i = 1 := fun i => by
      have := count_add_length hv i
      rwa [htodo, List.length_nil] at this
    change v.shared = _ ∨ v.shared = _
    rw [atomic_shared hguarded hv]
    rcases order_side (hcount .parent) (hcount .child) with rfl | rfl
    · exact .inl (by simp [guarded])
    · exact .inr (by simp [guarded])
  · have hboth : ∀ order v, (atomic exec).run (guarded str) order = some v →
        (∀ i, v.todo i = []) → ∃ s, (semaphore 1 str).Reachable s ∧ Ended s ∧
          s.shared = order.flatMap (text str) := fun order v hv htodo =>
      ⟨start 1 v, (leads_atomic hv 0).reachable ⟨_, [], rfl, rfl⟩,
        fun i => by rw [start_left, htodo i, sections_nil], atomic_shared hguarded hv⟩
    rintro (rfl | rfl)
    · obtain ⟨s, hs, hended, hshared⟩ := hboth [.parent, .child] _ rfl fun i => by cases i <;> rfl
      exact ⟨s, hs, hended, by simpa using hshared⟩
    · obtain ⟨s, hs, hended, hshared⟩ := hboth [.child, .parent] _ rfl fun i => by cases i <;> rfl
      exact ⟨s, hs, hended, by simpa using hshared⟩

/-- With the value zero no process takes a step. -/
theorem reachable_zero (h : (semaphore 0 str).Reachable s) : s = start 0 (guarded str) := by
  refine System.Reachable.invariant (fun _ hs => hs) (fun s i t hs hstep => ?_) h
  have hnone : step exec (start 0 (guarded str)) i = none :=
    (step_wait (left_start str 0 i)).trans (if_neg (Nat.lt_irrefl 0))
  rw [hs] at hstep
  cases hnone.symm.trans hstep

/-- A larger value lets both processes into their sections. -/
theorem leads_both (value : ℕ) (str : Side → List Byte) :
    ∃ t, Leads exec (start (value + 2) (guarded str)) t ∧ t.shared = [] ∧
      ∀ i, t.left i = (charatatime (str i)).map .op ++ [.post] := by
  obtain ⟨s, hs, hsem, hshared, hparent, hothers⟩ :=
    exists_leads_wait (left_start str (value + 2) .parent) rfl
  obtain ⟨t, ht, -, hshared', hchild, hothers'⟩ :=
    exists_leads_wait ((hothers .child nofun).trans (left_start str _ _)) hsem
  refine ⟨t, hs.trans ht, hshared'.trans hshared, fun i => ?_⟩
  cases i with
  | parent => exact (hothers' .parent nofun).trans hparent
  | child => exact hchild

/-- Processes that have printed their strings leave their sections. -/
theorem leads_leave (h : s.left = fun _ => [.post]) :
    ∃ t, Leads exec s t ∧ t.shared = s.shared ∧ Ended t := by
  obtain ⟨t, ht, hshared, hparent, hothers⟩ := exists_leads_post (congrFun h .parent)
  obtain ⟨u, hu, hshared', hchild, hothers'⟩ :=
    exists_leads_post ((hothers .child nofun).trans (congrFun h .child))
  exact ⟨u, ht.trans hu, hshared'.trans hshared,
    ended_side ((hothers' .parent nofun).trans hparent) hchild⟩

/-- With a value of two or more the processes print any interleaving of their strings. -/
theorem outputs_more (value : ℕ) (str : Side → List Byte) (o : Output) :
    (∃ s, (semaphore (value + 2) str).Reachable s ∧ Ended s ∧ s.shared = o) ↔
      ∀ i, printed i o = charatatime (str i) := by
  constructor
  · rintro ⟨s, hs, hended, rfl⟩
    have hp : Prints str s := System.Reachable.invariant (fun _ h => h ▸ prints_start _)
      (fun _ _ _ hp hstep => hp.step hstep) hs
    exact hp.ended hended
  · intro ho
    obtain ⟨s, hs, hempty, hleft⟩ := leads_both value str
    have hleft' : ∀ i, s.left i = (printed i o).map .op ++ [.post] := fun i => by
      rw [ho i, hleft i]
    obtain ⟨t, ht, -, hshared, hend⟩ := leads_interleaving hleft'
    obtain ⟨u, hu, hshared', hended⟩ := leads_leave hend
    refine ⟨u, (hs.trans (ht.trans hu)).reachable ⟨_, [], rfl, rfl⟩, hended, ?_⟩
    rw [hshared', hshared, hempty, List.nil_append]

/-- What the processes print with a semaphore of any value when they come to their ends. With
the value zero they come to no end, and with one they do from every state. -/
theorem semaphore_outputs (value : ℕ) (str : Side → List Byte) (o : Output) :
    ((∃ s, (semaphore value str).Reachable s ∧ Ended s ∧ s.shared = o) ↔
      value = 1 ∧ (o = text str .parent ++ text str .child ∨
        o = text str .child ++ text str .parent) ∨
      2 ≤ value ∧ ∀ i, printed i o = charatatime (str i)) ∧
    (value = 0 → ∀ s, (semaphore value str).Reachable s → s = start 0 (guarded str)) ∧
    (value = 1 → ∀ s, (semaphore value str).Reachable s →
      ∃ as t, (semaphore value str).run s as = some t ∧ Ended t) := by
  refine ⟨?_, ?_, ?_⟩
  · match value with
    | 0 =>
      refine iff_of_false ?_ (by rintro (⟨h, -⟩ | ⟨h, -⟩) <;> omega)
      rintro ⟨s, hs, hended, -⟩
      have hparent := hended .parent
      rw [reachable_zero hs, left_start] at hparent
      cases hparent
    | 1 => simpa using outputs_one str o
    | value + 2 => simpa using outputs_more value str o
  · rintro rfl s hs
    exact reachable_zero hs
  · rintro rfl s ⟨s₀, as, rfl, hrun⟩
    obtain ⟨order, u, -, hf⟩ := (Follows.outside (guarded str)).run hrun
    exact hf.exists_run_ended

end Semaphores

end NetCentric
