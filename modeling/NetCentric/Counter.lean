import NetCentric.CInt
import NetCentric.Sections
import Mathlib.Data.Fintype.Basic
import Mathlib.Algebra.BigOperators.Ring.Finset
import Mathlib.Algebra.Order.Ring.Int

/-!
# The counter of two threads, with a mutex and without

Each thread of `mutex/main.c` loads the counter, prints it plus one, and stores it plus one,
`NLOOP` times and each time under the mutex. In `non_mutex/main.c` the lock and the unlock are
commented out. The practice program `q15` has five threads that add one under a mutex, each
its own number of times.

`locked_count` : under the mutex the values printed are `1`, `2`, `3`, … in this order, in every
state of every run, and the counter ends at the number of rounds. `final_counts` : without it
the final values are exactly the numbers from `2` to `2 * NLOOP`. The counter is an `int` : both
are about as many rounds as it can count.
-/

open Finset

namespace NetCentric

namespace Counter

open Sections

/-- What a thread does with the counter. -/
inductive Op
  /-- `val = counter`. -/
  | load
  /-- `printf("%lu: %d\n", pthread_self(), val + 1)`. -/
  | print
  /-- `counter = val + 1`. -/
  | store
  deriving DecidableEq

/-- The counter, and the lines printed, each with its thread. -/
structure Memory (ι : Type*) where
  counter : ℤ
  output : List (ι × ℤ)
  deriving DecidableEq

variable {ι : Type*}

/-- An operation of the thread `i`, whose own memory is `val`. -/
def exec (i : ι) : Op → Memory ι × ℤ → Memory ι × ℤ
  | .load, (m, _) => (m, m.counter)
  | .print, (m, val) => ({ m with output := m.output ++ [(i, val + 1)] }, val)
  | .store, (m, val) => ({ m with counter := val + 1 }, val)

/-- The loop of `doit` between the lock and the unlock. -/
def round : List Op :=
  [.load, .print, .store]

/-- `counter += 1`. -/
def increment : List Op :=
  [.load, .store]

/-- `doit` of `mutex/main.c` with so many rounds, as sections, and `incrementCounter`. -/
def rounds (body : List Op) (n : ℕ) : List (List Op) :=
  List.replicate n body

/-- `doit` of `non_mutex/main.c` with so many rounds. -/
def unlocked : ℕ → List (Instr Op)
  | 0 => []
  | n + 1 => .op .load :: .op .print :: .op .store :: unlocked n

/-- The threads before their first rounds, where the thread `i` has `n i` of them. -/
def start (body : List Op) (n : ι → ℕ) : Atomic ι Op (Memory ι) ℤ where
  shared := ⟨0, []⟩
  own _ := 0
  todo i := rounds body (n i)

/-- The threads and their mutex. -/
def locked [DecidableEq ι] (body : List Op) (n : ι → ℕ) :
    System (State ι Op (Memory ι) ℤ) ι :=
  processes exec fun s => s = Sections.start 1 (start body n)

/-! ## With the mutex -/

variable {body : List Op} {n : ι → ℕ}

/-- The lines printed are numbered from one. -/
def Numbered (m : Memory ι) : Prop :=
  m.output.map Prod.snd = (List.range m.output.length).map fun k : ℕ => (k : ℤ) + 1

/-- One more line. -/
theorem Numbered.concat {m : Memory ι} (h : Numbered m) {i : ι} {counter : ℤ}
    (hcounter : m.counter = m.output.length) :
    Numbered ⟨counter, m.output ++ [(i, m.counter + 1)]⟩ := by
  simp only [Numbered, List.map_append, List.length_append, List.length_singleton,
    List.range_succ, List.map_singleton] at h ⊢
  rw [h, hcounter]

theorem execAll_round (i : ι) (m : Memory ι) (val : ℤ) : execAll exec i (m, val) round =
    (⟨m.counter + 1, m.output ++ [(i, m.counter + 1)]⟩, m.counter) :=
  rfl

theorem execAll_increment (i : ι) (m : Memory ι) (val : ℤ) : execAll exec i (m, val) increment =
    (⟨m.counter + 1, m.output⟩, m.counter) :=
  rfl

/-- A round adds one, with a line printed and without. -/
theorem execAll_counter (hbody : body = round ∨ body = increment) (i : ι) (m : Memory ι × ℤ) :
    (execAll exec i m body).1.counter = m.1.counter + 1 := by
  rcases hbody with rfl | rfl
  · rw [execAll_round]
  · rw [execAll_increment]

/-- The sections left are rounds, and with them the counter is complete. -/
structure Counted [Fintype ι] (body : List Op) (n : ι → ℕ) (u : Atomic ι Op (Memory ι) ℤ) :
    Prop where
  todo : ∀ i, ∀ ops ∈ u.todo i, ops = body
  counter : u.shared.counter + ∑ i, ((u.todo i).length : ℤ) = ∑ i, (n i : ℤ)

/-- The lines printed are those of the rounds done. -/
structure Printed (n : ι → ℕ) (u : Atomic ι Op (Memory ι) ℤ) [DecidableEq ι] : Prop where
  counter : u.shared.counter = u.shared.output.length
  numbered : Numbered u.shared
  lines : ∀ i, u.shared.output.countP (·.1 = i) + (u.todo i).length = n i

variable [DecidableEq ι] {u v : Atomic ι Op (Memory ι) ℤ} {i : ι}

omit [DecidableEq ι] in
theorem counted_start [Fintype ι] : Counted body n (start body n) where
  todo i ops hops := List.eq_of_mem_replicate hops
  counter := by simp [start, rounds]

theorem printed_start : Printed n (start round n) where
  counter := rfl
  numbered := rfl
  lines i := by simp [start, rounds]

theorem Counted.step [Fintype ι] (hbody : body = round ∨ body = increment)
    (hc : Counted body n u) (h : atomicStep exec u i = some v) : Counted body n v := by
  obtain ⟨ops, secs, htodo, hshared, -, hupdate⟩ := atomicStep_cases h
  obtain rfl : ops = body := hc.todo i ops (by simp [htodo])
  refine ⟨fun j ops' hops' => ?_, ?_⟩
  · rw [hupdate] at hops'
    by_cases hj : j = i
    · subst hj
      rw [Function.update_self] at hops'
      exact hc.todo j ops' (by simp [htodo, hops'])
    · rw [Function.update_of_ne hj] at hops'
      exact hc.todo j ops' hops'
  · have hsum := Threads.sum_update (fun secs => (List.length secs : ℤ)) u.todo i secs
    have hcounter := hc.counter
    rw [htodo, List.length_cons, Nat.cast_succ] at hsum
    rw [hshared, execAll_counter hbody, hupdate]
    dsimp only
    omega

theorem Printed.step (htodo : ∀ i, ∀ ops ∈ u.todo i, ops = round) (hp : Printed n u)
    (h : atomicStep exec u i = some v) : Printed n v := by
  obtain ⟨ops, secs, hi, hshared, -, hupdate⟩ := atomicStep_cases h
  obtain rfl : ops = round := htodo i ops (by simp [hi])
  rw [execAll_round] at hshared
  refine ⟨by simp [hshared, hp.counter], hshared ▸ hp.numbered.concat hp.counter, fun j => ?_⟩
  have hlines := hp.lines j
  rw [hshared, hupdate, List.countP_append, List.countP_singleton]
  by_cases hj : j = i
  · subst hj
    rw [hi, List.length_cons] at hlines
    simp only [Function.update_self, decide_true, if_true]
    omega
  · simp only [Function.update_of_ne hj, Ne.symm hj, decide_false, Bool.false_eq_true, if_false]
    omega

omit [DecidableEq ι] in
/-- In the middle of a round the line of the round is printed or not yet, and the counter is
as before or one more. -/
theorem prefix_round {done ops : List Op} (h : done ++ ops = round) (i : ι) (m : Memory ι)
    (val : ℤ) :
    ((execAll exec i (m, val) done).1.output = m.output ∨
      (execAll exec i (m, val) done).1.output = m.output ++ [(i, m.counter + 1)]) ∧
    ((execAll exec i (m, val) done).1.counter = m.counter ∨
      (execAll exec i (m, val) done).1.counter = m.counter + 1) := by
  have hmem : done ∈ round.inits := (List.mem_inits done round).2 ⟨ops, h⟩
  simp only [round, List.inits, List.map_cons, List.map_nil, List.mem_cons, List.not_mem_nil,
    or_false] at hmem
  rcases hmem with rfl | rfl | rfl | rfl
  · exact ⟨.inl rfl, .inl rfl⟩
  · exact ⟨.inl rfl, .inl rfl⟩
  · exact ⟨.inr rfl, .inl rfl⟩
  · exact ⟨.inr rfl, .inr rfl⟩

omit [DecidableEq ι] in
theorem Counted.le [Fintype ι] (hc : Counted body n u) :
    u.shared.counter ≤ ∑ i, (n i : ℤ) := by
  have hnonneg : 0 ≤ ∑ i, ((u.todo i).length : ℤ) := sum_nonneg fun i _ => Int.natCast_nonneg _
  have hcounter := hc.counter
  omega

omit [DecidableEq ι] in
/-- The round of a thread that is in its section is still to be counted. -/
theorem Counted.lt [Fintype ι] (hc : Counted body n u) {k : ι} {ops : List Op}
    {secs : List (List Op)} (h : u.todo k = ops :: secs) :
    u.shared.counter < ∑ i, (n i : ℤ) := by
  have hle : ((u.todo k).length : ℤ) ≤ ∑ i, ((u.todo i).length : ℤ) :=
    single_le_sum (f := fun i => ((u.todo i).length : ℤ)) (fun i _ => Int.natCast_nonneg _)
      (mem_univ k)
  have hcounter := hc.counter
  rw [h, List.length_cons] at hle
  push_cast at hle
  omega

/-- In the middle of a round or not, the lines are numbered from one, and there are no more
of them than rounds. -/
theorem Counted.follows [Fintype ι] {s : State ι Op (Memory ι) ℤ} (hc : Counted round n u)
    (hp : Printed n u) (hf : Follows exec s u) :
    Numbered s.shared ∧ (s.shared.output.length : ℤ) ≤ ∑ i, (n i : ℤ) ∧
      0 ≤ s.shared.counter ∧ s.shared.counter ≤ ∑ i, (n i : ℤ) := by
  have hlength := hp.counter
  have hle := hc.le
  cases hf with
  | outside =>
    have hnonneg : 0 ≤ u.shared.counter := hlength ▸ Int.natCast_nonneg _
    exact ⟨hp.numbered, hlength ▸ hle, hnonneg, hle⟩
  | inside k done ops secs hsem htodo hmemory =>
    have hround := hc.todo k (done ++ ops) (by simp [htodo])
    have hlt := hc.lt htodo
    obtain ⟨houtput, hcounter⟩ := prefix_round hround k u.shared (u.own k)
    rw [← hmemory] at houtput hcounter
    dsimp only at houtput hcounter
    have hconcat : Numbered ⟨0, u.shared.output ++ [(k, u.shared.counter + 1)]⟩ :=
      hp.numbered.concat hp.counter
    refine ⟨?_, ?_, by omega, by omega⟩
    · rw [Numbered]
      rcases houtput with h | h <;> rw [h]
      · exact hp.numbered
      · exact hconcat
    · rcases houtput with h | h <;> rw [h]
      · omega
      · rw [List.length_append, List.length_singleton]
        push_cast
        omega

omit [DecidableEq ι] in
/-- The number of a line is at most the number of lines. -/
theorem Numbered.mem_le {m : Memory ι} (h : Numbered m) {line : ι × ℤ} (hline : line ∈ m.output) :
    0 < line.2 ∧ line.2 ≤ m.output.length := by
  have hmem : line.2 ∈ m.output.map Prod.snd := List.mem_map_of_mem hline
  rw [h] at hmem
  obtain ⟨k, hk, heq⟩ := List.mem_map.1 hmem
  have hlt := List.mem_range.1 hk
  omega

/-- The counter ends at the number of all rounds, for `doit` and for `incrementCounter`. -/
theorem locked_total [Fintype ι] (hbody : body = round ∨ body = increment)
    {s : State ι Op (Memory ι) ℤ} (h : (locked body n).Reachable s) (hended : Ended s) :
    s.shared.counter = ∑ i, (n i : ℤ) := by
  obtain ⟨s₀, as, rfl, hrun⟩ := h
  obtain ⟨order, u, hu, htodo, rfl⟩ := ended_atomic hrun hended
  have hc : Counted body n u :=
    System.run_invariant (fun _ _ _ hI hstep => hI.step hbody hstep) counted_start hu
  have hcounter := hc.counter
  simp only [htodo, List.length_nil, Nat.cast_zero, sum_const_zero, add_zero] at hcounter
  exact hcounter

/-- Under the mutex the values printed are `1`, `2`, `3`, … in every state of a run. From
everywhere the threads can come to their ends, and then each has printed a line in each of its
rounds, and the counter is the number of all rounds. Nothing overflows if that is an `int`. -/
theorem locked_count [Fintype ι] {s : State ι Op (Memory ι) ℤ} (hmax : ∑ i, (n i : ℤ) ≤ INT_MAX)
    (h : (locked round n).Reachable s) :
    (FitsInt s.shared.counter ∧ ∀ line ∈ s.shared.output, FitsInt line.2) ∧
    Numbered s.shared ∧
    (∃ as t, (locked round n).run s as = some t ∧ Ended t) ∧
    (Ended s → s.shared.counter = ∑ i, (n i : ℤ) ∧
      ∀ i, s.shared.output.countP (·.1 = i) = n i) := by
  have htotal := locked_total (.inl rfl) h
  obtain ⟨s₀, as, rfl, hrun⟩ := h
  obtain ⟨order, u, hu, hf⟩ := (Follows.outside (start round n)).run hrun
  obtain ⟨hc, hp⟩ : Counted round n u ∧ Printed n u :=
    System.run_invariant (I := fun u => Counted round n u ∧ Printed n u)
      (fun u i v hI hstep => ⟨hI.1.step (.inl rfl) hstep, hI.2.step hI.1.todo hstep⟩)
      ⟨counted_start, printed_start⟩ hu
  obtain ⟨hnumbered, hlength, hnonneg, hle⟩ := hc.follows hp hf
  refine ⟨⟨fitsInt_of_nonneg hnonneg (hle.trans hmax), fun line hline => ?_⟩, hnumbered,
    hf.exists_run_ended, fun hended => ⟨htotal hended, fun i => ?_⟩⟩
  · obtain ⟨hpos, hlast⟩ := hnumbered.mem_le hline
    exact fitsInt_of_nonneg hpos.le ((hlast.trans hlength).trans hmax)
  · obtain ⟨rfl, htodo⟩ := hf.ended hended
    have hlines := hp.lines i
    rwa [htodo, List.length_nil, Nat.add_zero] at hlines

/-- Two threads with a round each, one after the other. -/
theorem locked_count_two : ∃ s, (locked round fun _ : Bool => 1).run
    (Sections.start 1 (start round fun _ => 1))
      [true, true, true, true, true, false, false, false, false, false] = some s ∧
    s.shared.output = [(true, 1), (false, 2)] ∧ s.shared.counter = 2 := by
  obtain ⟨s, hs, houtput, hended⟩ : ∃ s, (locked round fun _ : Bool => 1).run
      (Sections.start 1 (start round fun _ => 1))
        [true, true, true, true, true, false, false, false, false, false] = some s ∧
      s.shared.output = [(true, 1), (false, 2)] ∧ Ended s :=
    ⟨_, rfl, rfl, fun i => by cases i <;> rfl⟩
  exact ⟨s, hs, houtput, ((locked_count (by decide) ⟨_, _, rfl, hs⟩).2.2.2 hended).1⟩

/-! ## Without the mutex -/

/-- The threads that `main` creates. -/
inductive Tid
  | tidA
  | tidB
  deriving DecidableEq

instance : Fintype Tid :=
  ⟨{.tidA, .tidB}, fun i => by cases i <;> simp⟩

/-- The threads of `non_mutex/main.c`. -/
def racing (ι : Type*) [DecidableEq ι] (n : ℕ) : System (State ι Op (Memory ι) ℤ) ι :=
  processes exec fun s => s = ⟨1, ⟨0, []⟩, fun _ => 0, fun _ => unlocked n⟩

/-- The operation after so many others. -/
def opAt (p : ℕ) : Op :=
  if p % 3 = 0 then .load else if p % 3 = 1 then .print else .store

theorem length_unlocked (n : ℕ) : (unlocked n).length = 3 * n := by
  induction n with
  | zero => rfl
  | succ n ih =>
    simp only [unlocked, List.length_cons, ih]
    omega

theorem drop_unlocked {n p : ℕ} (h : p < 3 * n) :
    (unlocked n).drop p = .op (opAt p) :: (unlocked n).drop (p + 1) := by
  induction n generalizing p with
  | zero => simp at h
  | succ n ih =>
    match p with
    | 0 => rfl
    | 1 => rfl
    | 2 => rfl
    | p + 3 =>
      have hmod : opAt (p + 3) = opAt p := by simp [opAt]
      rw [hmod]
      exact ih (by omega)

/-- The threads have taken `p i` steps each. What a thread has loaded after its first round is
at least one, so that what it stores then is at least two. -/
structure Raced [Fintype ι] (n : ℕ) (s : State ι Op (Memory ι) ℤ) (p : ι → ℕ) : Prop where
  left : ∀ i, s.left i = (unlocked n).drop (p i)
  le : ∀ i, p i ≤ 3 * n
  counter_le : s.shared.counter ≤ (∑ i, p i / 3 : ℕ)
  own_le : ∀ i, p i % 3 ≠ 0 → s.own i ≤ (∑ i, p i / 3 : ℕ)
  counter_ge : ∀ i, (min 1 (p i / 3) : ℕ) ≤ s.shared.counter
  own_ge : ∀ i, p i % 3 ≠ 0 → (min 1 (p i / 3) : ℕ) ≤ s.own i
  /-- The thread that has stored last. -/
  last : ∃ i, (min 2 (p i / 3) : ℕ) ≤ s.shared.counter

variable {N : ℕ} {s t : State ι Op (Memory ι) ℤ} {p : ι → ℕ}

omit [DecidableEq ι] in
theorem raced_start [Fintype ι] [Nonempty ι] :
    Raced N ⟨1, ⟨0, []⟩, fun _ : ι => 0, fun _ => unlocked N⟩ fun _ => 0 where
  left _ := rfl
  le _ := Nat.zero_le _
  counter_le := by simp
  own_le _ h := absurd rfl h
  counter_ge _ := le_rfl
  own_ge _ h := absurd rfl h
  last := ⟨Classical.arbitrary ι, le_rfl⟩

/-- The next operation of a thread, and the steps taken after it. -/
theorem Raced.next [Fintype ι] (hr : Raced N s p) (h : Sections.step exec s i = some t) :
    p i < 3 * N ∧ t.left = Function.update s.left i ((unlocked N).drop (p i + 1)) ∧
      t.shared = (exec i (opAt (p i)) (s.shared, s.own i)).1 ∧
      t.own = Function.update s.own i (exec i (opAt (p i)) (s.shared, s.own i)).2 := by
  have hlt : p i < 3 * N := by
    by_contra hge
    have hnil : s.left i = [] := by
      rw [hr.left i]
      exact List.drop_eq_nil_of_le (by rw [length_unlocked]; omega)
    simp [Sections.step, hnil] at h
  have hleft := (hr.left i).trans (drop_unlocked hlt)
  obtain rfl := Option.some.inj ((step_op hleft).symm.trans h)
  exact ⟨hlt, rfl, rfl, rfl⟩

omit [DecidableEq ι] in
/-- What the next operation does to the counter and to what the thread has loaded. -/
theorem exec_opAt (i : ι) (p : ℕ) (m : Memory ι) (val : ℤ) :
    p % 3 = 0 ∧ (exec i (opAt p) (m, val)).1.counter = m.counter ∧
      (exec i (opAt p) (m, val)).2 = m.counter ∨
    p % 3 = 1 ∧ (exec i (opAt p) (m, val)).1.counter = m.counter ∧
      (exec i (opAt p) (m, val)).2 = val ∨
    p % 3 = 2 ∧ (exec i (opAt p) (m, val)).1.counter = val + 1 ∧
      (exec i (opAt p) (m, val)).2 = val := by
  have hcases : p % 3 = 0 ∨ p % 3 = 1 ∨ p % 3 = 2 := by omega
  rcases hcases with h | h | h
  · exact .inl ⟨h, by simp [opAt, h, exec]⟩
  · exact .inr (.inl ⟨h, by simp [opAt, h, exec]⟩)
  · exact .inr (.inr ⟨h, by simp [opAt, h, exec]⟩)

theorem Raced.step [Fintype ι] (hr : Raced N s p) (h : Sections.step exec s i = some t) :
    Raced N t (Function.update p i (p i + 1)) := by
  obtain ⟨hlt, hleft, hshared, hown⟩ := hr.next h
  obtain ⟨l, hlast⟩ := hr.last
  have hsum := Threads.sum_update (· / 3) p i (p i + 1)
  have hlow := hr.counter_ge i
  have hhigh := hr.counter_le
  have hlow' := hr.own_ge i
  have hhigh' := hr.own_le i
  have hself : Function.update p i (p i + 1) i = p i + 1 := Function.update_self ..
  have hne : ∀ j ≠ i, Function.update p i (p i + 1) j = p j := fun j hj =>
    Function.update_of_ne hj ..
  have hownSelf : t.own i = (exec i (opAt (p i)) (s.shared, s.own i)).2 := by
    rw [hown, Function.update_self]
  have hownNe : ∀ j ≠ i, t.own j = s.own j := fun j hj => by
    rw [hown, Function.update_of_ne hj]
  have hcases := exec_opAt i (p i) s.shared (s.own i)
  rw [← hshared, ← hownSelf] at hcases
  refine ⟨fun j => ?_, fun j => ?_, ?_, fun j hj => ?_, fun j => ?_, fun j hj => ?_, ?_⟩
  · rcases eq_or_ne j i with rfl | hj
    · rw [hleft, Function.update_self, hself]
    · rw [hleft, Function.update_of_ne hj, hne j hj, hr.left j]
  · rcases eq_or_ne j i with rfl | hj
    · omega
    · rw [hne j hj]
      exact hr.le j
  · omega
  · rcases eq_or_ne j i with rfl | hji
    · omega
    · rw [hne j hji] at hj
      have := hr.own_le j hj
      rw [hownNe j hji]
      omega
  · rcases eq_or_ne j i with rfl | hji
    · omega
    · have := hr.counter_ge j
      rw [hne j hji]
      omega
  · rcases eq_or_ne j i with rfl | hji
    · omega
    · rw [hne j hji] at hj ⊢
      have := hr.own_ge j hj
      rw [hownNe j hji]
      omega
  · -- a store makes the thread the last one
    by_cases hstore : p i % 3 = 2
    · exact ⟨i, by omega⟩
    · refine ⟨l, ?_⟩
      rcases eq_or_ne l i with rfl | hli
      · omega
      · rw [hne l hli]
        omega

/-- Every state of a run is reached by so many steps of each thread. -/
theorem Raced.of_reachable [Fintype ι] [Nonempty ι] (h : (racing ι N).Reachable s) :
    ∃ p, Raced N s p :=
  System.Reachable.invariant (I := fun s => ∃ p, Raced N s p) (fun _ hs => ⟨_, hs ▸ raced_start⟩)
    (fun _ _ _ ⟨_, hr⟩ hstep => ⟨_, hr.step hstep⟩) h

omit [DecidableEq ι] in
/-- At their ends the threads have stored in each of their rounds. -/
theorem Raced.ended [Fintype ι] (hr : Raced N s p) (h : Ended s) (i : ι) : p i = 3 * N := by
  have hnil := h i
  rw [hr.left, List.drop_eq_nil_iff, length_unlocked] at hnil
  have := hr.le i
  omega

omit [DecidableEq ι] in
/-- No counter ends below two, or above the number of all rounds. -/
theorem Raced.bounds [Fintype ι] [Nonempty ι] (hr : Raced N s p) (h : Ended s) :
    (min 2 N : ℕ) ≤ s.shared.counter ∧ s.shared.counter ≤ (Fintype.card ι * N : ℕ) := by
  have hdiv : ∀ i, p i / 3 = N := fun i => by
    rw [hr.ended h i]
    omega
  obtain ⟨l, hlast⟩ := hr.last
  have hhigh := hr.counter_le
  rw [hdiv] at hlast
  rw [sum_congr rfl fun i _ => hdiv i, sum_const, card_univ] at hhigh
  exact ⟨hlast, hhigh⟩

/-! ## Every value in between -/

/-- A thread loads the counter. -/
theorem leads_load {m : ℕ} (h : s.left i = unlocked (m + 1)) : ∃ t, Leads exec s t ∧
    t.shared.counter = s.shared.counter ∧ t.own i = s.shared.counter ∧
    t.left i = .op .print :: .op .store :: unlocked m ∧
    ∀ j ≠ i, t.left j = s.left j ∧ t.own j = s.own j :=
  ⟨_, .single (step_op h), rfl, Function.update_self .., Function.update_self ..,
    fun _ hj => ⟨Function.update_of_ne hj .., Function.update_of_ne hj ..⟩⟩

/-- A thread prints and stores what it has loaded, plus one. -/
theorem leads_store {is : List (Instr Op)} (h : s.left i = .op .print :: .op .store :: is) :
    ∃ t, Leads exec s t ∧ t.shared.counter = s.own i + 1 ∧ t.left i = is ∧
      ∀ j ≠ i, t.left j = s.left j ∧ t.own j = s.own j := by
  have hops : s.left i = [Op.print, .store].map .op ++ is := h
  obtain ⟨t, ht, hshared, -, hleft, hothers⟩ := exists_leads_ops hops
  exact ⟨t, ht, by rw [hshared]; rfl, hleft, fun j hj => (hothers j hj).symm⟩

/-- A thread does some rounds alone. -/
theorem leads_rounds {k m : ℕ} (h : s.left i = unlocked (m + k)) :
    ∃ t, Leads exec s t ∧ t.shared.counter = s.shared.counter + k ∧ t.left i = unlocked m ∧
      ∀ j ≠ i, t.left j = s.left j ∧ t.own j = s.own j := by
  induction k generalizing s with
  | zero => exact ⟨s, .refl s, by simp, h, fun _ _ => ⟨rfl, rfl⟩⟩
  | succ k ih =>
    obtain ⟨s₁, h₁, hcounter₁, hown₁, hleft₁, hothers₁⟩ := leads_load (m := m + k) h
    obtain ⟨s₂, h₂, hcounter₂, hleft₂, hothers₂⟩ := leads_store hleft₁
    obtain ⟨t, ht, hcounter, hleft, hothers⟩ := ih hleft₂
    refine ⟨t, (h₁.trans h₂).trans ht, ?_, hleft, fun j hj => ?_⟩
    · rw [hcounter, hcounter₂, hown₁, Nat.cast_succ]
      omega
    · obtain ⟨hleft₁, hown₁⟩ := hothers₁ j hj
      obtain ⟨hleft₂, hown₂⟩ := hothers₂ j hj
      obtain ⟨hleft, hown⟩ := hothers j hj
      exact ⟨(hleft.trans hleft₂).trans hleft₁, (hown.trans hown₂).trans hown₁⟩

/-- The threads of `non_mutex/main.c` as they start. -/
def startRacing (N : ℕ) : State Tid Op (Memory Tid) ℤ :=
  ⟨1, ⟨0, []⟩, fun _ => 0, fun _ => unlocked N⟩

theorem ended_tid {s : State Tid Op (Memory Tid) ℤ} (hA : s.left .tidA = unlocked 0)
    (hB : s.left .tidB = unlocked 0) : Ended s
  | .tidA => hA
  | .tidB => hB

theorem tidB_ne_tidA : Tid.tidB ≠ .tidA :=
  nofun

/-- The first round of `tidA` loses `m` rounds of `tidB`. -/
theorem leads_high {N m : ℕ} (hm : m ≤ N + 1) :
    ∃ s, Leads exec (startRacing (N + 1)) s ∧ Ended s ∧ s.shared.counter = 2 * (N + 1) - m := by
  obtain ⟨k, hk⟩ := Nat.exists_eq_add_of_le hm
  -- `tidA` loads 0, `tidB` does `m` rounds, and `tidA` stores 1
  obtain ⟨s₁, h₁, hc₁, ho₁, hl₁, hB₁⟩ :=
    leads_load (s := startRacing (N + 1)) (i := .tidA) (m := N) rfl
  obtain ⟨s₂, h₂, hc₂, hl₂, hA₂⟩ := leads_rounds (s := s₁) (i := .tidB) (m := k) (k := m) (by
    rw [(hB₁ .tidB tidB_ne_tidA).1, startRacing, hk, Nat.add_comm])
  obtain ⟨hlA₂, hoA₂⟩ := hA₂ .tidA tidB_ne_tidA.symm
  obtain ⟨s₃, h₃, hc₃, hl₃, hB₃⟩ := leads_store (s := s₂) (i := .tidA) (hlA₂.trans hl₁)
  -- the other rounds one after the other
  obtain ⟨s₄, h₄, hc₄, hl₄, hB₄⟩ := leads_rounds (s := s₃) (i := .tidA) (m := 0) (k := N) (by
    rw [hl₃, Nat.zero_add])
  obtain ⟨s₅, h₅, hc₅, hl₅, hA₅⟩ := leads_rounds (s := s₄) (i := .tidB) (m := 0) (k := k) (by
    rw [(hB₄ .tidB tidB_ne_tidA).1, (hB₃ .tidB tidB_ne_tidA).1, hl₂, Nat.zero_add])
  refine ⟨s₅, h₁.trans (h₂.trans (h₃.trans (h₄.trans h₅))),
    ended_tid ((hA₅ .tidA tidB_ne_tidA.symm).1.trans hl₄) hl₅, ?_⟩
  have hstart : (startRacing (N + 1)).shared.counter = 0 := rfl
  rw [hc₅, hc₄, hc₃, hoA₂, ho₁, hstart]
  omega

/-- The first round of `tidA` loses all rounds of `tidB` but the last, which loses all rounds
of `tidA` but `j + 1`. -/
theorem leads_low {N j : ℕ} (hj : j ≤ N) :
    ∃ s, Leads exec (startRacing (N + 1)) s ∧ Ended s ∧ s.shared.counter = j + 2 := by
  obtain ⟨k, hk⟩ := Nat.exists_eq_add_of_le hj
  obtain ⟨s₁, h₁, hc₁, ho₁, hl₁, hB₁⟩ :=
    leads_load (s := startRacing (N + 1)) (i := .tidA) (m := N) rfl
  obtain ⟨s₂, h₂, hc₂, hl₂, hA₂⟩ := leads_rounds (s := s₁) (i := .tidB) (m := 1) (k := N) (by
    rw [(hB₁ .tidB tidB_ne_tidA).1, startRacing, Nat.add_comm])
  obtain ⟨hlA₂, hoA₂⟩ := hA₂ .tidA tidB_ne_tidA.symm
  obtain ⟨s₃, h₃, hc₃, hl₃, hB₃⟩ := leads_store (s := s₂) (i := .tidA) (hlA₂.trans hl₁)
  -- `tidB` loads before the last `k` rounds of `tidA`, and stores after them
  obtain ⟨s₄, h₄, hc₄, hl₄, hB₄⟩ := leads_rounds (s := s₃) (i := .tidA) (m := k) (k := j) (by
    rw [hl₃, hk, Nat.add_comm])
  obtain ⟨s₅, h₅, hc₅, ho₅, hl₅, hA₅⟩ := leads_load (s := s₄) (i := .tidB) (m := 0) (by
    rw [(hB₄ .tidB tidB_ne_tidA).1, (hB₃ .tidB tidB_ne_tidA).1, hl₂])
  obtain ⟨s₆, h₆, hc₆, hl₆, hB₆⟩ := leads_rounds (s := s₅) (i := .tidA) (m := 0) (k := k) (by
    rw [(hA₅ .tidA tidB_ne_tidA.symm).1, hl₄, Nat.zero_add])
  obtain ⟨hlB₆, hoB₆⟩ := hB₆ .tidB tidB_ne_tidA
  obtain ⟨s₇, h₇, hc₇, hl₇, hA₇⟩ := leads_store (s := s₆) (i := .tidB) (hlB₆.trans hl₅)
  refine ⟨s₇, h₁.trans (h₂.trans (h₃.trans (h₄.trans (h₅.trans (h₆.trans h₇))))),
    ended_tid ((hA₇ .tidA tidB_ne_tidA.symm).1.trans hl₆) hl₇, ?_⟩
  have hstart : (startRacing (N + 1)).shared.counter = 0 := rfl
  rw [hc₇, hoB₆, ho₅, hc₄, hc₃, hoA₂, ho₁, hstart]
  omega

/-- Without the mutex the counter is never more than the number of all rounds. -/
theorem racing_within {s : State Tid Op (Memory Tid) ℤ} (h : (racing Tid N).Reachable s) :
    0 ≤ s.shared.counter ∧ s.shared.counter ≤ 2 * N := by
  have : Nonempty Tid := ⟨.tidA⟩
  obtain ⟨p, hr⟩ := Raced.of_reachable h
  have hA := hr.le .tidA
  have hB := hr.le .tidB
  have hge := hr.counter_ge .tidA
  have hle := hr.counter_le
  have huniv : (univ : Finset Tid) = {.tidA, .tidB} := rfl
  rw [huniv, sum_pair (by decide)] at hle
  omega

/-- Without the mutex the counter ends at any number from two to the number of all rounds, and
at no other (with one round each, it can also end at one, and with none at zero). It does not
overflow on the way if that number is an `int`. -/
theorem final_counts (N : ℕ) (hmax : 2 * (N : ℤ) ≤ INT_MAX) :
    (∀ s, (racing Tid N).Reachable s → FitsInt s.shared.counter) ∧
    ∀ c : ℤ, (∃ s, (racing Tid N).Reachable s ∧ Ended s ∧ s.shared.counter = c) ↔
      min 2 (N : ℤ) ≤ c ∧ c ≤ 2 * N := by
  refine ⟨fun s hs => ?_, fun c => ⟨?_, ?_⟩⟩
  · obtain ⟨hnonneg, hle⟩ := racing_within hs
    exact fitsInt_of_nonneg hnonneg (hle.trans hmax)
  · rintro ⟨s, hs, hended, rfl⟩
    have : Nonempty Tid := ⟨.tidA⟩
    obtain ⟨p, hr⟩ := Raced.of_reachable hs
    obtain ⟨hlow, hhigh⟩ := hr.bounds hended
    have hcard : Fintype.card Tid = 2 := rfl
    rw [hcard] at hhigh
    omega
  · rintro ⟨hlow, hhigh⟩
    have hstart : (racing Tid N).Reachable (startRacing N) := ⟨_, [], rfl, rfl⟩
    cases N with
    | zero =>
      refine ⟨startRacing 0, hstart, fun _ => rfl, ?_⟩
      change (0 : ℤ) = c
      omega
    | succ N =>
      by_cases hc : (N : ℤ) + 1 ≤ c
      · obtain ⟨s, hs, hended, hcounter⟩ :=
          leads_high (N := N) (m := (2 * (N + 1) - c).toNat) (by omega)
        exact ⟨s, hs.reachable hstart, hended, by omega⟩
      · obtain ⟨s, hs, hended, hcounter⟩ := leads_low (N := N) (j := (c - 2).toNat) (by omega)
        exact ⟨s, hs.reachable hstart, hended, by omega⟩

/-- With the `500` rounds of the source the counter can end at two. -/
theorem final_counts_two :
    ∃ s, (racing Tid 500).Reachable s ∧ Ended s ∧ s.shared.counter = 2 :=
  ((final_counts 500 (by decide)).2 2).2 (by decide)

end Counter

end NetCentric
