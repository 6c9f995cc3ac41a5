import NetCentric.PartialSum
import Mathlib.Order.SuccPred.IntervalSucc
import Mathlib.Order.CompletePartialOrder
import Mathlib.Data.Int.ConditionallyCompleteOrder
import Mathlib.Data.Nat.SuccPred

/-!
# The sum of Homework 1

`main.c` forks `numProcesses` children. Child `i` adds the integers of its chunk
(`computePartialSum`) and writes the partial sum to the pipe. The parent waits for all of
them, reads as many numbers from the pipe and adds them.

Every call is one step of one process, so a run of `sumProcesses` is an interleaving, and
the partial sums stand in the pipe in the order the children wrote them. `fork` can fail,
and `wait` returns any child that has terminated. Arithmetic on `int` is checked : an
overflow leaves a process `undefined`. A run ends with the parent.

`process_sums` : the chunks are a partition of `1, …, n` as C computes their bounds, every
run ends, and the parent has then printed `n (n + 1) / 2`, or a `fork` has failed.
-/

open Finset

namespace NetCentric

namespace ProcessSum

open PartialSum (chunk)

/-- The loop of `computePartialSum`, undefined if an `int` overflows. -/
def partialSumLoop (to_ i pSum : ℤ) : Option ℤ :=
  if i ≤ to_ then
    if FitsInt (pSum + i) ∧ FitsInt (i + 1) then partialSumLoop to_ (i + 1) (pSum + i) else none
  else some pSum
termination_by (to_ + 1 - i).toNat
decreasing_by omega

/-- `computePartialSum`. -/
def computePartialSum (from_ to_ : ℤ) : Option ℤ :=
  partialSumLoop to_ from_ 0

/-- `i * n / numProcesses + 1`. -/
def boundFrom (n numProcesses i : ℤ) : Option ℤ := do
  let x ← checked (i * n)
  let q ← divInt x numProcesses
  checked (q + 1)

/-- `(i + 1) * n / numProcesses`. -/
def boundTo (n numProcesses i : ℤ) : Option ℤ := do
  let next ← checked (i + 1)
  let x ← checked (next * n)
  divInt x numProcesses

/-- The partial sum of child `i`. -/
def childSum (n numProcesses i : ℤ) : Option ℤ := do
  let from_ ← boundFrom n numProcesses i
  let to_ ← boundTo n numProcesses i
  computePartialSum from_ to_

/-- What a child does next. -/
inductive Child
  /-- Not forked. -/
  | new
  /-- `close(pipefd[0])`. -/
  | close
  /-- `pSum = computePartialSum(...)`. -/
  | compute
  /-- `printf`. -/
  | print (pSum : ℤ)
  /-- `write(pipefd[1], &pSum, sizeof(int))`. -/
  | write (pSum : ℤ)
  /-- `close(pipefd[1])`, then `exit(0)`. -/
  | exit
  /-- Terminated and not waited for. -/
  | zombie
  /-- Waited for. -/
  | reaped
  /-- An `int` has overflowed. -/
  | undefined
  deriving DecidableEq

/-- What the parent does next, from the loop of `fork` on. -/
inductive Main
  /-- `fork()`, if `i < numProcesses`. -/
  | fork (i : ℕ)
  /-- `while (wait(NULL) > 0);`. -/
  | wait
  /-- `close(pipefd[1])`. -/
  | close
  /-- `read(pipefd[0], &curr, sizeof(int))` and `sum += curr`, if `i < numProcesses`. -/
  | read (i : ℕ) (sum : ℤ)
  /-- The `printf` of the final sum. -/
  | print (sum : ℤ)
  /-- Returned after printing `sum`. -/
  | done (sum : ℤ)
  /-- `exit(EXIT_FAILURE)`, after a `fork` that failed. -/
  | exited
  /-- An `int` has overflowed, or `curr` has been added without a value. -/
  | undefined
  deriving DecidableEq

/-- The processes, and the numbers in the pipe. -/
structure State (m : ℕ) where
  child : Fin m → Child
  main : Main
  pipe : List ℤ

/-- One step of one process. `main ok` says whether the `fork` it may be at succeeds, and
`reap k` is a `wait` that returns child `k`. -/
inductive Action (m : ℕ)
  | child (k : Fin m)
  | main (ok : Bool)
  | reap (k : Fin m)

variable {m : ℕ}

/-- The state after `pipe`. -/
def init : State m where
  child := fun _ => .new
  main := .fork 0
  pipe := []

/-- Child `k` goes on at `p`. -/
def State.put (s : State m) (k : Fin m) (p : Child) : State m :=
  { s with child := Function.update s.child k p }

/-- Child `k`, which has `k` in its copy of `i`. -/
def child (n : ℕ) (s : State m) (k : Fin m) : Option (State m) :=
  match s.child k with
  | .close => some (s.put k .compute)
  | .compute =>
    match childSum n m k with
    | some pSum => some (s.put k (.print pSum))
    | none => some (s.put k .undefined)
  | .print pSum => some (s.put k (.write pSum))
  | .write pSum => some { s.put k .exit with pipe := s.pipe ++ [pSum] }
  | .exit => some (s.put k .zombie)
  | .new | .zombie | .reaped | .undefined => none

/-- The child has been forked, and has not been waited for. -/
def Child.waitable : Child → Bool
  | new | reaped => false
  | _ => true

/-- The parent, apart from a `wait` that finds a child. `wait` fails when no child is
left. A `read` of the empty pipe, of which no write end is open any more, returns 0 and
leaves `curr` without a value. -/
def main (ok : Bool) (s : State m) : Option (State m) :=
  match s.main with
  | .fork i =>
    if h : i < m then
      if ok then some { s.put ⟨i, h⟩ .close with main := .fork (i + 1) }
      else some { s with main := .exited }
    else some { s with main := .wait }
  | .wait => if ∃ k, (s.child k).waitable then none else some { s with main := .close }
  | .close => some { s with main := .read 0 0 }
  | .read i sum =>
    if i < m then
      match s.pipe with
      | [] => some { s with main := .undefined }
      | curr :: pipe =>
        if FitsInt (sum + curr) then
          some { s with main := .read (i + 1) (sum + curr), pipe := pipe }
        else some { s with main := .undefined }
    else some { s with main := .print sum }
  | .print sum => some { s with main := .done sum }
  | .done _ | .exited | .undefined => none

/-- A `wait` that returns child `k`. -/
def reap (s : State m) (k : Fin m) : Option (State m) :=
  if s.main = .wait ∧ s.child k = .zombie then some (s.put k .reaped) else none

/-- One step of the processes, until the parent is through. -/
def step (n : ℕ) (s : State m) (a : Action m) : Option (State m) :=
  match s.main, a with
  | .done _, _ | .exited, _ | .undefined, _ => none
  | _, .child k => child n s k
  | _, .main ok => main ok s
  | _, .reap k => reap s k

/-- The program with the arguments `n` and `m`. -/
def sumProcesses (n m : ℕ) : System (State m) (Action m) where
  Init s := s = init
  step := step n

/-- The integers from one bound of child `i` to the other. -/
def interval (n numProcesses i : ℤ) : Set ℤ :=
  {x | ∃ from_ to_, boundFrom n numProcesses i = some from_ ∧
    boundTo n numProcesses i = some to_ ∧ from_ ≤ x ∧ x ≤ to_}

/-! ## The chunks -/

/-- The number `p` of workers is an `int`, and so is its product with `n`. -/
structure Admits (n p : ℕ) : Prop where
  pos : 1 ≤ p
  workers : FitsInt p
  product : FitsInt (p * n)

theorem fits_of_le {a b : ℕ} (h : FitsInt b) (hle : a ≤ b) : FitsInt a :=
  fitsInt_natCast ((Int.ofNat_le.2 hle).trans h.2)

theorem divInt_natCast {a b : ℕ} (hb : 0 < b) (ha : FitsInt a) :
    divInt a b = some ((a / b : ℕ) : ℤ) := by
  have hne : (b : ℤ) ≠ 0 := by omega
  rw [divInt, if_neg hne, Int.ofNat_tdiv]
  exact checked_of_fits (fits_of_le ha (Nat.div_le_self a b))

variable {n p : ℕ}

/-- Multiples of `n` up to the last bound do not overflow. -/
theorem Admits.mul (h : Admits n p) {i : ℕ} (hi : i ≤ p) : FitsInt ((i * n : ℕ) : ℤ) := by
  have hprod := h.product
  rw [← Nat.cast_mul] at hprod
  exact fits_of_le hprod (Nat.mul_le_mul_right n hi)

theorem boundTo_eq (h : Admits n p) {i : ℕ} (hi : i < p) :
    boundTo n p i = some ((chunk n p i).to_ : ℤ) := by
  have hnext : checked ((i : ℤ) + 1) = some ((i + 1 : ℕ) : ℤ) := by
    rw [← Nat.cast_succ]
    exact checked_of_fits (fits_of_le h.workers hi)
  have hmul := h.mul hi
  simp only [boundTo, hnext, Option.bind_eq_bind, Option.bind_some, ← Nat.cast_mul,
    checked_of_fits hmul, divInt_natCast h.pos hmul, chunk]

theorem boundFrom_eq (h : Admits n p) {i : ℕ} (hi : i < p) :
    boundFrom n p i = some ((chunk n p i).from_ : ℤ) := by
  have hmul := h.mul hi.le
  have hfrom : checked (((i * n / p : ℕ) : ℤ) + 1) = some ((i * n / p + 1 : ℕ) : ℤ) := by
    rw [← Nat.cast_succ]
    refine checked_of_fits ?_
    rcases n.eq_zero_or_pos with rfl | hn
    · rw [Nat.mul_zero, Nat.zero_div]
      decide
    · have hlt : i * n / p < n := (Nat.div_lt_iff_lt_mul h.pos).2 (by
        rw [Nat.mul_comm n p]
        exact Nat.mul_lt_mul_of_pos_right hi hn)
      have hfits := h.mul (i := 1) h.pos
      rw [Nat.one_mul] at hfits
      exact fits_of_le hfits hlt
  rw [boundFrom, Option.bind_eq_bind, ← Nat.cast_mul, checked_of_fits hmul, Option.bind_some,
    divInt_natCast h.pos hmul, Option.bind_some, hfrom, chunk]

/-- The integers child `i` adds, between the truncated quotients. -/
theorem interval_eq (h : Admits n p) (i : Fin p) :
    interval n p i = Set.Ioc ((i * n / p : ℕ) : ℤ) (((i + 1) * n / p : ℕ) : ℤ) := by
  ext x
  simp only [interval, boundFrom_eq h i.2, boundTo_eq h i.2, Option.some.injEq, chunk,
    Set.mem_ofPred_eq, Set.mem_Ioc]
  constructor
  · rintro ⟨_, _, rfl, rfl, hfrom, hto⟩
    exact ⟨by omega, hto⟩
  · rintro ⟨hfrom, hto⟩
    exact ⟨_, _, rfl, rfl, by omega, hto⟩

theorem monotone_quotient (n p : ℕ) : Monotone fun i : ℕ => ((i * n / p : ℕ) : ℤ) :=
  fun _ _ hij => Int.ofNat_le.2 (Nat.div_le_div_right (Nat.mul_le_mul_right n hij))

open scoped Function in
theorem pairwise_disjoint_interval (h : Admits n p) :
    Pairwise (Disjoint on fun i : Fin p => interval n p i) := by
  intro i j hij
  simp only [Function.onFun, interval_eq h]
  exact (monotone_quotient n p).pairwise_disjoint_on_Ioc_succ fun hij' => hij (Fin.ext hij')

theorem iUnion_interval (h : Admits n p) : ⋃ i : Fin p, interval n p i = Set.Icc (1 : ℤ) n := by
  have hunion := (monotone_quotient n p).biUnion_Ico_Ioc_map_succ 0 p
  ext x
  have hx := Set.ext_iff.1 hunion x
  simp only [Set.mem_iUnion, Set.mem_Ico, exists_prop, Nat.zero_le, true_and, Set.mem_Ioc,
    Nat.zero_mul, Nat.zero_div, Nat.cast_zero, Nat.mul_div_cancel_left n h.pos] at hx
  have hpos : (1 : ℤ) ≤ x ↔ 0 < x := Int.add_one_le_iff (a := 0)
  rw [Set.mem_Icc, hpos, Set.mem_iUnion, ← hx]
  constructor
  · rintro ⟨i, hi⟩
    rw [interval_eq h] at hi
    exact ⟨i, i.2, hi⟩
  · rintro ⟨i, hi, hmem⟩
    refine ⟨⟨i, hi⟩, ?_⟩
    rw [interval_eq h]
    exact hmem

/-! ## The partial sums -/

/-- What child `k` adds up. -/
def chunkSum (n m k : ℕ) : ℕ :=
  (Multiset.Ico (chunk n m k).from_ ((chunk n m k).to_ + 1)).sum

theorem sum_Ico (n : ℕ) : (Multiset.Ico 1 (n + 1)).sum = n * (n + 1) / 2 := by
  have htwice : 2 * (Multiset.Ico 1 (n + 1)).sum = n * (n + 1) := by
    induction n with
    | zero => rfl
    | succ n ih =>
      rw [PartialSum.Ico_succ (Nat.le_add_left 1 n), Multiset.sum_add, Multiset.sum_singleton,
        Nat.mul_add, ih]
      ring
  omega

theorem sum_chunkSum (hm : 0 < m) : ∑ k : Fin m, chunkSum n m k = n * (n + 1) / 2 := by
  rw [← sum_Ico, ← PartialSum.sum_chunks hm, ← Multiset.coe_sumAddMonoidHom, map_sum]
  rfl

theorem chunkSum_le (hm : 0 < m) (k : Fin m) : chunkSum n m k ≤ n * (n + 1) / 2 := by
  rw [← sum_chunkSum hm]
  exact single_le_sum (f := fun k : Fin m => chunkSum n m k) (fun _ _ => Nat.zero_le _)
    (mem_univ k)

/-- The loop adds what is left up to `to_`. -/
theorem partialSumLoop_eq {to_ i left : ℕ} {pSum : ℤ} (hleft : i + left = to_ + 1)
    (hpos : 0 ≤ pSum) (hto : ((to_ + 1 : ℕ) : ℤ) ≤ INT_MAX)
    (hmax : pSum + ((Multiset.Ico i (to_ + 1)).sum : ℕ) ≤ INT_MAX) :
    partialSumLoop to_ i pSum = some (pSum + ((Multiset.Ico i (to_ + 1)).sum : ℕ)) := by
  induction left generalizing i pSum with
  | zero =>
    have hlt : ¬(i : ℤ) ≤ to_ := by omega
    rw [partialSumLoop, if_neg hlt, ← hleft]
    simp
  | succ left ih =>
    have hle : (i : ℤ) ≤ to_ := by omega
    have hfirst : Multiset.Ico i (to_ + 1) = {i} + Multiset.Ico (i + 1) (to_ + 1) := by
      rw [← Multiset.Ico_add_Ico_eq_Ico (Nat.le_succ i) (by omega : i + 1 ≤ to_ + 1)]
      simp [Multiset.Ico]
    rw [hfirst, Multiset.sum_add, Multiset.sum_singleton, Nat.cast_add] at hmax ⊢
    have hfits : FitsInt (pSum + i) ∧ FitsInt ((i : ℤ) + 1) :=
      ⟨fitsInt_of_nonneg (by omega) (by omega), fitsInt_of_nonneg (by omega) (by omega)⟩
    have hnext := @ih (i + 1) (pSum + i) (by omega) (by omega) (by omega)
    rw [Nat.cast_succ] at hnext
    rw [partialSumLoop, if_pos hle, if_pos hfits, hnext, add_assoc]

theorem computePartialSum_eq {from_ to_ : ℕ} (hle : from_ ≤ to_ + 1)
    (hto : ((to_ + 1 : ℕ) : ℤ) ≤ INT_MAX)
    (hmax : ((Multiset.Ico from_ (to_ + 1)).sum : ℤ) ≤ INT_MAX) :
    computePartialSum from_ to_ = some ((Multiset.Ico from_ (to_ + 1)).sum : ℤ) := by
  have hloop := partialSumLoop_eq (Nat.add_sub_cancel' hle) (le_refl (0 : ℤ)) hto
  rw [zero_add] at hloop
  exact hloop hmax

theorem admits_of_argsOk (hargs : BoundedBuffer.ArgsOk n m) : Admits n m := by
  obtain ⟨hn, hm⟩ := hargs
  have hle : m * n ≤ 100 * 1000 := Nat.mul_le_mul (by omega) (by omega)
  refine ⟨by omega, ?_, ?_⟩
  · exact fits_of_le (b := 100) (by decide) (by omega)
  · rw [← Nat.cast_mul]
    exact fits_of_le (b := 100 * 1000) (by decide) hle

/-- The sum up to `n` is an `int`, for the `n` that are admitted. -/
theorem sum_le_of_argsOk (hargs : BoundedBuffer.ArgsOk n m) :
    ((n * (n + 1) / 2 : ℕ) : ℤ) ≤ INT_MAX := by
  obtain ⟨hn, -⟩ := hargs
  have hmul : n * (n + 1) ≤ 1000 * 1001 := Nat.mul_le_mul (by omega) (by omega)
  have hle : n * (n + 1) / 2 ≤ 500500 := by omega
  exact (Int.ofNat_le.2 hle).trans (by decide)

/-- No child overflows. -/
theorem childSum_eq (hargs : BoundedBuffer.ArgsOk n m) (k : Fin m) :
    childSum n m k = some (chunkSum n m k : ℤ) := by
  have hadm := admits_of_argsOk hargs
  have hfits := (Int.ofNat_le.2 (chunkSum_le (n := n) hadm.pos k)).trans (sum_le_of_argsOk hargs)
  have hto : (chunk n m k).to_ ≤ n := by
    have hle := Nat.div_le_div_right (c := m) (Nat.mul_le_mul_right n k.2)
    rwa [Nat.mul_div_cancel_left n hadm.pos] at hle
  have hmax : (((chunk n m k).to_ + 1 : ℕ) : ℤ) ≤ INT_MAX := by
    have hn := hargs.1
    exact (Int.ofNat_le.2 (by omega : (chunk n m k).to_ + 1 ≤ 1001)).trans (by decide)
  rw [childSum, boundFrom_eq hadm k.2, boundTo_eq hadm k.2]
  exact computePartialSum_eq (PartialSum.chunk_le n m k) hmax hfits

/-! ## What a step can do -/

theorem child_cases {s t : State m} {k : Fin m} (h : child n s k = some t) :
    (s.child k = .close ∧ t = s.put k .compute) ∨
      (∃ pSum, s.child k = .compute ∧ childSum n m k = some pSum ∧ t = s.put k (.print pSum)) ∨
      (s.child k = .compute ∧ childSum n m k = none ∧ t = s.put k .undefined) ∨
      (∃ pSum, s.child k = .print pSum ∧ t = s.put k (.write pSum)) ∨
      (∃ pSum, s.child k = .write pSum ∧
        t = { s.put k .exit with pipe := s.pipe ++ [pSum] }) ∨
      (s.child k = .exit ∧ t = s.put k .zombie) := by
  unfold child at h
  cases hk : s.child k <;> simp only [hk] at h
  case compute =>
    cases hsum : childSum n m k <;> simp only [hsum] at h <;> simp_all
  all_goals simp_all

theorem main_cases {ok : Bool} {s t : State m} (h : main ok s = some t) :
    (∃ i : Fin m, s.main = .fork i ∧ ok = true ∧
        t = { s.put i .close with main := .fork (i + 1) }) ∨
      (∃ i : Fin m, s.main = .fork i ∧ ok = false ∧ t = { s with main := .exited }) ∨
      (∃ i, s.main = .fork i ∧ m ≤ i ∧ t = { s with main := .wait }) ∨
      (s.main = .wait ∧ (∀ k, (s.child k).waitable = false) ∧ t = { s with main := .close }) ∨
      (s.main = .close ∧ t = { s with main := .read 0 0 }) ∨
      (∃ i sum, s.main = .read i sum ∧ i < m ∧ s.pipe = [] ∧
        t = { s with main := .undefined }) ∨
      (∃ i sum curr pipe, s.main = .read i sum ∧ i < m ∧ s.pipe = curr :: pipe ∧
        FitsInt (sum + curr) ∧
        t = { s with main := .read (i + 1) (sum + curr), pipe := pipe }) ∨
      (∃ i sum curr pipe, s.main = .read i sum ∧ i < m ∧ s.pipe = curr :: pipe ∧
        ¬FitsInt (sum + curr) ∧ t = { s with main := .undefined }) ∨
      (∃ i sum, s.main = .read i sum ∧ m ≤ i ∧ t = { s with main := .print sum }) ∨
      (∃ sum, s.main = .print sum ∧ t = { s with main := .done sum }) := by
  unfold main at h
  cases hm : s.main <;> simp only [hm] at h
  case fork i =>
    split at h
    case isTrue hi =>
      cases ok with
      | true => exact .inl ⟨⟨i, hi⟩, rfl, rfl, (Option.some.inj h).symm⟩
      | false => exact .inr (.inl ⟨⟨i, hi⟩, rfl, rfl, (Option.some.inj h).symm⟩)
    case isFalse hi => simp_all
  case wait => split at h <;> simp_all
  case read i sum =>
    split at h
    case isTrue hi =>
      cases hpipe : s.pipe with
      | nil => simp_all
      | cons curr pipe =>
        rw [hpipe] at h
        by_cases hfits : FitsInt (sum + curr) <;> simp_all
    case isFalse hi => simp_all
  all_goals simp_all

theorem step_cases {s t : State m} {a : Action m} (h : step n s a = some t) :
    ((∀ sum, s.main ≠ .done sum) ∧ s.main ≠ .exited ∧ s.main ≠ .undefined) ∧
      ((∃ k, a = .child k ∧ child n s k = some t) ∨
        (∃ ok, a = .main ok ∧ main ok s = some t) ∨
        ∃ k, a = .reap k ∧ s.main = .wait ∧ s.child k = .zombie ∧ t = s.put k .reaped) := by
  have hreap : ∀ {k}, reap s k = some t →
      s.main = .wait ∧ s.child k = .zombie ∧ t = s.put k .reaped := by
    intro k hk
    unfold reap at hk
    split at hk
    case isTrue h => exact ⟨h.1, h.2, (Option.some.inj hk).symm⟩
    case isFalse => cases hk
  cases a with
  | child k => cases hm : s.main <;> simp_all [step]
  | main ok => cases hm : s.main <;> simp_all [step]
  | reap k =>
    have hk : reap s k = some t := by
      cases hm : s.main <;> simp_all [step]
    obtain ⟨hm, hzombie, ht⟩ := hreap hk
    exact ⟨by simp [hm], .inr (.inr ⟨k, rfl, hm, hzombie, ht⟩)⟩

/-! ## The invariant -/

/-- The number of partial sums the child has written. -/
def Child.sent : Child → ℕ
  | exit | zombie | reaped => 1
  | _ => 0

/-- The child has computed its partial sum, without an overflow. -/
def Child.Ok (total : ℕ) : Child → Prop
  | print pSum | write pSum => pSum = total
  | undefined => False
  | _ => True

/-- What the parent has added. -/
def Main.received : Main → ℤ
  | read _ sum | print sum | done sum => sum
  | _ => 0

/-- The number of partial sums the parent has added. -/
def Main.reads (m : ℕ) : Main → ℕ
  | read i _ => i
  | print _ | done _ => m
  | _ => 0

/-- Which children have been forked and waited for. -/
def Forked (s : State m) : Main → Prop
  | .fork i => ∀ k : Fin m, i ≤ k ↔ s.child k = .new
  | .wait => ∀ k, s.child k ≠ .new
  | .read i _ => i ≤ m ∧ ∀ k, s.child k = .reaped
  | .close | .print _ | .done _ => ∀ k, s.child k = .reaped
  | .exited => True
  | .undefined => False

/-- The partial sums that have been written are in the pipe or added, whatever their
order. -/
structure Inv (n : ℕ) (s : State m) : Prop where
  forked : Forked s s.main
  ok : ∀ k : Fin m, (s.child k).Ok (chunkSum n m k)
  sum : s.main.received + s.pipe.sum =
    ((∑ k : Fin m, (s.child k).sent * chunkSum n m k : ℕ) : ℤ)
  count : s.main.reads m + s.pipe.length = ∑ k, (s.child k).sent
  nonneg : 0 ≤ s.main.received ∧ ∀ curr ∈ s.pipe, 0 ≤ curr

variable {s t : State m}

theorem inv_init : Inv n (init : State m) := by
  constructor <;> simp [init, Forked, Child.Ok, Main.received, Main.reads, Child.sent]

/-- A step of one child keeps the invariant if it writes what it has computed. -/
theorem Inv.put (hI : Inv n s) {k : Fin m} {p : Child}
    (hchild : t.child = Function.update s.child k p) (hforked : Forked t t.main)
    (hok : p.Ok (chunkSum n m k))
    (hsum : t.main.received + t.pipe.sum + ((s.child k).sent * chunkSum n m k : ℕ) =
      s.main.received + s.pipe.sum + (p.sent * chunkSum n m k : ℕ))
    (hcount : t.main.reads m + t.pipe.length + (s.child k).sent =
      s.main.reads m + s.pipe.length + p.sent)
    (hnonneg : 0 ≤ t.main.received ∧ ∀ curr ∈ t.pipe, 0 ≤ curr) : Inv n t := by
  have htotal := Threads.sum_update_at
    (fun (k : Fin m) c => Child.sent c * chunkSum n m k) s.child k p
  have hsent := Threads.sum_update Child.sent s.child k p
  have h1 := hI.sum
  have h2 := hI.count
  rw [← hchild] at htotal hsent
  refine ⟨hforked, fun j => ?_, by omega, by omega, hnonneg⟩
  by_cases hj : j = k
  · rw [hj, hchild, Function.update_self]
    exact hok
  · rw [hchild, Function.update_of_ne hj]
    exact hI.ok j

/-- A step of a child that runs changes none of it. -/
theorem Forked.put (h : Forked s s.main) {k : Fin m} {p : Child}
    (hchild : t.child = Function.update s.child k p) (hnew : s.child k ≠ .new)
    (hreaped : s.child k ≠ .reaped) (hp : p ≠ .new) (hmain : t.main = s.main) :
    Forked t t.main := by
  have hiff : ∀ j, t.child j = .new ↔ s.child j = .new := by
    intro j
    by_cases hj : j = k
    · simp [hj, hchild, hnew, hp]
    · rw [hchild, Function.update_of_ne hj]
  rw [hmain]
  cases hm : s.main <;> rw [hm] at h
  case fork i => exact fun j => (h j).trans (hiff j).symm
  case wait => exact fun j hj => h j ((hiff j).1 hj)
  case read => exact absurd (h.2 k) hreaped
  case exited => trivial
  case undefined => exact h
  all_goals exact absurd (h k) hreaped

/-- A step of one child that writes nothing. -/
theorem Inv.move (hI : Inv n s) {k : Fin m} {p q : Child} (hk : s.child k = q) (hnew : q ≠ .new)
    (hreaped : q ≠ .reaped) (hp : p ≠ .new) (hok : p.Ok (chunkSum n m k))
    (hsent : p.sent = q.sent) : Inv n (s.put k p) := by
  subst hk
  exact hI.put rfl (hI.forked.put rfl hnew hreaped hp rfl) hok (by rw [hsent]; rfl)
    (by rw [hsent]; rfl) hI.nonneg

theorem Inv.child (hargs : BoundedBuffer.ArgsOk n m) {k : Fin m} (hI : Inv n s)
    (h : child n s k = some t) : Inv n t := by
  have hok := hI.ok k
  rcases child_cases h with ⟨hk, rfl⟩ | ⟨pSum, hk, hsum, rfl⟩ | ⟨hk, hsum, rfl⟩ | ⟨pSum, hk, rfl⟩ |
    ⟨pSum, hk, rfl⟩ | ⟨hk, rfl⟩ <;> rw [hk] at hok
  · exact hI.move hk (by simp) (by simp) (by simp) trivial rfl
  · rw [childSum_eq hargs] at hsum
    exact hI.move hk (by simp) (by simp) (by simp) (Option.some.inj hsum).symm rfl
  · rw [childSum_eq hargs] at hsum
    cases hsum
  · exact hI.move hk (by simp) (by simp) (by simp) hok rfl
  · obtain rfl : pSum = chunkSum n m k := hok
    refine hI.put (k := k) rfl (hI.forked.put rfl (by simp [hk]) (by simp [hk]) (by simp) rfl)
      trivial ?_ ?_ ⟨hI.nonneg.1, fun curr hcurr => ?_⟩
    · simp [hk, Child.sent, State.put, add_assoc]
    · simp [hk, Child.sent, State.put, add_assoc]
    · rcases List.mem_append.1 hcurr with hmem | hmem
      · exact hI.nonneg.2 curr hmem
      · rw [List.mem_singleton.1 hmem]
        exact Int.natCast_nonneg _
  · exact hI.move hk (by simp) (by simp) (by simp) trivial rfl

/-- All partial sums together, and those in the pipe or added, are at most the sum up to
`n`. -/
theorem Inv.sum_le (hm : 0 < m) (hI : Inv n s) :
    s.main.received + s.pipe.sum ≤ ((n * (n + 1) / 2 : ℕ) : ℤ) := by
  rw [hI.sum, ← sum_chunkSum hm]
  refine Int.ofNat_le.2 (sum_le_sum fun k _ => ?_)
  have hsent : (s.child k).sent ≤ 1 := by
    cases s.child k <;> simp [Child.sent]
  exact (Nat.mul_le_mul_right _ hsent).trans_eq (Nat.one_mul _)

/-- Once all children have been waited for, all partial sums are in the pipe or added. -/
theorem Inv.of_reaped (hI : Inv n s) (hreaped : ∀ k, s.child k = .reaped) :
    s.main.received + s.pipe.sum = ((∑ k : Fin m, chunkSum n m k : ℕ) : ℤ) ∧
      s.main.reads m + s.pipe.length = m := by
  constructor
  · simpa [hreaped, Child.sent] using hI.sum
  · simpa [hreaped, Child.sent] using hI.count

/-- A step of the parent that neither forks nor reads. -/
theorem Inv.goOn (hI : Inv n s) {p q : Main} (hm : s.main = p) (hforked : Forked s q)
    (hreceived : q.received = p.received) (hreads : q.reads m = p.reads m) :
    Inv n { s with main := q } := by
  subst hm
  exact ⟨hforked, hI.ok, hreceived ▸ hI.sum, hreads ▸ hI.count, hreceived ▸ hI.nonneg⟩

/-- The parent finds a number in the pipe : every partial sum that has not been added is
there. -/
theorem Inv.pipe_ne_nil (hI : Inv n s) {i : ℕ} {sum : ℤ} (hm : s.main = .read i sum)
    (hi : i < m) : s.pipe ≠ [] := by
  intro hpipe
  have hf := hI.forked
  rw [hm] at hf
  obtain ⟨-, hcount⟩ := hI.of_reaped hf.2
  rw [hm, hpipe] at hcount
  simp only [Main.reads, List.length_nil] at hcount
  omega

/-- The parent can add it : what it has added is at most the sum up to `n`. -/
theorem Inv.sum_fits (hargs : BoundedBuffer.ArgsOk n m) (hI : Inv n s) {i : ℕ} {sum curr : ℤ}
    {pipe : List ℤ} (hm : s.main = .read i sum) (hpipe : s.pipe = curr :: pipe) :
    FitsInt (sum + curr) := by
  have hle := hI.sum_le (admits_of_argsOk hargs).pos
  have hmax := sum_le_of_argsOk hargs
  have hnonneg := hI.nonneg
  rw [hm, hpipe] at hle hnonneg
  have hcurr := hnonneg.2 curr List.mem_cons_self
  have hrest : 0 ≤ pipe.sum := List.sum_nonneg fun x hx => hnonneg.2 x (List.mem_cons_of_mem _ hx)
  simp only [Main.received, List.sum_cons] at hle hnonneg
  exact fitsInt_of_nonneg (by omega) (by omega)

/-- The parent reads a number and adds it. -/
theorem Inv.read (hI : Inv n s) {i : ℕ} {sum curr : ℤ} {pipe : List ℤ}
    (hm : s.main = .read i sum) (hi : i < m) (hpipe : s.pipe = curr :: pipe) :
    Inv n { s with main := .read (i + 1) (sum + curr), pipe := pipe } := by
  obtain ⟨hf, hok, hsum, hcount, hnonneg⟩ := hI
  rw [hm] at hf
  rw [hm, hpipe] at hsum hcount hnonneg
  simp only [Main.received, Main.reads, List.sum_cons, List.length_cons] at hsum hcount
  exact ⟨⟨hi, hf.2⟩, hok, by simpa only [Main.received, add_assoc] using hsum,
    by simp only [Main.reads]; omega, add_nonneg hnonneg.1 (hnonneg.2 curr List.mem_cons_self),
    fun x hx => hnonneg.2 x (List.mem_cons_of_mem _ hx)⟩

theorem Inv.main {ok : Bool} (hargs : BoundedBuffer.ArgsOk n m) (hI : Inv n s)
    (h : main ok s = some t) : Inv n t := by
  have hf := hI.forked
  rcases main_cases h with ⟨i, hm, -, rfl⟩ | ⟨i, hm, -, rfl⟩ | ⟨i, hm, hi, rfl⟩ | ⟨hm, hall, rfl⟩ |
    ⟨hm, rfl⟩ | ⟨i, sum, hm, hi, hpipe, rfl⟩ | ⟨i, sum, curr, pipe, hm, hi, hpipe, -, rfl⟩ |
    ⟨i, sum, curr, pipe, hm, hi, hpipe, hfits, rfl⟩ | ⟨i, sum, hm, hi, rfl⟩ | ⟨sum, hm, rfl⟩ <;>
    rw [hm] at hf
  · have hnew : s.child i = .new := (hf i).1 le_rfl
    refine hI.put (k := i) rfl (fun k => ?_) trivial
      (by simp [hm, hnew, Child.sent, Main.received, State.put])
      (by simp [hm, hnew, Child.sent, Main.reads, State.put]) ⟨le_rfl, hI.nonneg.2⟩
    by_cases hk : k = i
    · simp [hk, State.put]
    · have hne : (k : ℕ) ≠ i := fun h => hk (Fin.ext h)
      simp only [State.put, Function.update_of_ne hk]
      rw [← hf k]
      omega
  · exact hI.goOn hm trivial rfl rfl
  · exact hI.goOn hm (fun k hk => absurd ((hf k).2 hk) (by omega)) rfl rfl
  · have hreaped : ∀ k, s.child k = .reaped := by
      intro k
      have hk := hall k
      have hnew := hf k
      cases hc : s.child k <;> simp_all [Child.waitable]
    exact hI.goOn hm hreaped rfl rfl
  · exact hI.goOn hm ⟨Nat.zero_le m, hf⟩ rfl rfl
  · exact absurd hpipe (hI.pipe_ne_nil hm hi)
  · exact hI.read hm hi hpipe
  · exact absurd (hI.sum_fits hargs hm hpipe) hfits
  · obtain rfl : i = m := le_antisymm hf.1 hi
    exact hI.goOn hm hf.2 rfl rfl
  · exact hI.goOn hm hf rfl rfl

theorem Inv.step {a : Action m} (hargs : BoundedBuffer.ArgsOk n m) (hI : Inv n s)
    (h : step n s a = some t) : Inv n t := by
  obtain ⟨-, ⟨k, -, h⟩ | ⟨ok, -, h⟩ | ⟨k, -, hm, hk, rfl⟩⟩ := step_cases h
  · exact hI.child hargs h
  · exact hI.main hargs h
  · exact hI.move hk (by simp) (by simp) (by simp) trivial rfl

theorem inv_of_reachable (hargs : BoundedBuffer.ArgsOk n m)
    (h : (sumProcesses n m).Reachable s) : Inv n s :=
  h.invariant (fun _ hs => hs ▸ inv_init) fun _ _ _ hI hstep => hI.step hargs hstep

/-! ## Every run ends -/

/-- The steps a child has left, counting the `wait` that returns it. -/
def Child.left : Child → ℕ
  | new => 7
  | close => 6
  | compute => 5
  | print _ => 4
  | write _ => 3
  | exit => 2
  | zombie => 1
  | reaped | undefined => 0

/-- The steps the parent has left, apart from the `wait`s that return a child. -/
def Main.left (m : ℕ) : Main → ℕ
  | fork i => m - i + m + 5
  | wait => m + 4
  | close => m + 3
  | read i _ => m - i + 2
  | print _ => 1
  | done _ | exited | undefined => 0

/-- A bound on the steps left. -/
def State.left (s : State m) : ℕ :=
  ∑ k, (s.child k).left + s.main.left m

theorem left_init : (init : State m).left = 9 * m + 5 := by
  simp [State.left, init, Child.left, Main.left]
  omega

theorem left_put {k : Fin m} {p q : Child} (hk : s.child k = q) (hlt : p.left < q.left) :
    ∑ j, ((s.put k p).child j).left < ∑ j, (s.child j).left := by
  have hsum := Threads.sum_update Child.left s.child k p
  rw [hk] at hsum
  simp only [State.put]
  omega

theorem left_main {p q : Main} (hm : s.main = p) (hlt : q.left m < p.left m) (pipe : List ℤ) :
    State.left { s with main := q, pipe := pipe } < s.left := by
  subst hm
  exact Nat.add_lt_add_left hlt _

theorem Inv.left_lt {a : Action m} (hI : Inv n s) (h : ProcessSum.step n s a = some t) :
    t.left < s.left := by
  have hf := hI.forked
  obtain ⟨-, ⟨k, -, h⟩ | ⟨ok, -, h⟩ | ⟨k, -, hm, hk, rfl⟩⟩ := step_cases h
  · rcases child_cases h with ⟨hk, rfl⟩ | ⟨pSum, hk, -, rfl⟩ | ⟨hk, -, rfl⟩ | ⟨pSum, hk, rfl⟩ |
      ⟨pSum, hk, rfl⟩ | ⟨hk, rfl⟩ <;>
      exact Nat.add_lt_add_right (left_put hk (by simp [Child.left])) _
  · rcases main_cases h with ⟨i, hm, -, rfl⟩ | ⟨i, hm, -, rfl⟩ | ⟨i, hm, hi, rfl⟩ |
      ⟨hm, hall, rfl⟩ | ⟨hm, rfl⟩ | ⟨i, sum, hm, hi, hpipe, rfl⟩ |
      ⟨i, sum, curr, pipe, hm, hi, hpipe, hfits, rfl⟩ |
      ⟨i, sum, curr, pipe, hm, hi, hpipe, hfits, rfl⟩ | ⟨i, sum, hm, hi, rfl⟩ | ⟨sum, hm, rfl⟩
    case inl =>
      rw [hm] at hf
      refine Nat.add_lt_add_of_lt_of_le (left_put ((hf i).1 le_rfl) (by simp [Child.left])) ?_
      simp only [hm, Main.left]
      omega
    all_goals
      refine left_main hm ?_ _
      simp only [Main.left]
      omega
  · exact Nat.add_lt_add_right (left_put hk (by simp [Child.left])) _

/-- A child that can be waited for can go on, or be waited for. -/
theorem Inv.child_goes_on (hI : Inv n s) {k : Fin m} (hk : (s.child k).waitable) :
    (ProcessSum.child n s k).isSome ∨ s.child k = .zombie := by
  have hok := hI.ok k
  cases hc : s.child k <;> simp only [hc] at hk hok
  case new => cases hk
  case reaped => cases hk
  case undefined => exact hok.elim
  case zombie => exact .inr rfl
  case compute =>
    left
    cases hsum : childSum n m k <;> simp [ProcessSum.child, hc, hsum]
  all_goals
    left
    simp [ProcessSum.child, hc]

/-- The processes go on until the parent is through, whatever `fork` returns. -/
theorem Inv.goes_on (hI : Inv n s) (hrun : ∀ sum, s.main ≠ .done sum) (hexit : s.main ≠ .exited) :
    ∃ a t, a ≠ .main false ∧ ProcessSum.step n s a = some t := by
  have hf := hI.forked
  have hgo : (ProcessSum.main true s).isSome → ∃ a t, a ≠ .main false ∧
      ProcessSum.step n s a = some t := by
    intro hsome
    obtain ⟨t, ht⟩ := Option.isSome_iff_exists.1 hsome
    refine ⟨.main true, t, by simp, ?_⟩
    cases hm : s.main <;> simp_all [ProcessSum.step, ProcessSum.main]
  cases hm : s.main <;> rw [hm] at hf
  case done sum => exact absurd hm (hrun sum)
  case exited => exact absurd hm hexit
  case undefined => exact hf.elim
  case wait =>
    by_cases hex : ∃ k, (s.child k).waitable
    · obtain ⟨k, hk⟩ := hex
      rcases hI.child_goes_on hk with hsome | hzombie
      · obtain ⟨t, ht⟩ := Option.isSome_iff_exists.1 hsome
        exact ⟨.child k, t, by simp, by simpa [ProcessSum.step, hm] using ht⟩
      · exact ⟨.reap k, s.put k .reaped, by simp,
          by simp [ProcessSum.step, hm, reap, hzombie]⟩
    · exact hgo (by simp [ProcessSum.main, hm, hex])
  case fork i => exact hgo (by by_cases hi : i < m <;> simp [ProcessSum.main, hm, hi])
  case read i sum =>
    refine hgo ?_
    by_cases hi : i < m
    · cases hpipe : s.pipe with
      | nil => simp [ProcessSum.main, hm, hi, hpipe]
      | cons curr pipe =>
        by_cases hfits : FitsInt (sum + curr) <;> simp [ProcessSum.main, hm, hi, hpipe, hfits]
    · simp [ProcessSum.main, hm, hi]
  all_goals exact hgo (by simp [ProcessSum.main, hm])

/-- The parent exits only when a `fork` fails. -/
theorem exited_of_step {a : Action m} (h : step n s a = some t) (ht : t.main = .exited) :
    a = .main false := by
  obtain ⟨⟨-, hexit, -⟩, ⟨k, -, h⟩ | ⟨ok, rfl, hmain⟩ | ⟨k, -, hm, -, rfl⟩⟩ :=
    step_cases h
  · rcases child_cases h with ⟨-, rfl⟩ | ⟨_, -, -, rfl⟩ | ⟨-, -, rfl⟩ | ⟨_, -, rfl⟩ |
      ⟨_, -, rfl⟩ | ⟨-, rfl⟩ <;> exact absurd ht hexit
  · rcases main_cases hmain with ⟨i, -, -, rfl⟩ | ⟨i, -, rfl, rfl⟩ | ⟨i, -, -, rfl⟩ | ⟨-, -, rfl⟩ |
      ⟨-, rfl⟩ | ⟨i, sum, -, -, -, rfl⟩ | ⟨i, sum, curr, pipe, -, -, -, -, rfl⟩ |
      ⟨i, sum, curr, pipe, -, -, -, -, rfl⟩ | ⟨i, sum, -, -, rfl⟩ | ⟨sum, -, rfl⟩
    case inr.inl => rfl
    all_goals cases ht
  · exact absurd ht hexit

theorem exited_of_run {as : List (Action m)} (h : (sumProcesses n m).run s as = some t)
    (hs : s.main ≠ .exited) (ht : t.main = .exited) : .main false ∈ as := by
  by_contra hmem
  have hstep : ∀ (u : State m) (a : Action m) v, u.main ≠ .exited → a ≠ .main false →
      step n u a = some v → v.main ≠ .exited :=
    fun u a v _ ha hv hexit => ha (exited_of_step hv hexit)
  exact System.visits_invariant (I := fun u : State m => u.main ≠ .exited)
    (P := fun _ a => a ≠ .main false) (S := sumProcesses n m) hstep hs
    (fun u a hua ha => hmem (ha ▸ hua.mem)) (System.visits_last h) ht

/-! ## The final sum -/

/-- What the parent prints is the sum up to `n`. -/
theorem Inv.done_eq (hm : 0 < m) (hI : Inv n s) {sum : ℤ} (hd : s.main = .done sum) :
    sum = ((n * (n + 1) / 2 : ℕ) : ℤ) := by
  have hf := hI.forked
  rw [hd] at hf
  obtain ⟨hsum, hcount⟩ := hI.of_reaped hf
  rw [hd] at hsum hcount
  have hpipe : s.pipe = [] := List.length_eq_zero_iff.1 (Nat.add_eq_left.1 hcount)
  rw [hpipe, sum_chunkSum hm] at hsum
  simpa only [Main.received, List.sum_nil, add_zero] using hsum

/-- The partition, and the sum that is printed. -/
theorem process_sums (n m : ℕ) :
    (Admits n m →
      (∀ i : Fin m, boundFrom n m i = some ((chunk n m i).from_ : ℤ) ∧
        boundTo n m i = some ((chunk n m i).to_ : ℤ)) ∧
      (Pairwise fun i j : Fin m => Disjoint (interval n m i) (interval n m j)) ∧
      ⋃ i : Fin m, interval n m i = Set.Icc (1 : ℤ) n ∧
      (m ≤ n → ∀ i : Fin m, (interval n m i).Nonempty) ∧
      ∀ s, (PartialSum.sumThreads n m).Reachable s → ∀ k b, s.thread k = .start b →
        boundFrom n m k = some (b.from_ : ℤ) ∧ boundTo n m k = some (b.to_ : ℤ)) ∧
    (BoundedBuffer.ArgsOk n m → ∀ as s, (sumProcesses n m).run init as = some s →
      as.length ≤ 9 * m + 5 ∧ s.main ≠ .undefined ∧ (∀ k, s.child k ≠ .undefined) ∧
      (∀ sum, s.main = .done sum → sum = ((n * (n + 1) / 2 : ℕ) : ℤ)) ∧
      ((∀ a, step n s a = none) →
        s.main = .done ((n * (n + 1) / 2 : ℕ) : ℤ) ∨ s.main = .exited ∧ .main false ∈ as)) := by
  refine ⟨fun hadm => ⟨fun i => ⟨boundFrom_eq hadm i.2, boundTo_eq hadm i.2⟩,
    pairwise_disjoint_interval hadm, iUnion_interval hadm, fun hle i => ?_, fun s hs k b hk => ?_⟩,
    fun hargs as s hrun => ?_⟩
  · exact ⟨_, _, _, boundFrom_eq hadm i.2, boundTo_eq hadm i.2, le_rfl,
      Int.ofNat_le.2 (PartialSum.chunk_nonempty hadm.pos hle i)⟩
  · have hok := (PartialSum.inv_of_reachable hs).ok k
    rw [hk] at hok
    obtain rfl : b = chunk n m k := hok
    exact ⟨boundFrom_eq hadm k.2, boundTo_eq hadm k.2⟩
  · have hm := (admits_of_argsOk hargs).pos
    have hI := inv_of_reachable hargs ⟨init, as, rfl, hrun⟩
    have hlen := System.run_length_le (S := sumProcesses n m) (I := Inv n) (μ := State.left)
      (fun _ _ _ hI h => ⟨hI.step hargs h, hI.left_lt h⟩) inv_init hrun
    rw [left_init] at hlen
    refine ⟨by omega, fun hu => ?_, fun k hu => ?_, fun sum => hI.done_eq hm, fun hstuck => ?_⟩
    · have hf := hI.forked
      rwa [hu] at hf
    · have hok := hI.ok k
      rwa [hu] at hok
    · by_cases hexit : s.main = .exited
      · exact .inr ⟨hexit, exited_of_run hrun (by simp [init]) hexit⟩
      · by_contra hnot
        have hrun : ∀ sum, s.main ≠ .done sum :=
          fun sum hd => hnot (.inl (hI.done_eq hm hd ▸ hd))
        obtain ⟨a, t, -, hstep⟩ := hI.goes_on hrun hexit
        rw [hstuck a] at hstep
        cases hstep

/-- Ten integers and two processes, none of whose creations fails. -/
theorem process_sums_ten : ⋃ i : Fin 2, interval 10 2 i = Set.Icc (1 : ℤ) 10 ∧
    ∃ as s, (sumProcesses 10 2).run init as = some s ∧ s.main = .done 55 := by
  have hadm : Admits 10 2 := ⟨by decide, by decide, by decide⟩
  have hargs : BoundedBuffer.ArgsOk 10 2 := by decide
  refine ⟨((process_sums 10 2).1 hadm).2.2.1, ?_⟩
  obtain ⟨as, s, hrun, -, sum, hd⟩ := System.exists_run_of_measure (S := sumProcesses 10 2)
    (I := fun s : State 2 => Inv 10 s ∧ s.main ≠ .exited)
    (F := fun s => ∃ sum, s.main = .done sum) (μ := State.left) (fun s ⟨hI, hexit⟩ hfinal => by
      obtain ⟨a, t, ha, hstep⟩ := hI.goes_on (fun sum hd => hfinal ⟨sum, hd⟩) hexit
      exact ⟨a, t, hstep, ⟨hI.step hargs hstep, fun he => ha (exited_of_step hstep he)⟩,
        hI.left_lt hstep⟩) ⟨inv_init, by simp [init]⟩
  obtain ⟨-, -, -, hsum, -⟩ := (process_sums 10 2).2 hargs as s hrun
  obtain rfl : sum = 55 := hsum sum hd
  exact ⟨as, s, hrun, hd⟩

end ProcessSum

end NetCentric
