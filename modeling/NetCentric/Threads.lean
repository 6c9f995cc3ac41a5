import Mathlib.Algebra.BigOperators.Group.Finset.Piecewise
import Mathlib.Algebra.Order.BigOperators.Group.Finset
import Mathlib.Data.Fintype.BigOperators

/-!
# Counting over a family of threads

The local states of any number of threads are a function on an index type, and one
thread's step updates it at one index. An invariant that counts threads is a sum of
weights over the family. `sum_update` says how such a sum moves with one thread, and
`sum_le_one_unique` that two threads of positive weight are the same thread when the sum
is at most one.
-/

open Finset

namespace NetCentric

namespace Threads

variable {ι β M : Type*} [Fintype ι] [DecidableEq ι]

/-- One thread moves from `f i` to `x`, where a thread's weight depends on which it is. -/
theorem sum_update_at [AddCommMonoid M] (w : ι → β → M) (f : ι → β) (i : ι) (x : β) :
    ∑ j, w j (Function.update f i x j) + w i (f i) = ∑ j, w j (f j) + w i x := by
  have hrest : ∑ j ∈ univ.erase i, w j (Function.update f i x j) =
      ∑ j ∈ univ.erase i, w j (f j) := by
    refine sum_congr rfl fun j hj => ?_
    rw [Function.update_of_ne (ne_of_mem_erase hj)]
  rw [← add_sum_erase univ (fun j => w j (Function.update f i x j)) (mem_univ i),
    ← add_sum_erase univ (fun j => w j (f j)) (mem_univ i), hrest, Function.update_self]
  ac_rfl

/-- One thread moves from `f i` to `x` : the sum gains the new weight and loses the old. -/
theorem sum_update [AddCommMonoid M] (w : β → M) (f : ι → β) (i : ι) (x : β) :
    ∑ j, w (Function.update f i x j) + w (f i) = ∑ j, w (f j) + w x :=
  sum_update_at (fun _ => w) f i x

omit [DecidableEq ι] in
theorem le_sum (w : β → ℕ) (f : ι → β) (i : ι) : w (f i) ≤ ∑ j, w (f j) :=
  single_le_sum (f := fun j => w (f j)) (fun _ _ => Nat.zero_le _) (mem_univ i)

/-- With a sum of at most one there is at most one thread of positive weight. -/
theorem sum_le_one_unique {w : β → ℕ} {f : ι → β} (h : ∑ j, w (f j) ≤ 1) {i k : ι}
    (hi : 0 < w (f i)) (hk : 0 < w (f k)) : i = k := by
  by_contra hne
  have hpair : ∑ j ∈ {i, k}, w (f j) ≤ ∑ j, w (f j) :=
    sum_le_sum_of_subset (subset_univ _)
  rw [sum_pair hne] at hpair
  omega

end Threads

end NetCentric
