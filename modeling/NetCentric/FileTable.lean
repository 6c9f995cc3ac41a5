import Mathlib.Data.List.ReduceOption
import Mathlib.Data.Multiset.AddSub

/-!
# Tables of descriptors

A process has a table that maps its descriptors, which are numbers, to open files of any
type. A new descriptor is the lowest number that is free (`alloc`), and a number that is
closed is free again.

`contents_alloc` and `contents_close` say what the two do to the open files, whatever their
numbers are, and `get?_alloc_of_ne` and `get?_close_of_ne` say that they leave the other
descriptors alone.
-/

namespace NetCentric

/-- The open files of a process. The position is the descriptor. -/
structure FileTable (φ : Type*) where
  slots : List (Option φ)

namespace FileTable

variable {φ : Type*} (t : FileTable φ) (f : φ) {j k : ℕ}

/-- Nothing is open. -/
def empty : FileTable φ :=
  ⟨[]⟩

/-- What is open as the descriptor `k`. -/
def get? (k : ℕ) : Option φ :=
  t.slots[k]?.join

/-- The lowest number that is free. -/
def free : List (Option φ) → ℕ
  | [] | none :: _ => 0
  | some _ :: slots => free slots + 1

/-- The file in the first free slot. -/
def fill : List (Option φ) → List (Option φ)
  | [] => [some f]
  | none :: slots => some f :: slots
  | some g :: slots => some g :: fill slots

/-- A new descriptor of `f`, which is `free t.slots`. -/
def alloc : FileTable φ :=
  ⟨fill f t.slots⟩

/-- `close(k)`. -/
def close (k : ℕ) : FileTable φ :=
  ⟨t.slots.set k none⟩

/-- The files of all descriptors. -/
def contents : Multiset φ :=
  t.slots.reduceOption

@[simp] theorem contents_empty : (empty : FileTable φ).contents = 0 :=
  rfl

@[simp] theorem get?_alloc : (t.alloc f).get? (free t.slots) = some f := by
  obtain ⟨slots⟩ := t
  change (fill f slots)[free slots]?.join = some f
  induction slots with
  | nil => rfl
  | cons x slots ih =>
    cases x with
    | none => rfl
    | some g => exact ih

/-- A new descriptor was free. -/
theorem get?_free : t.get? (free t.slots) = none := by
  obtain ⟨slots⟩ := t
  change slots[free slots]?.join = none
  induction slots with
  | nil => rfl
  | cons x slots ih =>
    cases x with
    | none => rfl
    | some g => exact ih

/-- A new descriptor leaves the others alone. -/
theorem get?_alloc_of_ne (h : j ≠ free t.slots) : (t.alloc f).get? j = t.get? j := by
  obtain ⟨slots⟩ := t
  change (fill f slots)[j]?.join = slots[j]?.join
  change j ≠ free slots at h
  induction slots generalizing j with
  | nil =>
    obtain ⟨j, rfl⟩ := Nat.exists_eq_succ_of_ne_zero h
    rfl
  | cons x slots ih =>
    cases x with
    | none =>
      obtain ⟨j, rfl⟩ := Nat.exists_eq_succ_of_ne_zero h
      rfl
    | some g =>
      cases j with
      | zero => rfl
      | succ j => exact ih fun hj => h (congrArg Nat.succ hj)

/-- What is open stays open as a new descriptor comes. -/
theorem get?_alloc_of_some {g : φ} (h : t.get? j = some g) : (t.alloc f).get? j = some g := by
  rw [get?_alloc_of_ne t f fun hj => ?_, h]
  rw [hj, get?_free] at h
  cases h

@[simp] theorem contents_alloc : (t.alloc f).contents = f ::ₘ t.contents := by
  obtain ⟨slots⟩ := t
  change ((fill f slots).reduceOption : Multiset φ) = f ::ₘ slots.reduceOption
  induction slots with
  | nil => rfl
  | cons x slots ih =>
    cases x with
    | none => rfl
    | some g =>
      rw [fill, List.reduceOption_cons_of_some, List.reduceOption_cons_of_some,
        ← Multiset.cons_coe, ih, ← Multiset.cons_coe, Multiset.cons_swap]

theorem get?_close_of_ne (h : j ≠ k) : (t.close k).get? j = t.get? j := by
  change (t.slots.set k none)[j]?.join = _
  rw [List.getElem?_set_ne h.symm]
  rfl

/-- A file that is closed is gone once. -/
theorem contents_close {f : φ} (h : t.get? k = some f) :
    t.contents = f ::ₘ (t.close k).contents := by
  obtain ⟨slots⟩ := t
  change (slots.reduceOption : Multiset φ) = f ::ₘ (slots.set k none).reduceOption
  change slots[k]?.join = some f at h
  induction slots generalizing k with
  | nil => cases h
  | cons x slots ih =>
    cases k with
    | zero =>
      obtain rfl : x = some f := h
      rfl
    | succ k =>
      have hrest := ih h
      cases x with
      | none => exact hrest
      | some g =>
        rw [List.set_cons_succ, List.reduceOption_cons_of_some, List.reduceOption_cons_of_some,
          ← Multiset.cons_coe, hrest, ← Multiset.cons_coe, Multiset.cons_swap]

/-- Nothing comes with a `close`. -/
theorem mem_of_mem_close {f : φ} (h : f ∈ (t.close k).contents) : f ∈ t.contents := by
  obtain ⟨slots⟩ := t
  change f ∈ (slots.set k none).reduceOption at h
  change f ∈ slots.reduceOption
  rw [List.reduceOption_mem_iff] at h ⊢
  exact (List.mem_or_eq_of_mem_set h).resolve_right nofun

end FileTable

end NetCentric
