import NetCentric.Sections
import Mathlib.Algebra.Order.Ring.Int

/-!
# The number in shared memory

The parent and the child of `shared_memory.c` share a number, and nothing guards it. The child
adds one to it fifty times, and the parent sets it to ten in between. The child loads the
number and stores it in two steps.

`final_numbers` : when both have come to their ends, the number is ten plus any number of
increments, or it is fifty, where the child has stored over the ten.
-/

namespace NetCentric

namespace SharedNumber

open Sections

/-- What a process does with the number. -/
inductive Op
  /-- The right side of `*shared_memory = *shared_memory + 1`. -/
  | load
  /-- Its assignment. -/
  | store
  /-- `*shared_memory = value`. -/
  | set (value : ℤ)
  | printf
  deriving DecidableEq

/-- The number, and the numbers printed. -/
structure Memory where
  number : ℤ
  output : List (Side × ℤ)
  deriving DecidableEq

def exec (i : Side) : Op → Memory × ℤ → Memory × ℤ
  | .load, (m, _) => (m, m.number)
  | .store, (m, val) => ({ m with number := val + 1 }, val)
  | .set value, (m, val) => ({ m with number := value }, val)
  | .printf, (m, val) => ({ m with output := m.output ++ [(i, m.number)] }, val)

/-- The loop of the child, with so many increments, and what comes after it. -/
def loop : ℕ → List (Instr Op)
  | 0 => [.op .printf]
  | n + 1 => .op .load :: .op .store :: loop n

/-- The program of a process after the `fork`, up to the `wait` of the parent. -/
def program (n : ℕ) (value : ℤ) : Side → List (Instr Op)
  | .parent => [.op .printf, .op (.set value), .op .printf]
  | .child => .op .printf :: loop n

def start (n : ℕ) (value : ℤ) : State Side Op Memory ℤ :=
  ⟨1, ⟨0, []⟩, fun _ => 0, program n value⟩

/-- `shared_memory.c` with `n` increments and this value. -/
def sharedMemory (n : ℕ) (value : ℤ) : System (State Side Op Memory ℤ) Side :=
  processes exec fun s => s = start n value

/-! ## Where the processes are -/

/-- The instructions the child has left when it has stored `k` times. With `loaded` it is
between a load and its store. -/
inductive Child (n : ℕ) : List (Instr Op) → ℕ → Bool → Prop
  | first : Child n (.op .printf :: loop n) 0 false
  | load (k m : ℕ) : k + m = n → Child n (loop m) k false
  | store (k m : ℕ) : k + (m + 1) = n → Child n (.op .store :: loop m) k true
  | ended : Child n [] n false

/-- The instructions the parent has left, before and after it sets the number. -/
inductive Parent (value : ℤ) : List (Instr Op) → Bool → Prop
  | first : Parent value [.op .printf, .op (.set value), .op .printf] false
  | second : Parent value [.op (.set value), .op .printf] false
  | third : Parent value [.op .printf] true
  | ended : Parent value [] true

/-- The number, and what the child has loaded, after `k` stores of the child. Until the parent
sets it the number counts the stores. Then it counts the ones after that, or it counts all
stores again, when the child has stored over it. -/
def Value (value : ℤ) (k : ℕ) (loaded isSet : Bool) (number own : ℤ) : Prop :=
  if isSet then
    value ≤ number ∧ number ≤ value + k ∧ (loaded → own = number ∨ own = k) ∨
      number = k ∧ 0 < k ∧ (loaded → own = number)
  else number = k ∧ (loaded → own = k)

/-- Where the two processes are, and the number. -/
def Inv (n : ℕ) (value : ℤ) (s : State Side Op Memory ℤ) : Prop :=
  ∃ k loaded isSet, Child n (s.left .child) k loaded ∧ Parent value (s.left .parent) isSet ∧
    Value value k loaded isSet s.shared.number (s.own .child)

variable {n : ℕ} {value : ℤ} {s t : State Side Op Memory ℤ}

/-- At its end the child has stored in each of its increments. -/
theorem Child.of_nil {left : List (Instr Op)} {k : ℕ} {loaded : Bool} (h : Child n left k loaded)
    (hnil : left = []) : k = n := by
  cases h with
  | first => cases hnil
  | load k m => cases m <;> cases hnil
  | store => cases hnil
  | ended => rfl

/-- At its end the parent has set the number. -/
theorem Parent.of_nil {left : List (Instr Op)} {isSet : Bool} (h : Parent value left isSet)
    (hnil : left = []) : isSet = true := by
  cases h with
  | first => cases hnil
  | second => cases hnil
  | third => rfl
  | ended => rfl

theorem inv_start : Inv n value (start n value) :=
  ⟨0, false, false, .first, .first, rfl, nofun⟩

/-- A step of the child. -/
theorem Inv.child (hI : Inv n value s) (h : step exec s .child = some t) : Inv n value t := by
  obtain ⟨k, loaded, isSet, hchild, hparent, hvalue⟩ := hI
  generalize hleft : s.left .child = left at hchild
  cases hchild with
  | first =>
    obtain ⟨hshared, hown, hleft', hothers⟩ := step_op_spec hleft h
    rw [← (hothers .parent nofun).2] at hparent
    refine ⟨0, false, isSet, hleft' ▸ .load 0 n (Nat.zero_add n), hparent, ?_⟩
    rw [hshared, hown]
    exact hvalue
  | load k m hm =>
    cases m with
    | zero =>
      obtain ⟨hshared, hown, hleft', hothers⟩ := step_op_spec hleft h
      rw [← (hothers .parent nofun).2] at hparent
      obtain rfl : k = n := hm
      refine ⟨k, false, isSet, hleft' ▸ .ended, hparent, ?_⟩
      rw [hshared, hown]
      exact hvalue
    | succ m =>
      obtain ⟨hshared, hown, hleft', hothers⟩ := step_op_spec hleft h
      rw [← (hothers .parent nofun).2] at hparent
      refine ⟨k, true, isSet, hleft' ▸ .store k m hm, hparent, ?_⟩
      rw [hshared, hown]
      cases isSet with
      | false => exact ⟨hvalue.1, fun _ => hvalue.1⟩
      | true =>
        rcases hvalue with ⟨hlow, hhigh, -⟩ | ⟨hnumber, hpos, -⟩
        · exact .inl ⟨hlow, hhigh, fun _ => .inl rfl⟩
        · exact .inr ⟨hnumber, hpos, fun _ => rfl⟩
  | store k m hm =>
    obtain ⟨hshared, hown, hleft', hothers⟩ := step_op_spec hleft h
    rw [← (hothers .parent nofun).2] at hparent
    refine ⟨k + 1, false, isSet, hleft' ▸ .load (k + 1) m (by omega), hparent, ?_⟩
    rw [hshared, hown]
    dsimp only [exec]
    cases isSet with
    | false =>
      have hloaded := hvalue.2 rfl
      refine ⟨?_, nofun⟩
      rw [hloaded]
      rfl
    | true =>
      rcases hvalue with ⟨hlow, hhigh, hloaded⟩ | ⟨hnumber, hpos, hloaded⟩
      · rcases hloaded rfl with hloaded | hloaded
        · exact .inl ⟨by omega, by push_cast; omega, nofun⟩
        · -- the number that the parent has set is lost
          exact .inr ⟨by push_cast; omega, Nat.succ_pos k, nofun⟩
      · have := hloaded rfl
        exact .inr ⟨by push_cast; omega, Nat.succ_pos k, nofun⟩
  | ended => simp [step, hleft] at h

/-- A step of the parent. -/
theorem Inv.parent (hI : Inv n value s) (h : step exec s .parent = some t) : Inv n value t := by
  obtain ⟨k, loaded, isSet, hchild, hparent, hvalue⟩ := hI
  generalize hleft : s.left .parent = left at hparent
  cases hparent with
  | first =>
    obtain ⟨hshared, -, hleft', hothers⟩ := step_op_spec hleft h
    obtain ⟨hown, hleft⟩ := hothers .child nofun
    exact ⟨k, loaded, false, hleft ▸ hchild, hleft' ▸ .second, by rw [hshared, hown]; exact hvalue⟩
  | second =>
    obtain ⟨hshared, -, hleft', hothers⟩ := step_op_spec hleft h
    obtain ⟨hown, hleft⟩ := hothers .child nofun
    refine ⟨k, loaded, true, hleft ▸ hchild, hleft' ▸ .third, ?_⟩
    rw [hshared, hown]
    exact .inl ⟨le_rfl, by dsimp only [exec]; omega, fun hloaded => .inr (hvalue.2 hloaded)⟩
  | third =>
    obtain ⟨hshared, -, hleft', hothers⟩ := step_op_spec hleft h
    obtain ⟨hown, hleft⟩ := hothers .child nofun
    exact ⟨k, loaded, true, hleft ▸ hchild, hleft' ▸ .ended, by rw [hshared, hown]; exact hvalue⟩
  | ended => simp [step, hleft] at h

theorem Inv.of_reachable (h : (sharedMemory n value).Reachable s) : Inv n value s :=
  System.Reachable.invariant (fun _ hs => hs ▸ inv_start) (fun _ i _ hI hstep => by
    cases i with
    | parent => exact hI.parent hstep
    | child => exact hI.child hstep) h

/-! ## Every value -/

/-- The child does some increments alone. -/
theorem leads_loop {k m : ℕ} (h : s.left .child = loop (m + k)) :
    ∃ t, Leads exec s t ∧ t.shared.number = s.shared.number + k ∧ t.left .child = loop m ∧
      t.left .parent = s.left .parent := by
  induction k generalizing s with
  | zero => exact ⟨s, .refl s, by simp, h, rfl⟩
  | succ k ih =>
    have hops : s.left .child = [Op.load, .store].map .op ++ loop (m + k) := h
    obtain ⟨s₁, h₁, hshared₁, -, hleft₁, hothers₁⟩ := exists_leads_ops hops
    obtain ⟨t, ht, hnumber, hleft, hparent⟩ := ih hleft₁
    refine ⟨t, h₁.trans ht, ?_, hleft, hparent.trans (hothers₁ .parent nofun).2⟩
    rw [hnumber, hshared₁, Nat.cast_succ]
    dsimp only [execAll, exec, List.foldl_cons, List.foldl_nil]
    omega

/-- The parent runs to its `wait` alone. -/
theorem leads_parent (h : s.left .parent = program n value .parent) :
    ∃ t, Leads exec s t ∧ t.shared.number = value ∧ t.left .parent = [] ∧
      t.left .child = s.left .child ∧ t.own .child = s.own .child := by
  have hops : s.left .parent = [Op.printf, .set value, .printf].map .op ++ [] := h
  obtain ⟨t, ht, hshared, -, hleft, hothers⟩ := exists_leads_ops hops
  obtain ⟨hown, hchild⟩ := hothers .child nofun
  exact ⟨t, ht, by rw [hshared]; rfl, hleft, hchild, hown⟩

/-- The child takes operations that leave the number as it is. -/
theorem leads_keep {ops : List Op} {is : List (Instr Op)} (h : s.left .child = ops.map .op ++ is)
    (hkeep : (execAll exec .child (s.shared, s.own .child) ops).1.number = s.shared.number) :
    ∃ t, Leads exec s t ∧ t.shared.number = s.shared.number ∧ t.left .child = is ∧
      t.left .parent = s.left .parent ∧
      t.own .child = (execAll exec .child (s.shared, s.own .child) ops).2 := by
  obtain ⟨t, ht, hshared, hown, hleft, hothers⟩ := exists_leads_ops h
  exact ⟨t, ht, by rw [hshared, hkeep], hleft, (hothers .parent nofun).2, hown⟩

/-- The child before its first increment. -/
theorem leads_first (n : ℕ) (value : ℤ) : ∃ t, Leads exec (start n value) t ∧
    t.shared.number = 0 ∧ t.left .child = loop n ∧
    t.left .parent = program n value .parent := by
  have hops : (start n value).left .child = [Op.printf].map .op ++ loop n := rfl
  obtain ⟨t, ht, hnumber, hchild, hparent, -⟩ := leads_keep hops rfl
  exact ⟨t, ht, hnumber, hchild, hparent⟩

/-- The parent sets the number before the last `j` increments. -/
theorem leads_set {j : ℕ} (hj : j ≤ n) :
    ∃ t, Leads exec (start n value) t ∧ Ended t ∧ t.shared.number = value + j := by
  obtain ⟨k, rfl⟩ := Nat.exists_eq_add_of_le hj
  obtain ⟨s₁, h₁, -, hl₁, hp₁⟩ := leads_first (j + k) value
  obtain ⟨s₂, h₂, -, hl₂, hp₂⟩ := leads_loop (s := s₁) (m := j) (k := k) hl₁
  obtain ⟨s₃, h₃, hn₃, hp₃, hl₃, -⟩ := leads_parent (s := s₂) (n := j + k) (hp₂.trans hp₁)
  obtain ⟨s₄, h₄, hn₄, hl₄, hp₄⟩ := leads_loop (s := s₃) (m := 0) (k := j) (by
    rw [hl₃, hl₂, Nat.zero_add])
  have hlast : s₄.left .child = [Op.printf].map .op ++ [] := hl₄
  obtain ⟨s₅, h₅, hn₅, hl₅, hp₅, -⟩ := leads_keep hlast rfl
  refine ⟨s₅, h₁.trans (h₂.trans (h₃.trans (h₄.trans h₅))),
    ended_side (hp₅.trans (hp₄.trans hp₃)) hl₅, ?_⟩
  rw [hn₅, hn₄, hn₃]

/-- The parent sets the number between the last load and the last store. -/
theorem leads_over (hn : 0 < n) :
    ∃ t, Leads exec (start n value) t ∧ Ended t ∧ t.shared.number = n := by
  obtain ⟨k, rfl⟩ := Nat.exists_eq_add_of_lt hn
  obtain ⟨s₁, h₁, hn₁, hl₁, hp₁⟩ := leads_first (0 + k + 1) value
  obtain ⟨s₂, h₂, hn₂, hl₂, hp₂⟩ := leads_loop (s := s₁) (m := 1) (k := k) (by
    rw [hl₁, Nat.zero_add, Nat.add_comm])
  have hload : s₂.left .child = [Op.load].map .op ++ .op .store :: loop 0 := hl₂
  obtain ⟨s₃, h₃, hn₃, hl₃, hp₃, ho₃⟩ := leads_keep hload rfl
  obtain ⟨s₄, h₄, hn₄, hp₄, hl₄, ho₄⟩ :=
    leads_parent (s := s₃) (n := 0 + k + 1) (hp₃.trans (hp₂.trans hp₁))
  have hlast : s₄.left .child = [Op.store, .printf].map .op ++ [] := hl₄.trans hl₃
  obtain ⟨s₅, h₅, hshared₅, -, hl₅, hothers₅⟩ := exists_leads_ops hlast
  refine ⟨s₅, h₁.trans (h₂.trans (h₃.trans (h₄.trans h₅))),
    ended_side ((hothers₅ .parent nofun).2.trans hp₄) hl₅, ?_⟩
  have hown : s₄.own .child = k := by
    rw [ho₄, ho₃]
    change s₂.shared.number = k
    rw [hn₂, hn₁, Int.zero_add]
  rw [hshared₅]
  change s₄.own .child + 1 = _
  rw [hown, Nat.zero_add, Nat.cast_succ]

/-- The number that the parent reads after its `wait` is the value it has set plus any part of
the increments, or all increments and not the value. -/
theorem final_numbers (n : ℕ) (value x : ℤ) :
    (∃ s, (sharedMemory n value).Reachable s ∧ Ended s ∧ s.shared.number = x) ↔
      value ≤ x ∧ x ≤ value + n ∨ x = n ∧ 0 < n := by
  constructor
  · rintro ⟨s, hs, hended, rfl⟩
    obtain ⟨k, loaded, isSet, hchild, hparent, hvalue⟩ := Inv.of_reachable hs
    obtain rfl := hchild.of_nil (hended .child)
    obtain rfl := hparent.of_nil (hended .parent)
    rcases hvalue with ⟨hlow, hhigh, -⟩ | ⟨hnumber, hpos, -⟩
    · exact .inl ⟨hlow, hhigh⟩
    · exact .inr ⟨hnumber, hpos⟩
  · have hstart : (sharedMemory n value).Reachable (start n value) := ⟨_, [], rfl, rfl⟩
    rintro (⟨hlow, hhigh⟩ | ⟨rfl, hn⟩)
    · have hj : (x - value).toNat ≤ n := by omega
      obtain ⟨t, ht, hended, hnumber⟩ := leads_set hj
      exact ⟨t, ht.reachable hstart, hended, by omega⟩
    · obtain ⟨t, ht, hended, hnumber⟩ := leads_over hn
      exact ⟨t, ht.reachable hstart, hended, hnumber⟩

end SharedNumber

end NetCentric
