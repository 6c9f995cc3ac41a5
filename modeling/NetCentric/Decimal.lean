import NetCentric.Handler
import Mathlib.Data.Nat.Log

/-!
# Decimal numbers

What `%d` prints. `width` is its length, from the number alone, and two numbers that are
printed alike are the same (`decimal_injective`) : the digits are read back by
`digitsValue`, which is also how `sscanf` reads them.
-/

open NetCentric.Scanf

namespace NetCentric

/-! ## The length -/

/-- The length of a decimal number. -/
def width (x : ℤ) : ℕ :=
  (if x < 0 then 1 else 0) + (Nat.log 10 x.natAbs + 1)

theorem length_bytes (s : String) : (bytes s).length = s.length := by
  rw [bytes, List.length_map, String.length_toList]

theorem length_repr (n : ℕ) : n.repr.length = Nat.log 10 n + 1 := by
  rcases eq_or_ne n 0 with rfl | hn
  · rfl
  have hle : ∀ k, n.repr.length ≤ k + 1 ↔ Nat.log 10 n ≤ k := by
    intro k
    rw [Nat.length_repr_le_iff (Nat.succ_pos k), ← Nat.log_lt_iff_lt_pow (by decide) hn,
      Nat.lt_succ_iff]
  have hpos := Nat.length_repr_pos (n := n)
  have hlow := (hle (n.repr.length - 1)).1 (by omega)
  have hhigh := (hle (Nat.log 10 n)).2 (le_refl _)
  omega

theorem length_decimal (x : ℤ) : (decimal x).length = width x := by
  rw [decimal, length_bytes, Int.toString_eq_repr, Int.repr_eq_if, width]
  split
  case isTrue h =>
    rw [length_repr, if_neg (by omega), Nat.zero_add, show x.toNat = x.natAbs by omega]
  case isFalse h =>
    rw [String.length_append, length_repr, if_pos (by omega), show (-x).toNat = x.natAbs by omega]
    rfl

/-- `k` digits, without a sign. -/
theorem width_natCast_le {n k : ℕ} (hn : n < 10 ^ (k + 1)) : width n ≤ k + 1 := by
  have hlog : Nat.log 10 n ≤ k := Nat.lt_succ_iff.1 (Nat.log_lt_of_lt_pow' (by simp) hn)
  rw [width, if_neg (by omega), Int.natAbs_natCast]
  omega

/-- An `int` has ten digits and a sign at most. -/
theorem width_le_of_fitsInt {x : ℤ} (h : FitsInt x) : width x ≤ 11 := by
  obtain ⟨hmin, hmax⟩ := h
  rw [INT_MIN] at hmin
  rw [INT_MAX] at hmax
  have hlog : Nat.log 10 x.natAbs < 10 := Nat.log_lt_of_lt_pow' (by simp) (by omega)
  rw [width]
  split <;> omega

/-! ## Reading it back -/

theorem isdigit_of_isDigit {c : Char} (h : c.isDigit = true) :
    isdigit c.toUInt8 = true ∧ c.toUInt8.toNat = c.toNat := by
  have hrange : 48 ≤ c.toNat ∧ c.toNat ≤ 57 := by
    simpa [Char.isDigit, UInt32.le_iff_toNat_le] using h
  have hval : c.toUInt8.toNat = c.toNat := by
    rw [Char.toUInt8, UInt32.toNat_toUInt8]
    exact Nat.mod_eq_of_lt (by change c.toNat < _; omega)
  refine ⟨?_, hval⟩
  rw [isdigit, Bool.and_eq_true, decide_eq_true_eq, decide_eq_true_eq, UInt8.le_iff_toNat_le,
    UInt8.le_iff_toNat_le, hval]
  exact hrange

theorem isdigit_of_mem_repr {n : ℕ} {c : Byte} (h : c ∈ bytes n.repr) : isdigit c = true := by
  obtain ⟨d, hd, rfl⟩ := List.mem_map.1 h
  rw [Nat.toList_repr] at hd
  exact (isdigit_of_isDigit (Nat.isDigit_of_mem_toDigits (by decide) (by decide) hd)).1

theorem digitsValue_repr (n : ℕ) : digitsValue (bytes n.repr) = n := by
  have hfold : ∀ (l : List Char) (v : ℕ), (∀ c ∈ l, c.isDigit = true) →
      (l.map Char.toUInt8).foldl (fun v d => 10 * v + (d.toNat - 48)) v =
        Nat.ofDigitChars 10 l v := by
    intro l
    induction l with
    | nil => exact fun v _ => by simp
    | cons c l ih =>
      intro v h
      obtain ⟨hc, hl⟩ := List.forall_mem_cons.1 h
      rw [List.map_cons, List.foldl_cons, ih _ hl, (isdigit_of_isDigit hc).2,
        Nat.ofDigitChars_cons]
      rfl
  rw [digitsValue, bytes, Nat.toList_repr, hfold _ _ fun c hc =>
    Nat.isDigit_of_mem_toDigits (by decide) (by decide) hc, Nat.ofDigitChars_ten_toDigits]

/-- A minus sign in front of the digits, or none. -/
theorem decimal_cases (x : ℤ) : 0 ≤ x ∧ decimal x = bytes x.natAbs.repr ∨
    x < 0 ∧ decimal x = 45 :: bytes x.natAbs.repr := by
  rw [decimal, Int.toString_eq_repr, Int.repr_eq_if]
  split
  case isTrue h => exact .inl ⟨h, by rw [show x.toNat = x.natAbs by omega]⟩
  case isFalse h =>
    have hminus : "-".toList.map Char.toUInt8 = [45] := by decide
    refine .inr ⟨by omega, ?_⟩
    rw [show (-x).toNat = x.natAbs by omega, bytes, String.toList_append, List.map_append, hminus]
    rfl

/-- What is printed is digits and at most a minus sign. -/
theorem mem_decimal {x : ℤ} {c : Byte} (h : c ∈ decimal x) : c = 45 ∨ isdigit c = true := by
  rcases decimal_cases x with ⟨-, hx⟩ | ⟨-, hx⟩ <;> rw [hx] at h
  · exact .inr (isdigit_of_mem_repr h)
  · exact (List.mem_cons.1 h).imp_right isdigit_of_mem_repr

theorem decimal_injective {x y : ℤ} (h : decimal x = decimal y) : x = y := by
  have hread : ∀ {m n : ℕ}, bytes m.repr = bytes n.repr → m = n := fun {m n} h => by
    rw [← digitsValue_repr m, h, digitsValue_repr]
  have hsign : ∀ {m n : ℕ}, bytes m.repr ≠ 45 :: bytes n.repr := fun {m n} h => by
    have hminus : isdigit 45 = true := isdigit_of_mem_repr (n := m) (h ▸ List.mem_cons_self)
    exact absurd hminus (by decide)
  rcases decimal_cases x with ⟨hx, hdx⟩ | ⟨hx, hdx⟩ <;>
    rcases decimal_cases y with ⟨hy, hdy⟩ | ⟨hy, hdy⟩ <;> rw [hdx, hdy] at h
  · have := hread h
    omega
  · exact absurd h hsign
  · exact absurd h.symm hsign
  · have := hread (List.cons.inj h).2
    omega

end NetCentric
