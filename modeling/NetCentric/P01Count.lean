import NetCentric.P01
import Mathlib.Data.Nat.Count

/-!
# Counting substrings

`OccursAt` is an occurrence in a buffer, up to the case of letters, and `occurrences`
their number, overlaps included. The loop of `countSubstrings` goes over the positions
one by one : `countLoop_eq` gives its count from what the comparisons say, and
`countLoop_eq_none` that it is undefined if one of them leaves the buffer.

`counts_iff` : the count is right for every substring whose length is an `int`. A longer
one is cut down, and the count is then that of its first bytes, if it is defined.
-/

namespace NetCentric

namespace P01

/-- The substring stands at position `j`, up to the case of ASCII letters. -/
def OccursAt (buffer substring : List Byte) (j : ℕ) : Prop :=
  j + substring.length ≤ buffer.length ∧
    ((buffer.drop j).take substring.length).map tolower = substring.map tolower

instance (buffer substring : List Byte) : DecidablePred (OccursAt buffer substring) :=
  fun _ => inferInstanceAs (Decidable (_ ∧ _))

/-- The number of positions at which the substring stands. -/
def occurrences (buffer substring : List Byte) : ℕ :=
  Nat.count (OccursAt buffer substring) (buffer.length + 1)

/-- The count of a substring does not leave `int`, and no comparison leaves the buffer. -/
def CountFits (buffer : List Byte) (size : ℤ) (substring : List Byte) : Prop :=
  FitsInt (size - toInt substring.length) ∧ FitsInt (size - toInt substring.length + 1) ∧
    ∀ j < (size - toInt substring.length + 1).toNat,
      (strncasecmpIn (buffer.drop j) substring (toSize (toInt substring.length))).isSome

instance (buffer : List Byte) (size : ℤ) (substring : List Byte) :
    Decidable (CountFits buffer size substring) :=
  inferInstanceAs (Decidable (_ ∧ _ ∧ _))

/-! ## The loop -/

section Loop

variable {buffer substring : List Byte} {substringLen size : ℤ}

/-- The loop counts the positions at which the comparison finds the texts equal. -/
theorem countLoop_eq {p : ℕ → Bool} {rounds ptr : ℕ} {count : ℤ} (hcount : 0 ≤ count)
    (hmax : count + rounds ≤ INT_MAX)
    (h : ∀ j < rounds, strncasecmpIn (buffer.drop (ptr + j)) substring (toSize substringLen) =
      some (p (ptr + j))) :
    countLoop buffer substring substringLen rounds ptr count =
      some (count + Nat.count (fun j => p (ptr + j)) rounds) := by
  induction rounds generalizing ptr count with
  | zero => simp [countLoop]
  | succ rounds ih =>
    have hfirst := h 0 (Nat.succ_pos _)
    have hrest : ∀ j < rounds, strncasecmpIn (buffer.drop (ptr + 1 + j)) substring
        (toSize substringLen) = some (p (ptr + 1 + j)) := by
      intro j hj
      have hnext := h (j + 1) (Nat.succ_lt_succ hj)
      rwa [show ptr + (j + 1) = ptr + 1 + j by omega] at hnext
    have hshift : Nat.count (fun j => p (ptr + (j + 1))) rounds =
        Nat.count (fun j => p (ptr + 1 + j)) rounds := by
      simp only [← Nat.add_assoc, Nat.add_right_comm ptr _ 1]
    push_cast at hmax
    rw [Nat.add_zero] at hfirst
    rw [countLoop, hfirst, Nat.count_succ', hshift]
    cases hp : p ptr with
    | true =>
      have hfits : FitsInt (count + 1) := fitsInt_of_nonneg (by omega) (by omega)
      simp only [Option.bind_eq_bind, Option.bind_some, if_true, checked_of_fits hfits]
      rw [ih (by omega) (by omega) hrest]
      push_cast
      rw [add_right_comm, add_assoc]
    | false =>
      simp only [Option.bind_eq_bind, Option.bind_some, Bool.false_eq_true, if_false]
      rw [ih hcount (by omega) hrest]
      rfl

/-- A comparison that leaves the buffer makes the loop undefined. -/
theorem countLoop_eq_none {rounds ptr j : ℕ} {count : ℤ} (hj : j < rounds)
    (h : strncasecmpIn (buffer.drop (ptr + j)) substring (toSize substringLen) = none) :
    countLoop buffer substring substringLen rounds ptr count = none := by
  induction rounds generalizing ptr j count with
  | zero => omega
  | succ rounds ih =>
    rw [countLoop]
    cases j with
    | zero => rw [Nat.add_zero] at h; rw [h]; rfl
    | succ j =>
      have hlater : ∀ count, countLoop buffer substring substringLen rounds (ptr + 1) count =
          none := fun count => ih (Nat.lt_of_succ_lt_succ hj) (by
        rwa [show ptr + 1 + j = ptr + (j + 1) by omega])
      cases strncasecmpIn (buffer.drop ptr) substring (toSize substringLen) with
      | none => rfl
      | some equal =>
        simp only [Option.bind_eq_bind, Option.bind_some, hlater]
        split
        case isTrue => cases checked (count + 1) <;> rfl
        case isFalse => rfl

/-- The loop, once the bound is computed. -/
theorem countSubstrings_of_fits (hrest : FitsInt (size - toInt substring.length))
    (hbound : FitsInt (size - toInt substring.length + 1)) :
    countSubstrings buffer substring size = countLoop buffer substring (toInt substring.length)
      (size - toInt substring.length + 1).toNat 0 0 := by
  simp only [countSubstrings, checked_of_fits hrest, checked_of_fits hbound, Option.bind_eq_bind,
    Option.bind_some]

theorem countSubstrings_isSome :
    (countSubstrings buffer substring size).isSome ↔ CountFits buffer size substring := by
  by_cases hrest : FitsInt (size - toInt substring.length)
  swap
  · exact iff_of_false (by simp [countSubstrings, checked, hrest]) fun h => hrest h.1
  by_cases hbound : FitsInt (size - toInt substring.length + 1)
  swap
  · exact iff_of_false (by simp [countSubstrings, checked, hrest, hbound]) fun h => hbound h.2.1
  rw [countSubstrings_of_fits hrest hbound, CountFits, and_iff_right hrest, and_iff_right hbound]
  constructor
  · intro h j hj
    by_contra hnone
    rw [countLoop_eq_none hj (by rwa [Nat.zero_add, ← Option.not_isSome_iff_eq_none])] at h
    cases h
  · intro h
    have hmax := hbound.2
    rw [countLoop_eq (p := fun j =>
        (strncasecmpIn (buffer.drop j) substring (toSize (toInt substring.length))).getD false)
      le_rfl ?_ fun j hj => ?_]
    · rfl
    · simp only [INT_MAX] at hmax ⊢
      omega
    · rw [Nat.zero_add]
      obtain ⟨equal, hequal⟩ := Option.isSome_iff_exists.1 (h j hj)
      rw [hequal]
      rfl

end Loop

/-! ## The count -/

section Count

variable {buffer substring : List Byte}

theorem occurrences_eq_zero_iff :
    occurrences buffer substring = 0 ↔ ∀ j, ¬OccursAt buffer substring j := by
  rw [occurrences, Nat.count_iff_forall_not]
  refine ⟨fun h j hj => h j ?_ hj, fun h j _ => h j⟩
  have := hj.1
  omega

theorem not_occursAt_of_long (h : buffer.length < substring.length) (j : ℕ) :
    ¬OccursAt buffer substring j := by
  intro hj
  have := hj.1
  omega

/-- The empty text stands everywhere. -/
theorem occursAt_nil {j : ℕ} (h : j ≤ buffer.length) : OccursAt buffer [] j :=
  ⟨h, rfl⟩

/-- Where the text has room, the comparison is inside the buffer and says whether it
stands there. -/
theorem strncasecmpIn_drop {n j : ℕ} (hnul : 0 ∉ substring) (hn : n ≤ substring.length)
    (hj : j + n ≤ buffer.length) :
    strncasecmpIn (buffer.drop j) substring n =
      some (decide (OccursAt buffer (substring.take n) j)) := by
  have hdrop : n ≤ (buffer.drop j).length := by
    rw [List.length_drop]
    omega
  rw [strncasecmpIn_eq hdrop hn hnul]
  refine congrArg some (decide_eq_decide.2 ?_)
  rw [OccursAt, List.length_take_of_le hn, and_iff_right hj]

/-- With a length of `n` after the conversion, the first `n` bytes are counted. -/
theorem countSubstrings_eq {n : ℕ} (hnul : 0 ∉ substring) (hlength : toInt substring.length = n)
    (hn : n ≤ substring.length) (hsize : (buffer.length : ℤ) ≤ INT_MAX)
    (hbound : FitsInt (buffer.length - n + 1)) :
    countSubstrings buffer substring buffer.length =
      some (occurrences buffer (substring.take n) : ℤ) := by
  have hmax : (n : ℤ) ≤ INT_MAX := hlength ▸ (fitsInt_toInt substring.length).2
  have hINT : INT_MIN = -INT_MAX - 1 := by decide
  have hrest : FitsInt (buffer.length - n) := ⟨by omega, by omega⟩
  have hwide : n < 2 ^ 64 := by
    rw [INT_MAX] at hmax
    omega
  rw [← hlength] at hrest hbound
  rw [countSubstrings_of_fits hrest hbound, hlength]
  rw [hlength] at hbound
  obtain ⟨rest, hrest⟩ : ∃ rest, buffer.length + 1 = (buffer.length - n + 1 : ℤ).toNat + rest :=
    Nat.exists_eq_add_of_le (by omega)
  rw [countLoop_eq (p := fun j => decide (OccursAt buffer (substring.take n) j)) le_rfl ?_
    fun j hj => ?_]
  · -- behind the bound the text has no room
    have hnone : Nat.count (fun j => OccursAt buffer (substring.take n)
        ((buffer.length - n + 1 : ℤ).toNat + j)) rest = 0 := by
      refine Nat.count_iff_forall_not.2 fun j _ hoccurs => ?_
      have hroom := hoccurs.1
      rw [List.length_take_of_le hn] at hroom
      omega
    rw [occurrences, hrest, Nat.count_add, hnone]
    simp only [zero_add, add_zero, decide_eq_true_eq]
  · have := hbound.2
    omega
  · rw [toSize_natCast hwide, Nat.zero_add]
    exact strncasecmpIn_drop hnul hn (by omega)

/-- The length of the substring is an `int`, or it is cut down to a number of bytes that do
not stand in the buffer. The empty substring needs one more position than the buffer has
bytes. -/
def Countable (buffer substring : List Byte) : Prop :=
  ((buffer.length : ℤ) = INT_MAX → substring ≠ []) ∧
    ((substring.length : ℤ) ≤ INT_MAX ∨ 0 ≤ toInt substring.length ∧
      ∀ j, ¬OccursAt buffer (substring.take (toInt substring.length).toNat) j)

/-- With a negative length the last comparisons leave the buffer. -/
theorem countSubstrings_of_neg (h : toInt substring.length < 0) :
    countSubstrings buffer substring buffer.length = none := by
  rw [← Option.not_isSome_iff_eq_none, countSubstrings_isSome]
  rintro ⟨-, -, hinside⟩
  have hlast := hinside buffer.length (by omega)
  have hmin := (fitsInt_toInt substring.length).1
  rw [INT_MIN] at hmin
  have hpos : toSize (toInt substring.length) ≠ 0 := by
    rw [toSize]
    omega
  rw [List.drop_length, strncasecmpIn, if_neg hpos] at hlast
  cases hlast

/-- The number of positions is no `int`. -/
theorem countSubstrings_of_not_fits
    (h : ¬FitsInt (buffer.length - toInt substring.length + 1)) :
    countSubstrings buffer substring buffer.length = none := by
  rw [← Option.not_isSome_iff_eq_none, countSubstrings_isSome]
  exact fun hfits => h hfits.2.1

/-- The count is right if and only if the substring is countable. -/
theorem countSubstrings_eq_iff (hnul : 0 ∉ substring) (hsize : (buffer.length : ℤ) ≤ INT_MAX) :
    countSubstrings buffer substring buffer.length = some (occurrences buffer substring : ℤ) ↔
      Countable buffer substring := by
  have hINT : INT_MIN = -INT_MAX - 1 := by decide
  have hzero : (0 : ℤ) ≤ INT_MAX := by decide
  rcases lt_or_ge (toInt substring.length) 0 with hneg | hpos
  · rw [countSubstrings_of_neg hneg]
    refine iff_of_false (by simp) ?_
    rintro ⟨-, hlength | ⟨hpos, -⟩⟩
    · rw [toInt_natCast hlength] at hneg
      omega
    · omega
  obtain ⟨n, hn⟩ := Int.eq_ofNat_of_zero_le hpos
  have hmax : (n : ℤ) ≤ INT_MAX := hn ▸ (fitsInt_toInt substring.length).2
  have hkept : (substring.length : ℤ) ≤ INT_MAX → n = substring.length := fun h => by
    rw [toInt_natCast h] at hn
    omega
  have hle : n ≤ substring.length := by
    by_cases h : (substring.length : ℤ) ≤ INT_MAX
    · exact (hkept h).le
    · omega
  by_cases hbound : FitsInt (buffer.length - n + 1)
  · rw [countSubstrings_eq hnul hn hle hsize hbound, Countable, hn, Int.toNat_natCast,
      Option.some_inj, Int.natCast_inj]
    by_cases hlength : (substring.length : ℤ) ≤ INT_MAX
    · refine iff_of_true (by rw [hkept hlength, List.take_length]) ⟨?_, .inl hlength⟩
      rintro hfull rfl
      have := hbound.2
      have := hkept hlength
      simp only [List.length_nil] at this
      omega
    · -- a substring that is longer than the buffer stands nowhere
      have hnone : occurrences buffer substring = 0 :=
        occurrences_eq_zero_iff.2 (not_occursAt_of_long (by omega))
      rw [hnone, occurrences_eq_zero_iff]
      refine ⟨fun h => ⟨?_, .inr ⟨Int.natCast_nonneg n, h⟩⟩,
        fun h => (h.2.resolve_left hlength).2⟩
      rintro - rfl
      exact hlength hzero
  · -- only the empty text needs more positions than an `int` can say
    obtain ⟨hfull, rfl⟩ : (buffer.length : ℤ) = INT_MAX ∧ n = 0 := by
      rw [FitsInt, hINT] at hbound
      omega
    refine iff_of_false ?_ ?_
    · rw [countSubstrings_of_not_fits (by rwa [hn])]
      simp
    · rintro ⟨hne, hlength | ⟨-, hno⟩⟩
      · exact hne hfull (List.length_eq_zero_iff.1 (hkept hlength).symm)
      · rw [hn] at hno
        exact hno 0 (occursAt_nil (Nat.zero_le _))

/-- For a buffer with room for one more position, the count is right and no comparison
leaves the buffer if and only if the length of the substring is an `int`, or the bytes that
are left of it do not stand in the buffer. -/
theorem counts_iff (hnul : 0 ∉ substring) (hsize : buffer.length ≤ 2 ^ 31 - 2) :
    countSubstrings buffer substring buffer.length = some (occurrences buffer substring : ℤ) ↔
      (substring.length : ℤ) ≤ INT_MAX ∨ 0 ≤ toInt substring.length ∧
        ∀ j, ¬OccursAt buffer (substring.take (toInt substring.length).toNat) j := by
  have hmax : (buffer.length : ℤ) < INT_MAX := by
    rw [INT_MAX]
    omega
  rw [countSubstrings_eq_iff hnul hmax.le, Countable]
  exact and_iff_right fun hfull => absurd hfull hmax.ne

end Count

/-- The file of the first test. -/
theorem counts_iff_ooo :
    countSubstrings (bytes "ooo\n") (bytes "oo") 4 = some 2 ∧
      occurrences (bytes "ooo\n") (bytes "oo") = 2 :=
  ⟨(counts_iff (by decide) (by decide)).2 (.inl (by decide)), by decide⟩

/-- Of a substring of 2³² bytes no byte is left, so it is counted in an empty buffer. -/
theorem counts_long : ¬∀ buffer substring : List Byte, 0 ∉ substring →
    buffer.length ≤ 2 ^ 31 - 2 →
    countSubstrings buffer substring buffer.length = some (occurrences buffer substring : ℤ) := by
  intro h
  have hnul : (0 : Byte) ∉ List.replicate (2 ^ 32) 97 := fun h0 =>
    absurd (List.eq_of_mem_replicate h0) (by decide)
  have hcount := (countSubstrings_eq_iff hnul (by decide)).1 (h [] _ hnul (by decide))
  have hlength : (List.replicate (2 ^ 32) (97 : Byte)).length = 2 ^ 32 := List.length_replicate
  obtain ⟨-, hint | ⟨-, hno⟩⟩ := hcount
  · rw [hlength] at hint
    exact absurd hint (by decide)
  · have hnone : toInt ((2 ^ 32 : ℕ) : ℤ) = 0 := by decide
    rw [hlength, hnone] at hno
    exact hno 0 (occursAt_nil (le_refl 0))

end P01

end NetCentric
