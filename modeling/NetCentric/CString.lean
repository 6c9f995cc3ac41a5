import Mathlib.Data.List.Infix
import Mathlib.Data.List.TakeWhile
import Mathlib.Data.Nat.Find

/-!
# C strings

A byte is a `UInt8` and a C string the bytes before its terminating NUL (`cstr` cuts one
out of memory). A pointer into a string is its offset from the start, so `strchr` and
`strstr` return an offset, `s + p` is `s.drop p`, and the difference of two pointers is
the difference of their offsets.

`strstr_eq_some_iff` and `strstr_eq_none_iff` say which occurrence `strstr` finds, and
`replaceFirst` is the text with that occurrence replaced.
-/

namespace NetCentric

/-- One `char`. -/
abbrev Byte := UInt8

/-- The bytes of a string literal. -/
def bytes (s : String) : List Byte :=
  s.toList.map Char.toUInt8

/-- The C string that starts at this memory. -/
def cstr (mem : List Byte) : List Byte :=
  mem.takeWhile (· ≠ 0)

/-- `isspace` in the C locale. -/
def isspace (c : Byte) : Bool :=
  c = 32 || (9 ≤ c && c ≤ 13)

/-- `isdigit`. -/
def isdigit (c : Byte) : Bool :=
  48 ≤ c && c ≤ 57

/-- `tolower` in the C locale. -/
def tolower (c : Byte) : Byte :=
  if 65 ≤ c && c ≤ 90 then c + 32 else c

/-- `strncasecmp(s, t, n) == 0`. -/
def strncasecmpEq (s t : List Byte) (n : ℕ) : Bool :=
  (s.take n).map tolower = (t.take n).map tolower

/-- `strncasecmp(s, t, n) == 0` where the memory ends with `s`, `none` if a byte behind it is
looked at. -/
def strncasecmpIn : List Byte → List Byte → ℕ → Option Bool
  | [], _, n => if n = 0 then some true else none
  | b :: s, t, n =>
    if n = 0 then some true
    else if tolower b ≠ tolower (t.headD 0) then some false
    else if b = 0 then some true
    else strncasecmpIn s t.tail (n - 1)

theorem tolower_eq_zero {c : Byte} (h : tolower c = 0) : c = 0 := by
  rw [tolower] at h
  split at h
  case isTrue hc =>
    rw [Bool.and_eq_true, decide_eq_true_eq, decide_eq_true_eq, UInt8.le_iff_toNat_le,
      UInt8.le_iff_toNat_le] at hc
    have hsum := congrArg UInt8.toNat h
    rw [UInt8.toNat_add] at hsum
    simp at hc hsum
    omega
  case isFalse => exact h

/-- Inside the memory, and without a NUL in `t`, all `n` bytes are compared. -/
theorem strncasecmpIn_eq {s t : List Byte} {n : ℕ} (hs : n ≤ s.length) (ht : n ≤ t.length)
    (hnul : 0 ∉ t) : strncasecmpIn s t n = some (strncasecmpEq s t n) := by
  induction s generalizing t n with
  | nil =>
    obtain rfl : n = 0 := Nat.le_zero.1 hs
    rfl
  | cons b s ih =>
    cases n with
    | zero => rfl
    | succ n =>
      obtain ⟨c, t, rfl⟩ := List.exists_cons_of_length_pos (Nat.zero_lt_of_lt ht)
      obtain ⟨hc, ht0⟩ := not_or.1 (mt List.mem_cons.2 hnul)
      rw [strncasecmpIn, if_neg (Nat.succ_ne_zero n), List.headD_cons, List.tail_cons,
        Nat.add_sub_cancel]
      by_cases heq : tolower b = tolower c
      · have hb : b ≠ 0 := by
          rintro rfl
          exact hc (tolower_eq_zero heq.symm).symm
        rw [if_neg (not_not.2 heq), if_neg hb, ih (Nat.le_of_succ_le_succ hs)
          (Nat.le_of_succ_le_succ ht) ht0]
        simp [strncasecmpEq, heq]
      · rw [if_pos heq]
        simp [strncasecmpEq, heq]

theorem cstr_append_of_no_nul {s : List Byte} (h : 0 ∉ s) (t : List Byte) :
    cstr (s ++ t) = s ++ cstr t := by
  rw [cstr, List.takeWhile_append_of_pos]
  · rfl
  · exact fun c hc => decide_eq_true fun h0 => h (h0 ▸ hc)

theorem cstr_of_no_nul {s : List Byte} (h : 0 ∉ s) : cstr s = s := by
  have hnil : cstr [] = [] := rfl
  have happend := cstr_append_of_no_nul h []
  rwa [hnil, List.append_nil] at happend

section Search

variable {α : Type*} [DecidableEq α]

/-- The offset of the first `c`. -/
def strchr (s : List α) (c : α) : Option ℕ :=
  s.idxOf? c

/-- The offset of the first occurrence of `needle`. -/
def strstr (hay needle : List α) : Option ℕ :=
  (hay.dropInfix? needle).map fun p => p.1.length

/-- `s` with the first occurrence of `old`, if there is one, replaced by `new`. -/
def replaceFirst (old new s : List α) : List α :=
  match s.dropInfix? old with
  | some (before, after) => before ++ new ++ after
  | none => s

theorem strchr_append {s t : List α} {c : α} (h : c ∉ s) :
    strchr (s ++ c :: t) c = some s.length := by
  rw [strchr, List.idxOf?_eq_some_iff]
  refine ⟨by simp, by simp, fun j hj => ?_⟩
  simp only [List.getElem_append_left hj]
  exact fun hc => h (by simp [← hc])

/-- The text around the occurrence `dropInfix?` finds. -/
theorem dropInfix?_split {hay needle before after : List α}
    (h : hay.dropInfix? needle = some (before, after)) : hay = before ++ needle ++ after := by
  obtain ⟨⟨i, rfl, hi⟩, -⟩ := List.dropInfix?_eq_some_iff.1 h
  rw [eq_of_beq hi]

theorem strstr_eq_some_iff {hay needle : List α} {i : ℕ} :
    strstr hay needle = some i ↔ ∃ before after, hay = before ++ needle ++ after ∧
      before.length = i ∧
      ∀ before' after', hay = before' ++ needle ++ after' → i ≤ before'.length := by
  rw [strstr, Option.map_eq_some_iff]
  constructor
  · rintro ⟨⟨before, after⟩, h, rfl⟩
    have hmin := (List.dropInfix?_eq_some_iff.1 h).2
    exact ⟨before, after, dropInfix?_split h, rfl,
      fun before' after' h' => hmin before' needle after' h' (by simp)⟩
  · rintro ⟨before, after, h, rfl, hmin⟩
    refine ⟨(before, after), List.dropInfix?_eq_some_iff.2 ⟨⟨needle, h, by simp⟩, ?_⟩, rfl⟩
    intro before' i' after' h' hi'
    rw [eq_of_beq hi'] at h'
    exact hmin before' after' h'

theorem strstr_eq_none_iff {hay needle : List α} : strstr hay needle = none ↔ ¬needle <:+: hay := by
  constructor
  · rintro h ⟨before, after, rfl⟩
    -- the least length of a text before an occurrence is the one that is found
    have hex : ∃ i, ∃ p q, before ++ needle ++ after = p ++ needle ++ q ∧ p.length = i :=
      ⟨_, before, after, rfl, rfl⟩
    classical
    obtain ⟨p, q, hpq, hlen⟩ := Nat.find_spec hex
    have hsome := strstr_eq_some_iff.2 ⟨p, q, hpq, hlen,
      fun p' q' h' => Nat.find_min' hex ⟨p', q', h', rfl⟩⟩
    rw [h] at hsome
    exact absurd hsome (by simp)
  · intro h
    by_contra hne
    obtain ⟨i, hi⟩ := Option.ne_none_iff_exists'.1 hne
    obtain ⟨before, after, rfl, -⟩ := strstr_eq_some_iff.1 hi
    exact h (List.infix_append _ _ _)

theorem strstr_isSome_iff {hay needle : List α} :
    (strstr hay needle).isSome ↔ needle <:+: hay := by
  rw [Option.isSome_iff_ne_none, Ne, strstr_eq_none_iff, not_not]

theorem strstr_le {hay needle : List α} {i : ℕ} (h : strstr hay needle = some i) :
    i + needle.length ≤ hay.length := by
  obtain ⟨before, after, rfl, rfl, -⟩ := strstr_eq_some_iff.1 h
  simp only [List.length_append]
  omega

/-- With an occurrence, the pieces around it are the text before the offset and the text
after the occurrence. -/
theorem replaceFirst_of_strstr {old new s : List α} {i : ℕ} (h : strstr s old = some i) :
    replaceFirst old new s = s.take i ++ new ++ s.drop (i + old.length) := by
  obtain ⟨⟨before, after⟩, hd, rfl⟩ := Option.map_eq_some_iff.1 h
  have hs := dropInfix?_split hd
  rw [replaceFirst, hd]
  subst hs
  simp [List.append_assoc, List.drop_append]

theorem replaceFirst_of_none {old new s : List α} (h : strstr s old = none) :
    replaceFirst old new s = s := by
  rw [strstr, Option.map_eq_none_iff] at h
  rw [replaceFirst, h]

end Search

/-! ## Building a string in a buffer -/

/-- `strcpy(dst, src)` : `src` overwrites what `dst` held. -/
def strcpy (_dst src : List Byte) : List Byte :=
  src

/-- `strcat(dst, src)`. -/
def strcat (dst src : List Byte) : List Byte :=
  dst ++ src

/-- `strncat(dst, src, n)`. -/
def strncat (dst src : List Byte) (n : ℕ) : List Byte :=
  dst ++ src.take n

/-- What a `read` of `data` leaves in `buffer` : a prefix overwritten, the rest kept. -/
def overwrite (buffer data : List Byte) : List Byte :=
  data ++ buffer.drop data.length

@[simp] theorem take_overwrite (buffer data : List Byte) :
    (overwrite buffer data).take data.length = data := by
  simp [overwrite]

theorem overwrite_of_le {buffer data : List Byte} (h : buffer.length ≤ data.length) :
    overwrite buffer data = data := by
  rw [overwrite, List.drop_of_length_le h, List.append_nil]

end NetCentric
