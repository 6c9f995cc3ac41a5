import Mathlib.Data.List.Nodup
import Mathlib.Logic.Function.Basic

/-!
# Linked lists in a heap

A heap is a partial function from addresses to cells, and a cell has a link, which is an
address or null. `Linked link heap p as` : the links lead from `p` through the addresses
`as` to null. The addresses are then allocated and determined by `p`, so the list is
finite and no address comes twice (`Linked.nodup`). A change of the heap elsewhere leaves
it alone (`Linked.update`), and `Linked.concat` appends a cell behind the last one.
-/

namespace NetCentric

variable {α κ : Type*}

/-- The links lead from `p` through `as` to null. -/
def Linked (link : κ → Option α) (heap : α → Option κ) : Option α → List α → Prop
  | p, [] => p = none
  | p, a :: as => p = some a ∧ ∃ c, heap a = some c ∧ Linked link heap (link c) as

namespace Linked

variable {link : κ → Option α} {heap heap' : α → Option κ} {p : Option α} {a b : α}
  {as bs : List α} {c : κ}

@[simp] theorem nil_iff : Linked link heap p [] ↔ p = none :=
  Iff.rfl

@[simp] theorem none_iff : Linked link heap none as ↔ as = [] := by
  cases as <;> simp [Linked]

/-- A list that starts at `a` has `a` for its first address. -/
theorem some_cases (h : Linked link heap (some a) as) :
    ∃ c rest, heap a = some c ∧ as = a :: rest ∧ Linked link heap (link c) rest := by
  cases as with
  | nil => cases h
  | cons b rest =>
    obtain ⟨hb, c, hc, hrest⟩ := h
    obtain rfl := Option.some.inj hb
    exact ⟨c, rest, hc, rfl, hrest⟩

theorem unique (h : Linked link heap p as) (h' : Linked link heap p bs) : as = bs := by
  induction as generalizing p bs with
  | nil =>
    obtain rfl := nil_iff.1 h
    exact (none_iff.1 h').symm
  | cons a as ih =>
    obtain ⟨rfl, c, hc, h⟩ := h
    obtain ⟨d, rest, hd, rfl, h'⟩ := h'.some_cases
    obtain rfl := Option.some.inj (hc.symm.trans hd)
    rw [ih h h']

/-- From an address on, the rest of a list is a list. -/
theorem drop (h : Linked link heap p (bs ++ a :: as)) :
    Linked link heap (some a) (a :: as) := by
  induction bs generalizing p with
  | nil =>
    obtain ⟨rfl, h⟩ := h
    exact ⟨rfl, h⟩
  | cons b bs ih =>
    obtain ⟨-, c, -, h⟩ := h
    exact ih h

theorem nodup (h : Linked link heap p as) : as.Nodup := by
  induction as generalizing p with
  | nil => exact List.nodup_nil
  | cons a as ih =>
    have hrest := h
    obtain ⟨rfl, c, -, hrest⟩ := hrest
    refine List.nodup_cons.2 ⟨fun ha => ?_, ih hrest⟩
    obtain ⟨xs, ys, rfl⟩ := List.append_of_mem ha
    -- the list from the second `a` on would be the whole list
    have hsplit : Linked link heap (some a) ((a :: xs) ++ a :: ys) := h
    have heq := h.unique hsplit.drop
    have hlen := congrArg List.length heq
    simp only [List.length_cons, List.length_append] at hlen
    omega

theorem exists_cell (h : Linked link heap p as) (ha : a ∈ as) : ∃ c, heap a = some c := by
  obtain ⟨xs, ys, rfl⟩ := List.append_of_mem ha
  obtain ⟨c, -, hc, -⟩ := h.drop.some_cases
  exact ⟨c, hc⟩

/-- The address after one of the list is of the list. -/
theorem mem_of_link (h : Linked link heap p as) (ha : a ∈ as) (hc : heap a = some c)
    (hb : link c = some b) : b ∈ as := by
  obtain ⟨xs, ys, rfl⟩ := List.append_of_mem ha
  obtain ⟨d, rest, hd, heq, hrest⟩ := h.drop.some_cases
  obtain rfl := Option.some.inj (hc.symm.trans hd)
  rw [hb] at hrest
  obtain ⟨-, tail, -, rfl, -⟩ := hrest.some_cases
  exact List.mem_append_right xs (heq ▸ List.mem_cons_of_mem a List.mem_cons_self)

theorem congr (h : Linked link heap p as) (hheap : ∀ a ∈ as, heap' a = heap a) :
    Linked link heap' p as := by
  induction as generalizing p with
  | nil => exact h
  | cons a as ih =>
    obtain ⟨rfl, c, hc, h⟩ := h
    refine ⟨rfl, c, (hheap a List.mem_cons_self).trans hc, ih h fun b hb => ?_⟩
    exact hheap b (List.mem_cons_of_mem a hb)

variable [DecidableEq α]

theorem update (h : Linked link heap p as) (ha : a ∉ as) (x : Option κ) :
    Linked link (Function.update heap a x) p as :=
  h.congr fun _ hb => Function.update_of_ne (ne_of_mem_of_not_mem hb ha) _ _

/-- Linking a last cell `b` behind the cell whose link is null. -/
theorem concat (h : Linked link heap p as) (ha : a ∈ as) {e d : κ} (hc : heap a = some c)
    (hlast : link c = none) (hlink : link e = some b) (hb : b ∉ as) (hd : heap b = some d)
    (hnull : link d = none) : Linked link (Function.update heap a (some e)) p (as ++ [b]) := by
  have hne : b ≠ a := fun hba => hb (hba ▸ ha)
  have hnew : Linked link (Function.update heap a (some e)) (some b) [b] :=
    ⟨rfl, d, by rw [Function.update_of_ne hne, hd], hnull⟩
  induction as generalizing p with
  | nil => cases ha
  | cons x as ih =>
    obtain ⟨rfl, f, hf, h⟩ := h
    by_cases hx : x = a
    · obtain rfl : x = a := hx
      obtain rfl := Option.some.inj (hc.symm.trans hf)
      rw [hlast, none_iff] at h
      subst h
      exact ⟨rfl, e, Function.update_self _ _ _, hlink ▸ hnew⟩
    · have ha' : a ∈ as := (List.mem_cons.1 ha).resolve_left fun h => hx h.symm
      exact ⟨rfl, f, by rw [Function.update_of_ne hx, hf],
        ih h ha' fun hb' => hb (List.mem_cons_of_mem x hb')⟩

end Linked

end NetCentric
