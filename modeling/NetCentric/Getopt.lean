import NetCentric.CString

/-!
# getopt_long

The options of a command line, for programs whose options take no argument. `split` takes
the arguments apart : words that start with a dash are options up to the first `--`, and
all others are operands. `getopt_long` moves the operands to the end, in order, so after
it the vector is the options, the `--` if there is one, and the operands (`Split.argv`),
and `optind` is the index of the first operand (`drop_optind`).

A long option may be cut off to a prefix that no other option has.
-/

namespace NetCentric

namespace Getopt

/-- The options of a program, with what each stands for. -/
structure Table (α : Type) where
  short : List (Byte × α)
  long : List (List Byte × α)

/-- The word `--`. -/
def terminator : List Byte :=
  [45, 45]

/-- The word is `--` or an option. -/
def isOption : List Byte → Bool
  | 45 :: _ :: _ => true
  | _ => false

section Table

variable {α : Type} (t : Table α)

/-- A short option, or the byte that is none. -/
def Table.shortOption (c : Byte) : Except (List Byte) α :=
  match t.short.lookup c with
  | some a => .ok a
  | none => .error [c]

/-- A long option, by its name or a prefix of no other name. -/
def Table.longOption (name : List Byte) : Except (List Byte) α :=
  match t.long.lookup name, t.long.filter fun o => name.isPrefixOf o.1 with
  | some a, _ => .ok a
  | none, [(_, a)] => .ok a
  | none, _ => .error name

/-- What the calls of `getopt_long` return for a word. -/
def Table.results : List Byte → List (Except (List Byte) α)
  | 45 :: 45 :: name => [t.longOption name]
  | _ :: cluster => cluster.map t.shortOption
  | [] => []

end Table

/-- The arguments taken apart. -/
structure Split where
  options : List (List Byte)
  /-- There is a `--`. -/
  terminated : Bool
  operands : List (List Byte)

def split : List (List Byte) → Split
  | [] => ⟨[], false, []⟩
  | w :: ws =>
    if w = terminator then ⟨[], true, ws⟩
    else if isOption w then { split ws with options := w :: (split ws).options }
    else { split ws with operands := w :: (split ws).operands }

namespace Split

/-- The `--`, if there is one. -/
def mark (s : Split) : List (List Byte) :=
  if s.terminated then [terminator] else []

/-- `argv` after the last call. -/
def argv (s : Split) (program : List Byte) : List (List Byte) :=
  program :: (s.options ++ s.mark ++ s.operands)

/-- `optind` after the last call. -/
def optind (s : Split) : ℕ :=
  1 + s.options.length + s.mark.length

@[simp] theorem drop_optind (s : Split) (program : List Byte) :
    (s.argv program).drop s.optind = s.operands := by
  have hlen : s.optind = (program :: (s.options ++ s.mark)).length := by
    simp only [optind, List.length_cons, List.length_append]
    omega
  have hargv : s.argv program = (program :: (s.options ++ s.mark)) ++ s.operands := by
    simp only [argv, List.cons_append]
  rw [hlen, hargv, List.drop_left]

end Split

theorem isOption_terminator : isOption terminator = true :=
  rfl

/-- Words that are no options are operands. -/
theorem split_operands {ws : List (List Byte)} (h : ∀ w ∈ ws, isOption w = false)
    (rest : List (List Byte)) :
    split (ws ++ rest) = { split rest with operands := ws ++ (split rest).operands } := by
  induction ws with
  | nil => rfl
  | cons w ws ih =>
    obtain ⟨hw, hws⟩ := List.forall_mem_cons.1 h
    have hne : w ≠ terminator := by
      rintro rfl
      rw [isOption_terminator] at hw
      cases hw
    rw [List.cons_append, split, if_neg hne, if_neg (by simp [hw]), ih hws]
    rfl

/-- An option word is the first of the options. -/
theorem split_option {w : List Byte} (h : isOption w = true) (hne : w ≠ terminator)
    (rest : List (List Byte)) :
    split (w :: rest) = { split rest with options := w :: (split rest).options } := by
  rw [split, if_neg hne, if_pos h]

theorem split_terminator (rest : List (List Byte)) :
    split (terminator :: rest) = ⟨[], true, rest⟩ :=
  rfl

end Getopt

end NetCentric
