import NetCentric.P01Count

/-!
# The two branches of p01

`Arguments` is a command line without options : a file name and substrings, with a `--`
among them or without. `insert` puts an option in front of the `--`. `branches_agree_iff`
says when the program does the same with and without `--systemcalls`.

The system-call branch opens the file and then asks for its size, and finds it at
`optind`. The other branch asks for the size first, and looks at `argv[1]`, which is the
`--` if there is one.
-/

namespace NetCentric

namespace P01

open Getopt

/-- The words of a command line without options. -/
structure Arguments where
  /-- The words before a `--`. -/
  before : List (List Byte)
  terminated : Bool
  /-- The words after it. -/
  after : List (List Byte)
  plain : ∀ w ∈ before, isOption w = false
  closed : terminated = false → after = []
  /-- The first operand. -/
  file : List Byte
  substrings : List (List Byte)
  operands : before ++ after = file :: substrings
  nonempty : substrings ≠ []

namespace Arguments

variable (a : Arguments)

/-- The `--` and what follows. -/
def rest : List (List Byte) :=
  if a.terminated then terminator :: a.after else []

/-- The command line. -/
def words : List (List Byte) :=
  a.before ++ a.rest

/-- The command line with an option after the first `i` words. -/
def insert (i : ℕ) (option : List Byte) : List (List Byte) :=
  a.before.take i ++ option :: (a.before.drop i ++ a.rest)

/-- `argv[1]` without options. -/
def first : List Byte :=
  if a.terminated then terminator else a.file

theorem split_rest : split a.rest = ⟨[], a.terminated, a.after⟩ := by
  rw [rest]
  split
  case isTrue h => rw [split_terminator, h]
  case isFalse h =>
    rw [Bool.not_eq_true] at h
    rw [h, a.closed h]
    rfl

theorem split_words : split a.words = ⟨[], a.terminated, a.file :: a.substrings⟩ := by
  rw [words, split_operands a.plain, split_rest, ← a.operands]

theorem split_insert (i : ℕ) {option : List Byte} (h : isOption option = true)
    (hne : option ≠ terminator) :
    split (a.insert i option) = ⟨[option], a.terminated, a.file :: a.substrings⟩ := by
  have htake : ∀ w ∈ a.before.take i, isOption w = false := fun w hw =>
    a.plain w (List.mem_of_mem_take hw)
  have hdrop : ∀ w ∈ a.before.drop i, isOption w = false := fun w hw =>
    a.plain w (List.mem_of_mem_drop hw)
  rw [insert, split_operands htake, split_option h hne, split_operands hdrop, split_rest,
    ← a.operands, ← List.append_assoc, List.take_append_drop]

end Arguments

/-! ## What the branches do -/

/-- The file and the memory, in the order of the standard I/O branch. -/
def Env.stdioOpen (env : Env) (path : List Byte) : Except ℕ OpenFile :=
  if env.calloc (env.size path) then env.openFile path else .error ENOMEM

/-- The same in the order of the other branch. -/
def Env.systemOpen (env : Env) (path : List Byte) : Except ℕ OpenFile :=
  match env.openFile path with
  | .error errno => .error errno
  | .ok file => if env.calloc (env.size path) then .ok file else .error ENOMEM

/-- A branch from the counts on. -/
def counted (env : Env) (program path buffer : List Byte) (size : ℤ)
    (substrings : List (List Byte)) : Run Unit := do
  printCounts buffer size substrings
  closeFile env program path

/-- The words that choose the branch of system calls. -/
def systemOptions : List (List Byte) :=
  [bytes "-s", bytes "--systemcalls"]

/-- The runs without an option and with one do the same. -/
def Agrees (env : Env) (a : Arguments) : Prop :=
  if a.terminated then
    ∃ errno errno', env.stdioOpen terminator = .error errno ∧
      env.systemOpen a.file = .error errno' ∧ env.strerror errno = env.strerror errno'
  else
    match env.openFile a.file with
    | .ok file => env.calloc (env.size a.file) →
        ∀ s ∈ a.substrings,
          CountFits (fread file (env.size a.file)) (toInt (env.size a.file)) s
    | .error errno =>
        env.calloc (env.size a.file) ∨ env.strerror ENOMEM = env.strerror errno

section Branches

variable {env : Env} {program : List Byte}

theorem printCounts_ok {buffer : List Byte} {size : ℤ} {substrings : List (List Byte)}
    (h : ∀ s ∈ substrings, CountFits buffer (toInt size) s) :
    (printCounts buffer size substrings).result = .ok () := by
  induction substrings with
  | nil => rfl
  | cons s substrings ih =>
    obtain ⟨hs, hrest⟩ := List.forall_mem_cons.1 h
    obtain ⟨count, hc⟩ := Option.isSome_iff_exists.1 (countSubstrings_isSome.2 hs)
    rw [printCounts, hc]
    exact ih hrest

theorem printCounts_undefined {buffer : List Byte} {size : ℤ} {substrings : List (List Byte)}
    (h : ¬∀ s ∈ substrings, CountFits buffer (toInt size) s) :
    (printCounts buffer size substrings).result = .error .undefined := by
  induction substrings with
  | nil => simp at h
  | cons s substrings ih =>
    cases hc : countSubstrings buffer s (toInt size) with
    | none =>
      rw [printCounts, hc]
      rfl
    | some count =>
      have hs : CountFits buffer (toInt size) s := countSubstrings_isSome.1 (by rw [hc]; rfl)
      have hrest : ¬∀ s ∈ substrings, CountFits buffer (toInt size) s := fun hall =>
        h (List.forall_mem_cons.2 ⟨hs, hall⟩)
      rw [printCounts, hc]
      exact ih hrest

/-- One line for each substring. -/
theorem length_stdout_printCounts {buffer : List Byte} {size : ℤ} {substrings : List (List Byte)}
    (h : ∀ s ∈ substrings, CountFits buffer (toInt size) s) :
    (stdout (printCounts buffer size substrings).calls).length = substrings.length := by
  induction substrings with
  | nil => rfl
  | cons s substrings ih =>
    obtain ⟨hs, hrest⟩ := List.forall_mem_cons.1 h
    obtain ⟨count, hc⟩ := Option.isSome_iff_exists.1 (countSubstrings_isSome.2 hs)
    rw [printCounts, hc]
    exact congrArg (· + 1) (ih hrest)

theorem closeFile_eq (path : List Byte) :
    stdout (closeFile env program path).calls = [] ∧
      ∃ n, status (closeFile env program path).result = some n := by
  rw [closeFile]
  cases env.close path with
  | none => exact ⟨rfl, 0, rfl⟩
  | some errno => exact ⟨rfl, 1, rfl⟩

theorem counted_defined_iff {path buffer : List Byte} {size : ℤ}
    {substrings : List (List Byte)} :
    (∃ n, status (counted env program path buffer size substrings).result = some n) ↔
      ∀ s ∈ substrings, CountFits buffer (toInt size) s := by
  constructor
  · rintro ⟨n, hn⟩
    by_contra h
    rw [counted, Prog.result_bind_error (printCounts_undefined h)] at hn
    cases hn
  · intro h
    rw [counted, Prog.result_bind_of_ok (printCounts_ok h)]
    exact (closeFile_eq path).2

theorem length_stdout_counted {path buffer : List Byte} {size : ℤ}
    {substrings : List (List Byte)} (h : ∀ s ∈ substrings, CountFits buffer (toInt size) s) :
    (stdout (counted env program path buffer size substrings).calls).length =
      substrings.length := by
  rw [counted, Prog.calls_bind_ok (printCounts_ok h), stdout, List.filterMap_append,
    List.length_append]
  change (stdout _).length + (stdout _).length = _
  rw [length_stdout_printCounts h, (closeFile_eq path).1]
  rfl

theorem SameRun.length_eq {p q : Run Unit} (h : SameRun p q) :
    (stdout p.calls).length = (stdout q.calls).length :=
  congrArg List.length h.1

theorem sameRun_self_iff {p : Run Unit} : SameRun p p ↔ ∃ n, status p.result = some n := by
  constructor
  · rintro ⟨-, -, n, hn, -⟩
    exact ⟨n, hn⟩
  · rintro ⟨n, hn⟩
    exact ⟨rfl, rfl, n, hn, hn⟩

theorem SameRun.symm {p q : Run Unit} (h : SameRun p q) : SameRun q p := by
  obtain ⟨hout, herr, n, hp, hq⟩ := h
  exact ⟨hout.symm, herr.symm, n, hq, hp⟩

/-- Two failures are the same if their messages are. -/
theorem sameRun_fail_iff {errno errno' : ℕ} :
    SameRun (fail env program errno) (fail env program errno') ↔
      env.strerror errno = env.strerror errno' := by
  constructor
  · rintro ⟨-, herr, -⟩
    have htext := (List.cons.inj herr).1
    exact List.append_cancel_left (List.append_cancel_right htext)
  · intro h
    have heq : (fail env program errno : Run Unit) = fail env program errno' := by
      rw [fail, fail, h]
    rw [heq]
    exact ⟨rfl, rfl, 1, rfl, rfl⟩

/-- A run that counts prints a line, and one that fails does not. -/
theorem not_sameRun_fail {path buffer : List Byte} {size : ℤ} {substrings : List (List Byte)}
    (hne : substrings ≠ []) {errno : ℕ} :
    ¬SameRun (fail env program errno)
      (counted env program path buffer size substrings) := by
  intro h
  obtain ⟨-, -, n, -, hn⟩ := id h
  have hlen := h.length_eq
  rw [length_stdout_counted (counted_defined_iff.1 ⟨n, hn⟩)] at hlen
  exact hne (List.length_eq_zero_iff.1 hlen.symm)

/-- Runs that count different numbers of substrings differ. -/
theorem length_eq_of_sameRun {path path' buffer buffer' : List Byte} {size size' : ℤ}
    {substrings substrings' : List (List Byte)}
    (h : SameRun (counted env program path buffer size substrings)
      (counted env program path' buffer' size' substrings')) :
    substrings.length = substrings'.length := by
  obtain ⟨-, -, n, hn, hn'⟩ := id h
  have hlen := h.length_eq
  rwa [length_stdout_counted (counted_defined_iff.1 ⟨n, hn⟩),
    length_stdout_counted (counted_defined_iff.1 ⟨n, hn'⟩)] at hlen

/-! ## The branches -/

theorem stdioCalls_eq (name : List Byte) {names : List (List Byte)} (h : names ≠ []) :
    stdioCalls env program (program :: name :: names) =
      match env.stdioOpen name with
      | .error errno => fail env program errno
      | .ok file =>
        counted env program name (fread file (env.size name)) (env.size name) names := by
  have hlen : ¬(program :: name :: names).length < 3 := by
    have := List.length_pos_iff.2 h
    simp only [List.length_cons]
    omega
  rw [stdioCalls, if_neg hlen]
  simp only [List.getD_cons_succ, List.getD_cons_zero, List.drop_succ_cons, List.drop_zero,
    Env.stdioOpen]
  cases hcalloc : env.calloc (env.size name) with
  | false => rfl
  | true =>
    simp only [if_true]
    cases env.openFile name <;> rfl

theorem systemCalls_eq {argv : List (List Byte)} {optind : ℕ} {path : List Byte}
    {substrings : List (List Byte)} (h : argv.drop optind = path :: substrings)
    (hne : substrings ≠ []) :
    systemCalls env program argv optind =
      match env.systemOpen path with
      | .error errno => fail env program errno
      | .ok file =>
        counted env program path (readLoop file (env.size path)) (env.size path)
          substrings := by
  have hlen : ¬argv.length - optind < 2 := by
    have := List.length_pos_iff.2 hne
    rw [← List.length_drop, h, List.length_cons]
    omega
  have hpath : argv.getD optind [] = path := by
    rw [List.getD_eq_getElem?_getD, ← List.head?_drop, h]
    rfl
  have hsubstrings : argv.drop (optind + 1) = substrings := by
    rw [← List.drop_drop, h]
    rfl
  rw [systemCalls, if_neg hlen]
  simp only [hpath, hsubstrings, Env.systemOpen]
  cases env.openFile path with
  | error errno => rfl
  | ok file =>
    simp only
    cases env.calloc (env.size path) <;> rfl

/-- Where every read delivers its byte, the loop reads what `fread` does. -/
theorem readLoop_eq_fread {file : OpenFile} {size : ℤ}
    (h : ∀ i < size.toNat, ∃ b, file.reads i = some b ∧ file.contents[i]? = some b) :
    readLoop file size = fread file size := by
  have hlen : size.toNat ≤ file.contents.length := by
    by_contra hlt
    obtain ⟨b, -, hb⟩ := h file.contents.length (by omega)
    simp at hb
  rw [fread, Nat.sub_eq_zero_of_le hlen, List.replicate_zero, List.append_nil]
  apply List.ext_getElem?
  intro i
  rw [readLoop, List.getElem?_map]
  by_cases hi : i < size.toNat
  · obtain ⟨b, hb, hc⟩ := h i hi
    rw [List.getElem?_range hi, List.getElem?_take_of_lt hi, hc]
    simp [hb]
  · rw [List.getElem?_eq_none (by simpa using hi), List.getElem?_eq_none (by simp; omega)]
    rfl

/-! ## The runs with and without the option -/

theorem main_words (a : Arguments) : main env program a.words =
    stdioCalls env program (program :: ((if a.terminated then [terminator] else []) ++
      a.file :: a.substrings)) := by
  rw [main, a.split_words]
  rfl

theorem main_insert (a : Arguments) (i : ℕ) {option : List Byte} (h : option ∈ systemOptions) :
    main env program (a.insert i option) =
      match env.systemOpen a.file with
      | .error errno => fail env program errno
      | .ok file =>
        counted env program a.file (readLoop file (env.size a.file)) (env.size a.file)
          a.substrings := by
  have hoption : isOption option = true ∧ option ≠ terminator ∧
      options.results option = [.ok .systemcalls] := by
    simp only [systemOptions, List.mem_cons, List.not_mem_nil, or_false] at h
    rcases h with rfl | rfl <;> decide
  obtain ⟨his, hne, hresults⟩ := hoption
  have hdrop := Split.drop_optind ⟨[option], a.terminated, a.file :: a.substrings⟩ program
  rw [main, a.split_insert i his hne, ← systemCalls_eq hdrop a.nonempty]
  simp only [List.flatMap_cons, List.flatMap_nil, hresults]
  rfl

/-- What can be opened has the size that `stat` finds. -/
theorem size_garbage {path : List Byte} {file : OpenFile} (h : env.openFile path = .ok file)
    (garbage : ℤ) : { env with garbage := garbage }.size path = env.size path := by
  obtain ⟨size, hsize⟩ := Option.isSome_iff_exists.1 (env.stat_of_open path file h)
  simp only [Env.size, hsize, Option.getD_some]

/-- What `st` held does not matter to the branch that opens first. -/
theorem systemOpen_garbage (path : List Byte) (garbage : ℤ) :
    { env with garbage := garbage }.systemOpen path = env.systemOpen path := by
  simp only [Env.systemOpen]
  cases h : env.openFile path with
  | error errno => rfl
  | ok file => rw [size_garbage h]

theorem systemOpen_ok {path : List Byte} {file : OpenFile} (h : env.systemOpen path = .ok file) :
    env.openFile path = .ok file := by
  rw [Env.systemOpen] at h
  cases ho : env.openFile path with
  | error errno =>
    rw [ho] at h
    cases h
  | ok file' =>
    rw [ho] at h
    cases hcalloc : env.calloc (env.size path) with
    | true => simpa [hcalloc] using h
    | false => simp [hcalloc] at h

/-- The run with the option, whatever `st` held. -/
theorem main_insert_garbage (a : Arguments) (i : ℕ) {option : List Byte}
    (h : option ∈ systemOptions) (garbage : ℤ) :
    main { env with garbage := garbage } program (a.insert i option) =
      main env program (a.insert i option) := by
  rw [main_insert a i h, main_insert a i h, systemOpen_garbage]
  cases ho : env.systemOpen a.file with
  | error errno => rfl
  | ok file =>
    simp only [size_garbage (systemOpen_ok ho)]
    rfl

/-- With a `--`, the run without the option opens the file `--` and counts one substring
more. -/
theorem sameRun_terminated {a : Arguments} (ht : a.terminated = true) (i : ℕ)
    {option : List Byte} (h : option ∈ systemOptions) :
    SameRun (main env program a.words) (main env program (a.insert i option)) ↔
      ∃ errno errno', env.stdioOpen terminator = .error errno ∧
        env.systemOpen a.file = .error errno' ∧ env.strerror errno = env.strerror errno' := by
  rw [main_words, ht, main_insert a i h]
  simp only [if_true, List.cons_append, List.nil_append]
  rw [stdioCalls_eq terminator (List.cons_ne_nil _ _)]
  cases hfirst : env.stdioOpen terminator with
  | error errno =>
    cases hfile : env.systemOpen a.file with
    | error errno' =>
      simp only [sameRun_fail_iff]
      exact ⟨fun h => ⟨errno, errno', rfl, rfl, h⟩, fun ⟨_, _, rfl, rfl, h⟩ => h⟩
    | ok file =>
      refine iff_of_false (not_sameRun_fail a.nonempty) ?_
      rintro ⟨_, _, -, h, -⟩
      cases h
  | ok first =>
    refine iff_of_false ?_ ?_
    · intro hsame
      cases hfile : env.systemOpen a.file with
      | error errno' =>
        rw [hfile] at hsame
        exact not_sameRun_fail (List.cons_ne_nil _ _) hsame.symm
      | ok file =>
        rw [hfile] at hsame
        have hlen := length_eq_of_sameRun hsame
        simp at hlen
    · rintro ⟨_, _, h, -⟩
      cases h

/-- Without a `--`, both runs open the file. -/
theorem sameRun_file {a : Arguments} (ht : a.terminated = false) (i : ℕ) {option : List Byte}
    (h : option ∈ systemOptions)
    (hreads : ∀ file, env.openFile a.file = .ok file → ∀ j < (env.size a.file).toNat,
      ∃ b, file.reads j = some b ∧ file.contents[j]? = some b) :
    SameRun (main env program a.words) (main env program (a.insert i option)) ↔
      match env.openFile a.file with
      | .ok file => env.calloc (env.size a.file) →
          ∀ s ∈ a.substrings,
            CountFits (fread file (env.size a.file)) (toInt (env.size a.file)) s
      | .error errno =>
          env.calloc (env.size a.file) ∨ env.strerror ENOMEM = env.strerror errno := by
  rw [main_words, ht, main_insert a i h]
  simp only [Bool.false_eq_true, if_false, List.nil_append]
  rw [stdioCalls_eq a.file a.nonempty, Env.stdioOpen, Env.systemOpen]
  cases hopen : env.openFile a.file with
  | error errno =>
    cases env.calloc (env.size a.file) with
    | true => simp [sameRun_fail_iff]
    | false => simp [sameRun_fail_iff]
  | ok file =>
    cases env.calloc (env.size a.file) with
    | true =>
      simp only [if_true, readLoop_eq_fread (hreads file hopen), sameRun_self_iff,
        counted_defined_iff, true_implies]
    | false => simp [sameRun_fail_iff]

/-- The runs with and without the option do the same exactly if there is no `--` and the
count is defined, or they fail with the same message. -/
theorem branches_agree_iff {env : Env} (program : List Byte) (a : Arguments) (i : ℕ)
    {option : List Byte} (h : option ∈ systemOptions) (garbage : ℤ)
    (hreads : ∀ file, env.openFile a.file = .ok file → ∀ j < (env.size a.file).toNat,
      ∃ b, file.reads j = some b ∧ file.contents[j]? = some b) :
    SameRun (main env program a.words)
        (main { env with garbage := garbage } program (a.insert i option)) ↔
      Agrees env a := by
  rw [main_insert_garbage a i h, Agrees]
  cases ht : a.terminated with
  | true => exact sameRun_terminated ht i h
  | false => exact sameRun_file ht i h hreads

end Branches

/-! ## A file -/

/-- The file `bar` holds `ooo`, and nothing else is there. -/
def barEnv (garbage : ℤ) : Env where
  openFile path :=
    if path = bytes "bar" then .ok ⟨bytes "ooo", fun i => (bytes "ooo")[i]?⟩ else .error 2
  stat path := if path = bytes "bar" then some 3 else none
  stat_of_open path file h := by
    split at h
    case isTrue hpath => rw [if_pos hpath]; rfl
    case isFalse => cases h
  garbage := garbage
  calloc size := 0 ≤ size
  close _ := none
  strerror errno :=
    if errno = 2 then bytes "No such file or directory" else bytes "Cannot allocate memory"
  badOption word := bytes "p01: unrecognized option " ++ word ++ bytes "\n"

/-- The command line `p01 bar oo`. -/
def ooInBar : Arguments where
  before := [bytes "bar", bytes "oo"]
  terminated := false
  after := []
  plain := by decide
  closed _ := rfl
  file := bytes "bar"
  substrings := [bytes "oo"]
  operands := rfl
  nonempty := List.cons_ne_nil _ _

theorem branches_agree_bar :
    SameRun (main (barEnv 0) (bytes "p01") [bytes "bar", bytes "oo"])
      (main (barEnv 7) (bytes "p01") [bytes "bar", bytes "-s", bytes "oo"]) := by
  have hreads : ∀ file, (barEnv 0).openFile ooInBar.file = .ok file →
      ∀ j < ((barEnv 0).size ooInBar.file).toNat,
        ∃ b, file.reads j = some b ∧ file.contents[j]? = some b := by
    intro file h j hj
    obtain rfl := Except.ok.inj h
    have hj' : j < (bytes "ooo").length := hj
    exact ⟨(bytes "ooo")[j], List.getElem?_eq_getElem hj', List.getElem?_eq_getElem hj'⟩
  have hagrees : Agrees (barEnv 0) ooInBar := fun _ => by decide
  exact (branches_agree_iff (bytes "p01") ooInBar 1 (by decide) 7 hreads).2
    hagrees

/-- Behind a `--`, only the run with the option finds the file. With a file that is not
there, the other run may report that there is no memory for it. -/
theorem branches_disagree :
    ¬SameRun (main (barEnv 0) (bytes "p01") [bytes "--", bytes "bar", bytes "oo"])
        (main (barEnv 0) (bytes "p01") [bytes "-s", bytes "--", bytes "bar", bytes "oo"]) ∧
      ¬SameRun (main (barEnv (-1)) (bytes "p01") [bytes "barrrr", bytes "a"])
        (main (barEnv (-1)) (bytes "p01") [bytes "-s", bytes "barrrr", bytes "a"]) :=
  ⟨fun h => absurd h.1 (by decide), fun h => absurd h.2.1 (by decide)⟩

end P01

end NetCentric
