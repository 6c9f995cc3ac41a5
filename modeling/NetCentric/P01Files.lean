import NetCentric.P01Agreement
import NetCentric.Decimal

/-!
# Files of any size

`CountsWholeFile` : a run of p01 passes the size of the file on to `countSubstrings` as it
is, nothing overflows, and the line for each substring is the number of its occurrences in
the file. Both branches count what they have read in the same way (`counted`), so the
condition is the same for both (`whole_file_iff`) : the size is an `int`, and every
substring is countable.
-/

namespace NetCentric

namespace P01

/-- A line of the output. -/
def countLine (count : ℤ) : List Byte :=
  bytes (toString count) ++ bytes "\n"

/-- The run counts the substrings in the whole file. -/
structure CountsWholeFile (contents : List Byte) (substrings : List (List Byte)) (p : Run Unit) :
    Prop where
  /-- What `countSubstrings` gets is the size of the file. -/
  passed : toInt contents.length = contents.length
  defined : ∃ n, status p.result = some n
  printed : stdout p.calls = substrings.map fun s => countLine (occurrences contents s)

section Files

variable {env : Env} {program path buffer : List Byte} {size : ℤ}
  {substrings : List (List Byte)} {file : OpenFile}

theorem countLine_injective {x y : ℤ} (h : countLine x = countLine y) : x = y :=
  decimal_injective (List.append_cancel_right h)

/-- The lines of the loop over the substrings. -/
theorem stdout_printCounts {f : List Byte → ℤ}
    (h : ∀ s ∈ substrings, countSubstrings buffer s (toInt size) = some (f s)) :
    stdout (printCounts buffer size substrings).calls =
      substrings.map fun s => countLine (f s) := by
  induction substrings with
  | nil => rfl
  | cons s substrings ih =>
    obtain ⟨hs, hrest⟩ := List.forall_mem_cons.1 h
    rw [printCounts, hs]
    exact congrArg (countLine (f s) :: ·) (ih hrest)

theorem stdout_counted {f : List Byte → ℤ}
    (h : ∀ s ∈ substrings, countSubstrings buffer s (toInt size) = some (f s)) :
    stdout (counted env program path buffer size substrings).calls =
      substrings.map fun s => countLine (f s) := by
  have hfits : ∀ s ∈ substrings, CountFits buffer (toInt size) s := fun s hs =>
    countSubstrings_isSome.1 (by rw [h s hs]; rfl)
  rw [counted, Prog.calls_bind_ok (printCounts_ok hfits), stdout, List.filterMap_append]
  change stdout _ ++ stdout _ = _
  rw [stdout_printCounts h, (closeFile_eq path).1, List.append_nil]

/-- The counts of the whole file are right if and only if its size is an `int` and every
substring is countable. -/
theorem counted_iff {contents : List Byte} (hnul : ∀ s ∈ substrings, 0 ∉ s) :
    CountsWholeFile contents substrings
        (counted env program path contents contents.length substrings) ↔
      (contents.length : ℤ) ≤ INT_MAX ∧ ∀ s ∈ substrings, Countable contents s := by
  constructor
  · rintro ⟨hpassed, hdefined, hprinted⟩
    have hsize := (toInt_eq_self_iff.1 hpassed).2
    have hfits := counted_defined_iff.1 hdefined
    rw [stdout_counted (f := fun s => (countSubstrings contents s
      (toInt contents.length)).getD 0) fun s hs => ?_] at hprinted
    · refine ⟨hsize, fun s hs => (countSubstrings_eq_iff (hnul s hs) hsize).1 ?_⟩
      obtain ⟨count, hcount⟩ := Option.isSome_iff_exists.1 (countSubstrings_isSome.2 (hfits s hs))
      have hline := countLine_injective (List.map_inj_left.1 hprinted s hs)
      rw [hcount, Option.getD_some] at hline
      rw [hpassed] at hcount
      rw [hcount, hline]
    · obtain ⟨count, hcount⟩ := Option.isSome_iff_exists.1 (countSubstrings_isSome.2 (hfits s hs))
      rw [hcount]
      rfl
  · rintro ⟨hsize, hcountable⟩
    have hpassed := toInt_natCast hsize
    have hcount : ∀ s ∈ substrings, countSubstrings contents s (toInt contents.length) =
        some (occurrences contents s : ℤ) := fun s hs => by
      rw [hpassed]
      exact (countSubstrings_eq_iff (hnul s hs) hsize).2 (hcountable s hs)
    refine ⟨hpassed, counted_defined_iff.2 fun s hs => ?_, stdout_counted hcount⟩
    exact countSubstrings_isSome.1 (by rw [hcount s hs]; rfl)

/-- The file is opened, `stat` gives its size, and the buffer is allocated and filled. -/
structure Loaded (env : Env) (path : List Byte) (file : OpenFile) : Prop where
  opened : env.openFile path = .ok file
  size : env.stat path = some (file.contents.length : ℤ)
  allocated : env.calloc file.contents.length = true
  read : ∀ i < file.contents.length, file.reads i = file.contents[i]?

/-- Either branch fills the buffer with the file. -/
theorem Loaded.buffer_eq (h : Loaded env path file) :
    fread file file.contents.length = file.contents ∧
      readLoop file file.contents.length = file.contents := by
  have hfread : fread file file.contents.length = file.contents := by
    simp [fread]
  refine ⟨hfread, ?_⟩
  rw [readLoop_eq_fread fun i hi => ?_, hfread]
  exact ⟨file.contents[i], by rw [h.read i hi, List.getElem?_eq_getElem hi],
    List.getElem?_eq_getElem hi⟩

/-- A branch counts the whole file if and only if the size is an `int` and every substring
is countable. -/
theorem whole_file_iff (h : Loaded env path file) (hne : substrings ≠ [])
    (hnul : ∀ s ∈ substrings, 0 ∉ s) {argv : List (List Byte)} {optind : ℕ}
    (hargv : argv.drop optind = path :: substrings) :
    (CountsWholeFile file.contents substrings
        (stdioCalls env program (program :: path :: substrings)) ↔
      (file.contents.length : ℤ) ≤ INT_MAX ∧ ∀ s ∈ substrings, Countable file.contents s) ∧
    (CountsWholeFile file.contents substrings (systemCalls env program argv optind) ↔
      (file.contents.length : ℤ) ≤ INT_MAX ∧ ∀ s ∈ substrings, Countable file.contents s) := by
  obtain ⟨hfread, hreadLoop⟩ := h.buffer_eq
  have hsize : env.size path = file.contents.length := by
    rw [Env.size, h.size, Option.getD_some]
  have hstdio : env.stdioOpen path = .ok file := by
    rw [Env.stdioOpen, hsize, if_pos h.allocated, h.opened]
  have hsystem : env.systemOpen path = .ok file := by
    simp only [Env.systemOpen, h.opened, hsize, h.allocated, if_true]
  constructor
  · rw [stdioCalls_eq path hne, hstdio]
    simp only [hsize, hfread]
    exact counted_iff hnul
  · rw [systemCalls_eq hargv hne, hsystem]
    simp only [hsize, hreadLoop]
    exact counted_iff hnul

end Files

/-- The file `bar`, which holds `ooo`. -/
theorem whole_file_bar :
    CountsWholeFile (bytes "ooo") [bytes "oo"]
        (stdioCalls (barEnv 0) (bytes "p01") [bytes "p01", bytes "bar", bytes "oo"]) ∧
      CountsWholeFile (bytes "ooo") [bytes "oo"]
        (systemCalls (barEnv 0) (bytes "p01") [bytes "p01", bytes "-s", bytes "bar", bytes "oo"]
          2) := by
  have hloaded : Loaded (barEnv 0) (bytes "bar")
      ⟨bytes "ooo", fun i => (bytes "ooo")[i]?⟩ := ⟨rfl, rfl, rfl, fun _ _ => rfl⟩
  have hcountable : Countable (bytes "ooo") (bytes "oo") := ⟨by decide, .inl (by decide)⟩
  have hargv : [bytes "p01", bytes "-s", bytes "bar", bytes "oo"].drop 2 =
      bytes "bar" :: [bytes "oo"] := rfl
  have hnul : ∀ s ∈ [bytes "oo"], 0 ∉ s := List.forall_mem_singleton.2 (by decide)
  obtain ⟨hstdio, hsystem⟩ := whole_file_iff hloaded (List.cons_ne_nil _ _) hnul hargv
  have hcond : ((bytes "ooo").length : ℤ) ≤ INT_MAX ∧
      ∀ s ∈ [bytes "oo"], Countable (bytes "ooo") s :=
    ⟨by decide, List.forall_mem_singleton.2 hcountable⟩
  exact ⟨hstdio.2 hcond, hsystem.2 hcond⟩

/-- A directory with one file, of 2³¹ bytes. -/
def largeEnv : Env where
  openFile _ := .ok ⟨List.replicate (2 ^ 31) 97, fun i => (List.replicate (2 ^ 31) 97)[i]?⟩
  stat _ := some 2147483648
  stat_of_open _ _ _ := rfl
  garbage := 0
  calloc _ := true
  close _ := none
  strerror _ := []
  badOption _ := []

/-- Its size is negative as an `int`. -/
theorem whole_file_large : ¬∀ (env : Env) (program path : List Byte)
    (substrings : List (List Byte)) (file : OpenFile), Loaded env path file → substrings ≠ [] →
    (∀ s ∈ substrings, 0 ∉ s) →
    CountsWholeFile file.contents substrings
      (stdioCalls env program (program :: path :: substrings)) := by
  intro h
  have hlength : (List.replicate (2 ^ 31) (97 : Byte)).length = 2 ^ 31 := List.length_replicate
  have hloaded : Loaded largeEnv (bytes "bar") ⟨List.replicate (2 ^ 31) 97,
      fun i => (List.replicate (2 ^ 31) 97)[i]?⟩ :=
    ⟨rfl, by rw [hlength]; rfl, rfl, fun _ _ => rfl⟩
  have hwhole := h largeEnv (bytes "p01") (bytes "bar") [bytes "a"] _ hloaded
    (List.cons_ne_nil _ _) (List.forall_mem_singleton.2 (by decide))
  have hpassed := hwhole.passed
  rw [hlength] at hpassed
  exact absurd hpassed (by decide)

end P01

end NetCentric
