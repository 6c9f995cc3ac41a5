import NetCentric.CInt
import NetCentric.Getopt
import NetCentric.Program

/-!
# p01

The program that counts substrings of a file, with the C library's `stdio` (`stdioCalls`)
or with system calls (`systemCalls`). A run prints to the two output streams (`Output`).
The files, the memory and the messages of the C library are an `Env`, which does not
change during the run. A `stat` that fails leaves `st` as it was.

What is undefined is an overflow of `int` in `countSubstrings`, and a look at a byte
behind the buffer.
-/

namespace NetCentric

namespace P01

/-- One call that prints. -/
inductive Output
  | stdout (text : List Byte)
  | stderr (text : List Byte)
  deriving DecidableEq

/-- How a run ends before the end of `main`. -/
inductive Stop
  | exit (status : ℕ)
  | undefined
  deriving DecidableEq

/-- A part of the program. -/
abbrev Run := Prog Output Stop

/-- A file that is open for reading. -/
structure OpenFile where
  contents : List Byte
  /-- The byte that the `read` of this number delivers, if it delivers one. -/
  reads : ℕ → Option Byte

/-- What the program runs in. -/
structure Env where
  /-- `open` and `fopen` for reading, with `errno` where they fail. -/
  openFile : List Byte → Except ℕ OpenFile
  /-- The size that `stat` finds. -/
  stat : List Byte → Option ℤ
  /-- What can be opened has a size. -/
  stat_of_open : ∀ path file, openFile path = .ok file → (stat path).isSome
  /-- What `st.st_size` holds before. -/
  garbage : ℤ
  /-- `calloc` of this many bytes succeeds. -/
  calloc : ℤ → Bool
  /-- `errno`, if the file does not close. -/
  close : List Byte → Option ℕ
  strerror : ℕ → List Byte
  /-- What `getopt_long` prints for a word that is no option. -/
  badOption : List Byte → List Byte

/-- `ENOMEM`. -/
def ENOMEM : ℕ :=
  12

/-- `st.st_size` after the `stat`. -/
def Env.size (env : Env) (path : List Byte) : ℤ :=
  (env.stat path).getD env.garbage

/-- `print_usage`. -/
def printUsage {α : Type} (program : List Byte) (stream : List Byte → Output) (exit_code : ℕ) :
    Run α := do
  Prog.call (stream (bytes "Usage: " ++ program ++
    bytes " [--help | --systemcalls] filename arg1 [...]\n"))
  Prog.call (stream (bytes "  -h --help            Display this usage information.\n" ++
    bytes "  -s --systemcalls     Switch to the system calls implementation.\n"))
  Prog.stop (.exit exit_code)

/-- `perror(program_name)` and `exit(1)`. -/
def fail {α : Type} (env : Env) (program : List Byte) (errno : ℕ) : Run α := do
  Prog.call (.stderr (program ++ bytes ": " ++ env.strerror errno ++ bytes "\n"))
  Prog.stop (.exit 1)

/-- The loop of `countSubstrings` with this many rounds to go, for `ptr` as an offset. -/
def countLoop (buffer substring : List Byte) (substringLen : ℤ) :
    ℕ → ℕ → ℤ → Option ℤ
  | 0, _, count => some count
  | rounds + 1, ptr, count => do
    let equal ← strncasecmpIn (buffer.drop ptr) substring (toSize substringLen)
    let count ← if equal then checked (count + 1) else some count
    countLoop buffer substring substringLen rounds (ptr + 1) count

/-- `countSubstrings`. The length of the substring is cut down to an `int`. -/
def countSubstrings (buffer substring : List Byte) (size : ℤ) : Option ℤ := do
  let substringLen := toInt substring.length
  let rest ← checked (size - substringLen)
  let bound ← checked (rest + 1)
  countLoop buffer substring substringLen bound.toNat 0 0

/-- The loop over the substrings. The `long` that `stat` gave is passed as an `int`. -/
def printCounts (buffer : List Byte) (size : ℤ) : List (List Byte) → Run Unit
  | [] => pure ()
  | substring :: substrings => do
    match countSubstrings buffer substring (toInt size) with
    | some count =>
      Prog.call (.stdout (bytes (toString count) ++ bytes "\n"))
      printCounts buffer size substrings
    | none => Prog.stop .undefined

/-- The end of either branch. -/
def closeFile (env : Env) (program path : List Byte) : Run Unit :=
  match env.close path with
  | some errno => fail env program errno
  | none => pure ()

/-- The loop of `read`s of one byte, into a buffer of zeros. -/
def readLoop (file : OpenFile) (size : ℤ) : List Byte :=
  (List.range size.toNat).map fun i => (file.reads i).getD 0

/-- `fread(buffer, sizeof(char), size, fp)`, into a buffer of zeros. -/
def fread (file : OpenFile) (size : ℤ) : List Byte :=
  file.contents.take size.toNat ++ List.replicate (size.toNat - file.contents.length) 0

/-- The branch of `--systemcalls`. -/
def systemCalls (env : Env) (program : List Byte) (argv : List (List Byte)) (optind : ℕ) :
    Run Unit :=
  if argv.length - optind < 2 then printUsage program .stderr 1
  else
    let path := argv.getD optind []
    match env.openFile path with
    | .error errno => fail env program errno
    | .ok file =>
      let size := env.size path
      if env.calloc size then do
        printCounts (readLoop file size) size (argv.drop (optind + 1))
        closeFile env program path
      else fail env program ENOMEM

/-- The branch of the standard I/O library. -/
def stdioCalls (env : Env) (program : List Byte) (argv : List (List Byte)) : Run Unit :=
  if argv.length < 3 then printUsage program .stderr 1
  else
    let path := argv.getD 1 []
    let size := env.size path
    if env.calloc size then
      match env.openFile path with
      | .error errno => fail env program errno
      | .ok file => do
        printCounts (fread file size) size (argv.drop 2)
        closeFile env program path
    else fail env program ENOMEM

/-- The options of the program. -/
inductive Opt
  | help
  | systemcalls
  deriving DecidableEq

/-- `short_options` and `long_options`. -/
def options : Getopt.Table Opt where
  short := [(104, .help), (115, .systemcalls)]
  long := [(bytes "help", .help), (bytes "systemcalls", .systemcalls)]

/-- The loop over the options. -/
def parseOptions (env : Env) (program : List Byte) (system_flag : Bool) :
    List (Except (List Byte) Opt) → Run Bool
  | [] => pure system_flag
  | .ok .help :: _ => printUsage program .stdout 0
  | .ok .systemcalls :: opts => parseOptions env program true opts
  | .error word :: _ => do
    Prog.call (.stderr (env.badOption word))
    printUsage program .stderr 1

/-- The program, with its arguments after `argv[0]`. -/
def main (env : Env) (program : List Byte) (args : List (List Byte)) : Run Unit := do
  let s := Getopt.split args
  let system_flag ← parseOptions env program false (s.options.flatMap options.results)
  if system_flag then systemCalls env program (s.argv program) s.optind
  else stdioCalls env program (s.argv program)

/-! ## What is seen of a run -/

/-- The texts printed to the standard output. -/
def stdout (outputs : List Output) : List (List Byte) :=
  outputs.filterMap fun
    | .stdout text => some text
    | .stderr _ => none

/-- The texts printed to the standard error. -/
def stderr (outputs : List Output) : List (List Byte) :=
  outputs.filterMap fun
    | .stdout _ => none
    | .stderr text => some text

/-- The status that a run exits with. -/
def status : Except Stop Unit → Option ℕ
  | .ok _ => some 0
  | .error (.exit status) => some status
  | .error .undefined => none

/-- The same lines on both streams, and the same status. -/
def SameRun (p q : Run Unit) : Prop :=
  stdout p.calls = stdout q.calls ∧ stderr p.calls = stderr q.calls ∧
    ∃ n, status p.result = some n ∧ status q.result = some n

end P01

end NetCentric
