import NetCentric.Decimal
import NetCentric.Transition

/-!
# Messages through a pipe

A pipe is the bytes in it. A `read` takes what is there, up to its count. It waits while there
is nothing and some process has the write end open, and finds the end when none has. A `write`
waits for room, and kills the process when nobody has the read end open.

In `ipc_code/pipe/pipe.c` the child writes `n` times a message, in the source five, and the
parent reads until the end, counts its reads and sends the count back through a second pipe.
`responses` : however the two interleave they come to their end, and the counts that the child
can get are exactly those from one to `n`, for a `read` may take several messages at once.
-/

namespace NetCentric

/-! ## The system -/

/-- The number of bytes that a pipe has room for. -/
def PIPE_CAPACITY : ℕ :=
  65536

/-- `read(fd, buf, count)` : the bytes, and what is left in the pipe. -/
def readPipe (pipe : List Byte) (count : ℕ) (writer : Bool) : Option (List Byte × List Byte) :=
  if pipe = [] ∧ writer = true then none else some (pipe.take count, pipe.drop count)

/-- `write(fd, data, data.length)`, of so little that it is not split : the pipe behind it, or
nothing if the process is killed. -/
def writePipe (pipe data : List Byte) (reader : Bool) : Option (Option (List Byte)) :=
  if reader = false then some none
  else if pipe.length + data.length ≤ PIPE_CAPACITY then some (some (pipe ++ data))
  else none

/-- A `read` that has room takes all. -/
theorem readPipe_all {pipe : List Byte} {count : ℕ} {writer : Bool} (h : pipe.length ≤ count)
    (hsome : pipe ≠ [] ∨ writer = false) : readPipe pipe count writer = some (pipe, []) := by
  rw [readPipe, if_neg, List.take_of_length_le h, List.drop_of_length_le h]
  rintro ⟨rfl, rfl⟩
  rcases hsome with h | h
  · exact h rfl
  · cases h

theorem writePipe_of_le {pipe data : List Byte}
    (h : pipe.length + data.length ≤ PIPE_CAPACITY) :
    writePipe pipe data true = some (some (pipe ++ data)) := by
  rw [writePipe, if_neg (by decide), if_pos h]

theorem exists_readPipe (pipe : List Byte) (count : ℕ) :
    ∃ x, readPipe pipe count false = some x :=
  ⟨_, if_neg fun h => by cases h.2⟩

theorem exists_writePipe {pipe data : List Byte} (reader : Bool)
    (h : pipe.length + data.length ≤ PIPE_CAPACITY) : ∃ x, writePipe pipe data reader = some x := by
  cases reader with
  | false => exact ⟨none, rfl⟩
  | true => exact ⟨_, writePipe_of_le h⟩

namespace PipeMessages

/-! ## The program -/

/-- What the child does next. -/
inductive Child
  /-- `close(fds[0])`. -/
  | closeRead
  /-- `write(fds[1], hello, sizeof(hello))`, for this `i`. -/
  | write (i : ℕ)
  /-- `close(fds[1])`. -/
  | closeWrite
  /-- `close(fds2[1])`. -/
  | closeWrite2
  /-- `read(fds2[0], buf, sizeof(buf))`, and to print it. -/
  | read
  /-- `close(fds2[0])`. -/
  | closeRead2
  | done
  /-- Killed by a `write` that nobody reads. -/
  | killed
  deriving DecidableEq

/-- What the parent does next. -/
inductive Parent
  /-- `close(fds[1])`. -/
  | closeWrite
  /-- `read(fds[0], buf, sizeof(buf))`, and to print it. -/
  | read
  /-- `close(fds[0])`. -/
  | closeRead
  /-- `close(fds2[0])`. -/
  | closeRead2
  /-- `write(fds2[1], buf, strlen(buf) + 1)`. -/
  | write
  /-- `close(fds2[1])`. -/
  | closeWrite2
  /-- `wait(&status)`. -/
  | wait
  | done
  | killed
  deriving DecidableEq

structure State where
  child : Child
  parent : Parent
  fds : List Byte
  fds2 : List Byte
  /-- `buf` of the child. -/
  childBuf : List Byte
  /-- `buf` of the parent. -/
  buf : List Byte
  num : ℕ
  /-- What the child and the parent have printed. -/
  childOut : List (List Byte)
  parentOut : List (List Byte)

/-- `hello`. -/
def hello : List Byte :=
  bytes "Hello, World!" ++ [0]

/-- `"%d messages received"`, with its NUL. -/
def response (num : ℕ) : List Byte :=
  decimal num ++ bytes " messages received" ++ [0]

/-- `printf("from child: %s\n", buf)`. -/
def fromChild (buf : List Byte) : List Byte :=
  bytes "from child: " ++ cstr buf ++ bytes "\n"

/-- The two `printf` of the child. -/
def childPrints (buf : List Byte) : List (List Byte) :=
  [bytes "----------\n", bytes "Response: " ++ cstr buf ++ bytes "\n"]

/-- The condition of the loop of the child. -/
def loop (n i : ℕ) : Child :=
  if i < n then .write i else .closeWrite

/-- Who has which end open. -/
def Child.writes : Child → Bool
  | closeRead | write _ | closeWrite => true
  | _ => false

def Child.writes2 : Child → Bool
  | closeRead | write _ | closeWrite | closeWrite2 => true
  | _ => false

def Child.reads : Child → Bool
  | closeRead => true
  | _ => false

def Child.reads2 : Child → Bool
  | done | killed => false
  | _ => true

def Parent.writes : Parent → Bool
  | closeWrite => true
  | _ => false

def Parent.writes2 : Parent → Bool
  | wait | done | killed => false
  | _ => true

def Parent.reads : Parent → Bool
  | closeWrite | read | closeRead => true
  | _ => false

def Parent.reads2 : Parent → Bool
  | closeWrite | read | closeRead | closeRead2 => true
  | _ => false

/-- The child. -/
def childStep (n : ℕ) (s : State) : Option State :=
  match s.child with
  | .closeRead => some { s with child := loop n 0 }
  | .write i =>
    (writePipe s.fds hello (s.parent.reads || s.child.reads)).map fun
      | some fds => { s with child := loop n (i + 1), fds := fds }
      | none => { s with child := .killed }
  | .closeWrite => some { s with child := .closeWrite2 }
  | .closeWrite2 => some { s with child := .read }
  | .read =>
    (readPipe s.fds2 1024 (s.parent.writes2 || s.child.writes2)).map fun (data, fds2) => { s with
      child := .closeRead2
      fds2 := fds2
      childBuf := overwrite s.childBuf data
      childOut := s.childOut ++ childPrints (overwrite s.childBuf data) }
  | .closeRead2 => some { s with child := .done }
  | .done | .killed => none

/-- The parent. -/
def parentStep (s : State) : Option State :=
  match s.parent with
  | .closeWrite => some { s with parent := .read }
  | .read =>
    (readPipe s.fds 1024 (s.child.writes || s.parent.writes)).map fun
      | ([], fds) => { s with parent := .closeRead, fds := fds }
      | (data, fds) => { s with
          fds := fds
          buf := overwrite s.buf data
          num := s.num + 1
          parentOut := s.parentOut ++ [fromChild (overwrite s.buf data)] }
  | .closeRead => some { s with parent := .closeRead2 }
  | .closeRead2 => some { s with parent := .write }
  | .write =>
    (writePipe s.fds2 (response s.num) (s.child.reads2 || s.parent.reads2)).map fun
      | some fds2 => { s with parent := .closeWrite2, fds2 := fds2 }
      | none => { s with parent := .killed }
  | .closeWrite2 => some { s with parent := .wait }
  | .wait => if s.child = .done ∨ s.child = .killed then some { s with parent := .done } else none
  | .done | .killed => none

/-- The two processes. -/
inductive Side
  | child
  | parent

/-- After the `fork`, with whatever is in the two `buf`. -/
def start (childBuf buf : List Byte) : State where
  child := .closeRead
  parent := .closeWrite
  fds := []
  fds2 := []
  childBuf := childBuf
  buf := buf
  num := 0
  childOut := []
  parentOut := []

def pipes (n : ℕ) (childBuf buf : List Byte) : System State Side where
  Init s := s = start childBuf buf
  step s
    | .child => childStep n s
    | .parent => parentStep s

/-! ## The invariant -/

/-- The child has written `j` messages. -/
def Child.At (n j : ℕ) : Child → Prop
  | closeRead => j = 0
  | write i => i = j ∧ i < n
  | killed => False
  | _ => j = n

/-- The parent has taken `m` messages. It leaves its loop when the child writes no more. -/
def Parent.At (n m : ℕ) (child : Child) : Parent → Prop
  | closeWrite => m = 0
  | read => True
  | killed => False
  | _ => m = n ∧ child.writes = false

/-- The parent has sent the response. -/
def Parent.Sent : Parent → Bool
  | closeWrite2 | wait | done => true
  | _ => false

/-- The child has read the response. -/
def Child.Got : Child → Bool
  | closeRead2 | done => true
  | _ => false

/-- What the child prints at the end. -/
def report (num : ℕ) : List (List Byte) :=
  [bytes "----------\n", bytes "Response: " ++ (decimal num ++ bytes " messages received") ++
    bytes "\n"]

/-- The response is in the second pipe from when it is sent until the child gets it. -/
structure Reply (sent got : Bool) (num : ℕ) (fds2 : List Byte) (childOut : List (List Byte)) :
    Prop where
  fds2 : fds2 = if sent = true ∧ got = false then response num else []
  sent : got = true → sent = true
  childOut : childOut = if got = true then report num else []

/-- `j` messages are written and `m` of them are taken, by `num` reads. -/
structure Inv (n : ℕ) (s : State) (j m : ℕ) : Prop where
  child : s.child.At n j
  parent : s.parent.At n m s.child
  taken_le : m ≤ j
  written_le : j ≤ n
  fds : s.fds = (List.replicate (j - m) hello).flatten
  num_le : s.num ≤ m
  num_pos : 0 < m → 0 < s.num
  parentOut : s.parentOut = List.replicate s.num (bytes "from child: Hello, World!\n")
  reply : Reply s.parent.Sent s.child.Got s.num s.fds2 s.childOut

variable {n j m : ℕ} {s t : State} {childBuf buf : List Byte}

theorem inv_start : Inv n (start childBuf buf) 0 0 :=
  ⟨rfl, rfl, le_rfl, Nat.zero_le _, rfl, le_rfl, nofun, rfl, rfl, nofun, rfl⟩

theorem loop_cases (n i : ℕ) : loop n i = .write i ∧ i < n ∨ loop n i = .closeWrite ∧ n ≤ i := by
  unfold loop
  split
  case isTrue h => exact .inl ⟨rfl, h⟩
  case isFalse h => exact .inr ⟨rfl, not_lt.1 h⟩

theorem loop_at {i : ℕ} (h : i ≤ n) : (loop n i).At n i ∧ (loop n i).Got = false := by
  rcases loop_cases n i with ⟨hl, hi⟩ | ⟨hl, hi⟩ <;> rw [hl]
  · exact ⟨⟨rfl, hi⟩, rfl⟩
  · exact ⟨le_antisymm h hi, rfl⟩

/-- A parent that has left its loop has taken all messages. -/
theorem Parent.At.of_not_reads {p : Parent} {c : Child} (h : p.At n m c) (hp : p.reads = false) :
    m = n ∧ c.writes = false := by
  cases p with
  | closeWrite | read | closeRead => cases hp
  | killed => exact h.elim
  | _ => exact h

/-- While the child has the write end open the parent is in its loop. -/
theorem Parent.At.of_writes {p : Parent} {c d : Child} (h : p.At n m c)
    (hc : c.writes = true) : p.At n m d := by
  cases p with
  | closeWrite => exact h
  | read => trivial
  | killed => exact h.elim
  | _ => exact absurd (hc.symm.trans h.2) (by decide)

theorem Parent.At.of_not_writes {p : Parent} {c d : Child} (h : p.At n m c)
    (hd : d.writes = false) : p.At n m d := by
  cases p with
  | closeWrite => exact h
  | read => trivial
  | killed => exact h.elim
  | _ => exact ⟨h.1, hd⟩

theorem Parent.At.writes2_of_not_sent {p : Parent} {c : Child} (h : p.At n m c)
    (hp : p.Sent = false) : p.writes2 = true := by
  cases p with
  | closeWrite2 | wait | done => cases hp
  | killed => exact h.elim
  | _ => rfl

theorem length_messages (k : ℕ) : (List.replicate k hello).flatten.length = 14 * k := by
  have hlength : hello.length = 14 := by decide
  induction k with
  | zero => rfl
  | succ k ih =>
    rw [List.replicate_succ, List.flatten_cons, List.length_append, ih, hlength]
    omega

theorem cstr_hello (rest : List Byte) : cstr (hello ++ rest) = bytes "Hello, World!" := by
  rw [hello, List.append_assoc]
  exact cstr_append_of_no_nul (by decide) _

/-- The child prints what the parent has sent. -/
theorem childPrints_response (num : ℕ) (buf : List Byte) :
    childPrints (overwrite buf (response num)) = report num := by
  have hnul : 0 ∉ decimal num ++ bytes " messages received" := by
    rw [List.mem_append, not_or]
    exact ⟨fun h => absurd (mem_decimal h) (by decide), by decide⟩
  have hcstr : cstr (overwrite buf (response num)) = decimal num ++ bytes " messages received" := by
    rw [overwrite, response, List.append_assoc, cstr_append_of_no_nul hnul]
    exact List.append_nil _
  rw [childPrints, hcstr, report]

theorem length_response_le {num : ℕ} (h : num ≤ 1024) : (response num).length ≤ 1024 := by
  have hwidth : width num ≤ 4 := width_natCast_le (by omega)
  have htext : (bytes " messages received").length = 18 := by decide
  rw [response, List.length_append, List.length_append, length_decimal, htext,
    List.length_singleton]
  omega

/-- The child takes a step. -/
theorem Inv.child_step (hn : 14 * n ≤ 1024) (hI : Inv n s j m) (h : childStep n s = some t) :
    ∃ j', Inv n t j' m := by
  obtain ⟨hchild, hparent, htaken, hwritten, hfds, hle, hpos, hout, hreply⟩ := hI
  obtain ⟨child, parent, fds, fds2, cbuf, pbuf, num, cout, pout⟩ := s
  dsimp only at *
  unfold childStep at h
  dsimp only at h
  cases child with
  | closeRead =>
    obtain rfl := Option.some.inj h
    obtain rfl : j = 0 := hchild
    obtain ⟨hat, hnot⟩ := loop_at (Nat.zero_le n)
    exact ⟨0, hat, hparent.of_writes rfl, htaken, hwritten, hfds, hle, hpos, hout, hnot ▸ hreply⟩
  | write i =>
    obtain ⟨rfl, hi⟩ := hchild
    -- the parent has not left its loop
    have hreads : parent.reads = true := by
      by_contra hno
      have hwrites := (hparent.of_not_reads (by simpa using hno)).2
      cases hwrites
    have hroom : fds.length + hello.length ≤ PIPE_CAPACITY := by
      have hlength : hello.length = 14 := by decide
      rw [hfds, length_messages, hlength, PIPE_CAPACITY]
      omega
    rw [hreads, Bool.true_or, writePipe_of_le hroom] at h
    obtain rfl := Option.some.inj h
    obtain ⟨hat, hnot⟩ := loop_at (n := n) (i := i + 1) hi
    refine ⟨i + 1, hat, hparent.of_writes rfl, by omega, hi, ?_, hle, hpos, hout, hnot ▸ hreply⟩
    have hsub : i + 1 - m = i - m + 1 := by omega
    dsimp only
    rw [hfds, hsub, List.replicate_succ', List.flatten_append, List.flatten_singleton]
  | closeWrite =>
    obtain rfl := Option.some.inj h
    exact ⟨j, hchild, hparent.of_writes rfl, htaken, hwritten, hfds, hle, hpos, hout, hreply⟩
  | closeWrite2 =>
    obtain rfl := Option.some.inj h
    exact ⟨j, hchild, hparent.of_not_writes rfl, htaken, hwritten, hfds, hle, hpos, hout,
      hreply⟩
  | read =>
    cases hsent : parent.Sent with
    | false =>
      -- nothing is there, and the parent has the write end open
      have hfds2 := hreply.fds2
      rw [hsent, if_neg (by simp)] at hfds2
      rw [hfds2, hparent.writes2_of_not_sent hsent, Bool.true_or, readPipe, if_pos ⟨rfl, rfl⟩] at h
      cases h
    | true =>
      have hfds2 := hreply.fds2
      rw [hsent, if_pos ⟨rfl, rfl⟩] at hfds2
      have hread : readPipe fds2 1024 (parent.writes2 || Child.read.writes2) =
          some (response num, []) := by
        rw [hfds2]
        exact readPipe_all (length_response_le (by omega)) (.inl (by simp [response]))
      rw [hread] at h
      obtain rfl := Option.some.inj h
      have hprinted := hreply.childOut
      rw [if_neg (by decide)] at hprinted
      refine ⟨j, hchild, hparent.of_not_writes rfl, htaken, hwritten, hfds, hle, hpos, hout,
        ⟨?_, fun _ => hsent, ?_⟩⟩
      · exact (if_neg (by simp [Child.Got])).symm
      · dsimp only
        rw [hprinted, List.nil_append, childPrints_response, if_pos (by decide)]
  | closeRead2 =>
    obtain rfl := Option.some.inj h
    exact ⟨j, hchild, hparent.of_not_writes rfl, htaken, hwritten, hfds, hle, hpos, hout,
      hreply⟩
  | done => cases h
  | killed => cases h

theorem Child.At.not_writes {c : Child} (h : c.At n j) (hc : c.writes = false) : j = n := by
  cases c with
  | closeRead | write | closeWrite => cases hc
  | killed => exact h.elim
  | _ => exact h

/-- Before the response is sent the count is open. -/
theorem Reply.of_not_sent {got : Bool} {num : ℕ} {fds2 : List Byte} {childOut : List (List Byte)}
    (h : Reply false got num fds2 childOut) (num' : ℕ) : Reply false got num' fds2 childOut := by
  have hgot : got = false := by
    by_contra hgot
    have hsent := h.sent (by simpa using hgot)
    cases hsent
  subst hgot
  exact ⟨h.fds2.trans (by simp), nofun, h.childOut⟩

/-- The parent takes a step. -/
theorem Inv.parent_step (hn : 14 * n ≤ 1024) (hI : Inv n s j m) (h : parentStep s = some t) :
    ∃ m', Inv n t j m' := by
  obtain ⟨hchild, hparent, htaken, hwritten, hfds, hle, hpos, hout, hreply⟩ := hI
  obtain ⟨child, parent, fds, fds2, cbuf, pbuf, num, cout, pout⟩ := s
  dsimp only at *
  unfold parentStep at h
  cases parent with
  | closeWrite =>
    obtain rfl := Option.some.inj h
    exact ⟨m, hchild, trivial, htaken, hwritten, hfds, hle, hpos, hout, hreply⟩
  | read =>
    dsimp only at h
    have hlength : fds.length ≤ 1024 := by
      rw [hfds, length_messages]
      omega
    rcases Nat.eq_or_lt_of_le htaken with rfl | hlt
    · -- all that is written is taken : this is the end, or the parent waits
      rw [Nat.sub_self, List.replicate_zero, List.flatten_nil] at hfds
      subst hfds
      cases hwrites : child.writes with
      | true =>
        rw [hwrites, Bool.true_or, readPipe, if_pos ⟨rfl, rfl⟩] at h
        cases h
      | false =>
        have hend : readPipe [] 1024 (false || Parent.read.writes) = some ([], []) := rfl
        rw [hwrites, hend] at h
        obtain rfl := Option.some.inj h
        obtain rfl := hchild.not_writes hwrites
        exact ⟨m, hchild, ⟨rfl, hwrites⟩, htaken, hwritten, by simp, hle, hpos, hout, hreply⟩
    · -- one read takes all the messages that are there
      obtain ⟨k, hk⟩ : ∃ k, j - m = k + 1 := ⟨j - m - 1, by omega⟩
      have hcons : fds = hello ++ (List.replicate k hello).flatten := by
        rw [hfds, hk, List.replicate_succ, List.flatten_cons]
      have hne : fds ≠ [] := by
        rw [hcons]
        exact List.append_ne_nil_of_left_ne_nil (by decide) _
      obtain ⟨c, data, hdata⟩ := List.exists_cons_of_ne_nil hne
      rw [readPipe_all hlength (.inl hne), hdata] at h
      obtain rfl := Option.some.inj h
      have hprint : fromChild (overwrite pbuf (c :: data)) =
          bytes "from child: Hello, World!\n" := by
        rw [← hdata, overwrite, hcons, List.append_assoc, fromChild, cstr_hello]
        decide
      refine ⟨j, hchild, trivial, le_rfl, hwritten, by simp, by dsimp only; omega,
        fun _ => Nat.succ_pos _, ?_, hreply.of_not_sent _⟩
      dsimp only
      rw [hprint, hout, List.replicate_succ']
  | closeRead =>
    obtain rfl := Option.some.inj h
    exact ⟨m, hchild, hparent, htaken, hwritten, hfds, hle, hpos, hout, hreply⟩
  | closeRead2 =>
    obtain rfl := Option.some.inj h
    exact ⟨m, hchild, hparent, htaken, hwritten, hfds, hle, hpos, hout, hreply⟩
  | write =>
    dsimp only at h
    -- the child has not got the response, and so it can read it
    have hnot : child.Got = false := by
      by_contra hgot
      have hsent := hreply.sent (by simpa using hgot)
      cases hsent
    have hreads : child.reads2 = true := by
      cases child with
      | done => cases hnot
      | killed => exact hchild.elim
      | _ => rfl
    have hfds2 : fds2 = [] := hreply.fds2.trans (if_neg fun h => by cases h.1)
    have hroom : ([] : List Byte).length + (response num).length ≤ PIPE_CAPACITY := by
      have hresponse : (response num).length ≤ 1024 := length_response_le (by omega)
      rw [List.length_nil, PIPE_CAPACITY]
      omega
    rw [hfds2, hreads, Bool.true_or, writePipe_of_le hroom] at h
    obtain rfl := Option.some.inj h
    refine ⟨m, hchild, hparent, htaken, hwritten, hfds, hle, hpos, hout, ⟨?_, fun _ => rfl, ?_⟩⟩
    · exact (if_pos ⟨rfl, hnot⟩).symm
    · exact hreply.childOut
  | closeWrite2 =>
    obtain rfl := Option.some.inj h
    exact ⟨m, hchild, hparent, htaken, hwritten, hfds, hle, hpos, hout, hreply⟩
  | wait =>
    dsimp only at h
    split at h
    · obtain rfl := Option.some.inj h
      exact ⟨m, hchild, hparent, htaken, hwritten, hfds, hle, hpos, hout, hreply⟩
    · cases h
  | done => cases h
  | killed => cases h

/-! ## The end of a run -/

/-- Both have returned. -/
def Ended (s : State) : Prop :=
  s.child = .done ∧ s.parent = .done

theorem Inv.room (hn : 14 * n ≤ 1024) (hI : Inv n s j m) :
    s.fds.length + hello.length ≤ PIPE_CAPACITY := by
  have hlength : hello.length = 14 := by decide
  have hle := hI.written_le
  rw [hI.fds, length_messages, hlength, PIPE_CAPACITY]
  omega

/-- A child that does not wait for the response can go on. -/
theorem Inv.child_enabled (hn : 14 * n ≤ 1024) (hI : Inv n s j m)
    (h : s.child ≠ .read ∧ s.child ≠ .done) : ∃ t, childStep n s = some t := by
  have hat := hI.child
  unfold childStep
  cases hc : s.child with
  | write i =>
    obtain ⟨x, hx⟩ := exists_writePipe (s.parent.reads || Child.reads (.write i)) (hI.room hn)
    exact ⟨_, by dsimp only; rw [hx]; rfl⟩
  | read => exact absurd hc h.1
  | done => exact absurd hc h.2
  | killed =>
    rw [hc] at hat
    exact hat.elim
  | _ => exact ⟨_, rfl⟩

/-- Once the child writes no more the parent can go on, but for its `wait`. -/
theorem Inv.parent_enabled (hn : 14 * n ≤ 1024) (hI : Inv n s j m)
    (hwrites : s.child.writes = false) (h : s.parent ≠ .done)
    (hwait : s.parent = .wait → s.child = .done) : ∃ t, parentStep s = some t := by
  have hat := hI.parent
  have hsent := hI.reply.fds2
  unfold parentStep
  cases hp : s.parent with
  | read =>
    obtain ⟨⟨data, fds⟩, hx⟩ := exists_readPipe s.fds 1024
    dsimp only
    rw [hwrites, show (false || Parent.read.writes) = false from rfl, hx]
    cases data <;> exact ⟨_, rfl⟩
  | write =>
    rw [hp, if_neg fun h => by cases h.1] at hsent
    have hle := hI.num_le
    have htaken := hI.taken_le
    have hwritten := hI.written_le
    have hroom : s.fds2.length + (response s.num).length ≤ PIPE_CAPACITY := by
      have hresponse : (response s.num).length ≤ 1024 := length_response_le (by omega)
      rw [hsent, List.length_nil, PIPE_CAPACITY]
      omega
    obtain ⟨x, hx⟩ := exists_writePipe (s.child.reads2 || Parent.write.reads2) hroom
    dsimp only
    rw [hx]
    cases x <;> exact ⟨_, rfl⟩
  | wait => exact ⟨_, if_pos (.inl (hwait hp))⟩
  | done => exact absurd hp h
  | killed =>
    rw [hp] at hat
    exact hat.elim
  | _ => exact ⟨_, rfl⟩

/-- One of the two can go on until both have returned. -/
theorem Inv.exists_step (hn : 14 * n ≤ 1024) (hI : Inv n s j m) (h : ¬Ended s) :
    ∃ a t, (pipes n childBuf buf).step s a = some t := by
  by_cases hc : s.child ≠ .read ∧ s.child ≠ .done
  · obtain ⟨t, ht⟩ := hI.child_enabled hn hc
    exact ⟨.child, t, ht⟩
  have hend : s.child = .read ∨ s.child = .done := by
    by_contra hno
    exact hc (not_or.1 hno)
  have hwrites : s.child.writes = false := by
    rcases hend with h | h <;> rw [h] <;> rfl
  by_cases hsent : s.child = .read ∧ s.parent.Sent = true
  · -- the response is there
    have hfds2 := hI.reply.fds2
    rw [hsent.1, hsent.2, if_pos ⟨rfl, rfl⟩] at hfds2
    have hle := hI.num_le
    have htaken := hI.taken_le
    have hwritten := hI.written_le
    have hread : readPipe s.fds2 1024 (s.parent.writes2 || Child.read.writes2) =
        some (s.fds2, []) :=
      readPipe_all (by rw [hfds2]; exact length_response_le (by omega))
        (.inl (by rw [hfds2]; simp [response]))
    refine ⟨.child, ?_⟩
    change ∃ t, childStep n s = some t
    unfold childStep
    rw [hsent.1]
    dsimp only
    rw [hread]
    exact ⟨_, rfl⟩
  · have hdone : s.parent ≠ .done := fun hp => by
      rcases hend with hc | hc
      · exact hsent ⟨hc, by rw [hp]; rfl⟩
      · exact h ⟨hc, hp⟩
    have hwait : s.parent = .wait → s.child = .done := fun hp =>
      hend.resolve_left fun hc => hsent ⟨hc, by rw [hp]; rfl⟩
    obtain ⟨t, ht⟩ := hI.parent_enabled hn hwrites hdone hwait
    exact ⟨.parent, t, ht⟩

/-- The steps that are left, with fourteen for each message to be read. -/
def Child.left (n : ℕ) : Child → ℕ
  | closeRead => 15 * n + 6
  | write i => 15 * (n - i) + 5
  | closeWrite => 4
  | closeWrite2 => 3
  | read => 2
  | closeRead2 => 1
  | done | killed => 0

def Parent.left : Parent → ℕ
  | closeWrite => 7
  | read => 6
  | closeRead => 5
  | closeRead2 => 4
  | write => 3
  | closeWrite2 => 2
  | wait => 1
  | done | killed => 0

def State.left (n : ℕ) (s : State) : ℕ :=
  s.child.left n + s.parent.left + s.fds.length

theorem left_loop_le (n i : ℕ) : (loop n i).left n ≤ 15 * (n - i) + 5 := by
  rcases loop_cases n i with ⟨hl, -⟩ | ⟨hl, -⟩ <;> rw [hl]
  · exact le_rfl
  · exact (show 4 ≤ 5 by decide).trans (Nat.le_add_left _ _)

/-- Every step brings the end nearer. -/
theorem left_lt {a : Side} (hI : Inv n s j m) (h : (pipes n childBuf buf).step s a = some t) :
    t.left n < s.left n := by
  have hat := hI.child
  cases a with
  | child =>
    change childStep n s = some t at h
    unfold childStep at h
    cases hc : s.child with
    | closeRead =>
      rw [hc] at h
      obtain rfl := Option.some.inj h
      have hloop := left_loop_le n 0
      have hleft : Child.closeRead.left n = 15 * n + 6 := rfl
      simp only [State.left, hc, hleft]
      omega
    | write i =>
      rw [hc] at h hat
      obtain ⟨x, hx, rfl⟩ := Option.map_eq_some_iff.1 h
      have hloop := left_loop_le n (i + 1)
      have hlt := hat.2
      have hlength : hello.length = 14 := by decide
      have hleft : (Child.write i).left n = 15 * (n - i) + 5 := rfl
      cases x with
      | none =>
        have hkilled : Child.killed.left n = 0 := rfl
        simp only [State.left, hc, hleft, hkilled]
        omega
      | some fds =>
        have hfds : fds.length = s.fds.length + 14 := by
          unfold writePipe at hx
          split at hx
          · cases hx
          · split at hx
            · cases hx
              rw [List.length_append, hlength]
            · cases hx
        simp only [State.left, hc, hleft, hfds]
        omega
    | read =>
      rw [hc] at h
      obtain ⟨x, -, rfl⟩ := Option.map_eq_some_iff.1 h
      simp only [State.left, hc, Child.left]
      omega
    | closeWrite | closeWrite2 | closeRead2 =>
      rw [hc] at h
      obtain rfl := Option.some.inj h
      simp only [State.left, hc, Child.left]
      omega
    | done | killed =>
      rw [hc] at h
      cases h
  | parent =>
    change parentStep s = some t at h
    unfold parentStep at h
    cases hp : s.parent with
    | read =>
      rw [hp] at h
      obtain ⟨⟨data, fds⟩, hx, ht⟩ := Option.map_eq_some_iff.1 h
      obtain ⟨rfl, rfl⟩ : data = s.fds.take 1024 ∧ fds = s.fds.drop 1024 := by
        unfold readPipe at hx
        split at hx
        · cases hx
        · obtain ⟨hdata, hfds⟩ := Prod.mk.inj (Option.some.inj hx)
          exact ⟨hdata.symm, hfds.symm⟩
      have hle := List.length_drop (l := s.fds) (i := 1024)
      cases hdata : s.fds.take 1024 with
      | nil =>
        rw [hdata] at ht
        subst ht
        simp only [State.left, hp, Parent.left]
        omega
      | cons c data =>
        rw [hdata] at ht
        subst ht
        have hpos : 0 < s.fds.length := by
          cases hfds : s.fds with
          | nil =>
            rw [hfds] at hdata
            cases hdata
          | cons => exact Nat.succ_pos _
        simp only [State.left, hp]
        omega
    | write =>
      rw [hp] at h
      obtain ⟨x, -, rfl⟩ := Option.map_eq_some_iff.1 h
      cases x <;> simp only [State.left, hp, Parent.left] <;> omega
    | wait =>
      rw [hp] at h
      dsimp only at h
      split at h
      · obtain rfl := Option.some.inj h
        simp only [State.left, hp, Parent.left]
        omega
      · cases h
    | closeWrite | closeRead | closeRead2 | closeWrite2 =>
      rw [hp] at h
      obtain rfl := Option.some.inj h
      simp only [State.left, hp, Parent.left]
      omega
    | done | killed =>
      rw [hp] at h
      cases h

/-! ## The counts that are possible -/

theorem inv_of_reachable (hn : 14 * n ≤ 1024) (h : (pipes n childBuf buf).Reachable s) :
    ∃ j m, Inv n s j m := by
  refine System.Reachable.invariant (I := fun s => ∃ j m, Inv n s j m) ?_
    (fun s a t hI hstep => ?_) h
  · rintro s rfl
    exact ⟨0, 0, inv_start⟩
  · obtain ⟨j, m, hI⟩ := hI
    cases a with
    | child =>
      obtain ⟨j', ht⟩ := hI.child_step hn hstep
      exact ⟨j', m, ht⟩
    | parent =>
      obtain ⟨m', ht⟩ := hI.parent_step hn hstep
      exact ⟨j, m', ht⟩

/-- The child writes a message. -/
theorem exists_write (hn : 14 * n ≤ 1024) (hs : (pipes n childBuf buf).Reachable s) {i : ℕ}
    (hchild : s.child = loop n i) (hi : i < n) (hparent : s.parent = .read) :
    ∃ t, (pipes n childBuf buf).Reachable t ∧ t.child = loop n (i + 1) ∧ t.parent = .read ∧
      t.fds = s.fds ++ hello ∧ t.num = s.num := by
  obtain ⟨j, m, hI⟩ := inv_of_reachable hn hs
  have hloop : loop n i = .write i := if_pos hi
  have hstep : childStep n s = some { s with child := loop n (i + 1), fds := s.fds ++ hello } := by
    unfold childStep
    rw [hchild, hloop]
    dsimp only
    rw [hparent, show (Parent.read.reads || Child.reads (.write i)) = true from rfl,
      writePipe_of_le (hI.room hn)]
    rfl
  exact ⟨_, hs.step (a := .child) hstep, rfl, hparent, rfl, rfl⟩

/-- The parent takes all the messages that are there. -/
theorem exists_read (hn : 14 * n ≤ 1024) (hs : (pipes n childBuf buf).Reachable s)
    (hparent : s.parent = .read) (hfds : s.fds ≠ []) :
    ∃ t, (pipes n childBuf buf).Reachable t ∧ t.child = s.child ∧ t.parent = .read ∧
      t.fds = [] ∧ t.num = s.num + 1 := by
  obtain ⟨j, m, hI⟩ := inv_of_reachable hn hs
  have hlength : s.fds.length ≤ 1024 := by
    have hle := hI.written_le
    rw [hI.fds, length_messages]
    omega
  obtain ⟨c, data, hdata⟩ := List.exists_cons_of_ne_nil hfds
  have hstep : parentStep s = some { s with
      fds := []
      buf := overwrite s.buf s.fds
      num := s.num + 1
      parentOut := s.parentOut ++ [fromChild (overwrite s.buf s.fds)] } := by
    unfold parentStep
    rw [hparent]
    dsimp only
    rw [readPipe_all hlength (.inl hfds), hdata]
    rfl
  exact ⟨_, hs.step (a := .parent) hstep, rfl, hparent, rfl, rfl⟩

/-- The parent takes `k` messages one at a time. -/
theorem exists_single (hn : 14 * n ≤ 1024) {k : ℕ} (hk : k ≤ n) (childBuf buf : List Byte) :
    ∃ s, (pipes n childBuf buf).Reachable s ∧ s.child = loop n k ∧ s.parent = .read ∧
      s.fds = [] ∧ s.num = k := by
  induction k with
  | zero =>
    have hstart : (pipes n childBuf buf).Reachable (start childBuf buf) := ⟨_, [], rfl, rfl⟩
    exact ⟨_, (hstart.step (a := .child) rfl).step (a := .parent) rfl, rfl, rfl, rfl, rfl⟩
  | succ k ih =>
    obtain ⟨s, hs, hchild, hparent, hfds, hnum⟩ := ih (Nat.le_of_succ_le hk)
    obtain ⟨t, ht, hchild, hparent, hfds, hnum'⟩ := exists_write hn hs hchild hk hparent
    obtain ⟨u, hu, hchild', hparent, hfds, hnum''⟩ := exists_read hn ht hparent (by
      rw [hfds]
      exact List.append_ne_nil_of_right_ne_nil _ (by decide))
    exact ⟨u, hu, hchild'.trans hchild, hparent, hfds, by rw [hnum'', hnum', hnum]⟩

/-- The child writes the messages that are left. -/
theorem exists_writes (hn : 14 * n ≤ 1024) {i k : ℕ} (hs : (pipes n childBuf buf).Reachable s)
    (hchild : s.child = loop n i) (hi : i + k = n) (hparent : s.parent = .read) :
    ∃ t, (pipes n childBuf buf).Reachable t ∧ t.child = loop n n ∧ t.parent = .read ∧
      (s.fds ≠ [] ∨ 0 < k → t.fds ≠ []) ∧ t.num = s.num := by
  induction k generalizing s i with
  | zero =>
    obtain rfl : i = n := hi
    exact ⟨s, hs, hchild, hparent, fun h => h.resolve_right (Nat.lt_irrefl 0), rfl⟩
  | succ k ih =>
    obtain ⟨t, ht, hchild, hparent, hfds, hnum⟩ := exists_write hn hs hchild (by omega) hparent
    obtain ⟨u, hu, hchild, hparent, hfds', hnum'⟩ := ih ht hchild (by omega) hparent
    refine ⟨u, hu, hchild, hparent, fun _ => hfds' (.inl ?_), hnum'.trans hnum⟩
    rw [hfds]
    exact List.append_ne_nil_of_right_ne_nil _ (by decide)

/-- The child has written all, the parent has read all, and it has counted `num`. -/
structure Counted (num : ℕ) (s : State) : Prop where
  child : s.child ≠ .closeRead ∧ ∀ i, s.child ≠ .write i
  fds : s.fds = []
  num : s.num = num

theorem Counted.step {num : ℕ} {a : Side} (hc : Counted num s)
    (h : (pipes n childBuf buf).step s a = some t) : Counted num t := by
  obtain ⟨hchild, hfds, hnum⟩ := hc
  cases a with
  | child =>
    change childStep n s = some t at h
    unfold childStep at h
    cases hc : s.child with
    | closeRead => exact absurd hc hchild.1
    | write i => exact absurd hc (hchild.2 i)
    | read =>
      rw [hc] at h
      obtain ⟨x, -, rfl⟩ := Option.map_eq_some_iff.1 h
      exact ⟨⟨nofun, nofun⟩, hfds, hnum⟩
    | closeWrite | closeWrite2 | closeRead2 =>
      rw [hc] at h
      obtain rfl := Option.some.inj h
      exact ⟨⟨nofun, nofun⟩, hfds, hnum⟩
    | done | killed =>
      rw [hc] at h
      cases h
  | parent =>
    change parentStep s = some t at h
    unfold parentStep at h
    cases hp : s.parent with
    | read =>
      rw [hp] at h
      obtain ⟨⟨data, fds⟩, hx, ht⟩ := Option.map_eq_some_iff.1 h
      rw [hfds] at hx
      unfold readPipe at hx
      split at hx
      · cases hx
      · obtain ⟨rfl, rfl⟩ := Prod.mk.inj (Option.some.inj hx)
        subst ht
        exact ⟨hchild, rfl, hnum⟩
    | write =>
      rw [hp] at h
      obtain ⟨x, -, rfl⟩ := Option.map_eq_some_iff.1 h
      cases x <;> exact ⟨hchild, hfds, hnum⟩
    | wait =>
      rw [hp] at h
      dsimp only at h
      split at h
      · obtain rfl := Option.some.inj h
        exact ⟨hchild, hfds, hnum⟩
      · cases h
    | closeWrite | closeRead | closeRead2 | closeWrite2 =>
      rw [hp] at h
      obtain rfl := Option.some.inj h
      exact ⟨hchild, hfds, hnum⟩
    | done | killed =>
      rw [hp] at h
      cases h

/-- From there both come to their end. -/
theorem Counted.exists_ended {num : ℕ} (hn : 14 * n ≤ 1024)
    (hs : (pipes n childBuf buf).Reachable s) (hc : Counted num s) :
    ∃ t, (pipes n childBuf buf).Reachable t ∧ Ended t ∧ t.num = num := by
  obtain ⟨as, t, hrun, ⟨ht, hc'⟩, hend⟩ := System.exists_run_of_measure
    (I := fun s => (pipes n childBuf buf).Reachable s ∧ Counted num s) (F := Ended)
    (μ := State.left n) (fun s hI hnot => by
      obtain ⟨j, m, hinv⟩ := inv_of_reachable hn hI.1
      obtain ⟨a, t, ht⟩ := hinv.exists_step hn hnot
      exact ⟨a, t, ht, ⟨hI.1.step ht, hI.2.step ht⟩, left_lt hinv ht⟩) ⟨hs, hc⟩
  exact ⟨t, ht, hend, hc'.num⟩

/-- Every run is short, and one of the two can go on until both have returned. Then the child
has printed the count of the parent, and the parent one line for each of its reads. The counts
that are possible are those from one to `n`, and zero if there is no message. -/
theorem responses (hn : 14 * n ≤ 1024) (childBuf buf : List Byte) :
    (∀ as s, (pipes n childBuf buf).run (start childBuf buf) as = some s →
      as.length ≤ 15 * n + 13 ∧
      ((∃ a t, (pipes n childBuf buf).step s a = some t) ∨ Ended s) ∧
      (Ended s → s.childOut = report s.num ∧
        s.parentOut = List.replicate s.num (bytes "from child: Hello, World!\n") ∧
        s.num ≤ n ∧ (0 < n → 0 < s.num))) ∧
    ∀ num ≤ n, (0 < n → 0 < num) →
      ∃ s, (pipes n childBuf buf).Reachable s ∧ Ended s ∧ s.num = num := by
  refine ⟨fun as s hrun => ?_, fun num hle hpos => ?_⟩
  · obtain ⟨j, m, hI⟩ := inv_of_reachable hn ⟨_, as, rfl, hrun⟩
    refine ⟨?_, ?_, fun hend => ?_⟩
    · have hlength := System.run_length_le (I := fun s => (pipes n childBuf buf).Reachable s)
        (μ := State.left n) (fun s a t hs hstep => by
          obtain ⟨j, m, hI⟩ := inv_of_reachable hn hs
          exact ⟨hs.step hstep, left_lt hI hstep⟩) ⟨_, [], rfl, rfl⟩ hrun
      have hstart : (start childBuf buf).left n = 15 * n + 6 + 7 + 0 := rfl
      omega
    · by_cases hend : Ended s
      · exact .inr hend
      · exact .inl (hI.exists_step hn hend)
    · have hparent := hI.parent
      have hchildOut := hI.reply.childOut
      rw [hend.2] at hparent
      rw [hend.1, if_pos (by decide)] at hchildOut
      obtain ⟨hm, -⟩ := hparent.of_not_reads rfl
      have hnum := hI.num_le
      exact ⟨hchildOut, hI.parentOut, by omega, fun h => hI.num_pos (by omega)⟩
  · rcases Nat.eq_zero_or_pos n with rfl | hn'
    · obtain rfl := Nat.le_zero.1 hle
      obtain ⟨s, hs, hchild, hparent, hfds, hnum⟩ := exists_single hn le_rfl childBuf buf
      exact Counted.exists_ended hn hs ⟨by rw [hchild]; exact ⟨nofun, nofun⟩, hfds, hnum⟩
    · -- all but the last of the reads take one message
      obtain ⟨k, rfl⟩ := Nat.exists_eq_succ_of_ne_zero (hpos hn').ne'
      obtain ⟨s, hs, hchild, hparent, hfds, hnum⟩ :=
        exists_single hn (Nat.le_of_succ_le hle) childBuf buf
      obtain ⟨t, ht, hchild, hparent, hfds, hnum'⟩ :=
        exists_writes hn hs hchild (Nat.add_sub_cancel' (Nat.le_of_succ_le hle)) hparent
      obtain ⟨u, hu, hchild', hparent, hfds, hnum''⟩ :=
        exists_read hn ht hparent (hfds (.inr (Nat.sub_pos_of_lt hle)))
      have hloop : loop n n = .closeWrite := if_neg (Nat.lt_irrefl n)
      rw [hchild, hloop] at hchild'
      exact Counted.exists_ended hn hu
        ⟨by rw [hchild']; exact ⟨nofun, nofun⟩, hfds, by rw [hnum'', hnum', hnum]⟩

/-- With the five messages of the source the parent may read all of them at once, or each on
its own. -/
theorem responses_five :
    (∃ s, (pipes 5 [] []).Reachable s ∧ Ended s ∧ s.num = 1) ∧
      ∃ s, (pipes 5 [] []).Reachable s ∧ Ended s ∧ s.num = 5 :=
  have hall := (responses (n := 5) (by decide) [] []).2
  ⟨hall 1 (by decide) (by decide), hall 5 le_rfl (by decide)⟩

end PipeMessages

end NetCentric
