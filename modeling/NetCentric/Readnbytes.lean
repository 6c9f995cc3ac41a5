import NetCentric.CInt
import NetCentric.CString
import NetCentric.Program
import Mathlib.Data.Set.Finite.Lattice

/-!
# readnbytes

The server of Lecture 6 reads a stream into a file, in blocks of 1024 bytes that
`readnbytes` puts together. A `read` delivers a piece of the stream that is no longer than
asked for, fails with an `errno`, or finds the end of the stream. The peer closes the
connection behind the stream. The pieces and the failures are the `answers` of the socket,
and a `read` for which there is none blocks.

`readLoop_ok` says what one call returns, where it leaves the stream and how many pieces it
takes at most. `receives_stream` : however the stream is cut into pieces, and wherever a
signal interrupts a `read`, the file is the stream.
-/

namespace NetCentric

namespace Readnbytes

/-- `EINTR`. -/
def EINTR : ℕ :=
  4

/-- How a `read` is answered. -/
inductive Answer
  /-- At most `len` bytes have arrived. -/
  | piece (len : ℕ) (pos : 0 < len)
  | failure (errno : ℕ)
  deriving DecidableEq

/-- `new_socket`. -/
structure Socket where
  /-- What the peer sends before it closes, from the first byte that is not read. -/
  stream : List Byte
  /-- The answers to the next reads. -/
  answers : List Answer

/-- What the server does to the outside, other than to read. -/
inductive Output
  | printf (text : List Byte)
  | fwrite (data : List Byte)
  deriving DecidableEq

/-- The run is not at its end : it waits in `read`, or for its next round. -/
inductive Stop
  | blocked
  deriving DecidableEq

/-- A part of the server. -/
abbrev Run := Prog Output Stop

/-- What `readnbytes` returns, and what it leaves. -/
structure Received where
  result : ℤ
  socket : Socket
  /-- The memory at `vptr`. -/
  buffer : List Byte

/-- `printf("The %dth read acutally reads %d bytes.\n", i, nread)`. -/
def printRead (i nread : ℤ) : Run Unit :=
  Prog.call (.printf (bytes "The " ++ bytes (toString i) ++ bytes "th read acutally reads " ++
    bytes (toString nread) ++ bytes " bytes.\n"))

/-- The loop of `readnbytes`, for `ptr` as an offset. The counter `i` wraps around. -/
def readLoop (n : ℤ) (stream : List Byte) (answers : List Answer) (buffer : List Byte) (ptr : ℕ)
    (nleft i : ℤ) : Run Received :=
  if 0 < nleft then
    match answers with
    | [] => Prog.stop .blocked
    | .failure errno :: answers =>
      if errno = EINTR then do
        Prog.call (.printf (bytes "Read Failure\n"))
        printRead i 0
        readLoop n stream answers buffer ptr nleft (toInt (i + 1))
      else
        return { result := -1, socket := ⟨stream, answers⟩, buffer := buffer }
    | .piece len _ :: answers =>
      let data := stream.take (min len nleft.toNat)
      if data = [] then
        return { result := n - nleft, socket := ⟨stream, answers⟩, buffer := buffer }
      else do
        printRead i data.length
        readLoop n (stream.drop data.length) answers
          (buffer.take ptr ++ overwrite (buffer.drop ptr) data) (ptr + data.length)
          (nleft - data.length) (toInt (i + 1))
  else
    return { result := n - nleft, socket := ⟨stream, answers⟩, buffer := buffer }

/-- `readnbytes`. -/
def readnbytes (socket : Socket) (buffer : List Byte) (n : ℤ) : Run Received :=
  readLoop n socket.stream socket.answers buffer 0 n 0

/-- The loop of `main`, for at most so many rounds. The counter `count` wraps around. -/
def receiveLoop : ℕ → Socket → List Byte → ℤ → Run ℤ
  | 0, _, _, _ => Prog.stop .blocked
  | rounds + 1, socket, buffer, count => do
    let r ← readnbytes socket buffer 1024
    if 0 < r.result then
      Prog.call (.fwrite (r.buffer.take r.result.toNat))
      receiveLoop rounds r.socket r.buffer (toInt (count + r.result))
    else
      return count

/-- `main`, from the `fopen` on. Every round takes an answer. -/
def main (socket : Socket) : Run Unit := do
  let count ← receiveLoop (socket.answers.length + 1) socket (List.replicate 1024 0) 0
  Prog.call (.printf (bytes "readnbytes function is called\n"))
  Prog.call (.printf (bytes (toString count) ++ bytes " bytes of data received\n"))

/-- The contents of `receive.txt`. -/
def file (outputs : List Output) : List Byte :=
  outputs.flatMap fun
    | .fwrite data => data
    | .printf _ => []

/-- The number of pieces among the answers. -/
def pieces (answers : List Answer) : ℕ :=
  answers.countP fun
    | .piece _ _ => true
    | .failure _ => false

/-! ## One call -/

section Call

variable {n nleft i : ℤ} {stream buffer : List Byte} {answers : List Answer} {ptr k : ℕ}
  {r : Received}

theorem take_piece_eq_nil {len : ℕ} (pos : 0 < len) (h : 0 < nleft) :
    stream.take (min len nleft.toNat) = [] ↔ stream = [] := by
  have hmin : min len nleft.toNat ≠ 0 := by omega
  rw [List.take_eq_nil_iff, or_iff_right hmin]

/-- The loop has taken the next `k` bytes off the stream : all it was to read, or all there
were. They stand in the buffer behind `kept`. -/
structure Takes (n nleft : ℤ) (stream kept : List Byte) (answers : List Answer) (r : Received)
    (k : ℕ) : Prop where
  le : (k : ℤ) ≤ nleft
  length : k ≤ stream.length
  result : r.result = n - nleft + k
  remaining : r.socket.stream = stream.drop k
  stored : ∃ rest, r.buffer = kept ++ stream.take k ++ rest
  whole : (k : ℤ) = nleft ∨ r.socket.stream = []
  unused : r.socket.answers <:+ answers
  fewer : 0 < nleft → r.socket.answers.length < answers.length
  /-- Every piece has a byte, but for the one that finds the end of the stream. -/
  pieces_le : pieces answers ≤ pieces r.socket.answers + k + 1
  pieces_whole : (k : ℤ) = nleft → pieces answers ≤ pieces r.socket.answers + k

/-- The loop has returned at a failure that is no interrupt. -/
structure Fails (answers : List Answer) (r : Received) : Prop where
  result : r.result = -1
  failure : ∃ used errno, errno ≠ EINTR ∧ answers = used ++ .failure errno :: r.socket.answers

theorem Fails.cons (h : Fails answers r) (a : Answer) : Fails (a :: answers) r := by
  obtain ⟨hresult, used, errno, herrno, hanswers⟩ := h
  exact ⟨hresult, a :: used, errno, herrno, by rw [hanswers]; rfl⟩

theorem pieces_cons_le (a : Answer) (answers : List Answer) :
    pieces (a :: answers) ≤ pieces answers + 1 := by
  cases a <;> simp [pieces]

@[simp] theorem pieces_failure (errno : ℕ) (answers : List Answer) :
    pieces (.failure errno :: answers) = pieces answers :=
  List.countP_cons_of_neg (by simp)

/-- A piece that is read before. -/
theorem Takes.cons {data kept : List Byte} (hdata : data = stream.take data.length)
    (hlength : data.length ≤ stream.length) (hpos : 0 < data.length)
    (h : Takes n (nleft - data.length) (stream.drop data.length) (kept ++ data) answers r k)
    (a : Answer) : Takes n nleft stream kept (a :: answers) r (data.length + k) where
  le := by
    have := h.le
    push_cast
    omega
  length := by
    have := h.length
    rw [List.length_drop] at this
    omega
  result := by
    rw [h.result]
    push_cast
    omega
  remaining := by rw [h.remaining, List.drop_drop]
  stored := by
    obtain ⟨rest, hrest⟩ := h.stored
    refine ⟨rest, ?_⟩
    rw [hrest, List.take_add, ← hdata, List.append_assoc kept]
  whole := by
    refine h.whole.imp_left fun hk => ?_
    push_cast
    omega
  unused := h.unused.trans (List.suffix_cons a answers)
  fewer _ := Nat.lt_succ_of_le h.unused.length_le
  pieces_le := by
    have := h.pieces_le
    have := pieces_cons_le a answers
    omega
  pieces_whole hk := by
    have := h.pieces_whole (by push_cast at hk; omega)
    have := pieces_cons_le a answers
    omega

/-- What is read is put behind what was read before. -/
theorem take_overwrite_drop {data : List Byte} (hptr : ptr ≤ buffer.length) :
    (buffer.take ptr ++ overwrite (buffer.drop ptr) data).take (ptr + data.length) =
      buffer.take ptr ++ data := by
  have hlength : (buffer.take ptr ++ data).length = ptr + data.length := by
    rw [List.length_append, List.length_take_of_le hptr]
  rw [overwrite, ← List.append_assoc, ← hlength, List.take_left]

/-- The `read` was interrupted before. -/
theorem Takes.interrupted {kept : List Byte} {errno : ℕ}
    (h : Takes n nleft stream kept answers r k) :
    Takes n nleft stream kept (.failure errno :: answers) r k where
  __ := h
  unused := h.unused.trans (List.suffix_cons _ _)
  fewer _ := Nat.lt_succ_of_le h.unused.length_le
  pieces_le := by rw [pieces_failure]; exact h.pieces_le
  pieces_whole := by rw [pieces_failure]; exact h.pieces_whole

/-- There is nothing to read. -/
theorem takes_done (answers : List Answer) : Takes n 0 stream (buffer.take ptr) answers
    ⟨n - 0, ⟨stream, answers⟩, buffer⟩ 0 where
  le := le_rfl
  length := Nat.zero_le _
  result := by simp
  remaining := rfl
  stored := ⟨buffer.drop ptr, by simp⟩
  whole := .inl rfl
  unused := List.suffix_rfl
  fewer h := absurd h (lt_irrefl 0)
  pieces_le := Nat.le_succ _
  pieces_whole _ := le_rfl

/-- The end of the stream is found. -/
theorem takes_end (a : Answer) (hpos : 0 < nleft) :
    Takes n nleft [] (buffer.take ptr) (a :: answers) ⟨n - nleft, ⟨[], answers⟩, buffer⟩ 0 where
  le := hpos.le
  length := le_rfl
  result := by simp
  remaining := rfl
  stored := ⟨buffer.drop ptr, by simp⟩
  whole := .inr rfl
  unused := List.suffix_cons a answers
  fewer _ := Nat.lt_succ_self _
  pieces_le := pieces_cons_le a answers
  pieces_whole h := absurd h hpos.ne

/-- What the loop returns. -/
theorem readLoop_ok (hptr : ptr ≤ buffer.length) (hnleft : 0 ≤ nleft)
    (h : (readLoop n stream answers buffer ptr nleft i).result = .ok r) :
    (∃ k, Takes n nleft stream (buffer.take ptr) answers r k) ∨ Fails answers r := by
  fun_induction readLoop n stream answers buffer ptr nleft i with
  | case1 => cases h
  | case2 stream buffer ptr nleft i hpos answers ih =>
    rcases ih hptr hnleft h with ⟨k, hk⟩ | hfails
    · exact .inl ⟨k, hk.interrupted⟩
    · exact .inr (hfails.cons _)
  | case3 stream buffer ptr nleft i hpos errno answers herrno =>
    obtain rfl := Except.ok.inj h
    exact .inr ⟨rfl, [], errno, herrno, rfl⟩
  | case4 stream buffer ptr nleft i hpos len pos answers data hdata =>
    obtain rfl := (take_piece_eq_nil pos hpos).1 hdata
    obtain rfl := Except.ok.inj h
    exact .inl ⟨0, takes_end _ hpos⟩
  | case5 stream buffer ptr nleft i hpos len pos answers data hdata ih =>
    have hlength : data.length = min (min len nleft.toNat) stream.length := List.length_take
    have hsome : 0 < data.length := List.length_pos_iff.2 hdata
    have htake : data = stream.take data.length := by
      rw [hlength, List.take_eq_take_iff]
      omega
    have hroom : ptr + data.length ≤
        (buffer.take ptr ++ overwrite (buffer.drop ptr) data).length := by
      rw [overwrite, List.length_append, List.length_append, List.length_take_of_le hptr]
      omega
    rcases ih hroom (by omega) h with ⟨k, hk⟩ | hfails
    · rw [take_overwrite_drop hptr] at hk
      exact .inl ⟨data.length + k, hk.cons htake (by omega) hsome _⟩
    · exact .inr (hfails.cons _)
  | case6 answers stream buffer ptr nleft i hle =>
    obtain rfl : nleft = 0 := le_antisymm (not_lt.1 hle) hnleft
    obtain rfl := Except.ok.inj h
    exact .inl ⟨0, takes_done _⟩

/-- A call that blocks has used up the pieces, each with a byte of the stream. -/
theorem readLoop_blocked {e : Stop} (hnleft : 0 ≤ nleft)
    (h : (readLoop n stream answers buffer ptr nleft i).result = .error e) :
    pieces answers ≤ stream.length := by
  fun_induction readLoop n stream answers buffer ptr nleft i with
  | case1 => exact Nat.zero_le _
  | case2 stream buffer ptr nleft i hpos answers ih =>
    rw [pieces_failure]
    exact ih hnleft h
  | case3 => cases h
  | case4 => cases h
  | case5 stream buffer ptr nleft i hpos len pos answers data hdata ih =>
    have hlength : data.length = min (min len nleft.toNat) stream.length := List.length_take
    have hsome : 0 < data.length := List.length_pos_iff.2 hdata
    have hrest := ih (by omega) h
    have hcons := pieces_cons_le (.piece len pos) answers
    rw [List.length_drop] at hrest
    omega
  | case6 => cases h

/-! ## The file -/

@[simp] theorem file_append (xs ys : List Output) : file (xs ++ ys) = file xs ++ file ys :=
  List.flatMap_append

/-- `readnbytes` writes nothing. -/
theorem file_readLoop (n nleft i : ℤ) (stream : List Byte) (answers : List Answer)
    (buffer : List Byte) (ptr : ℕ) :
    file (readLoop n stream answers buffer ptr nleft i).calls = [] := by
  fun_induction readLoop n stream answers buffer ptr nleft i with
  | case2 _ _ _ _ _ _ _ ih => exact ih
  | case5 _ _ _ _ _ _ _ _ _ _ _ ih => exact ih
  | _ => rfl

/-- No `read` fails but for an interrupt. -/
def Undisturbed (answers : List Answer) : Prop :=
  ∀ errno, .failure errno ∈ answers → errno = EINTR

/-- Without a failure, a call takes bytes off the stream. -/
theorem readnbytes_ok {socket : Socket} (h : Undisturbed socket.answers)
    (hr : (readnbytes socket buffer 1024).result = .ok r) :
    ∃ k, r.result = (k : ℕ) ∧ Takes 1024 1024 socket.stream [] socket.answers r k := by
  rcases readLoop_ok (Nat.zero_le _) (by decide) hr with ⟨k, hk⟩ | ⟨-, used, errno, herrno, heq⟩
  · exact ⟨k, by rw [hk.result]; omega, hk⟩
  · exact absurd (h errno (by rw [heq]; simp)) herrno

theorem Takes.take_buffer (h : Takes n nleft stream [] answers r k) :
    r.buffer.take k = stream.take k := by
  obtain ⟨rest, hrest⟩ := h.stored
  rw [hrest, List.nil_append]
  exact List.take_left' (List.length_take_of_le h.length)

/-- What one round writes and where it leads. -/
theorem receiveLoop_succ {rounds : ℕ} {socket : Socket} {count : ℤ}
    (hr : (readnbytes socket buffer 1024).result = .ok r) :
    file (receiveLoop (rounds + 1) socket buffer count).calls =
        (if 0 < r.result then r.buffer.take r.result.toNat ++
          file (receiveLoop rounds r.socket r.buffer (toInt (count + r.result))).calls
        else []) ∧
      (receiveLoop (rounds + 1) socket buffer count).result =
        if 0 < r.result then
          (receiveLoop rounds r.socket r.buffer (toInt (count + r.result))).result
        else .ok count := by
  rw [receiveLoop, Prog.calls_bind_ok hr, Prog.result_bind_of_ok hr, file_append, readnbytes,
    file_readLoop, List.nil_append]
  split
  case isTrue => exact ⟨rfl, rfl⟩
  case isFalse => exact ⟨rfl, rfl⟩

/-- A server that comes to the end of its loop has written the stream, and counted it. -/
theorem receiveLoop_ok {rounds : ℕ} {socket : Socket} {count total : ℤ}
    (h : Undisturbed socket.answers) (hcount : toInt count = count)
    (hend : (receiveLoop rounds socket buffer count).result = .ok total) :
    file (receiveLoop rounds socket buffer count).calls = socket.stream ∧
      total = toInt (count + socket.stream.length) := by
  induction rounds generalizing socket buffer count with
  | zero => cases hend
  | succ rounds ih =>
    obtain ⟨r, hr, -⟩ := Prog.result_bind_ok.1 hend
    obtain ⟨hfile, hresult⟩ := @receiveLoop_succ buffer r rounds socket count hr
    obtain ⟨k, hk, htakes⟩ := readnbytes_ok h hr
    rw [hresult] at hend
    rw [hfile]
    split at hend
    case isTrue hpos =>
      have hrest : Undisturbed r.socket.answers := fun errno herrno =>
        h errno (htakes.unused.subset herrno)
      obtain ⟨hfile', htotal⟩ := ih hrest (by simp [toInt]) hend
      rw [if_pos hpos, hfile', htotal, htakes.remaining, toInt_toInt_add, hk, Int.toNat_natCast,
        htakes.take_buffer, List.take_append_drop, List.length_drop]
      refine ⟨rfl, congrArg toInt ?_⟩
      have := htakes.length
      omega
    case isFalse hpos =>
      have hzero : k = 0 := by omega
      have hempty := htakes.whole.resolve_left (by omega)
      rw [htakes.remaining, hzero, List.drop_zero] at hempty
      obtain rfl := Except.ok.inj hend
      rw [if_neg hpos, hempty, List.length_nil, Int.natCast_zero, Int.add_zero, hcount]
      exact ⟨rfl, rfl⟩

/-- There are pieces for the stream, for its end, and for a last call that finds nothing. -/
def Enough (socket : Socket) : Prop :=
  socket.stream.length + 2 ≤ pieces socket.answers ∨
    socket.stream = [] ∧ 1 ≤ pieces socket.answers

/-- With enough pieces the server comes to the end of its loop. -/
theorem receiveLoop_returns {rounds : ℕ} {socket : Socket} {count : ℤ}
    (h : Undisturbed socket.answers) (henough : Enough socket)
    (hrounds : socket.answers.length < rounds) :
    ∃ total, (receiveLoop rounds socket buffer count).result = .ok total := by
  induction rounds generalizing socket buffer count with
  | zero => omega
  | succ rounds ih =>
    cases hr : (readnbytes socket buffer 1024).result with
    | error e =>
      have hle := readLoop_blocked (by decide) hr
      rcases henough with hlong | ⟨hnil, hone⟩
      · omega
      · rw [hnil, List.length_nil] at hle
        omega
    | ok r =>
      obtain ⟨k, hk, htakes⟩ := readnbytes_ok h hr
      rw [(receiveLoop_succ hr).2]
      split
      case isTrue hpos =>
        have hfewer := htakes.fewer (by decide)
        refine ih (fun errno herrno => h errno (htakes.unused.subset herrno)) ?_ (by omega)
        have hlength := htakes.length
        rcases henough with hlong | ⟨hnil, -⟩
        · rcases htakes.whole with hwhole | hempty
          · have := htakes.pieces_whole hwhole
            refine .inl ?_
            rw [htakes.remaining, List.length_drop]
            omega
          · have := htakes.pieces_le
            exact .inr ⟨hempty, by omega⟩
        · rw [hnil, List.length_nil] at hlength
          omega
      case isFalse => exact ⟨count, rfl⟩

/-- The program returns as its loop does, and writes nothing more. -/
theorem main_eq (socket : Socket) :
    ((main socket).result = .ok () ↔ ∃ total, (receiveLoop (socket.answers.length + 1) socket
      (List.replicate 1024 0) 0).result = .ok total) ∧
    file (main socket).calls = file (receiveLoop (socket.answers.length + 1) socket
      (List.replicate 1024 0) 0).calls := by
  cases h : (receiveLoop (socket.answers.length + 1) socket (List.replicate 1024 0) 0).result with
  | error e =>
    rw [main, Prog.result_bind_error h, Prog.calls_bind_error h]
    exact ⟨by simp, rfl⟩
  | ok total =>
    rw [main, Prog.result_bind_of_ok h, Prog.calls_bind_ok h, file_append]
    exact ⟨⟨fun _ => ⟨total, rfl⟩, fun _ => rfl⟩, List.append_nil _⟩

/-- With finitely many failures there are any number of pieces. -/
theorem exists_pieces {answers : ℕ → Answer}
    (h : {i | ∃ errno, answers i = .failure errno}.Finite) (d : ℕ) :
    ∃ N, ∀ M, N ≤ M → d ≤ pieces ((List.range M).map answers) := by
  obtain ⟨B, hB⟩ := h.bddAbove
  refine ⟨B + 1 + d, fun M hM => ?_⟩
  obtain ⟨rest, rfl⟩ := Nat.exists_eq_add_of_le (Nat.le_of_add_right_le hM)
  have hrest : ∀ rest, rest ≤ pieces ((List.range (B + 1 + rest)).map answers) := by
    intro rest
    induction rest with
    | zero => exact Nat.zero_le _
    | succ rest ih =>
      -- behind the last failure there are only pieces
      obtain ⟨len, pos, hpiece⟩ : ∃ len pos, answers (B + 1 + rest) = .piece len pos := by
        cases hanswer : answers (B + 1 + rest) with
        | piece len pos => exact ⟨len, pos, rfl⟩
        | failure errno =>
          have hle : B + 1 + rest ≤ B := hB ⟨errno, hanswer⟩
          omega
      rw [← Nat.add_assoc, List.range_succ, List.map_append, pieces, List.countP_append]
      have hone : List.countP (fun | .piece _ _ => true | .failure _ => false)
          ([B + 1 + rest].map answers) = 1 := by
        simp [hpiece]
      rw [pieces] at ih
      omega
  have := hrest rest
  omega

end Call

/-- A call that returns a length has read the next bytes of the stream into its buffer, as
many as asked for if the stream does not end, and one that returns `-1` has met an error
that is no interrupt. Without such an error the file is the stream, for all pieces it is
cut into and any finite number of interrupts. -/
theorem receives_stream :
    (∀ (n : ℤ) (socket : Socket) (buffer : List Byte) (r : Received), 0 ≤ n →
      (readnbytes socket buffer n).result = .ok r →
      (0 ≤ r.result → ∃ k : ℕ, r.result = k ∧ k ≤ socket.stream.length ∧
        r.buffer.take k = socket.stream.take k ∧ r.socket.stream = socket.stream.drop k ∧
          ((k : ℤ) = n ∨ r.socket.stream = [])) ∧
      (r.result < 0 → r.result = -1 ∧ ∃ used errno, errno ≠ EINTR ∧
        socket.answers = used ++ .failure errno :: r.socket.answers)) ∧
    ∀ (stream : List Byte) (answers : ℕ → Answer),
      (∀ i errno, answers i = .failure errno → errno = EINTR) →
      {i | ∃ errno, answers i = .failure errno}.Finite →
      ∃ N, ∀ M, ((main ⟨stream, (List.range M).map answers⟩).result = .ok () →
          file (main ⟨stream, (List.range M).map answers⟩).calls = stream) ∧
        (N ≤ M → (main ⟨stream, (List.range M).map answers⟩).result = .ok ()) := by
  constructor
  · intro n socket buffer r hn hr
    rcases readLoop_ok (Nat.zero_le _) hn hr with ⟨k, hk⟩ | ⟨hresult, hfailure⟩
    · have hlength : r.result = k := by
        rw [hk.result]
        omega
      exact ⟨fun _ => ⟨k, hlength, hk.length, hk.take_buffer, hk.remaining, hk.whole⟩,
        fun hneg => by omega⟩
    · exact ⟨fun hpos => by omega, fun _ => ⟨hresult, hfailure⟩⟩
  · intro stream answers hinterrupts hfinite
    obtain ⟨N, hN⟩ := exists_pieces hfinite (stream.length + 2)
    refine ⟨N, fun M => ?_⟩
    have hundisturbed : Undisturbed ((List.range M).map answers) := by
      intro errno herrno
      obtain ⟨i, -, hi⟩ := List.mem_map.1 herrno
      exact hinterrupts i errno hi
    obtain ⟨hreturns, hfile⟩ := main_eq ⟨stream, (List.range M).map answers⟩
    rw [hreturns, hfile]
    exact ⟨fun ⟨_, hend⟩ => (receiveLoop_ok hundisturbed (by decide) hend).1,
      fun hM => receiveLoop_returns hundisturbed (.inl (hN M hM)) (Nat.lt_succ_self _)⟩

/-- Two bytes at a time, after an interrupt. -/
def inTwos : ℕ → Answer
  | 0 => .failure EINTR
  | _ + 1 => .piece 2 (by decide)

theorem receives_stream_hello : ∃ N, ∀ M, N ≤ M →
    (main ⟨bytes "hello", (List.range M).map inTwos⟩).result = .ok () ∧
      file (main ⟨bytes "hello", (List.range M).map inTwos⟩).calls = bytes "hello" := by
  have hfailure : ∀ i errno, inTwos i = .failure errno → i = 0 ∧ errno = EINTR := by
    rintro (_ | i) errno h
    · exact ⟨rfl, (Answer.failure.inj h).symm⟩
    · cases h
  obtain ⟨N, hN⟩ := receives_stream.2 (bytes "hello") inTwos
    (fun i errno h => (hfailure i errno h).2)
    ((Set.finite_singleton 0).subset fun i ⟨errno, h⟩ => (hfailure i errno h).1)
  exact ⟨N, fun M hM => ⟨(hN M).2 hM, (hN M).1 ((hN M).2 hM)⟩⟩

example : file (main ⟨bytes "hello", (List.range 6).map inTwos⟩).calls = bytes "hello" := by
  decide

end Readnbytes

end NetCentric
