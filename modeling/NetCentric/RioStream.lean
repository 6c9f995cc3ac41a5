import NetCentric.Rio

/-!
# Robust I/O over a stream

`serve` says what a call of `rio_readlineb` or `rio_readnb` gives on the text that is yet to be
read. `rio_serves` : whatever the pieces of the stream are, and wherever a signal interrupts a
`read`, any sequence of such calls on one `rio_t` gives what it gives on the text. So a line
can be read after a block and a block after a line, and nothing is lost in the buffer.

`rio_readlineb` counts in an `int`, and the sizes are such that no count leaves its type
(`Request.max`).

`readlineb_counts` : the number that `rio_readlineb` returns is the number of bytes it has read
if and only if the line has its newline, or nothing is left. Otherwise it is one more.
`readn_agrees` : `rio_readn`, `rio_readnb` and `readnbytes` read the same. `lines_round_trip` :
lines that are sent with `rio_writen` are read as they are with `rio_readlineb`.
-/

namespace NetCentric

namespace Rio

open Readnbytes (Answer Socket EINTR pieces Undisturbed)

variable {r r' : RioT} {s : List Byte} {n maxlen : ℕ} {q : Returned}

/-! ## Any calls on one rio_t -/

inductive Request
  /-- `rio_readlineb`. -/
  | line (maxlen : ℕ)
  /-- `rio_readnb`. -/
  | bytes (n : ℕ)

/-- `maxlen` or `n`. -/
def Request.size : Request → ℕ
  | line maxlen => maxlen
  | bytes n => n

/-- `SSIZE_MAX`. -/
def SSIZE_MAX : ℤ :=
  9223372036854775807

/-- The largest number that the call can return : `rio_readlineb` counts in an `int`, and
`rio_readnb` returns a `ssize_t`. -/
def Request.max : Request → ℤ
  | line _ => INT_MAX
  | bytes _ => SSIZE_MAX

def request (r : RioT) : Request → Option Returned
  | .line maxlen => rioReadlineb r maxlen
  | .bytes n => rioReadnb r n

/-- Calls one after the other : what each returns and stores, and the `rio_t` behind them. -/
def requests (r : RioT) : List Request → Option (List (ℤ × List Byte) × RioT)
  | [] => some ([], r)
  | x :: xs => do
    let q ← request r x
    let (results, r) ← requests q.rio xs
    return ((q.result, q.usrbuf) :: results, r)

/-- What a call gives on a text, and the text behind it. -/
def serve (s : List Byte) : Request → (ℤ × List Byte) × List Byte
  | .line maxlen =>
    let line := lineOf (maxlen - 1) s
    (if line = [] ∧ 1 < maxlen then (0, []) else (lineResult 1 line, line ++ [0]),
      s.drop line.length)
  | .bytes n => (((s.take n).length, s.take n), s.drop n)

def serveAll (s : List Byte) : List Request → List (ℤ × List Byte) × List Byte
  | [] => ([], s)
  | x :: xs =>
    let (result, s) := serve s x
    let (results, s) := serveAll s xs
    (result :: results, s)

theorem lineOf_length_le (k : ℕ) (s : List Byte) : (lineOf k s).length ≤ k := by
  induction k generalizing s with
  | zero => exact le_rfl
  | succ k ih =>
    cases s with
    | nil => exact Nat.zero_le _
    | cons c s =>
      rw [lineOf]
      split
      · exact Nat.succ_le_succ (Nat.zero_le _)
      · exact Nat.succ_le_succ (ih s)

/-- The number that goes with a line is between its length and one more, and it is at least
one. -/
theorem lineResult_bounds (line : List Byte) :
    line.length ≤ lineResult 1 line ∧ lineResult 1 line ≤ line.length + 1 := by
  rw [lineResult]
  push_cast
  split <;> omega

/-- The number that a call returns is in its type. -/
theorem serve_counts {x : Request} (h : (x.size : ℤ) ≤ x.max) (s : List Byte) :
    0 ≤ (serve s x).1.1 ∧ (serve s x).1.1 ≤ x.max := by
  cases x with
  | line maxlen =>
    have hmax : (maxlen : ℤ) ≤ INT_MAX := h
    have hone : (1 : ℤ) ≤ INT_MAX := by decide
    have hle := lineOf_length_le (maxlen - 1) s
    obtain ⟨hlow, hhigh⟩ := lineResult_bounds (lineOf (maxlen - 1) s)
    simp only [serve, Request.max]
    split <;> dsimp only <;> omega
  | bytes n =>
    have hmax : (n : ℤ) ≤ SSIZE_MAX := h
    have hle : (s.take n).length ≤ n := List.length_take_le n s
    simp only [serve, Request.max]
    omega

theorem serveAll_counts {xs : List Request} (h : ∀ x ∈ xs, (x.size : ℤ) ≤ x.max) (s : List Byte) :
    List.Forall₂ (fun (x : Request) result => 0 ≤ result.1 ∧ result.1 ≤ x.max) xs
      (serveAll s xs).1 := by
  induction xs generalizing s with
  | nil => exact .nil
  | cons x xs ih =>
    exact .cons (serve_counts (h x List.mem_cons_self) s)
      (ih (fun y hy => h y (List.mem_cons_of_mem x hy)) _)

/-- A call has taken what the text gives. -/
theorem Took.drop {taken : List Byte} (h : Took r taken r') :
    r'.pending = r.pending.drop taken.length := by
  rw [← h.front, List.drop_left]

/-- One call. -/
theorem request_serves (hr : Undisturbed r.fd.answers)
    (h : r.fd.stream.length + 1 ≤ pieces r.fd.answers) (x : Request) :
    ∃ q taken, request r x = some q ∧ Took r taken q.rio ∧
      serve r.pending x = ((q.result, q.usrbuf), q.rio.pending) := by
  cases x with
  | line maxlen =>
    obtain ⟨q, hq⟩ : ∃ q, rioReadlineb r maxlen = some q := readlinebLoop_returns hr h
    obtain ⟨htook, hres⟩ := readlinebLoop_ok hr le_rfl hq
    refine ⟨q, _, hq, htook, ?_⟩
    rw [serve, htook.drop]
    simp only [true_and] at hres
    split at hres
    case isTrue hend => rw [if_pos hend, hres.1, hres.2]
    case isFalse hend => rw [if_neg hend, hres.1, hres.2, List.nil_append]
  | bytes n =>
    obtain ⟨q, hq⟩ : ∃ q, rioReadnb r n = some q := readnbLoop_returns hr h
    obtain ⟨taken, htook, husrbuf, hresult, htake⟩ := readnbLoop_ok hr le_rfl hq
    refine ⟨q, taken, hq, htook, ?_⟩
    have hdrop : r.pending.drop n = r.pending.drop taken.length := by
      rw [htake, List.length_take]
      rcases Nat.le_total n r.pending.length with hle | hle
      · rw [Nat.min_eq_left hle]
      · rw [Nat.min_eq_right hle, List.drop_eq_nil_of_le hle, List.drop_length]
    rw [serve, htook.drop, ← hdrop, ← htake, hresult, husrbuf]
    simp

/-- Any sequence of calls, with a piece for each byte of the stream and each call. -/
theorem requests_serve (hr : Undisturbed r.fd.answers) (xs : List Request)
    (h : r.fd.stream.length + xs.length ≤ pieces r.fd.answers) :
    ∃ r', requests r xs = some ((serveAll r.pending xs).1, r') ∧
      r'.pending = (serveAll r.pending xs).2 := by
  induction xs generalizing r with
  | nil => exact ⟨r, rfl, rfl⟩
  | cons x xs ih =>
    rw [List.length_cons] at h
    obtain ⟨q, taken, hq, htook, hserve⟩ := request_serves hr (by omega) x
    have hused := htook.used
    obtain ⟨r', hrest, hpending⟩ :=
      ih (r := q.rio) (fun e he => hr e (htook.answers.subset he)) (by omega)
    refine ⟨r', ?_, ?_⟩
    · simp [requests, hq, hrest, serveAll, hserve]
    · simp [serveAll, hserve, hpending]

/-- Any calls on a `rio_t` that is fresh from `rio_readinitb` give what they give on the
stream, and what is left of the stream is pending : no matter how the stream is cut into
pieces, and where a `read` is interrupted. No number that is returned leaves its type. -/
theorem rio_serves {buf : List Byte} (size : buf.length = RIO_BUFSIZE) {stream : List Byte}
    {answers : List Answer} (hr : Undisturbed answers) {xs : List Request}
    (hmax : ∀ x ∈ xs, (x.size : ℤ) ≤ x.max) (h : stream.length + xs.length ≤ pieces answers) :
    List.Forall₂ (fun (x : Request) result => 0 ≤ result.1 ∧ result.1 ≤ x.max) xs
        (serveAll stream xs).1 ∧
      ∃ r, requests (rioReadinitb buf size ⟨stream, answers⟩) xs =
        some ((serveAll stream xs).1, r) ∧ r.pending = (serveAll stream xs).2 := by
  have hpending : (rioReadinitb buf size ⟨stream, answers⟩).pending = stream := rfl
  have hserves := requests_serve (r := rioReadinitb buf size ⟨stream, answers⟩) hr xs h
  rw [hpending] at hserves
  exact ⟨serveAll_counts hmax stream, hserves⟩

/-- A line, two bytes and a line, where the stream comes in pieces of two bytes. -/
theorem rio_serves_lines : ∃ r, requests (rioReadinitb (List.replicate RIO_BUFSIZE 0)
      List.length_replicate ⟨bytes "GET\nabHost",
        .failure EINTR :: List.replicate 13 (.piece 2 (by decide))⟩)
      [.line 80, .bytes 2, .line 80] =
    some ([(4, bytes "GET\n" ++ [0]), (2, bytes "ab"), (5, bytes "Host" ++ [0])], r) ∧
    r.pending = [] := by
  have hserve : serveAll (bytes "GET\nabHost") [.line 80, .bytes 2, .line 80] =
      ([(4, bytes "GET\n" ++ [0]), (2, bytes "ab"), (5, bytes "Host" ++ [0])], []) := by decide
  have hr : Undisturbed (.failure EINTR :: List.replicate 13 (.piece 2 (by decide))) := by
    intro errno herrno
    rcases List.mem_cons.1 herrno with h | h
    · exact Answer.failure.inj h
    · cases List.eq_of_mem_replicate h
  have hbuf : (List.replicate RIO_BUFSIZE (0 : Byte)).length = RIO_BUFSIZE :=
    List.length_replicate
  have hmax : ∀ x ∈ [Request.line 80, .bytes 2, .line 80], (x.size : ℤ) ≤ x.max := by decide
  have h := (@rio_serves _ hbuf (bytes "GET\nabHost") _ hr _ hmax (by decide)).2
  rwa [hserve] at h

/-! ## What rio_readlineb returns -/

theorem lineOf_eq_nil_iff {k : ℕ} (hk : 0 < k) : lineOf k s = [] ↔ s = [] := by
  obtain ⟨k, rfl⟩ := Nat.exists_eq_succ_of_ne_zero hk.ne'
  cases s with
  | nil => simp
  | cons c s =>
    rw [lineOf]
    split <;> simp

/-- What `rio_readlineb` returns fits the `int` that it counts in, if `maxlen` does. -/
theorem readlineb_fits (hr : Undisturbed r.fd.answers) (hmax : (maxlen : ℤ) ≤ INT_MAX)
    (h : rioReadlineb r maxlen = some q) : FitsInt q.result := by
  obtain ⟨-, hres⟩ := readlinebLoop_ok hr le_rfl h
  have hserve := serve_counts (x := .line maxlen) hmax r.pending
  simp only [serve, true_and] at hres hserve
  split at hres
  case isTrue hend =>
    rw [hres.1]
    decide
  case isFalse hend =>
    rw [if_neg hend] at hserve
    rw [hres.1]
    exact fitsInt_of_nonneg hserve.1 hserve.2

/-- `rio_readlineb` reads the next line, or the part of it that has room. The number it returns
is the number of bytes of that if the line has its newline, or if nothing is left of the
stream. In all other cases it is one more. With the NUL the line has room in `maxlen` bytes,
unless `maxlen` is zero. The number is an `int`, which `maxlen` fits. -/
theorem readlineb_counts (hr : Undisturbed r.fd.answers) (hmax : (maxlen : ℤ) ≤ INT_MAX)
    (h : rioReadlineb r maxlen = some q) :
    FitsInt q.result ∧
      ∃ line, line = lineOf (maxlen - 1) r.pending ∧ line ++ q.rio.pending = r.pending ∧
        (q.result = line.length ↔
          line.getLast? = some 10 ∨ r.pending = [] ∧ 1 < maxlen) ∧
        (q.result ≠ line.length → q.result = line.length + 1) ∧
        (q.usrbuf.length ≤ maxlen ↔ 0 < maxlen) := by
  refine ⟨readlineb_fits hr hmax h, ?_⟩
  obtain ⟨htook, hres⟩ := readlinebLoop_ok hr le_rfl h
  refine ⟨_, rfl, htook.front, ?_⟩
  have hle := lineOf_length_le (maxlen - 1) r.pending
  have hnil : 1 < maxlen → (lineOf (maxlen - 1) r.pending = [] ↔ r.pending = []) := fun hlt =>
    lineOf_eq_nil_iff (by omega)
  simp only [true_and] at hres
  split at hres
  case isTrue hend =>
    obtain ⟨hline, hlt⟩ := hend
    rw [hres.1, hres.2, hline]
    exact ⟨by simp [(hnil hlt).1 hline, hlt], by simp, by simp; omega⟩
  case isFalse hend =>
    obtain ⟨hresult, husrbuf⟩ := hres
    rw [lineResult] at hresult
    have hempty : ¬(r.pending = [] ∧ 1 < maxlen) := fun h =>
      hend ⟨(hnil h.2).2 h.1, h.2⟩
    rw [husrbuf, List.nil_append, List.length_append, List.length_singleton, hresult]
    refine ⟨?_, ?_, by omega⟩
    · rw [or_iff_left hempty]
      split
      case isTrue hlast => exact ⟨fun _ => hlast, fun _ => by omega⟩
      case isFalse hlast => exact ⟨fun heq => by omega, fun heq => absurd heq hlast⟩
    · split <;> omega

/-- A line of three bytes at the end of a stream, without a newline : the number is four. -/
theorem readlineb_counts_end : ∃ q, rioReadlineb (rioReadinitb (List.replicate RIO_BUFSIZE 0)
      List.length_replicate ⟨bytes "GET", List.replicate 4 (.piece 2 (by decide))⟩) 80 = some q ∧
    q.result = 4 := by
  have hr : Undisturbed (List.replicate 4 (.piece 2 (by decide))) := fun errno herrno => by
    cases List.eq_of_mem_replicate herrno
  have hbuf : (List.replicate RIO_BUFSIZE (0 : Byte)).length = RIO_BUFSIZE :=
    List.length_replicate
  set r := rioReadinitb (List.replicate RIO_BUFSIZE 0) hbuf
    ⟨bytes "GET", List.replicate 4 (.piece 2 (by decide))⟩
  have hpending : r.pending = bytes "GET" := rfl
  have hpieces : (bytes "GET").length + 1 ≤ pieces (List.replicate 4 (.piece 2 (by decide))) := by
    decide
  obtain ⟨q, hq⟩ : ∃ q, rioReadlineb r 80 = some q := readlinebLoop_returns hr hpieces
  obtain ⟨-, line, hline, -, hcount, hmore, -⟩ := readlineb_counts hr (by decide) hq
  rw [hpending] at hline hcount
  obtain rfl : line = bytes "GET" := hline.trans (by decide)
  have hne : q.result ≠ (bytes "GET").length := fun heq => absurd (hcount.1 heq) (by decide)
  exact ⟨q, hq, hmore hne⟩

/-! ## With and without a buffer -/

/-- `rio_readn` takes as many bytes as are asked for, if there are so many. -/
theorem rioReadn_takes {stream : List Byte} {answers : List Answer} (hr : Undisturbed answers)
    (h : stream.length + 1 ≤ pieces answers) (n : ℕ) :
    ∃ fd, rioReadn ⟨stream, answers⟩ n =
        some (((stream.take n).length : ℤ), stream.take n, fd) ∧ fd.stream = stream.drop n := by
  have htakes : ∃ fd, rioReadn ⟨stream, answers⟩ n =
      some ((n - n : ℤ) + (stream.take n).length, [] ++ stream.take n, fd) ∧
        fd.stream = stream.drop n := readnLoop_ok hr le_rfl h
  rwa [Int.sub_self, Int.zero_add, List.nil_append] at htakes

/-- So does `readnbytes`. -/
theorem readnbytes_takes {stream : List Byte} {answers : List Answer} (hr : Undisturbed answers)
    (h : stream.length + 1 ≤ pieces answers) (buffer : List Byte) (n : ℕ) :
    ∃ q, (Readnbytes.readnbytes ⟨stream, answers⟩ buffer n).result = .ok q ∧
      q.result = (stream.take n).length ∧
      q.buffer.take (stream.take n).length = stream.take n ∧
      q.socket.stream = stream.drop n := by
  cases hq : (Readnbytes.readnbytes ⟨stream, answers⟩ buffer n).result with
  | error e =>
    have hle : pieces answers ≤ stream.length :=
      Readnbytes.readLoop_blocked (Int.natCast_nonneg n) hq
    omega
  | ok q =>
    rcases Readnbytes.readLoop_ok (Nat.zero_le _) (Int.natCast_nonneg n) hq with
      ⟨k, hk⟩ | ⟨-, used, errno, herrno, heq⟩
    · have hbuffer := hk.take_buffer
      have hresult := hk.result
      have hlength := hk.length
      have hle := hk.le
      have hremaining := hk.remaining
      dsimp only at hlength hremaining hbuffer
      have hmin : k = min n stream.length := by
        rcases hk.whole with hwhole | hnil
        · omega
        · rw [hremaining, List.drop_eq_nil_iff] at hnil
          omega
      refine ⟨q, rfl, ?_, ?_, ?_⟩
      · rw [hresult, List.length_take, hmin]
        omega
      · rw [List.length_take, ← hmin, hbuffer, hmin, ← List.take_take, List.take_length]
      · rcases Nat.le_total n stream.length with hn | hn
        · rw [hremaining, hmin, Nat.min_eq_left hn]
        · rw [hremaining, hmin, Nat.min_eq_right hn, List.drop_length, List.drop_eq_nil_of_le hn]
    · obtain rfl : answers = used ++ .failure errno :: q.socket.answers := heq
      exact absurd (hr errno (by simp)) herrno

/-- `rio_readn`, `rio_readnb` on a fresh `rio_t`, and `readnbytes` return the same number, have
read the same bytes, and leave the same bytes to be read, however the stream comes to each of
them. Of the bytes that `rio_readnb` leaves, some may be in its buffer. The number is an
`int` for `readnbytes`, which `n` fits. -/
theorem readn_agrees {buf buffer stream : List Byte} (size : buf.length = RIO_BUFSIZE)
    {as bs cs : List Answer} (has : Undisturbed as) (hbs : Undisturbed bs)
    (hcs : Undisturbed cs) (hna : stream.length + 1 ≤ pieces as)
    (hnb : stream.length + 1 ≤ pieces bs) (hnc : stream.length + 1 ≤ pieces cs) {n : ℕ}
    (hmax : (n : ℤ) ≤ INT_MAX) :
    ∃ usrbuf fd q r, FitsInt usrbuf.length ∧
      rioReadn ⟨stream, as⟩ n = some ((usrbuf.length : ℤ), usrbuf, fd) ∧
      rioReadnb (rioReadinitb buf size ⟨stream, bs⟩) n = some q ∧
      (Readnbytes.readnbytes ⟨stream, cs⟩ buffer n).result = .ok r ∧
      usrbuf = stream.take n ∧ q.usrbuf = usrbuf ∧ r.buffer.take usrbuf.length = usrbuf ∧
      q.result = usrbuf.length ∧ r.result = usrbuf.length ∧
      fd.stream = stream.drop n ∧ q.rio.pending = fd.stream ∧ r.socket.stream = fd.stream := by
  have hpending : (rioReadinitb buf size ⟨stream, bs⟩).pending = stream := rfl
  obtain ⟨fd, hfd, hstream⟩ := rioReadn_takes has hna n
  obtain ⟨q, taken, hq, -, hserve⟩ :=
    request_serves (r := rioReadinitb buf size ⟨stream, bs⟩) hbs hnb (.bytes n)
  obtain ⟨r, hr, hresult, hbuffer, hsocket⟩ := readnbytes_takes hcs hnc buffer n
  rw [hpending, serve] at hserve
  obtain ⟨hvalue, hrest⟩ := Prod.mk.inj hserve
  obtain ⟨hlength, husrbuf⟩ := Prod.mk.inj hvalue
  have hfits : FitsInt (stream.take n).length := by
    have hle : (stream.take n).length ≤ n := List.length_take_le n stream
    exact fitsInt_natCast (by omega)
  exact ⟨stream.take n, fd, q, r, hfits, hfd, hq, hr, rfl, husrbuf.symm, hbuffer, hlength.symm,
    hresult, hstream, hrest.symm.trans hstream.symm, hsocket.trans hstream.symm⟩

/-- Four bytes of a stream of six. -/
theorem readn_agrees_four : ∃ usrbuf fd, rioReadn ⟨bytes "abcdef",
      .failure EINTR :: List.replicate 7 (.piece 3 (by decide))⟩ 4 = some (4, usrbuf, fd) ∧
    usrbuf = bytes "abcd" ∧ fd.stream = bytes "ef" := by
  have has : Undisturbed (.failure EINTR :: List.replicate 7 (.piece 3 (by decide))) := by
    intro errno herrno
    rcases List.mem_cons.1 herrno with h | h
    · exact Answer.failure.inj h
    · cases List.eq_of_mem_replicate h
  have hbs : Undisturbed (List.replicate 7 (.piece 2 (by decide))) := fun errno herrno => by
    cases List.eq_of_mem_replicate herrno
  have hbuf : (List.replicate RIO_BUFSIZE (0 : Byte)).length = RIO_BUFSIZE :=
    List.length_replicate
  obtain ⟨usrbuf, fd, q, r, -, hreadn, -, -, husrbuf, -, -, -, -, hfd, -⟩ :=
    @readn_agrees _ [] (bytes "abcdef") hbuf _ _ _ has hbs hbs (by decide) (by decide)
      (by decide) 4 (by decide)
  obtain rfl : usrbuf = bytes "abcd" := husrbuf.trans (by decide)
  exact ⟨_, fd, hreadn, rfl, hfd.trans (by decide)⟩

/-! ## Sending lines -/

/-- The loop of `rio_writen` over the answers of the socket : a `write` takes a piece of what is
left, or fails. What it returns, the bytes that are sent, and the answers that are left. -/
def writenLoop (n : ℕ) (sent left : List Byte) : List Answer → Option (ℤ × List Byte × List Answer)
  | [] => if left = [] then some (n, sent, []) else none
  | a :: answers =>
    if left = [] then some (n, sent, a :: answers)
    else
      match a with
      | .failure errno =>
        if errno = EINTR then writenLoop n sent left answers else some (-1, sent, answers)
      | .piece len _ => writenLoop n (sent ++ left.take len) (left.drop len) answers

/-- `rio_writen`. -/
def rioWriten (usrbuf : List Byte) (answers : List Answer) :
    Option (ℤ × List Byte × List Answer) :=
  writenLoop usrbuf.length [] usrbuf answers

/-- A call of `rio_writen` that returns has sent a front of its bytes. It has sent all of them
if it returns their number, and it returns `-1` otherwise. -/
theorem writenLoop_sent {n : ℕ} {sent left out : List Byte} {answers rest : List Answer} {x : ℤ}
    (h : writenLoop n sent left answers = some (x, out, rest)) :
    out <+: sent ++ left ∧ (x = n ∧ out = sent ++ left ∨ x = -1) ∧ rest <:+ answers := by
  induction answers generalizing sent left with
  | nil =>
    unfold writenLoop at h
    split at h
    case isTrue hnil =>
      cases h
      subst hnil
      simp
    case isFalse => cases h
  | cons a answers ih =>
    unfold writenLoop at h
    split at h
    case isTrue hnil =>
      cases h
      subst hnil
      simp
    case isFalse =>
      cases a with
      | failure errno =>
        dsimp only at h
        split at h
        · obtain ⟨hout, hx, hrest⟩ := ih h
          exact ⟨hout, hx, hrest.trans (List.suffix_cons _ _)⟩
        · cases h
          exact ⟨List.prefix_append _ _, .inr rfl, List.suffix_cons _ _⟩
      | piece len pos =>
        obtain ⟨hout, hx, hrest⟩ := ih h
        rw [List.append_assoc, List.take_append_drop] at hout hx
        exact ⟨hout, hx, hrest.trans (List.suffix_cons _ _)⟩

/-- Calls of `rio_writen` one after the other, up to the first that fails : what they have
sent, and whether none has failed. -/
def sendAll : List (List Byte) → List Answer → Option (List Byte × Bool)
  | [], _ => some ([], true)
  | chunk :: chunks, answers => do
    let (x, sent, answers) ← rioWriten chunk answers
    if x = -1 then return (sent, false)
    else
      let (more, ok) ← sendAll chunks answers
      return (sent ++ more, ok)

/-- Without a failed call all is sent. -/
theorem sendAll_sent {chunks : List (List Byte)} {answers : List Answer} {sent : List Byte}
    (h : sendAll chunks answers = some (sent, true)) : sent = chunks.flatten := by
  induction chunks generalizing answers sent with
  | nil =>
    cases h
    rfl
  | cons chunk chunks ih =>
    simp only [sendAll, Option.bind_eq_bind, Option.bind_eq_some_iff] at h
    obtain ⟨⟨x, out, rest⟩, hwriten, h⟩ := h
    obtain ⟨-, hx, -⟩ := writenLoop_sent hwriten
    dsimp only at h
    split at h
    · cases h
    case isFalse hne =>
      obtain ⟨⟨more, ok⟩, hmore, h⟩ := Option.bind_eq_some_iff.1 h
      obtain ⟨rfl, rfl⟩ := Prod.mk.inj (Option.some.inj h)
      rw [(hx.resolve_right hne).2, ih hmore, List.flatten_cons, List.nil_append]

/-- A line with its newline, which is its only one. -/
def IsLine (line : List Byte) : Prop :=
  ∃ text, 10 ∉ text ∧ line = text ++ [10]

/-- The next line of a text is the one at its front, if it has room. -/
theorem lineOf_isLine {line : List Byte} (hline : IsLine line) {k : ℕ} (hk : line.length ≤ k)
    (t : List Byte) : lineOf k (line ++ t) = line := by
  obtain ⟨text, hno, rfl⟩ := hline
  induction text generalizing k with
  | nil =>
    obtain ⟨k, rfl⟩ := Nat.exists_eq_succ_of_ne_zero (show k ≠ 0 by simp at hk; omega)
    rfl
  | cons c text ih =>
    obtain ⟨hc, hno⟩ := not_or.1 (mt List.mem_cons.2 hno)
    obtain ⟨k, rfl⟩ := Nat.exists_eq_succ_of_ne_zero (show k ≠ 0 by simp at hk; omega)
    have hk' : (text ++ [10]).length ≤ k := by
      simp at hk ⊢
      omega
    calc lineOf (k + 1) (c :: text ++ [10] ++ t)
        = c :: lineOf k (text ++ [10] ++ t) := by
          rw [List.cons_append, List.cons_append, lineOf, if_neg (Ne.symm hc)]
      _ = c :: text ++ [10] := by rw [ih hno hk', List.cons_append]

/-- Calls of `rio_readlineb` on lines that have room give the lines, each with its length, and
then the end. -/
theorem serveAll_lines {lines : List (List Byte)} (hlines : ∀ line ∈ lines, IsLine line)
    (hroom : ∀ line ∈ lines, line.length < maxlen) (hmaxlen : 1 < maxlen) :
    serveAll lines.flatten (List.replicate (lines.length + 1) (.line maxlen)) =
      (lines.map (fun line => ((line.length : ℤ), line ++ [0])) ++ [(0, [])], []) := by
  induction lines with
  | nil => simp [serveAll, serve, hmaxlen]
  | cons line lines ih =>
    have hline := hlines line List.mem_cons_self
    have hlength := hroom line List.mem_cons_self
    have hfirst : serve (line ++ lines.flatten) (.line maxlen) =
        (((line.length : ℤ), line ++ [0]), lines.flatten) := by
      obtain ⟨text, -, rfl⟩ := hline
      rw [serve, lineOf_isLine (hlines _ List.mem_cons_self) (by omega), List.drop_left,
        if_neg (by simp), lineResult, if_pos (by simp)]
      push_cast
      congr 2
      omega
    have hrest := ih (fun l hl => hlines l (List.mem_cons_of_mem _ hl))
      (fun l hl => hroom l (List.mem_cons_of_mem _ hl))
    rw [List.flatten_cons, List.length_cons, List.replicate_succ, serveAll, hfirst]
    simp only
    rw [hrest]
    rfl

/-- Lines that are sent with `rio_writen`, none of which fails, are read as they are with
`rio_readlineb`, each with its length, if `maxlen` has room for each of them and its NUL. Then
it returns zero. The lengths are counted in an `int`, which `maxlen` fits. -/
theorem lines_round_trip {buf sent : List Byte} (size : buf.length = RIO_BUFSIZE)
    {lines : List (List Byte)} (hlines : ∀ line ∈ lines, IsLine line)
    (hroom : ∀ line ∈ lines, line.length < maxlen) (hmaxlen : 1 < maxlen)
    (hmax : (maxlen : ℤ) ≤ INT_MAX) {writes reads : List Answer}
    (hsent : sendAll lines writes = some (sent, true)) (hr : Undisturbed reads)
    (h : sent.length + (lines.length + 1) ≤ pieces reads) :
    (∀ line ∈ lines, FitsInt line.length) ∧ ∃ r, requests (rioReadinitb buf size ⟨sent, reads⟩)
        (List.replicate (lines.length + 1) (.line maxlen)) =
      some (lines.map (fun line => ((line.length : ℤ), line ++ [0])) ++ [(0, [])], r) ∧
      r.pending = [] := by
  obtain rfl := sendAll_sent hsent
  have hpending : (rioReadinitb buf size ⟨lines.flatten, reads⟩).pending = lines.flatten := rfl
  obtain ⟨r, hrequests, hrest⟩ :=
    requests_serve (r := rioReadinitb buf size ⟨lines.flatten, reads⟩) hr
      (List.replicate (lines.length + 1) (.line maxlen)) (by rwa [List.length_replicate])
  rw [hpending, serveAll_lines hlines hroom hmaxlen] at hrequests hrest
  refine ⟨fun line hline => ?_, r, hrequests, hrest⟩
  have hlt := hroom line hline
  exact fitsInt_natCast (by omega)

/-- Two lines, sent in pieces of three bytes and read in pieces of two. -/
theorem lines_round_trip_two : ∃ r, requests (rioReadinitb (List.replicate RIO_BUFSIZE 0)
      List.length_replicate ⟨bytes "GET /\nHost\n", List.replicate 14 (.piece 2 (by decide))⟩)
      (List.replicate 3 (.line 80)) =
    some ([(6, bytes "GET /\n" ++ [0]), (5, bytes "Host\n" ++ [0]), (0, [])], r) ∧
    r.pending = [] := by
  have hlines : ∀ line ∈ [bytes "GET /\n", bytes "Host\n"], IsLine line := by
    intro line hline
    simp only [List.mem_cons, List.not_mem_nil, or_false] at hline
    rcases hline with rfl | rfl
    · exact ⟨bytes "GET /", by decide, by decide⟩
    · exact ⟨bytes "Host", by decide, by decide⟩
  have hsent : sendAll [bytes "GET /\n", bytes "Host\n"]
      (.failure EINTR :: List.replicate 4 (.piece 3 (by decide))) =
      some (bytes "GET /\nHost\n", true) := by decide
  have hr : Undisturbed (List.replicate 14 (.piece 2 (by decide))) := fun errno herrno => by
    cases List.eq_of_mem_replicate herrno
  have hbuf : (List.replicate RIO_BUFSIZE (0 : Byte)).length = RIO_BUFSIZE :=
    List.length_replicate
  exact (@lines_round_trip 80 _ _ hbuf _ hlines (by decide) (by decide) (by decide) _ _ hsent hr
    (by decide)).2

end Rio

end NetCentric
