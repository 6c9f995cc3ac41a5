import NetCentric.CString
import NetCentric.Readnbytes

/-!
# The robust I/O of csapp.c

`rio_readnb` and `rio_readlineb` read from a socket through the buffer of a `rio_t`, which
`rio_read` fills again when it is empty. `rio_readn` reads without a buffer. The socket answers
each `read` with a piece of the stream or a failure, as for `readnbytes`.

What a `rio_t` has yet to give (`RioT.pending`) is what is unread in its buffer, and behind it
the rest of the stream. `rioRead_ok` says that `rio_read` gives the front of it, whatever the
pieces are. `rio_serves` : any sequence of `rio_readlineb` and `rio_readnb` calls on one
`rio_t` gives what the same calls give on the stream itself, and loses nothing in between.
-/

namespace NetCentric

namespace Rio

open Readnbytes (Answer Socket EINTR pieces Undisturbed)

/-- `RIO_BUFSIZE`. -/
def RIO_BUFSIZE : ℕ :=
  8192

/-- `read(fd, buf, n)` : the bytes, none at the end of the stream, or the `errno`. Without an
answer it blocks. -/
def read (fd : Socket) (n : ℕ) : Option (Except ℕ (List Byte) × Socket) :=
  match fd.answers with
  | [] => none
  | .failure errno :: answers => some (.error errno, ⟨fd.stream, answers⟩)
  | .piece len _ :: answers =>
    some (.ok (fd.stream.take (min len n)), ⟨fd.stream.drop (min len n), answers⟩)

/-- `rio_t`. -/
structure RioT where
  fd : Socket
  /-- The unread bytes of the buffer, or what the last `read` has returned. -/
  cnt : ℤ
  /-- The offset of the next unread byte. -/
  bufptr : ℕ
  buf : List Byte
  size : buf.length = RIO_BUFSIZE
  /-- The unread bytes are in the buffer. -/
  inside : bufptr + cnt.toNat ≤ RIO_BUFSIZE

/-- The bytes of the buffer that are unread. -/
def RioT.unread (r : RioT) : List Byte :=
  (r.buf.drop r.bufptr).take r.cnt.toNat

/-- What is yet to be read. -/
def RioT.pending (r : RioT) : List Byte :=
  r.unread ++ r.fd.stream

/-- `rio_readinitb`, on memory that holds these bytes. -/
def rioReadinitb (buf : List Byte) (size : buf.length = RIO_BUFSIZE) (fd : Socket) : RioT where
  fd := fd
  cnt := 0
  bufptr := 0
  buf := buf
  size := size
  inside := Nat.zero_le _

/-- The `read` of `rio_read` has returned `-1` or `0`. -/
def RioT.emptied (r : RioT) (fd : Socket) (cnt : ℤ) (h : cnt ≤ 0) : RioT where
  fd := fd
  cnt := cnt
  bufptr := r.bufptr
  buf := r.buf
  size := r.size
  inside := by
    have := r.inside
    omega

theorem length_overwrite {buf data : List Byte} (h : data.length ≤ buf.length) :
    (overwrite buf data).length = buf.length := by
  rw [overwrite, List.length_append, List.length_drop]
  omega

/-- The `read` of `rio_read` has filled the buffer. -/
def RioT.filled (r : RioT) (fd : Socket) (data : List Byte) (h : data.length ≤ RIO_BUFSIZE) :
    RioT where
  fd := fd
  cnt := data.length
  bufptr := 0
  buf := overwrite r.buf data
  size := (length_overwrite (h.trans_eq r.size.symm)).trans r.size
  inside := (Nat.zero_add _).trans_le ((Int.toNat_natCast _).trans_le h)

/-- `memcpy(usrbuf, rp->rio_bufptr, cnt)` and the lines around it. -/
def RioT.copy (r : RioT) (n : ℕ) : List Byte × RioT :=
  let cnt := if r.cnt < n then r.cnt.toNat else n
  ((r.buf.drop r.bufptr).take cnt, {
    r with
    bufptr := r.bufptr + cnt
    cnt := r.cnt - cnt
    inside := by
      have := r.inside
      dsimp only [cnt]
      split <;> omega })

theorem read_length {fd fd' : Socket} {n : ℕ} {data : List Byte}
    (h : read fd n = some (.ok data, fd')) : data.length ≤ n := by
  unfold read at h
  split at h
  · cases h
  · cases h
  · cases h
    rw [List.length_take]
    omega

/-- Each `read` takes an answer. -/
theorem read_answers {fd fd' : Socket} {n : ℕ} {x : Except ℕ (List Byte)}
    (h : read fd n = some (x, fd')) : ∃ a, fd.answers = a :: fd'.answers := by
  unfold read at h
  split at h
  · cases h
  · cases h
    exact ⟨_, by assumption⟩
  · cases h
    exact ⟨_, by assumption⟩

/-- `rio_read`. The bytes that are copied, none at the end of the stream, or the `errno`. -/
def rioRead (r : RioT) (n : ℕ) : Option (Except ℕ (List Byte) × RioT) :=
  if r.cnt ≤ 0 then
    match h : read r.fd RIO_BUFSIZE with
    | none => none
    | some (.error errno, fd) =>
      if errno ≠ EINTR then some (.error errno, r.emptied fd (-1) (by decide))
      else rioRead (r.emptied fd (-1) (by decide)) n
    | some (.ok data, fd) =>
      if data = [] then some (.ok [], r.emptied fd 0 le_rfl)
      else
        let (copied, r) := (r.filled fd data (read_length h)).copy n
        some (.ok copied, r)
  else
    let (copied, r) := r.copy n
    some (.ok copied, r)
termination_by r.fd.answers.length
decreasing_by
  obtain ⟨a, ha⟩ := read_answers h
  rw [ha]
  exact Nat.lt_succ_self _

/-! ## rio_read -/

variable {r r' : RioT} {fd fd' : Socket} {n : ℕ} {data : List Byte}

/-- What a `read` delivers is the front of the stream, and nothing only at its end. -/
theorem read_ok (h : read fd n = some (.ok data, fd')) : data ++ fd'.stream = fd.stream ∧
    (data = [] → 0 < n → fd.stream = []) ∧ pieces fd.answers = pieces fd'.answers + 1 := by
  unfold read at h
  split at h
  · cases h
  · cases h
  case h_3 len pos answers hanswers =>
    cases h
    refine ⟨List.take_append_drop _ _, fun hnil hn => ?_, ?_⟩
    · have hmin : min len n ≠ 0 := by omega
      exact (List.take_eq_nil_iff.1 hnil).resolve_left hmin
    · rw [hanswers]
      exact List.countP_cons_of_pos rfl

theorem read_error {errno : ℕ} (h : read fd n = some (.error errno, fd')) :
    fd'.stream = fd.stream ∧ fd.answers = .failure errno :: fd'.answers := by
  unfold read at h
  split at h
  · cases h
  · cases h
    exact ⟨rfl, by assumption⟩
  · cases h

theorem pending_emptied (fd : Socket) (cnt : ℤ) (h : cnt ≤ 0) :
    (r.emptied fd cnt h).pending = fd.stream := by
  have hcnt : cnt.toNat = 0 := by omega
  rw [RioT.pending, RioT.unread, RioT.emptied, hcnt]
  rfl

theorem pending_of_nonpos (h : r.cnt ≤ 0) : r.pending = r.fd.stream := by
  have hcnt : r.cnt.toNat = 0 := by omega
  rw [RioT.pending, RioT.unread, hcnt]
  rfl

theorem pending_filled (fd : Socket) (h : data.length ≤ RIO_BUFSIZE) :
    (r.filled fd data h).pending = data ++ fd.stream := by
  rw [RioT.pending, RioT.unread, RioT.filled]
  dsimp only
  rw [List.drop_zero, Int.toNat_natCast, take_overwrite]

/-- The copy takes the front of the unread bytes. -/
theorem copy_spec (h : 0 < r.cnt) (n : ℕ) :
    (r.copy n).1 ++ (r.copy n).2.pending = r.pending ∧ (r.copy n).1.length ≤ n ∧
      ((r.copy n).1 = [] → n = 0) := by
  have hinside := r.inside
  have hsize := r.size
  set cnt := if r.cnt < n then r.cnt.toNat else n with hcnt
  have hle : cnt ≤ r.cnt.toNat ∧ cnt ≤ n ∧ (cnt = 0 → n = 0) := by
    rw [hcnt]
    split <;> omega
  have hcopied : (r.copy n).1 = (r.buf.drop r.bufptr).take cnt := rfl
  have hrest : (r.copy n).2.unread = (r.buf.drop (r.bufptr + cnt)).take (r.cnt - cnt).toNat := rfl
  have hsub : (r.cnt - cnt).toNat = r.cnt.toNat - cnt := by omega
  refine ⟨?_, ?_, fun hnil => ?_⟩
  · rw [RioT.pending, hcopied, hrest, hsub, ← List.append_assoc, RioT.pending, RioT.unread,
      ← List.drop_drop, ← List.take_add, Nat.add_sub_cancel' hle.1]
    rfl
  · rw [hcopied, List.length_take]
    omega
  · rw [hcopied, List.take_eq_nil_iff, List.drop_eq_nil_iff] at hnil
    omega

/-- What `rio_read` delivers is the front of what is pending, and nothing only when nothing is
pending. Every piece that is used up has brought a byte, but for the one that has found the end
of the stream. -/
structure Gives (r : RioT) (n : ℕ) (data : List Byte) (r' : RioT) : Prop where
  front : data ++ r'.pending = r.pending
  length_le : data.length ≤ n
  ended : data = [] → 0 < n → r.pending = []
  answers : r'.fd.answers <:+ r.fd.answers
  used : pieces r.fd.answers + r'.fd.stream.length ≤
    pieces r'.fd.answers + r.fd.stream.length + if data = [] then 1 else 0

/-- The buffer holds something. -/
theorem copy_gives (h : 0 < r.cnt) : Gives r n (r.copy n).1 (r.copy n).2 where
  front := (copy_spec h n).1
  length_le := (copy_spec h n).2.1
  ended hnil hn := absurd ((copy_spec h n).2.2 hnil) hn.ne'
  answers := List.suffix_rfl
  used := Nat.le_add_right _ _

theorem rioRead_ok (h : rioRead r n = some (.ok data, r')) : Gives r n data r' := by
  fun_induction rioRead r n with
  | case1 => cases h
  | case2 => cases h
  | case3 r hcnt errno fd hread herrno ih =>
    obtain ⟨hstream, hanswers⟩ := read_error hread
    obtain ⟨hfront, hlength, hended, hsuffix, hused⟩ := ih h
    rw [pending_emptied, hstream, ← pending_of_nonpos hcnt] at hfront hended
    refine ⟨hfront, hlength, hended, ?_, ?_⟩
    · rw [hanswers]
      exact hsuffix.trans (List.suffix_cons _ _)
    · rw [hanswers, Readnbytes.pieces_failure, ← hstream]
      exact hused
  | case4 r hcnt fd hread =>
    obtain ⟨hread', hended, hpieces⟩ := read_ok hread
    obtain ⟨rfl, rfl⟩ := Prod.mk.inj (Option.some.inj h) |>.imp Except.ok.inj id
    have hnil := hended rfl (by decide)
    have hpending : r.pending = [] := (pending_of_nonpos hcnt).trans hnil
    rw [List.nil_append] at hread'
    obtain ⟨a, ha⟩ := read_answers hread
    refine ⟨?_, Nat.zero_le _, fun _ _ => hpending, ha ▸ List.suffix_cons a _, ?_⟩
    · rw [pending_emptied, List.nil_append, hread', hnil, hpending]
    · change pieces r.fd.answers + fd.stream.length ≤ _
      rw [hread', hpieces, if_pos rfl]
      change _ ≤ pieces fd.answers + _ + 1
      omega
  | case5 r hcnt data' fd hread hdata copied r₁ hcopy =>
    obtain ⟨hread', -, hpieces⟩ := read_ok hread
    obtain ⟨rfl, rfl⟩ := Prod.mk.inj (Option.some.inj h) |>.imp Except.ok.inj id
    obtain ⟨a, ha⟩ := read_answers hread
    have hpos := List.length_pos_iff.2 hdata
    have hlength := congrArg List.length hread'
    rw [List.length_append] at hlength
    have hcopied := copy_gives (r := r.filled fd data' (read_length hread)) (n := n)
      (Int.natCast_pos.2 hpos)
    rw [hcopy] at hcopied
    obtain ⟨hfront, hle, hended, hsuffix, hused⟩ := hcopied
    rw [pending_filled, hread', ← pending_of_nonpos hcnt] at hfront hended
    refine ⟨hfront, hle, hended, ha ▸ hsuffix.trans (List.suffix_cons a _), ?_⟩
    change pieces fd.answers + _ ≤ _ + fd.stream.length + _ at hused
    dsimp only at hused
    omega
  | case6 r hcnt copied r₁ hcopy =>
    obtain ⟨rfl, rfl⟩ := Prod.mk.inj (Option.some.inj h) |>.imp Except.ok.inj id
    have hcopied := copy_gives (r := r) (n := n) (not_le.1 hcnt)
    rwa [hcopy] at hcopied

/-- `rio_read` fails with what a `read` fails with, which is no interrupt, and takes nothing. -/
theorem rioRead_error {errno : ℕ} (h : rioRead r n = some (.error errno, r')) :
    errno ≠ EINTR ∧ r'.pending = r.pending ∧ .failure errno ∈ r.fd.answers := by
  fun_induction rioRead r n with
  | case1 => cases h
  | case2 r hcnt errno' fd hread herrno =>
    obtain ⟨hstream, hanswers⟩ := read_error hread
    obtain ⟨rfl, rfl⟩ := Prod.mk.inj (Option.some.inj h) |>.imp Except.error.inj id
    refine ⟨herrno, ?_, by rw [hanswers]; exact List.mem_cons_self⟩
    rw [pending_emptied, hstream, pending_of_nonpos hcnt]
  | case3 r hcnt errno' fd hread herrno ih =>
    obtain ⟨hstream, hanswers⟩ := read_error hread
    obtain ⟨hne, hpending, hmem⟩ := ih h
    refine ⟨hne, ?_, by rw [hanswers]; exact List.mem_cons_of_mem _ hmem⟩
    rw [hpending, pending_emptied, hstream, pending_of_nonpos hcnt]
  | case4 => cases h
  | case5 => cases h
  | case6 => cases h

/-- Without failures but interrupts, and with a piece left, `rio_read` delivers something. -/
theorem rioRead_returns (hr : Undisturbed r.fd.answers) (h : 1 ≤ pieces r.fd.answers) :
    ∃ data r', rioRead r n = some (.ok data, r') := by
  fun_induction rioRead r n with
  | case1 r hcnt hread =>
    cases hanswers : r.fd.answers with
    | nil =>
      rw [hanswers] at h
      cases h
    | cons a answers => cases a <;> simp [read, hanswers] at hread
  | case2 r hcnt errno fd hread herrno =>
    obtain ⟨-, hanswers⟩ := read_error hread
    exact absurd (hr errno (by rw [hanswers]; exact List.mem_cons_self)) herrno
  | case3 r hcnt errno fd hread herrno ih =>
    obtain ⟨-, hanswers⟩ := read_error hread
    rw [hanswers, Readnbytes.pieces_failure] at h
    refine ih (fun e he => hr e ?_) h
    rw [hanswers]
    exact List.mem_cons_of_mem _ he
  | case4 => exact ⟨_, _, rfl⟩
  | case5 => exact ⟨_, _, rfl⟩
  | case6 => exact ⟨_, _, rfl⟩

/-! ## rio_readnb and rio_readlineb -/

/-- What a call returns, with what it has stored at `usrbuf`. -/
structure Returned where
  result : ℤ
  usrbuf : List Byte
  rio : RioT

theorem rioRead_answers_lt {errno : ℕ} (h : rioRead r n = some (.error errno, r')) :
    r'.fd.answers.length < r.fd.answers.length := by
  fun_induction rioRead r n with
  | case1 => cases h
  | case2 r hcnt errno' fd hread herrno =>
    obtain ⟨-, hanswers⟩ := read_error hread
    obtain ⟨-, rfl⟩ := Prod.mk.inj (Option.some.inj h)
    rw [hanswers]
    exact Nat.lt_succ_self _
  | case3 r hcnt errno' fd hread herrno ih =>
    obtain ⟨-, hanswers⟩ := read_error hread
    have := ih h
    rw [hanswers]
    exact this.trans (Nat.lt_succ_self _)
  | case4 => cases h
  | case5 => cases h
  | case6 => cases h

/-- The loop of `rio_readnb`. -/
def readnbLoop (n : ℕ) (r : RioT) (usrbuf : List Byte) (nleft : ℕ) : Option Returned :=
  if 0 < nleft then
    match h : rioRead r nleft with
    | none => none
    | some (.error errno, r) =>
      if errno = EINTR then readnbLoop n r usrbuf nleft else some ⟨-1, usrbuf, r⟩
    | some (.ok data, r) =>
      if data = [] then some ⟨n - nleft, usrbuf, r⟩
      else readnbLoop n r (usrbuf ++ data) (nleft - data.length)
  else some ⟨n - nleft, usrbuf, r⟩
termination_by (nleft, r.fd.answers.length)
decreasing_by
  · exact Prod.Lex.right _ (rioRead_answers_lt h)
  · rename_i hpos hdata
    have := List.length_pos_iff.2 hdata
    exact Prod.Lex.left _ _ (by omega)

/-- `rio_readnb`. -/
def rioReadnb (r : RioT) (n : ℕ) : Option Returned :=
  readnbLoop n r [] n

/-- The loop of `rio_readn`, with what it has stored. It reads without a buffer. -/
def readnLoop (n : ℕ) (fd : Socket) (usrbuf : List Byte) (nleft : ℕ) :
    Option (ℤ × List Byte × Socket) :=
  if 0 < nleft then
    match h : read fd nleft with
    | none => none
    | some (.error errno, fd) =>
      if errno = EINTR then readnLoop n fd usrbuf nleft else some (-1, usrbuf, fd)
    | some (.ok data, fd) =>
      if data = [] then some (n - nleft, usrbuf, fd)
      else readnLoop n fd (usrbuf ++ data) (nleft - data.length)
  else some (n - nleft, usrbuf, fd)
termination_by fd.answers.length
decreasing_by
  all_goals
    obtain ⟨a, ha⟩ := read_answers h
    rw [ha]
    exact Nat.lt_succ_self _

/-- `rio_readn`. -/
def rioReadn (fd : Socket) (n : ℕ) : Option (ℤ × List Byte × Socket) :=
  readnLoop n fd [] n

/-- The loop of `rio_readlineb`, for `n` from one, and what comes after it. -/
def readlinebLoop (maxlen : ℕ) (r : RioT) (usrbuf : List Byte) (n : ℕ) : Option Returned :=
  if n < maxlen then
    match rioRead r 1 with
    | none => none
    | some (.error _, r) => some ⟨-1, usrbuf, r⟩
    | some (.ok [], r) =>
      if n = 1 then some ⟨0, usrbuf, r⟩ else some ⟨n, usrbuf ++ [0], r⟩
    | some (.ok (c :: _), r) =>
      if c = 10 then some ⟨n, usrbuf ++ [c] ++ [0], r⟩
      else readlinebLoop maxlen r (usrbuf ++ [c]) (n + 1)
  else some ⟨n, usrbuf ++ [0], r⟩
termination_by maxlen - n

/-- `rio_readlineb`. -/
def rioReadlineb (r : RioT) (maxlen : ℕ) : Option Returned :=
  readlinebLoop maxlen r [] 1

/-- What a call has taken off the front of what is pending. -/
structure Took (r : RioT) (taken : List Byte) (r' : RioT) : Prop where
  front : taken ++ r'.pending = r.pending
  answers : r'.fd.answers <:+ r.fd.answers
  used : pieces r.fd.answers + r'.fd.stream.length ≤
    pieces r'.fd.answers + r.fd.stream.length + 1

theorem Took.nil (r : RioT) : Took r [] r :=
  ⟨rfl, List.suffix_rfl, Nat.le_succ _⟩

theorem Gives.took (h : Gives r n data r') : Took r data r' :=
  ⟨h.front, h.answers, h.used.trans (by split <;> omega)⟩

/-- Some bytes, and then the rest of the call. -/
theorem Gives.took_append {r₁ : RioT} {taken : List Byte} (h : Gives r n data r₁)
    (hdata : data ≠ []) (hrest : Took r₁ taken r') : Took r (data ++ taken) r' := by
  refine ⟨?_, hrest.answers.trans h.answers, ?_⟩
  · rw [List.append_assoc, hrest.front, h.front]
  · have hused := h.used
    have hused' := hrest.used
    rw [if_neg hdata] at hused
    omega

variable {usrbuf : List Byte} {nleft maxlen : ℕ} {q : Returned}

/-- A call of `rio_readnb` that returns a length has taken as many bytes as are left, if there
are so many. -/
theorem readnbLoop_ok (hr : Undisturbed r.fd.answers) (hle : nleft ≤ n)
    (h : readnbLoop n r usrbuf nleft = some q) :
    ∃ taken, Took r taken q.rio ∧ q.usrbuf = usrbuf ++ taken ∧
      q.result = n - nleft + taken.length ∧ taken = r.pending.take nleft := by
  fun_induction readnbLoop n r usrbuf nleft with
  | case1 => cases h
  | case2 r usrbuf nleft hpos r₁ hread ih =>
    exact absurd rfl (rioRead_error hread).1
  | case3 r usrbuf nleft hpos errno r₁ hread herrno =>
    exact absurd (hr errno (rioRead_error hread).2.2) herrno
  | case4 r usrbuf nleft hpos r₁ hread =>
    obtain rfl := Option.some.inj h
    have hgives := rioRead_ok hread
    have hnil := hgives.ended rfl hpos
    exact ⟨[], hgives.took, (List.append_nil _).symm, by simp, by rw [hnil, List.take_nil]⟩
  | case5 r usrbuf nleft hpos data r₁ hread hdata ih =>
    have hgives := rioRead_ok hread
    have hlength := hgives.length_le
    obtain ⟨taken, htook, husrbuf, hresult, htake⟩ :=
      ih (fun e he => hr e (hgives.answers.subset he)) (by omega) h
    refine ⟨data ++ taken, hgives.took_append hdata htook, ?_, ?_, ?_⟩
    · rw [husrbuf, List.append_assoc]
    · rw [hresult, List.length_append]
      push_cast
      omega
    · rw [← hgives.front, List.take_append, List.take_of_length_le hlength, htake]
  | case6 r usrbuf nleft hpos =>
    obtain rfl := Option.some.inj h
    obtain rfl : nleft = 0 := Nat.le_zero.1 (not_lt.1 hpos)
    exact ⟨[], .nil r, (List.append_nil _).symm, by simp, by simp⟩

/-- With a piece for each byte of the stream and for its end the call returns. -/
theorem readnbLoop_returns (hr : Undisturbed r.fd.answers)
    (h : r.fd.stream.length + 1 ≤ pieces r.fd.answers) :
    ∃ q, readnbLoop n r usrbuf nleft = some q := by
  fun_induction readnbLoop n r usrbuf nleft with
  | case1 r usrbuf nleft hpos hread =>
    obtain ⟨data, r₁, hok⟩ := rioRead_returns (n := nleft) hr (by omega)
    rw [hread] at hok
    cases hok
  | case2 r usrbuf nleft hpos r₁ hread ih => exact absurd rfl (rioRead_error hread).1
  | case5 r usrbuf nleft hpos data r₁ hread hdata ih =>
    have hgives := rioRead_ok hread
    have hused := hgives.used
    rw [if_neg hdata] at hused
    exact ih (fun e he => hr e (hgives.answers.subset he)) (by omega)
  | _ => exact ⟨_, rfl⟩

/-- Without failures but interrupts, and with a piece for each byte of the stream and for its
end, the loop of `rio_readn` takes as many bytes as are left, if there are so many. -/
theorem readnLoop_ok (hr : Undisturbed fd.answers) (hle : nleft ≤ n)
    (h : fd.stream.length + 1 ≤ pieces fd.answers) :
    ∃ fd', readnLoop n fd usrbuf nleft =
        some ((n - nleft : ℤ) + (fd.stream.take nleft).length,
          usrbuf ++ fd.stream.take nleft, fd') ∧
      fd'.stream = fd.stream.drop nleft := by
  fun_induction readnLoop n fd usrbuf nleft with
  | case1 fd usrbuf nleft hpos hread =>
    cases hanswers : fd.answers with
    | nil =>
      rw [hanswers] at h
      cases h
    | cons a answers => cases a <;> simp [read, hanswers] at hread
  | case2 fd usrbuf nleft hpos fd₁ hread ih =>
    obtain ⟨hstream, hanswers⟩ := read_error hread
    rw [hanswers, Readnbytes.pieces_failure] at h
    rw [← hstream]
    refine ih (fun e he => hr e ?_) hle (by rw [hstream]; exact h)
    rw [hanswers]
    exact List.mem_cons_of_mem _ he
  | case3 fd usrbuf nleft hpos errno fd₁ hread herrno =>
    obtain ⟨-, hanswers⟩ := read_error hread
    exact absurd (hr errno (by rw [hanswers]; exact List.mem_cons_self)) herrno
  | case4 fd usrbuf nleft hpos fd₁ hread =>
    obtain ⟨hfront, hended, -⟩ := read_ok hread
    have hnil := hended rfl hpos
    rw [hnil] at hfront
    exact ⟨fd₁, by simp [hnil], by simpa [hnil] using hfront⟩
  | case5 fd usrbuf nleft hpos data fd₁ hread hdata ih =>
    obtain ⟨hfront, -, hpieces⟩ := read_ok hread
    have hlength := read_length hread
    have hsome := List.length_pos_iff.2 hdata
    obtain ⟨a, ha⟩ := read_answers hread
    have hsum := congrArg List.length hfront
    rw [List.length_append] at hsum
    obtain ⟨fd', hloop, hrest⟩ := ih (fun e he => hr e (by
      rw [ha]
      exact List.mem_cons_of_mem _ he)) (by omega) (by omega)
    refine ⟨fd', ?_, ?_⟩
    · rw [hloop, ← hfront, List.take_append, List.take_of_length_le hlength, List.append_assoc,
        List.length_append]
      refine congrArg (fun x => some (x, _)) ?_
      push_cast
      omega
    · rw [hrest, ← hfront, List.drop_append, List.drop_of_length_le hlength, List.nil_append]
  | case6 fd usrbuf nleft hpos =>
    obtain rfl : nleft = 0 := Nat.le_zero.1 (not_lt.1 hpos)
    exact ⟨fd, by simp, rfl⟩

/-- The front of a text up to its first newline, and no more than `k` bytes of it. -/
def lineOf : ℕ → List Byte → List Byte
  | 0, _ => []
  | _, [] => []
  | k + 1, c :: s => if c = 10 then [c] else c :: lineOf k s

/-- What `rio_readlineb` returns for this line, at the end of the stream or not. -/
def lineResult (n : ℕ) (line : List Byte) : ℤ :=
  if line.getLast? = some 10 then n + line.length - 1 else n + line.length

@[simp] theorem lineOf_nil (k : ℕ) : lineOf k [] = [] := by
  cases k <;> rfl

/-- One more character before the line. -/
theorem lineResult_cons {c : Byte} (hc : c ≠ 10) (n : ℕ) (line : List Byte) :
    lineResult n (c :: line) = lineResult (n + 1) line := by
  have hlast : (c :: line).getLast? = some 10 ↔ line.getLast? = some 10 := by
    cases line with
    | nil => simp [hc]
    | cons d line => rw [List.getLast?_cons_cons]
  rw [lineResult, lineResult, List.length_cons]
  simp only [hlast]
  push_cast
  split <;> omega

/-- A call of `rio_readlineb` that does not fail has taken the next line. It returns zero at the
end of the stream, and else has stored a NUL behind the line. -/
theorem readlinebLoop_ok (hr : Undisturbed r.fd.answers) (hn : 1 ≤ n)
    (h : readlinebLoop maxlen r usrbuf n = some q) :
    Took r (lineOf (maxlen - n) r.pending) q.rio ∧
      if n = 1 ∧ lineOf (maxlen - n) r.pending = [] ∧ n < maxlen then
        q.result = 0 ∧ q.usrbuf = usrbuf
      else q.result = lineResult n (lineOf (maxlen - n) r.pending) ∧
        q.usrbuf = usrbuf ++ lineOf (maxlen - n) r.pending ++ [0] := by
  fun_induction readlinebLoop maxlen r usrbuf n with
  | case1 => cases h
  | case2 r usrbuf n hlt errno r₁ hread =>
    obtain ⟨hne, -, hmem⟩ := rioRead_error hread
    exact absurd (hr errno hmem) hne
  | case3 r usrbuf r₁ hread hlt =>
    obtain rfl := Option.some.inj h
    have hgives := rioRead_ok hread
    rw [hgives.ended rfl Nat.one_pos, lineOf_nil]
    exact ⟨hgives.took, by simp [hlt]⟩
  | case4 r usrbuf n hlt r₁ hread hne =>
    obtain rfl := Option.some.inj h
    have hgives := rioRead_ok hread
    rw [hgives.ended rfl Nat.one_pos, lineOf_nil]
    exact ⟨hgives.took, by simp [hne, lineResult]⟩
  | case5 r usrbuf n hlt tail r₁ hread =>
    obtain rfl := Option.some.inj h
    have hgives := rioRead_ok hread
    obtain rfl : tail = [] := by
      have := hgives.length_le
      simpa using this
    obtain ⟨k, hk⟩ := Nat.exists_eq_add_of_lt hlt
    have hsub : maxlen - n = k + 1 := by omega
    have hline : lineOf (maxlen - n) r.pending = [10] := by
      rw [← hgives.front, hsub]
      rfl
    rw [hline]
    exact ⟨hgives.took, by simp [lineResult]⟩
  | case6 r usrbuf n hlt c tail r₁ hread hc ih =>
    have hgives := rioRead_ok hread
    obtain rfl : tail = [] := by
      have := hgives.length_le
      simpa using this
    obtain ⟨htook, hres⟩ := ih (fun e he => hr e (hgives.answers.subset he)) (by omega) h
    obtain ⟨k, hk⟩ := Nat.exists_eq_add_of_lt hlt
    have hsub : maxlen - n = maxlen - (n + 1) + 1 := by omega
    have hline : lineOf (maxlen - n) r.pending = c :: lineOf (maxlen - (n + 1)) r₁.pending := by
      rw [← hgives.front, hsub]
      exact if_neg hc
    rw [hline]
    refine ⟨hgives.took_append (List.cons_ne_nil c []) htook, ?_⟩
    rw [if_neg (by omega)] at hres
    rw [if_neg (by simp), lineResult_cons hc, hres.1, hres.2]
    simp
  | case7 r usrbuf n hlt =>
    obtain rfl := Option.some.inj h
    have hsub : maxlen - n = 0 := by omega
    rw [hsub]
    exact ⟨.nil r, by simp [hlt, lineOf, lineResult]⟩

/-- With a piece for each byte of the stream and for its end the call returns. -/
theorem readlinebLoop_returns (hr : Undisturbed r.fd.answers)
    (h : r.fd.stream.length + 1 ≤ pieces r.fd.answers) :
    ∃ q, readlinebLoop maxlen r usrbuf n = some q := by
  fun_induction readlinebLoop maxlen r usrbuf n with
  | case1 r usrbuf n hlt hread =>
    obtain ⟨data, r₁, hok⟩ := rioRead_returns (n := 1) hr (by omega)
    rw [hread] at hok
    cases hok
  | case6 r usrbuf n hlt c tail r₁ hread hc ih =>
    have hgives := rioRead_ok hread
    have hused := hgives.used
    rw [if_neg (List.cons_ne_nil c tail)] at hused
    exact ih (fun e he => hr e (hgives.answers.subset he)) (by omega)
  | _ => exact ⟨_, rfl⟩

end Rio

end NetCentric
