import NetCentric.Calls

/-!
# The relay of a GET response

What the handlers do with the response of the origin server. `relay` reads once. If that
read fills `response`, it goes on with one of two loops : to the end of the stream if
`"Content-Length:"` is not in the text (`chunkLoop`), and one `read` of the length the
header gives otherwise (`relayContent`).

The array holds no NUL when it is full, so the searches run on into the memory after it.

`Relays` is what holds of every part of the relay, and `relay_whole_iff` says for which
responses, and which pieces of them, exactly the response reaches the client.
-/

open NetCentric.Scanf

namespace NetCentric

/-- Go on with a value, or into undefined behaviour. -/
def orUndefined {α : Type} : Option α → Handler α
  | some a => pure a
  | none => Prog.stop .undefined

/-- The loop for responses without a length. -/
def chunkLoop (response : List Byte) (total : ℤ) : List ReadResult → Handler ℤ
  | [] => Prog.stop .blocked
  | r :: responses => do
    Prog.call (.read .server 1024 r)
    if 0 < r.count then
      let response := overwrite response r.stored
      let total := toInt (total + r.count)
      Prog.call (.write .client (response.take r.count.toNat) r.count)
      chunkLoop response total responses
    else
      return total

/-- `cLength + headerSize - 1024`, for the text in `response` and the offset of
`cLengthLine`. A negative length is no size for an array. -/
def remainingLength (text : List Byte) (cLengthLine : ℕ) : Option ℤ := do
  let blank ← strstr text (bytes "\r\n\r\n")
  let headerSize := toInt (blank + 4)
  let cLength := numberAt (sscanf (text.drop cLengthLine) "Content-Length: %d") 0 0
  let length ← checked (cLength + headerSize)
  let length ← checked (length - 1024)
  if 0 ≤ length then some length else none

/-- The one `read` for responses with a length. -/
def relayContent (remainingLength total : ℤ) : List ReadResult → Handler ℤ
  | [] => Prog.stop .blocked
  | r :: _ => do
    Prog.call (.read .server remainingLength r)
    Prog.call (.write .client r.stored r.count)
    return toInt (total + r.count)

/-- The text that `strstr(response, …)` searches. -/
def responseText (m : Memory) (response : List Byte) : List Byte :=
  cstr (response ++ m.beyond)

/-- The size of `remainingContent`, if there is room for it. -/
def contentSize (m : Memory) (text : List Byte) (cLengthLine : ℕ) : Option ℤ :=
  (remainingLength text cLengthLine).filter (· ≤ m.room)

/-- From the first `read` of the response to the value of `total`. -/
def relay (m : Memory) : List ReadResult → Handler ℤ
  | [] => Prog.stop .blocked
  | r :: responses => do
    Prog.call (.read .server 1024 r)
    let response := overwrite (List.replicate 1024 0) r.stored
    Prog.call (.write .client (response.take r.count.toNat) r.count)
    let total := toInt r.count
    if r.count = 1024 then
      let text := responseText m response
      match strstr text (bytes "Content-Length:") with
      | none => chunkLoop response total responses
      | some cLengthLine =>
        let remainingLength ← orUndefined (contentSize m text cLengthLine)
        relayContent remainingLength total responses
    else
      return total

/-! ## What the relay calls -/

/-- A `read` on the server or a `write` to the client. -/
def Call.relays : Call → Bool
  | .read .server _ _ => true
  | .write .client _ _ => true
  | _ => false

/-- A part of the relay : it passes bytes on, and ends early only to wait for more or in
undefined behaviour. -/
structure Relays {α : Type} (p : Handler α) : Prop where
  calls : ∀ c ∈ p.calls, c.relays = true
  stops : ∀ e, p.result = .error e → e = .blocked ∨ e = .undefined

namespace Relays

variable {α β : Type}

theorem of_call {c : Call} (hc : c.relays = true) : Relays (Prog.call c) :=
  ⟨fun _ hd => List.mem_singleton.1 hd ▸ hc, fun _ h => nomatch h⟩

theorem of_pure (a : α) : Relays (pure a : Handler α) :=
  ⟨fun _ hd => (nomatch hd), fun _ h => nomatch h⟩

theorem of_blocked : Relays (Prog.stop .blocked : Handler α) :=
  ⟨fun _ hd => (nomatch hd), fun _ h => .inl (Except.error.inj h).symm⟩

theorem of_orUndefined (x : Option α) : Relays (orUndefined x) := by
  cases x with
  | none => exact ⟨fun _ hd => (nomatch hd), fun _ h => .inr (Except.error.inj h).symm⟩
  | some a => exact of_pure a

theorem bind {p : Handler α} {f : α → Handler β} (hp : Relays p) (hf : ∀ a, Relays (f a)) :
    Relays (p >>= f) := by
  refine ⟨Prog.forall_calls_bind hp.calls fun a _ => (hf a).calls, fun e h => ?_⟩
  cases hr : p.result with
  | ok a =>
    rw [Prog.result_bind_of_ok hr] at h
    exact (hf a).stops e h
  | error e' =>
    rw [Prog.result_bind_error hr] at h
    obtain rfl := Except.error.inj h
    exact hp.stops e' hr

theorem chunkLoop (response : List Byte) (total : ℤ) (rs : List ReadResult) :
    Relays (chunkLoop response total rs) := by
  induction rs generalizing response total with
  | nil => exact of_blocked
  | cons r rs ih =>
    refine .bind (of_call rfl) fun _ => ?_
    split
    · exact .bind (of_call rfl) fun _ => ih _ _
    · exact of_pure _

theorem relay (m : Memory) (rs : List ReadResult) : Relays (relay m rs) := by
  rcases rs with _ | ⟨r, rs⟩
  · exact of_blocked
  refine .bind (of_call rfl) fun _ => .bind (of_call rfl) fun _ => ?_
  split
  · dsimp only
    split
    · exact chunkLoop _ _ _
    · refine .bind (of_orUndefined _) fun n => ?_
      rcases rs with _ | ⟨r, rs⟩
      · exact of_blocked
      · exact .bind (of_call rfl) fun _ => .bind (of_call rfl) fun _ => of_pure _
  · exact of_pure _

/-- Nothing goes to the server. -/
theorem written_server {p : Handler α} (h : Relays p) : written .server p.calls = [] :=
  written_eq_nil fun _ _ hc => absurd (h.calls _ hc) (by simp [Call.relays])

end Relays

/-! ## The environment -/

/-- The `read`s of a run take the stream `R` apart : each answer is a piece of it, not
empty and no longer than the count asked for, or the end of the stream. -/
inductive Delivers : List Byte → List (ℤ × ReadResult) → Prop
  | nil (R : List Byte) : Delivers R []
  | piece {p R : List Byte} {count : ℤ} {reads : List (ℤ × ReadResult)} : p ≠ [] →
      p.length ≤ count → Delivers R reads → Delivers (p ++ R) ((count, .data p) :: reads)
  | eof {count : ℤ} {reads : List (ℤ × ReadResult)} :
      Delivers [] reads → Delivers [] ((count, .data []) :: reads)
  /-- A `read` of no bytes. -/
  | zero {R : List Byte} {reads : List (ℤ × ReadResult)} :
      Delivers R reads → Delivers R ((0, .data []) :: reads)

/-- The first answer is the first piece, and the rest of the stream comes in the rest. -/
theorem Delivers.cons {R : List Byte} {count : ℤ} {r : ReadResult}
    {reads : List (ℤ × ReadResult)} (h : Delivers R ((count, r) :: reads)) :
    ∃ p S, r = .data p ∧ R = p ++ S ∧ Delivers S reads ∧
      (p ≠ [] → p.length ≤ count) ∧ (p = [] → S = [] ∨ count = 0) := by
  cases h with
  | piece hp hlen h => exact ⟨_, _, rfl, rfl, h, fun _ => hlen, fun h0 => absurd h0 hp⟩
  | eof h => exact ⟨[], [], rfl, rfl, h, fun h0 => absurd rfl h0, fun _ => .inl rfl⟩
  | zero h => exact ⟨[], _, rfl, rfl, h, fun h0 => absurd rfl h0, fun _ => .inr rfl⟩

/-- The lines of a text, which CRLF separates. -/
def lines : List Byte → List (List Byte)
  | [] => [[]]
  | 13 :: 10 :: s => [] :: lines s
  | c :: s =>
    match lines s with
    | [] => [[c]]
    | l :: ls => (c :: l) :: ls

/-- The value of the first header line with this name. -/
def headerValue (name head : List Byte) : Option (List Byte) :=
  (lines head).findSome? fun l =>
    if strncasecmpEq l (name ++ bytes ":") (name.length + 1) then
      some ((l.drop (name.length + 1)).dropWhile isspace)
    else
      none

/-- A complete response : headers, an empty line, and a body of the length the header
`Content-Length` gives, if there is one. -/
def CompleteResponse (R : List Byte) : Prop :=
  ∃ i ∈ strstr R (bytes "\r\n\r\n"), ∀ v ∈ headerValue (bytes "Content-Length") (R.take i),
    digitsValue v + (i + 4) = R.length

instance (R : List Byte) : Decidable (CompleteResponse R) :=
  inferInstanceAs (Decidable (∃ i ∈ strstr R (bytes "\r\n\r\n"), _))

/-! ## What reaches the client -/

/-- The loop to the end of the stream passes all of it on. -/
theorem chunkLoop_whole {response S : List Byte} {total : ℤ} {responses : List ReadResult}
    (hd : Delivers S (readsOf .server (chunkLoop response total responses).calls))
    (hb : (chunkLoop response total responses).result ≠ .error .blocked) :
    (∃ total', (chunkLoop response total responses).result = .ok total') ∧
      written .client (chunkLoop response total responses).calls = S := by
  induction responses generalizing response S total with
  | nil => exact absurd rfl hb
  | cons r responses ih =>
    rw [chunkLoop, Prog.calls_call_bind, readsOf_cons_read] at hd
    obtain ⟨p, S, rfl, rfl, hd, -, hend⟩ := hd.cons
    by_cases hp : p = []
    · obtain rfl : S = [] := (hend hp).resolve_right (by omega)
      subst hp
      exact ⟨⟨total, rfl⟩, rfl⟩
    · have hpos : 0 < (ReadResult.data p).count := by
        simpa [ReadResult.count, List.length_pos_iff] using hp
      simp only [chunkLoop, if_pos hpos, Prog.calls_call_bind, Prog.result_call_bind,
        readsOf_cons_write] at hd hb ⊢
      obtain ⟨hok, hw⟩ := ih hd hb
      refine ⟨hok, ?_⟩
      rw [written_cons_read, written_cons_write, if_pos rfl, hw]
      simp [ReadResult.count, ReadResult.stored]

/-- When the condition is met that the whole response `R` gets through. The first piece
is all of it, or it fills the array, and then either the text has no `"Content-Length:"`,
or the rest comes in one piece and there is an array for it. -/
def GetsThrough (m : Memory) (R : List Byte) : List ReadResult → Prop
  | .data first :: responses =>
    if first.length = 1024 then
      match strstr (responseText m first) (bytes "Content-Length:") with
      | none => True
      | some cLengthLine =>
        (contentSize m (responseText m first) cLengthLine).isSome ∧
          responses.head? = some (.data (R.drop 1024))
    else
      first = R
  | _ => False

/-- A first piece that does not fill the array ends the relay. -/
theorem relay_of_ne {m : Memory} {first : List Byte} {responses : List ReadResult}
    (h : first.length ≠ 1024) : relay m (.data first :: responses) = (do
      Prog.call (.read .server 1024 (.data first))
      Prog.call (.write .client first first.length)
      return toInt first.length) := by
  have hne : (ReadResult.data first).count ≠ 1024 := by
    simp only [ReadResult.count]
    omega
  simp only [relay, if_neg hne]
  simp only [ReadResult.count, ReadResult.stored, Int.toNat_natCast, take_overwrite]

/-- A first piece that fills the array is passed on and then searched. -/
theorem relay_of_eq {m : Memory} {first : List Byte} {responses : List ReadResult}
    (h : first.length = 1024) : relay m (.data first :: responses) = (do
      Prog.call (.read .server 1024 (.data first))
      Prog.call (.write .client first first.length)
      match strstr (responseText m first) (bytes "Content-Length:") with
      | none => chunkLoop first (toInt first.length) responses
      | some cLengthLine => do
        let remainingLength ← orUndefined (contentSize m (responseText m first) cLengthLine)
        relayContent remainingLength (toInt first.length) responses) := by
  have heq : (ReadResult.data first).count = 1024 := by
    simp only [ReadResult.count]
    omega
  have hfull : overwrite (List.replicate 1024 0) first = first :=
    overwrite_of_le (by rw [List.length_replicate, h])
  simp only [relay, if_pos heq]
  simp only [ReadResult.count, ReadResult.stored, hfull, Int.toNat_natCast, List.take_length]

/-- The relay passes on exactly the response if and only if the condition is met. -/
theorem relay_whole_iff {m : Memory} {R : List Byte} {responses : List ReadResult}
    (hd : Delivers R (readsOf .server (relay m responses).calls))
    (hb : (relay m responses).result ≠ .error .blocked) :
    ((∃ total, (relay m responses).result = .ok total) ∧
      written .client (relay m responses).calls = R) ↔ GetsThrough m R responses := by
  rcases responses with _ | ⟨r, responses⟩
  · exact absurd rfl hb
  have hd' := hd
  rw [relay, Prog.calls_call_bind, readsOf_cons_read] at hd'
  obtain ⟨first, S, rfl, rfl, -, -⟩ := hd'.cons
  clear hd'
  by_cases hlen : first.length = 1024
  · rw [relay_of_eq hlen] at hd hb ⊢
    simp only [Prog.calls_call_bind, Prog.result_call_bind, readsOf_cons_read,
      readsOf_cons_write, written_cons_read, written_cons_write] at hd hb ⊢
    obtain ⟨p, S', hp, hS, hd, -⟩ := hd.cons
    obtain rfl := ReadResult.data.inj hp
    obtain rfl := List.append_cancel_left hS
    rw [GetsThrough, if_pos hlen]
    cases hline : strstr (responseText m first) (bytes "Content-Length:") with
    | none =>
      simp only [hline] at hd hb ⊢
      obtain ⟨hok, hw⟩ := chunkLoop_whole hd hb
      exact ⟨fun _ => trivial, fun _ => ⟨hok, by rw [hw, if_pos trivial]⟩⟩
    | some cLengthLine =>
      simp only [hline] at hd hb ⊢
      cases hsize : contentSize m (responseText m first) cLengthLine with
      | none => simp [orUndefined]
      | some n =>
        simp only [hsize, orUndefined, Prog.pure_bind] at hd hb ⊢
        rcases responses with _ | ⟨r, responses⟩
        · exact absurd rfl hb
        simp only [relayContent, Prog.calls_call_bind, readsOf_cons_read] at hd ⊢
        obtain ⟨p, S', rfl, rfl, -⟩ := hd.cons
        simp [written_cons_read, written_cons_write, ReadResult.stored, hlen]
  · rw [relay_of_ne hlen, GetsThrough, if_neg hlen]
    simp [written_cons_read, written_cons_write]

/-- A response of 43 bytes. -/
def okResponse : List Byte :=
  bytes "HTTP/1.1 200 OK\r\nContent-Length: 5\r\n\r\nhello"

/-- A response that arrives in one piece. -/
theorem relay_whole_one_piece :
    written .client (relay .clear [.data okResponse]).calls = okResponse := by
  have hcalls : (relay .clear [.data okResponse]).calls = [.read .server 1024 (.data okResponse),
      .write .client okResponse okResponse.length] := by
    rw [relay_of_ne (by decide)]
    rfl
  have hd : Delivers okResponse (readsOf .server (relay .clear [.data okResponse]).calls) := by
    rw [hcalls]
    have hpiece : Delivers (okResponse ++ []) [(1024, .data okResponse)] :=
      .piece (by decide) (by decide) (.nil [])
    rwa [List.append_nil] at hpiece
  have hb : (relay .clear [.data okResponse]).result ≠ .error .blocked := by
    rw [relay_of_ne (by decide)]
    exact fun h => nomatch h
  have hthrough : GetsThrough .clear okResponse [.data okResponse] := by
    rw [GetsThrough, if_neg (by decide)]
  exact ((relay_whole_iff hd hb).2 hthrough).2

/-- A complete response whose status line arrives first. -/
theorem relay_loses_rest : ¬∀ (m : Memory) (R : List Byte) (responses : List ReadResult),
    CompleteResponse R → Delivers R (readsOf .server (relay m responses).calls) →
    (relay m responses).result ≠ .error .blocked →
    (∃ total, (relay m responses).result = .ok total) ∧
      written .client (relay m responses).calls = R := by
  intro h
  have hcalls : (relay .clear [.data (okResponse.take 17)]).calls =
      [.read .server 1024 (.data (okResponse.take 17)),
        .write .client (okResponse.take 17) 17] := by
    rw [relay_of_ne (by decide)]
    rfl
  have hd : Delivers (okResponse.take 17 ++ okResponse.drop 17)
      [(1024, .data (okResponse.take 17))] := .piece (by decide) (by decide) (.nil _)
  rw [List.take_append_drop] at hd
  obtain ⟨-, hw⟩ := h .clear okResponse [.data (okResponse.take 17)] (by decide)
    (by rw [hcalls]; exact hd) (by rw [relay_of_ne (by decide)]; exact fun h => nomatch h)
  rw [hcalls] at hw
  exact absurd hw (by decide)

end NetCentric
