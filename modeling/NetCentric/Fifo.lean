import NetCentric.Pipe

/-!
# Two FIFOs

`ipc_code/fifo` : a client and a server with a FIFO for each direction. The `open` of a FIFO
waits until the other side has called its own, and both open the two in the same order. Then
they take turns, `num` times. The server finds the end of its FIFO when the client has closed
it.

The counts of the invariant say that the turns are kept (`Counts`), and their sum is the number
of steps (`steps`). `exchanges` : every run is a part of one that ends, all of these are of the
same length, and what is printed is what the turns give.
-/

namespace NetCentric.Fifo

/-! ## The two programs -/

/-- What the client does next. -/
inductive Client
  /-- `open(FIFO_FILE_C2S, O_WRONLY)`. -/
  | open1
  /-- In this `open`, until the server has called its own. -/
  | opening1
  /-- `open(FIFO_FILE_S2C, O_RDONLY)`. -/
  | open2
  | opening2
  /-- `write(fd1, message, strlen(message) + 1)`, and to print it. -/
  | write (i : ℕ)
  /-- `read(fd2, buf, 1024)`, and to print it. -/
  | read (i : ℕ)
  /-- `close(fd1)`. -/
  | close1
  /-- `close(fd2)`. -/
  | close2
  | done
  /-- Killed by a `write` that nobody reads. -/
  | killed
  deriving DecidableEq

/-- What the server does next. -/
inductive Server
  /-- `open(FIFO_FILE_C2S, O_RDONLY)`. -/
  | open1
  | opening1
  /-- `open(FIFO_FILE_S2C, O_WRONLY)`. -/
  | open2
  | opening2
  /-- `read(fd1, buf, 1024)`, and to print it. -/
  | read
  /-- `write(fd2, response, sizeof(response))`. -/
  | write
  /-- `close(fd1)`. -/
  | close1
  /-- `close(fd2)`. -/
  | close2
  | done
  | killed
  deriving DecidableEq

structure State where
  client : Client
  server : Server
  /-- What is in the FIFO to the server. -/
  c2s : List Byte
  /-- What is in the FIFO to the client. -/
  s2c : List Byte
  /-- `buf` of the client. -/
  clientBuf : List Byte
  /-- `buf` of the server. -/
  serverBuf : List Byte
  /-- What the two have printed. -/
  clientOut : List (List Byte)
  serverOut : List (List Byte)

/-- `message`, with its NUL. -/
def message : List Byte :=
  bytes "Hello from client" ++ [0]

/-- `response`. -/
def response : List Byte :=
  bytes "Hello from server" ++ [0]

/-- `printf("send to server: %s\n", message)`. -/
def sendToServer : List Byte :=
  bytes "send to server: " ++ cstr message ++ bytes "\n"

/-- `printf("receive: %s\n", buf)`. -/
def receive (buf : List Byte) : List Byte :=
  bytes "receive: " ++ cstr buf ++ bytes "\n"

/-- The last line of the server. -/
def peerClosed : List Byte :=
  bytes "Peer closed FIFO. If not reopen, further read may return size 0, exit\n"

/-- The condition of the loop of the client. -/
def loop (num : ℤ) (i : ℕ) : Client :=
  if (i : ℤ) < num then .write i else .close1

/-- How far the two are. From one on the first FIFO is called for, from three on the second. -/
def Client.rank : Client → ℕ
  | open1 => 0
  | opening1 => 1
  | open2 => 2
  | opening2 => 3
  | write _ | read _ | close1 => 4
  | close2 => 5
  | done | killed => 6

def Server.rank : Server → ℕ
  | open1 => 0
  | opening1 => 1
  | open2 => 2
  | opening2 => 3
  | read | write => 4
  | close1 => 5
  | close2 => 6
  | done | killed => 7

/-- Who has which end open. -/
def Client.writes : Client → Bool
  | open1 | close2 | done | killed => false
  | _ => true

def Client.reads : Client → Bool
  | open1 | opening1 | open2 | done | killed => false
  | _ => true

def Server.reads : Server → Bool
  | open1 | close2 | done | killed => false
  | _ => true

def Server.writes : Server → Bool
  | open1 | opening1 | open2 | done | killed => false
  | _ => true

/-- The client. There is no next state if `buf[size] = 0` is not inside `buf`. -/
def clientStep (num : ℤ) (s : State) : Option State :=
  match s.client with
  | .open1 => some { s with client := .opening1 }
  | .opening1 => if 1 ≤ s.server.rank then some { s with client := .open2 } else none
  | .open2 => some { s with client := .opening2 }
  | .opening2 => if 3 ≤ s.server.rank then some { s with client := loop num 0 } else none
  | .write i =>
    (writePipe s.c2s message s.server.reads).map fun
      | some c2s => { s with
          client := .read i
          c2s := c2s
          clientOut := s.clientOut ++ [sendToServer] }
      | none => { s with client := .killed }
  | .read i =>
    (readPipe s.s2c 1024 s.server.writes).bind fun (data, s2c) =>
      if data.length < 1024 then some { s with
        client := loop num (i + 1)
        s2c := s2c
        clientBuf := overwrite s.clientBuf (data ++ [0])
        clientOut := s.clientOut ++ [receive (overwrite s.clientBuf (data ++ [0]))] }
      else none
  | .close1 => some { s with client := .close2 }
  | .close2 => some { s with client := .done }
  | .done | .killed => none

/-- The server. -/
def serverStep (s : State) : Option State :=
  match s.server with
  | .open1 => some { s with server := .opening1 }
  | .opening1 => if 1 ≤ s.client.rank then some { s with server := .open2 } else none
  | .open2 => some { s with server := .opening2 }
  | .opening2 => if 3 ≤ s.client.rank then some { s with server := .read } else none
  | .read =>
    (readPipe s.c2s 1024 s.client.writes).map fun
      | ([], c2s) => { s with
          server := .close1
          c2s := c2s
          serverOut := s.serverOut ++ [peerClosed] }
      | (data, c2s) => { s with
          server := .write
          c2s := c2s
          serverBuf := overwrite s.serverBuf data
          serverOut := s.serverOut ++ [receive (overwrite s.serverBuf data)] }
  | .write =>
    (writePipe s.s2c response s.client.reads).map fun
      | some s2c => { s with server := .read, s2c := s2c }
      | none => { s with server := .killed }
  | .close1 => some { s with server := .close2 }
  | .close2 => some { s with server := .done }
  | .done | .killed => none

/-- The two processes. -/
inductive Side
  | client
  | server

/-- Both FIFOs are there. -/
def start (clientBuf serverBuf : List Byte) : State where
  client := .open1
  server := .open1
  c2s := []
  s2c := []
  clientBuf := clientBuf
  serverBuf := serverBuf
  clientOut := []
  serverOut := []

def fifos (num : ℤ) (clientBuf serverBuf : List Byte) : System State Side where
  Init s := s = start clientBuf serverBuf
  step s
    | .client => clientStep num s
    | .server => serverStep s

/-! ## The turns -/

/-- How many messages and responses are sent and received. -/
structure Counts where
  /-- Messages that the client has written. -/
  written : ℕ
  /-- Messages that the server has read. -/
  taken : ℕ
  /-- Responses that the server has written. -/
  answered : ℕ
  /-- Responses that the client has read. -/
  got : ℕ

/-- Each is at most one turn behind the other. -/
structure Counts.Turns (c : Counts) : Prop where
  got_le : c.got ≤ c.answered
  answered_le : c.answered ≤ c.taken
  taken_le : c.taken ≤ c.written
  written_le : c.written ≤ c.got + 1

def Client.At (n : ℕ) (c : Counts) : Client → Prop
  | write i => c.written = i ∧ c.got = i ∧ i < n
  | read i => c.written = i + 1 ∧ c.got = i ∧ i < n
  | close1 | close2 | done => c.written = n ∧ c.got = n
  | killed => False
  | _ => c.written = 0 ∧ c.got = 0

/-- The server leaves its loop when the client writes no more. -/
def Server.At (c : Counts) (client : Client) : Server → Prop
  | read => c.taken = c.answered
  | write => c.taken = c.answered + 1
  | close1 | close2 | done => c.taken = c.answered ∧ client.writes = false
  | killed => False
  | _ => c.taken = 0 ∧ c.answered = 0

/-- Neither is behind an `open` that the other has not called. -/
def Meet (p q : ℕ) : Prop :=
  (2 ≤ p → 1 ≤ q) ∧ (4 ≤ p → 3 ≤ q)

/-- The server has left its loop. -/
def Server.left : Server → Bool
  | close1 | close2 | done => true
  | _ => false

/-- The first `k` lines of the client. -/
def clientPrints (k : ℕ) : List (List Byte) :=
  (List.range k).map fun i =>
    if i % 2 = 0 then sendToServer else bytes "receive: Hello from server\n"

/-- The lines of the server for `k` messages. -/
def serverPrints (k : ℕ) (left : Bool) : List (List Byte) :=
  List.replicate k (bytes "receive: Hello from client\n") ++
    if left = true then [peerClosed] else []

structure Inv (n : ℕ) (s : State) (c : Counts) : Prop where
  client : s.client.At n c
  server : s.server.At c s.client
  turns : c.Turns
  meet : Meet s.client.rank s.server.rank
  meet' : Meet s.server.rank s.client.rank
  c2s : s.c2s = if c.taken < c.written then message else []
  s2c : s.s2c = if c.got < c.answered then response else []
  clientOut : s.clientOut = clientPrints (c.written + c.got)
  serverOut : s.serverOut = serverPrints c.taken s.server.left

/-- The steps so far. -/
def steps (s : State) (c : Counts) : ℕ :=
  s.client.rank + s.server.rank + c.written + c.taken + c.answered + c.got

variable {num : ℤ} {n : ℕ} {s t : State} {c : Counts} {clientBuf serverBuf : List Byte}

theorem inv_start : Inv n (start clientBuf serverBuf) ⟨0, 0, 0, 0⟩ where
  client := ⟨rfl, rfl⟩
  server := ⟨rfl, rfl⟩
  turns := ⟨le_rfl, le_rfl, le_rfl, Nat.zero_le _⟩
  meet := ⟨nofun, nofun⟩
  meet' := ⟨nofun, nofun⟩
  c2s := rfl
  s2c := rfl
  clientOut := rfl
  serverOut := rfl

theorem loop_cases (num : ℤ) (i : ℕ) :
    loop num i = .write i ∧ i < num.toNat ∨ loop num i = .close1 ∧ num.toNat ≤ i := by
  unfold loop
  split
  case isTrue h => exact .inl ⟨rfl, by omega⟩
  case isFalse h => exact .inr ⟨rfl, by omega⟩

/-- The client at its next turn. -/
theorem loop_at {i : ℕ} (hi : i ≤ num.toNat) (hwritten : c.written = i) (hgot : c.got = i) :
    (loop num i).At num.toNat c ∧ (loop num i).rank = 4 ∧ (loop num i).writes = true := by
  rcases loop_cases num i with ⟨hl, hlt⟩ | ⟨hl, hle⟩ <;> rw [hl]
  · exact ⟨⟨hwritten, hgot, hlt⟩, rfl, rfl⟩
  · exact ⟨⟨by omega, by omega⟩, rfl, rfl⟩

theorem clientPrints_succ (k : ℕ) : clientPrints (k + 1) = clientPrints k ++
    [if k % 2 = 0 then sendToServer else bytes "receive: Hello from server\n"] := by
  rw [clientPrints, List.range_succ, List.map_append, List.map_singleton]
  rfl

theorem serverPrints_succ (k : ℕ) : serverPrints (k + 1) false =
    serverPrints k false ++ [bytes "receive: Hello from client\n"] := by
  rw [serverPrints, serverPrints, if_neg (by decide), List.append_nil, List.append_nil,
    List.replicate_succ']

/-- Only what is sent is printed. -/
theorem receive_response (buf : List Byte) :
    receive (overwrite buf (response ++ [0])) = bytes "receive: Hello from server\n" := by
  have hcstr : ∀ rest, cstr (response ++ rest) = bytes "Hello from server" := fun rest => by
    rw [response, List.append_assoc]
    exact cstr_append_of_no_nul (by decide) _
  rw [overwrite, List.append_assoc, receive, hcstr]
  decide

theorem receive_message (buf : List Byte) :
    receive (overwrite buf message) = bytes "receive: Hello from client\n" := by
  have hcstr : ∀ rest, cstr (message ++ rest) = bytes "Hello from client" := fun rest => by
    rw [message, List.append_assoc]
    exact cstr_append_of_no_nul (by decide) _
  rw [overwrite, receive, hcstr]
  decide

theorem length_message : message.length = 18 := by
  decide

theorem length_response : response.length = 18 := by
  decide

/-- Before the server has left its loop it does not matter where the client is. -/
theorem Server.At.of_not_left {q : Server} {p p' : Client} {c' : Counts} (h : q.At c p)
    (hleft : q.left = false) (htaken : c'.taken = c.taken) (hanswered : c'.answered = c.answered) :
    q.At c' p' := by
  cases q with
  | close1 | close2 | done => cases hleft
  | killed => exact h.elim
  | read => exact htaken.trans (h.trans hanswered.symm)
  | write =>
    have hturn : c.taken = c.answered + 1 := h
    rw [Server.At, htaken, hanswered, hturn]
  | _ => exact ⟨htaken.trans h.1, hanswered.trans h.2⟩

theorem Server.At.of_not_writes {q : Server} {p p' : Client} (h : q.At c p)
    (hp : p'.writes = false) : q.At c p' := by
  cases q with
  | close1 | close2 | done => exact ⟨h.1, hp⟩
  | _ => exact h

theorem Client.At.congr {p : Client} {c' : Counts} (h : p.At n c)
    (hwritten : c'.written = c.written) (hgot : c'.got = c.got) : p.At n c' := by
  cases p with
  | killed => exact h.elim
  | write i | read i => exact ⟨hwritten.trans h.1, hgot.trans h.2.1, h.2.2⟩
  | _ => exact ⟨hwritten.trans h.1, hgot.trans h.2⟩

/-- A client that has not closed its FIFO keeps the server in its loop. -/
theorem Inv.left_eq_false (hI : Inv n s c) (h : s.client.rank ≤ 4) : s.server.left = false := by
  have hat := hI.server
  have hmeet := hI.meet'.2
  cases hq : s.server with
  | close1 | close2 | done =>
    rw [hq] at hat hmeet
    cases hp : s.client with
    | open1 =>
      rw [hp] at hmeet
      exact absurd (hmeet (by decide)) (by decide)
    | close2 | done | killed =>
      rw [hp] at h
      exact absurd h (by decide)
    | _ =>
      rw [hp] at hat
      exact absurd hat.2 (by simp [Client.writes])
  | _ => rfl

/-- In the loop of the client both FIFOs are open. -/
theorem Inv.server_open (hI : Inv n s c) (h : s.client.rank = 4) :
    s.server.reads = true ∧ s.server.writes = true := by
  have hnot := hI.left_eq_false h.le
  have hcalled : 3 ≤ s.server.rank := hI.meet.2 h.ge
  have hserver := hI.server
  cases hq : s.server with
  | open1 | opening1 | open2 =>
    rw [hq] at hcalled
    exact absurd hcalled (by decide)
  | close1 | close2 | done =>
    rw [hq] at hnot
    cases hnot
  | killed =>
    rw [hq] at hserver
    exact hserver.elim
  | _ => exact ⟨rfl, rfl⟩

theorem Meet.mono {p q q' : ℕ} (h : Meet p q) (hle : q ≤ q') : Meet p q' :=
  ⟨fun hp => (h.1 hp).trans hle, fun hp => (h.2 hp).trans hle⟩

/-! ## A step -/

/-- A step of the client outside its loop. -/
theorem Inv.client_moves (hI : Inv n s c) {p : Client} (hat : p.At n c)
    (hserver : s.server.At c p) (hrank : p.rank = s.client.rank + 1)
    (hmeet : Meet p.rank s.server.rank) :
    Inv n { s with client := p } c ∧ steps { s with client := p } c = steps s c + 1 := by
  refine ⟨⟨hat, hserver, hI.turns, hmeet, hI.meet'.mono ?_, hI.c2s, hI.s2c, hI.clientOut,
    hI.serverOut⟩, ?_⟩
  · exact (Nat.le_succ _).trans hrank.ge
  · simp only [steps, hrank]
    omega

theorem Inv.server_moves (hI : Inv n s c) {q : Server} (hat : q.At c s.client)
    (hleft : q.left = s.server.left) (hrank : q.rank = s.server.rank + 1)
    (hmeet : Meet q.rank s.client.rank) :
    Inv n { s with server := q } c ∧ steps { s with server := q } c = steps s c + 1 := by
  refine ⟨⟨hI.client, hat, hI.turns, hI.meet.mono ?_, hmeet, hI.c2s, hI.s2c, hI.clientOut,
    hI.serverOut.trans (by rw [hleft])⟩, ?_⟩
  · exact (Nat.le_succ _).trans hrank.ge
  · simp only [steps, hrank]
    omega

/-- The client takes a step. -/
theorem Inv.client_step (hI : Inv num.toNat s c) (h : clientStep num s = some t) :
    ∃ c', Inv num.toNat t c' ∧ steps t c' = steps s c + 1 := by
  have hleft := hI.left_eq_false
  have hat := hI.client
  have hmeet := hI.meet
  unfold clientStep at h
  cases hp : s.client with
  | open1 =>
    rw [hp] at h hat hleft
    obtain rfl := Option.some.inj h
    exact ⟨c, hI.client_moves hat (hI.server.of_not_left (hleft (by decide)) rfl rfl)
      (by rw [hp]; rfl) ⟨nofun, nofun⟩⟩
  | opening1 =>
    rw [hp] at h hat hleft
    dsimp only at h
    split at h
    case isFalse => cases h
    case isTrue hcalled =>
      obtain rfl := Option.some.inj h
      exact ⟨c, hI.client_moves hat (hI.server.of_not_left (hleft (by decide)) rfl rfl)
        (by rw [hp]; rfl) ⟨fun _ => hcalled, nofun⟩⟩
  | open2 =>
    rw [hp] at h hat hleft hmeet
    obtain rfl := Option.some.inj h
    exact ⟨c, hI.client_moves hat (hI.server.of_not_left (hleft (by decide)) rfl rfl)
      (by rw [hp]; rfl) ⟨fun _ => hmeet.1 le_rfl, nofun⟩⟩
  | opening2 =>
    rw [hp] at h hat hleft
    dsimp only at h
    split at h
    case isFalse => cases h
    case isTrue hcalled =>
      obtain rfl := Option.some.inj h
      obtain ⟨hat, hrank, -⟩ := loop_at (Nat.zero_le num.toNat) hat.1 hat.2
      exact ⟨c, hI.client_moves hat (hI.server.of_not_left (hleft (by decide)) rfl rfl)
        (by rw [hp, hrank]; rfl) ⟨fun _ => Nat.le_of_lt (Nat.lt_of_lt_of_le (by decide) hcalled),
          fun _ => hcalled⟩⟩
  | write i =>
    rw [hp] at h hat hleft hmeet
    obtain ⟨hwritten, hgot, hi⟩ := hat
    obtain ⟨hle, hle', hle'', hlead⟩ := hI.turns
    have hnot : s.server.left = false := hleft le_rfl
    -- the server has its end open, and there is nothing in the FIFO
    obtain ⟨hreads, -⟩ := hI.server_open (by rw [hp]; rfl)
    have hempty : s.c2s = [] := hI.c2s.trans (if_neg (by omega))
    rw [hempty, hreads] at h
    have hwrite : writePipe [] message true = some (some message) := by
      rw [writePipe_of_le (by rw [length_message]; decide), List.nil_append]
    dsimp only at h
    rw [hwrite] at h
    obtain rfl := Option.some.inj h
    refine ⟨{ c with written := i + 1 }, ⟨⟨rfl, hgot, hi⟩, ?_, ⟨hle, hle', by dsimp only; omega, by
      dsimp only; omega⟩, hmeet, ?_, ?_, hI.s2c, ?_, hI.serverOut⟩, ?_⟩
    · exact hI.server.of_not_left hnot rfl rfl
    · have hmeet' := hI.meet'
      rw [hp] at hmeet'
      exact hmeet'
    · exact (if_pos (by dsimp only; omega)).symm
    · have hsum : i + 1 + c.got = c.written + c.got + 1 := by omega
      dsimp only
      rw [hI.clientOut, hsum, clientPrints_succ, if_pos (by omega)]
    · simp only [steps, hp, Client.rank]
      omega
  | read i =>
    rw [hp] at h hat hleft hmeet
    obtain ⟨hwritten, hgot, hi⟩ := hat
    obtain ⟨hle, hle', hle'', hlead⟩ := hI.turns
    have hnot : s.server.left = false := hleft le_rfl
    rcases Nat.eq_or_lt_of_le hle with heq | hlt
    · -- there is no response, and the server has its end open
      have hempty : s.s2c = [] := hI.s2c.trans (if_neg (by omega))
      obtain ⟨-, hwrites⟩ := hI.server_open (by rw [hp]; rfl)
      rw [hempty, hwrites] at h
      cases h
    · have hresponse : s.s2c = response := hI.s2c.trans (if_pos hlt)
      have hread : readPipe response 1024 s.server.writes = some (response, []) :=
        readPipe_all (by rw [length_response]; decide) (.inl (by decide))
      rw [hresponse] at h
      dsimp only at h
      rw [hread, Option.bind_some, if_pos (by rw [length_response]; decide)] at h
      obtain rfl := Option.some.inj h
      obtain ⟨hat, hrank, -⟩ := loop_at (c := { c with got := i + 1 }) hi hwritten rfl
      refine ⟨{ c with got := i + 1 }, ⟨hat, ?_, ⟨by dsimp only; omega, hle', hle'',
        by dsimp only; omega⟩, ?_, ?_, hI.c2s, ?_, ?_, hI.serverOut⟩, ?_⟩
      · exact hI.server.of_not_left hnot rfl rfl
      · dsimp only
        rw [hrank]
        exact hmeet
      · have hmeet' := hI.meet'
        rw [hp] at hmeet'
        dsimp only
        rw [hrank]
        exact hmeet'
      · exact (if_neg (by dsimp only; omega)).symm
      · have hsum : c.written + (i + 1) = c.written + c.got + 1 := by omega
        dsimp only
        rw [hI.clientOut, hsum, clientPrints_succ, if_neg (by omega), receive_response]
      · have hrank' : (Client.read i).rank = 4 := rfl
        simp only [steps, hp, hrank, hrank']
        omega
  | close1 =>
    rw [hp] at h hat hmeet
    obtain rfl := Option.some.inj h
    exact ⟨c, hI.client_moves hat (hI.server.of_not_writes rfl) (by rw [hp]; rfl)
      ⟨fun _ => hmeet.1 (by decide), fun _ => hmeet.2 (by decide)⟩⟩
  | close2 =>
    rw [hp] at h hat hmeet
    obtain rfl := Option.some.inj h
    exact ⟨c, hI.client_moves hat (hI.server.of_not_writes rfl) (by rw [hp]; rfl)
      ⟨fun _ => hmeet.1 (by decide), fun _ => hmeet.2 (by decide)⟩⟩
  | done | killed =>
    rw [hp] at h
    cases h

/-- A server that has a message to answer has a client that waits for it. -/
theorem Inv.client_waits (hI : Inv n s c) (h : s.server = .write) :
    ∃ i, s.client = .read i ∧ c.got = c.answered ∧ c.taken = c.answered + 1 ∧
      c.written = c.answered + 1 := by
  have hat := hI.client
  have hturn := hI.server
  obtain ⟨hle, hle', hle'', -⟩ := hI.turns
  rw [h] at hturn
  have hturn : c.taken = c.answered + 1 := hturn
  cases hp : s.client with
  | read i =>
    rw [hp] at hat
    obtain ⟨hwritten, hgot, -⟩ := hat
    exact ⟨i, rfl, by omega, hturn, by omega⟩
  | write i =>
    rw [hp] at hat
    obtain ⟨hwritten, hgot, -⟩ := hat
    omega
  | killed =>
    rw [hp] at hat
    exact hat.elim
  | _ =>
    rw [hp] at hat
    obtain ⟨hwritten, hgot⟩ := hat
    omega

/-- The server takes a step. -/
theorem Inv.server_step (hI : Inv n s c) (h : serverStep s = some t) :
    ∃ c', Inv n t c' ∧ steps t c' = steps s c + 1 := by
  have hat := hI.server
  have hmeet' := hI.meet'
  unfold serverStep at h
  cases hq : s.server with
  | open1 =>
    rw [hq] at h hat
    obtain rfl := Option.some.inj h
    exact ⟨c, hI.server_moves hat (by rw [hq]; rfl) (by rw [hq]; rfl) ⟨nofun, nofun⟩⟩
  | opening1 =>
    rw [hq] at h hat
    dsimp only at h
    split at h
    case isFalse => cases h
    case isTrue hcalled =>
      obtain rfl := Option.some.inj h
      exact ⟨c, hI.server_moves hat (by rw [hq]; rfl) (by rw [hq]; rfl)
        ⟨fun _ => hcalled, nofun⟩⟩
  | open2 =>
    rw [hq] at h hat hmeet'
    obtain rfl := Option.some.inj h
    exact ⟨c, hI.server_moves hat (by rw [hq]; rfl) (by rw [hq]; rfl)
      ⟨fun _ => hmeet'.1 le_rfl, nofun⟩⟩
  | opening2 =>
    rw [hq] at h hat
    dsimp only at h
    split at h
    case isFalse => cases h
    case isTrue hcalled =>
      obtain rfl := Option.some.inj h
      exact ⟨c, hI.server_moves (hat.1.trans hat.2.symm) (by rw [hq]; rfl) (by rw [hq]; rfl)
        ⟨fun _ => Nat.le_of_lt (Nat.lt_of_lt_of_le (by decide) hcalled), fun _ => hcalled⟩⟩
  | read =>
    rw [hq] at h hmeet'
    have hturn : c.taken = c.answered := by
      rw [hq] at hat
      exact hat
    obtain ⟨hle, hle', hle'', hlead⟩ := hI.turns
    dsimp only at h
    rcases Nat.eq_or_lt_of_le hle'' with heq | hlt
    · -- the client has written no more : this is the end, or the server waits
      have hempty : s.c2s = [] := hI.c2s.trans (if_neg (by omega))
      rw [hempty] at h
      cases hwrites : s.client.writes with
      | true =>
        rw [hwrites] at h
        cases h
      | false =>
        have hend : readPipe [] 1024 false = some ([], []) := rfl
        rw [hwrites, hend] at h
        obtain rfl := Option.some.inj h
        refine ⟨c, ⟨hI.client, ⟨hturn, hwrites⟩, hI.turns, ?_, ?_, ?_, hI.s2c, hI.clientOut, ?_⟩,
          ?_⟩
        · have hmeet := hI.meet
          rw [hq] at hmeet
          exact hmeet.mono (Nat.le_succ 4)
        · exact ⟨fun _ => hmeet'.1 (by decide), fun _ => hmeet'.2 le_rfl⟩
        · exact (if_neg (by omega)).symm
        · have hout := hI.serverOut
          rw [hq] at hout
          dsimp only
          rw [hout, serverPrints, serverPrints, if_neg (by decide), if_pos (by decide),
            List.append_nil]
        · simp only [steps, hq, Server.rank]
          omega
    · have hmessage : s.c2s = message := hI.c2s.trans (if_pos hlt)
      have hread : readPipe message 1024 s.client.writes = some (message, []) :=
        readPipe_all (by rw [length_message]; decide) (.inl (by decide))
      obtain ⟨byte, rest, hcons⟩ : ∃ byte rest, message = byte :: rest := ⟨_, _, rfl⟩
      rw [hmessage, hread, hcons] at h
      obtain rfl := Option.some.inj h
      refine ⟨{ c with taken := c.taken + 1 }, ⟨?_, ?_, ⟨hle, by dsimp only; omega, hlt, hlead⟩,
        ?_, hmeet', ?_, hI.s2c, hI.clientOut, ?_⟩, ?_⟩
      · exact hI.client.congr rfl rfl
      · exact congrArg (· + 1) hturn
      · have hmeet := hI.meet
        rw [hq] at hmeet
        exact hmeet
      · exact (if_neg (by dsimp only; omega)).symm
      · have hout := hI.serverOut
        rw [hq] at hout
        dsimp only
        rw [← hcons, receive_message, hout]
        exact (serverPrints_succ _).symm
      · simp only [steps, hq, Server.rank]
        omega
  | write =>
    rw [hq] at h hmeet'
    obtain ⟨i, hp, hgot, htaken, hwritten⟩ := hI.client_waits hq
    have hempty : s.s2c = [] := hI.s2c.trans (if_neg (by omega))
    have hreads : s.client.reads = true := by
      rw [hp]
      rfl
    have hwrite : writePipe [] response true = some (some response) := by
      rw [writePipe_of_le (by rw [length_response]; decide), List.nil_append]
    dsimp only at h
    rw [hempty, hreads, hwrite] at h
    obtain rfl := Option.some.inj h
    obtain ⟨hle, hle', hle'', hlead⟩ := hI.turns
    refine ⟨{ c with answered := c.answered + 1 }, ⟨?_, htaken,
      ⟨by dsimp only; omega, htaken.ge, hle'', hlead⟩, ?_, ?_, hI.c2s, ?_, hI.clientOut, ?_⟩, ?_⟩
    · exact hI.client.congr rfl rfl
    · have hmeet := hI.meet
      rw [hq] at hmeet
      exact hmeet
    · exact hmeet'
    · exact (if_pos (by dsimp only; omega)).symm
    · have hout := hI.serverOut
      rw [hq] at hout
      exact hout
    · simp only [steps, hq, Server.rank]
      omega
  | close1 =>
    rw [hq] at h hat hmeet'
    obtain rfl := Option.some.inj h
    exact ⟨c, hI.server_moves hat (by rw [hq]; rfl) (by rw [hq]; rfl)
      ⟨fun _ => hmeet'.1 (by decide), fun _ => hmeet'.2 (by decide)⟩⟩
  | close2 =>
    rw [hq] at h hat hmeet'
    obtain rfl := Option.some.inj h
    exact ⟨c, hI.server_moves hat (by rw [hq]; rfl) (by rw [hq]; rfl)
      ⟨fun _ => hmeet'.1 (by decide), fun _ => hmeet'.2 (by decide)⟩⟩
  | done | killed =>
    rw [hq] at h
    cases h

/-! ## The end of a run -/

/-- Both have returned. -/
def Ended (s : State) : Prop :=
  s.client = .done ∧ s.server = .done

/-- A server that nothing keeps from its next call. -/
theorem Inv.server_enabled (hI : Inv n s c) (hdone : s.server ≠ .done)
    (h1 : s.server = .opening1 → 1 ≤ s.client.rank) (h2 : s.server = .opening2 → 3 ≤ s.client.rank)
    (hread : s.server = .read → s.c2s = message ∨ s.client.writes = false) :
    ∃ t, serverStep s = some t := by
  have hat := hI.server
  unfold serverStep
  cases hq : s.server with
  | opening1 => exact ⟨_, if_pos (h1 hq)⟩
  | opening2 => exact ⟨_, if_pos (h2 hq)⟩
  | read =>
    dsimp only
    rcases hread hq with hmessage | hwrites
    · have hsome : readPipe message 1024 s.client.writes = some (message, []) :=
        readPipe_all (by rw [length_message]; decide) (.inl (by decide))
      rw [hmessage, hsome]
      exact ⟨_, rfl⟩
    · obtain ⟨x, hx⟩ := exists_readPipe s.c2s 1024
      rw [hwrites, hx]
      exact ⟨_, rfl⟩
  | write =>
    obtain ⟨i, hp, hgot, -, -⟩ := hI.client_waits hq
    have hempty : s.s2c = [] := hI.s2c.trans (if_neg (by omega))
    obtain ⟨x, hx⟩ : ∃ x, writePipe [] response s.client.reads = some x :=
      exists_writePipe _ (by rw [length_response]; decide)
    dsimp only
    rw [hempty, hx]
    exact ⟨_, rfl⟩
  | done => exact absurd hq hdone
  | killed =>
    rw [hq] at hat
    exact hat.elim
  | _ => exact ⟨_, rfl⟩

/-- One of the two can go on until both have returned. -/
theorem Inv.exists_step (hI : Inv num.toNat s c) (h : ¬Ended s) :
    ∃ a t, (fifos num clientBuf serverBuf).step s a = some t := by
  have hclient := hI.client
  have hserver := hI.server
  have hmeet := hI.meet
  have hmeet' := hI.meet'
  obtain ⟨hle, hle', hle'', hlead⟩ := hI.turns
  by_cases hcan : ∃ t, clientStep num s = some t
  · obtain ⟨t, ht⟩ := hcan
    exact ⟨.client, t, ht⟩
  suffices hserver : ∃ t, serverStep s = some t by
    obtain ⟨t, ht⟩ := hserver
    exact ⟨.server, t, ht⟩
  unfold clientStep at hcan
  cases hp : s.client with
  | opening1 =>
    rw [hp] at hcan hmeet'
    have hrank : ¬1 ≤ s.server.rank := fun hle => hcan ⟨_, if_pos hle⟩
    refine hI.server_enabled (fun hq => ?_) (fun hq => ?_) (fun hq => ?_) fun hq => ?_ <;>
      exact absurd (by rw [hq]; decide) hrank
  | opening2 =>
    rw [hp] at hcan hmeet'
    have hrank : ¬3 ≤ s.server.rank := fun hle => hcan ⟨_, if_pos hle⟩
    refine hI.server_enabled (fun hq => ?_) (fun _ => by rw [hp]; decide) (fun hq => ?_)
      fun hq => ?_ <;> exact absurd (by rw [hq]; decide) hrank
  | read i =>
    rw [hp] at hcan hclient
    obtain ⟨hwritten, hgot, -⟩ := hclient
    have hnot := hI.left_eq_false (by rw [hp]; exact le_rfl)
    refine hI.server_enabled (fun hq => ?_) (fun _ => ?_) (fun _ => ?_) fun hq => ?_
    · rw [hq] at hnot
      cases hnot
    · rw [hp]
      exact (by decide : 1 ≤ 4)
    · rw [hp]
      exact (by decide : 3 ≤ 4)
    · -- the client has its message written, and no response to it
      left
      rw [hq] at hserver
      have hturn : c.taken = c.answered := hserver
      have hgot' : ¬c.got < c.answered := fun hlt => by
        have hresponse : s.s2c = response := hI.s2c.trans (if_pos hlt)
        have hread : readPipe response 1024 s.server.writes = some (response, []) :=
          readPipe_all (by rw [length_response]; decide) (.inl (by decide))
        dsimp only at hcan
        rw [hresponse, hread, Option.bind_some, if_pos (by rw [length_response]; decide)] at hcan
        exact hcan ⟨_, rfl⟩
      exact hI.c2s.trans (if_pos (by omega))
  | write i =>
    rw [hp] at hcan hclient
    obtain ⟨hwritten, hgot, -⟩ := hclient
    have hempty : s.c2s = [] := hI.c2s.trans (if_neg (by omega))
    obtain ⟨x, hx⟩ : ∃ x, writePipe [] message s.server.reads = some x :=
      exists_writePipe _ (by rw [length_message]; decide)
    dsimp only at hcan
    rw [hempty, hx] at hcan
    exact absurd ⟨_, rfl⟩ hcan
  | done =>
    exact hI.server_enabled (fun hq => h ⟨hp, hq⟩) (fun _ => by rw [hp]; decide)
      (fun _ => by rw [hp]; decide) fun _ => .inr (by rw [hp]; rfl)
  | killed =>
    rw [hp] at hclient
    exact hclient.elim
  | _ =>
    rw [hp] at hcan
    exact absurd ⟨_, rfl⟩ hcan

/-- After a run the counts and how far the two are add up to its length. -/
theorem exists_inv_of_run {as : List Side} (hI : Inv num.toNat s c)
    (h : (fifos num clientBuf serverBuf).run s as = some t) :
    ∃ c', Inv num.toNat t c' ∧ steps t c' = steps s c + as.length := by
  induction as generalizing s c with
  | nil =>
    obtain rfl := Option.some.inj h
    exact ⟨c, hI, rfl⟩
  | cons a as ih =>
    obtain ⟨u, hu, hrun⟩ := (System.run_cons_eq_some _).1 h
    obtain ⟨c', hI', hsteps⟩ : ∃ c', Inv num.toNat u c' ∧ steps u c' = steps s c + 1 := by
      cases a with
      | client => exact hI.client_step hu
      | server => exact hI.server_step hu
    obtain ⟨c'', hI'', hsteps'⟩ := ih hI' hrun
    exact ⟨c'', hI'', by rw [hsteps', hsteps, List.length_cons]; omega⟩

/-- How far the two can get. -/
theorem Client.At.le {p : Client} (h : p.At n c) :
    c.written ≤ n ∧ p.rank + c.written + c.got ≤ 2 * n + 6 := by
  cases p with
  | killed => exact h.elim
  | write i | read i =>
    obtain ⟨hwritten, hgot, hi⟩ := h
    simp only [Client.rank]
    omega
  | _ =>
    obtain ⟨hwritten, hgot⟩ := h
    simp only [Client.rank]
    omega

theorem Inv.steps_le (hI : Inv n s c) : steps s c ≤ 4 * n + 13 := by
  obtain ⟨hwritten, hclient⟩ := hI.client.le
  obtain ⟨hle, hle', hle'', -⟩ := hI.turns
  have hrank : s.server.rank ≤ 7 := by
    cases s.server <;> decide
  unfold steps
  omega

/-- Once the server has left its loop the client has all its responses. -/
theorem Inv.got_eq (hI : Inv n s c) (h : s.server.left = true) :
    c.written = n ∧ c.got = n := by
  have hat := hI.client
  have hrank : ¬s.client.rank ≤ 4 := fun hle => by
    rw [hI.left_eq_false hle] at h
    cases h
  cases hp : s.client with
  | close2 | done =>
    rw [hp] at hat
    exact hat
  | killed =>
    rw [hp] at hat
    exact hat.elim
  | open1 | opening1 | open2 | opening2 | write | read | close1 =>
    rw [hp] at hrank
    exact absurd (by simp [Client.rank]) hrank

/-- A run is at most four steps for each turn and thirteen for the rest, and it can be carried
on until it has all of these. Then both have returned, and neither has been killed. What is
printed is always the turns so far. -/
theorem exchanges {as : List Side}
    (h : (fifos num clientBuf serverBuf).run (start clientBuf serverBuf) as = some s) :
    ((∃ a t, (fifos num clientBuf serverBuf).step s a = some t) ∧
        as.length < 4 * num.toNat + 13 ∨
      Ended s ∧ as.length = 4 * num.toNat + 13) ∧
    ∃ c : Counts, c.Turns ∧ c.written ≤ num.toNat ∧
      s.clientOut = clientPrints (c.written + c.got) ∧
      s.serverOut = serverPrints c.taken s.server.left ∧
      (s.server.left = true → c.got = num.toNat) := by
  obtain ⟨c, hI, hsteps⟩ := exists_inv_of_run inv_start h
  have hstart : steps (start clientBuf serverBuf) ⟨0, 0, 0, 0⟩ = 0 := rfl
  refine ⟨?_, c, hI.turns, hI.client.le.1, hI.clientOut, hI.serverOut, fun hleft =>
    (hI.got_eq hleft).2⟩
  by_cases hend : Ended s
  · right
    obtain ⟨hwritten, hgot⟩ := hI.got_eq (by rw [hend.2]; rfl)
    obtain ⟨hle, hle', hle'', -⟩ := hI.turns
    refine ⟨hend, ?_⟩
    rw [hstart] at hsteps
    simp only [steps, hend.1, hend.2, Client.rank, Server.rank] at hsteps
    omega
  · left
    obtain ⟨a, t, ht⟩ : ∃ a t, (fifos num clientBuf serverBuf).step s a = some t :=
      hI.exists_step hend
    have hrun : (fifos num clientBuf serverBuf).run s [a] = some t :=
      (System.run_cons_eq_some _).2 ⟨t, ht, rfl⟩
    obtain ⟨c', hI', hsteps'⟩ := exists_inv_of_run hI hrun
    have hle := hI'.steps_le
    rw [List.length_singleton] at hsteps'
    exact ⟨⟨a, t, ht⟩, by omega⟩

/-- One message, to the end. -/
theorem exchanges_one : ∃ s, (fifos 1 [] []).run (start [] []) [.client, .server, .client, .server,
    .server, .client, .server, .client, .client, .server, .server, .client, .client, .server,
    .server, .client, .server] = some s ∧ Ended s := by
  obtain ⟨s, hs⟩ : ∃ s, (fifos 1 [] []).run (start [] []) [.client, .server, .client, .server,
      .server, .client, .server, .client, .client, .server, .server, .client, .client, .server,
      .server, .client, .server] = some s := ⟨_, rfl⟩
  rcases (exchanges hs).1 with ⟨-, hlt⟩ | ⟨hend, -⟩
  · exact absurd hlt (by decide)
  · exact ⟨s, hs, hend⟩

end NetCentric.Fifo
