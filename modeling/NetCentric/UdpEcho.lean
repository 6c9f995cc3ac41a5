import NetCentric.CString
import NetCentric.Transition
import NetCentric.Threads

/-!
# The UDP echo server

The client and the server of `Lecture10/udp_echo_server`, without timeouts, and with any
number of clients. A client sends a line and waits for one datagram. The server has one
address in memory, that of the datagram it got last. The network may lose a datagram,
deliver datagrams in any order, and deliver one twice.

`echoes` : a client prints only lines of its own that it has sent. While no datagram is
delivered twice, what it prints is what it has sent, line by line, and while none is lost
either, it waits for at most four steps. One datagram too many is enough for a client to be
one line behind (`stale`).
-/

open Finset

namespace NetCentric.UdpEcho

/-! ## The clients, the server and the network -/

/-- `MAXLINE`. -/
def MAXLINE : ℕ :=
  4096

/-- A client, at `fgets` or at `recvfrom`. -/
structure Client where
  waiting : Bool
  /-- The lines sent so far. -/
  sent : List (List Byte)
  /-- What `fputs` has printed. -/
  printed : List (List Byte)

/-- A datagram from or to a client. -/
abbrev Datagram (k : ℕ) :=
  Fin k × List Byte

structure State (k : ℕ) where
  client : Fin k → Client
  requests : Multiset (Datagram k)
  replies : Multiset (Datagram k)
  /-- `cliaddr` and `msg`, between `recvfrom` and `sendto`. -/
  msg : Option (Datagram k)
  /-- What the server has printed. -/
  serverOut : List (List Byte)

/-- One step of a client, the server or the network. -/
inductive Action (k : ℕ)
  /-- `fgets` reads a line, and `sendto` sends it. -/
  | line (i : Fin k) (sendline : List Byte)
  /-- `recvfrom` of the client returns, and `fputs` prints. -/
  | print (i : Fin k) (text : List Byte)
  /-- `recvfrom` of the server returns. -/
  | receive (d : Datagram k)
  /-- The server sends back what it has got, and prints it. -/
  | send
  | loseRequest (d : Datagram k)
  | loseReply (d : Datagram k)
  | repeatRequest (d : Datagram k)
  | repeatReply (d : Datagram k)

variable {k : ℕ}

/-- Client `i` goes on as `c`. -/
def State.put (s : State k) (i : Fin k) (c : Client) : State k :=
  { s with client := Function.update s.client i c }

/-- `fgets` reads at most `MAXLINE - 1` bytes, and `strlen` counts up to the first NUL. -/
def step (s : State k) : Action k → Option (State k)
  | .line i sendline =>
    if (s.client i).waiting = false ∧ sendline.length < MAXLINE then some
      { s.put i { s.client i with
          waiting := true
          sent := (s.client i).sent ++ [cstr sendline] } with
        requests := (i, cstr sendline) ::ₘ s.requests }
    else none
  | .print i text =>
    if (s.client i).waiting = true ∧ (i, text) ∈ s.replies then some
      { s.put i { s.client i with
          waiting := false
          printed := (s.client i).printed ++ [cstr (text.take MAXLINE)] } with
        replies := s.replies.erase (i, text) }
    else none
  | .receive d =>
    if s.msg = none ∧ d ∈ s.requests then some { s with
      requests := s.requests.erase d
      msg := some (d.1, d.2.take MAXLINE) }
    else none
  | .send =>
    match s.msg with
    | some d => some { s with
        msg := none
        replies := d ::ₘ s.replies
        serverOut := s.serverOut ++ [bytes "Received and sent: " ++ cstr d.2 ++ bytes "\n"] }
    | none => none
  | .loseRequest d =>
    if d ∈ s.requests then some { s with requests := s.requests.erase d } else none
  | .loseReply d =>
    if d ∈ s.replies then some { s with replies := s.replies.erase d } else none
  | .repeatRequest d =>
    if d ∈ s.requests then some { s with requests := d ::ₘ s.requests } else none
  | .repeatReply d =>
    if d ∈ s.replies then some { s with replies := d ::ₘ s.replies } else none

/-- Before the first line. -/
def start (k : ℕ) : State k where
  client _ := ⟨false, [], []⟩
  requests := 0
  replies := 0
  msg := none
  serverOut := []

def udpEcho (k : ℕ) : System (State k) (Action k) where
  Init s := s = start k
  step := step

/-- The network delivers a datagram once more. -/
def Action.repeats : Action k → Bool
  | .repeatRequest _ | .repeatReply _ => true
  | _ => false

def Action.loses : Action k → Bool
  | .loseRequest _ | .loseReply _ => true
  | _ => false

/-! ## The datagrams -/

/-- The datagrams that there are. -/
def State.all (s : State k) : Multiset (Datagram k) :=
  s.requests + s.replies + s.msg.elim 0 fun d => {d}

/-- The line sent last, while the client waits for it. -/
def Client.expected (i : Fin k) (c : Client) : Multiset (Datagram k) :=
  if c.waiting = true then (c.sent.getLast?.elim 0 fun text => {(i, text)}) else 0

/-- What all the clients wait for. -/
def State.expected (s : State k) : Multiset (Datagram k) :=
  ∑ i, (s.client i).expected i

/-- A text as it is sent. -/
def IsLine (text : List Byte) : Prop :=
  text.length < MAXLINE ∧ 0 ∉ text

/-- A datagram is a copy of a line of its client, and what a client prints it has sent. -/
structure Inv (s : State k) : Prop where
  copies : ∀ d ∈ s.all, d.2 ∈ (s.client d.1).sent
  lines : ∀ i, ∀ text ∈ (s.client i).sent, IsLine text
  length : ∀ i, (s.client i).sent.length =
    (s.client i).printed.length + if (s.client i).waiting = true then 1 else 0
  printed : ∀ i j text, (s.client i).printed[j]? = some text → text ∈ (s.client i).sent.take (j + 1)

variable {s t : State k} {a : Action k}

theorem IsLine.take {text : List Byte} (h : IsLine text) : text.take MAXLINE = text :=
  List.take_of_length_le h.1.le

theorem isLine_cstr {sendline : List Byte} (h : sendline.length < MAXLINE) :
    IsLine (cstr sendline) := by
  refine ⟨(List.IsPrefix.length_le (List.takeWhile_prefix _)).trans_lt h, fun hmem => ?_⟩
  have hne := List.mem_takeWhile_imp hmem
  exact absurd hne (by decide)

theorem mem_all {d : Datagram k} :
    d ∈ s.all ↔ d ∈ s.requests ∨ d ∈ s.replies ∨ s.msg = some d := by
  rw [State.all, Multiset.mem_add, Multiset.mem_add, or_assoc]
  cases s.msg with
  | none => simp
  | some e => simp [eq_comm]

/-- The clients are as before, and no datagram is new. -/
theorem Inv.of_mem (hI : Inv s) (hclient : t.client = s.client) (hall : ∀ d ∈ t.all, d ∈ s.all) :
    Inv t := by
  obtain ⟨hcopies, hlines, hlength, hprinted⟩ := hI
  rw [← hclient] at hcopies hlines hlength hprinted
  exact ⟨fun d hd => hcopies d (hall d hd), hlines, hlength, hprinted⟩

/-- A datagram is sent as it is. -/
theorem Inv.take_eq (hI : Inv s) {d : Datagram k} (hd : d ∈ s.all) : d.2.take MAXLINE = d.2 :=
  (hI.lines d.1 d.2 (hI.copies d hd)).take

/-- Client `i` goes on. -/
theorem Inv.put (hI : Inv s) {i : Fin k} {c : Client}
    (hclient : t.client = Function.update s.client i c)
    (hsent : ∀ text ∈ (s.client i).sent, text ∈ c.sent)
    (hall : ∀ d ∈ t.all, d ∈ s.all ∨ d.1 = i ∧ d.2 ∈ c.sent)
    (hlines : ∀ text ∈ c.sent, IsLine text)
    (hlength : c.sent.length = c.printed.length + if c.waiting = true then 1 else 0)
    (hprinted : ∀ j text, c.printed[j]? = some text → text ∈ c.sent.take (j + 1)) : Inv t := by
  refine ⟨fun d hd => ?_, fun j => ?_, fun j => ?_, fun j => ?_⟩
  · rw [hclient]
    by_cases hj : d.1 = i
    · rw [hj, Function.update_self]
      rcases hall d hd with hd | ⟨-, hd⟩
      · exact hsent d.2 (hj ▸ hI.copies d hd)
      · exact hd
    · rw [Function.update_of_ne hj]
      exact hI.copies d ((hall d hd).resolve_right fun h => hj h.1)
  all_goals
    rw [hclient]
    by_cases hj : j = i
    · rw [hj, Function.update_self]
      assumption
    · rw [Function.update_of_ne hj]
      first
        | exact hI.lines j
        | exact hI.length j
        | exact hI.printed j

theorem Inv.step (hI : Inv s) (h : step s a = some t) : Inv t := by
  cases a with
  | line i sendline =>
    obtain ⟨⟨hidle, hshort⟩, h⟩ := Option.ite_none_right_eq_some.1 h
    obtain rfl := Option.some.inj h
    have hlength := hI.length i
    rw [hidle] at hlength
    refine hI.put (i := i) rfl (fun text htext => List.mem_append_left _ htext) (fun d hd => ?_)
      (fun text htext => ?_) ?_ fun j text htext => ?_
    · rw [mem_all, Multiset.mem_cons] at hd
      rcases hd with (rfl | hd) | hd | hd
      · exact .inr ⟨rfl, List.mem_append_right _ List.mem_cons_self⟩
      · exact .inl (mem_all.2 (.inl hd))
      · exact .inl (mem_all.2 (.inr (.inl hd)))
      · exact .inl (mem_all.2 (.inr (.inr hd)))
    · rcases List.mem_append.1 htext with htext | htext
      · exact hI.lines i text htext
      · exact List.mem_singleton.1 htext ▸ isLine_cstr hshort
    · rw [List.length_append, hlength]
      rfl
    · have hj : j < (s.client i).printed.length := (List.getElem?_eq_some_iff.1 htext).1
      rw [List.take_append_of_le_length (by rw [hlength]; omega)]
      exact hI.printed i j text htext
  | print i text =>
    obtain ⟨⟨hwaiting, htext⟩, h⟩ := Option.ite_none_right_eq_some.1 h
    obtain rfl := Option.some.inj h
    have hmem : (i, text) ∈ s.all := mem_all.2 (.inr (.inl htext))
    have hsent : text ∈ (s.client i).sent := hI.copies _ hmem
    have hline := hI.lines i text hsent
    have hlength := hI.length i
    rw [hwaiting, if_pos rfl] at hlength
    refine hI.put (i := i) rfl (fun _ h => h) (fun d hd => ?_) (hI.lines i) ?_ fun j u hu => ?_
    · rw [mem_all] at hd
      rcases hd with hd | hd | hd
      · exact .inl (mem_all.2 (.inl hd))
      · exact .inl (mem_all.2 (.inr (.inl (Multiset.mem_of_mem_erase hd))))
      · exact .inl (mem_all.2 (.inr (.inr hd)))
    · rw [List.length_append, hlength]
      rfl
    · dsimp only at hu
      rw [hline.take, cstr_of_no_nul hline.2] at hu
      rcases lt_or_ge j (s.client i).printed.length with hj | hj
      · rw [List.getElem?_append_left hj] at hu
        exact hI.printed i j u hu
      · -- the last line that is printed is any of the lines so far
        obtain ⟨hj', hget⟩ := List.getElem?_eq_some_iff.1 hu
        rw [List.length_append, List.length_singleton] at hj'
        rw [List.getElem_append_right hj, List.getElem_singleton] at hget
        have hall : (s.client i).sent.take (j + 1) = (s.client i).sent :=
          List.take_of_length_le (by omega)
        rw [← hget]
        exact hall.symm ▸ hsent
  | receive d =>
    obtain ⟨⟨hmsg, hd⟩, h⟩ := Option.ite_none_right_eq_some.1 h
    obtain rfl := Option.some.inj h
    have hall : d ∈ s.all := mem_all.2 (.inl hd)
    refine hI.of_mem rfl fun e he => ?_
    rw [mem_all] at he
    rcases he with he | he | he
    · exact mem_all.2 (.inl (Multiset.mem_of_mem_erase he))
    · exact mem_all.2 (.inr (.inl he))
    · rw [hI.take_eq hall] at he
      exact Option.some.inj he ▸ hall
  | send =>
    cases hmsg : s.msg with
    | none => simp [UdpEcho.step, hmsg] at h
    | some d =>
      simp only [UdpEcho.step, hmsg, Option.some.injEq] at h
      subst h
      refine hI.of_mem rfl fun e he => ?_
      rw [mem_all, Multiset.mem_cons] at he
      rcases he with he | (rfl | he) | he
      · exact mem_all.2 (.inl he)
      · exact mem_all.2 (.inr (.inr hmsg))
      · exact mem_all.2 (.inr (.inl he))
      · cases he
  | loseRequest d =>
    obtain ⟨-, h⟩ := Option.ite_none_right_eq_some.1 h
    obtain rfl := Option.some.inj h
    refine hI.of_mem rfl fun e he => mem_all.2 ?_
    exact (mem_all.1 he).imp_left Multiset.mem_of_mem_erase
  | loseReply d =>
    obtain ⟨-, h⟩ := Option.ite_none_right_eq_some.1 h
    obtain rfl := Option.some.inj h
    refine hI.of_mem rfl fun e he => mem_all.2 ?_
    exact (mem_all.1 he).imp_right (Or.imp_left Multiset.mem_of_mem_erase)
  | repeatRequest d =>
    obtain ⟨hd, h⟩ := Option.ite_none_right_eq_some.1 h
    obtain rfl := Option.some.inj h
    refine hI.of_mem rfl fun e he => mem_all.2 ?_
    refine (mem_all.1 he).imp_left fun he => ?_
    rcases Multiset.mem_cons.1 he with rfl | he
    · exact hd
    · exact he
  | repeatReply d =>
    obtain ⟨hd, h⟩ := Option.ite_none_right_eq_some.1 h
    obtain rfl := Option.some.inj h
    refine hI.of_mem rfl fun e he => mem_all.2 ?_
    refine (mem_all.1 he).imp_right (Or.imp_left fun he => ?_)
    rcases Multiset.mem_cons.1 he with rfl | he
    · exact hd
    · exact he

/-! ## A network that repeats nothing -/

theorem mem_expected {d : Datagram k} : d ∈ s.expected ↔
    (s.client d.1).waiting = true ∧ (s.client d.1).sent.getLast? = some d.2 := by
  have hone : ∀ i, d ∈ (s.client i).expected i ↔
      i = d.1 ∧ (s.client i).waiting = true ∧ (s.client i).sent.getLast? = some d.2 := by
    intro i
    unfold Client.expected
    split
    case isTrue hwaiting =>
      cases hlast : (s.client i).sent.getLast? with
      | none => simp
      | some text => simp [hwaiting, Prod.ext_iff, eq_comm]
    case isFalse hidle => simp [hidle]
  rw [State.expected, Multiset.mem_sum]
  constructor
  · rintro ⟨i, -, hi⟩
    obtain ⟨rfl, hi⟩ := (hone i).1 hi
    exact hi
  · exact fun h => ⟨d.1, mem_univ _, (hone d.1).2 ⟨rfl, h⟩⟩

/-- A client's own part of what is expected. -/
theorem expected_put {i : Fin k} {c : Client}
    (hclient : t.client = Function.update s.client i c) :
    t.expected + (s.client i).expected i = s.expected + c.expected i := by
  rw [State.expected, hclient]
  exact Threads.sum_update_at (fun i (c : Client) => c.expected i) s.client i c

/-- What is expected is on its way, or it is one of the `lost`. What is printed is what was
sent, but for the line that is expected. -/
structure Accounted (s : State k) (lost : Multiset (Datagram k)) : Prop extends Inv s where
  all : s.all + lost = s.expected
  echoed : ∀ i, (s.client i).printed <+: (s.client i).sent

/-- A step that moves datagrams only. -/
theorem Accounted.of_all {lost gone : Multiset (Datagram k)} (hA : Accounted s lost) (hI : Inv t)
    (hclient : t.client = s.client) (hall : t.all + gone = s.all) :
    Accounted t (lost + gone) := by
  refine ⟨hI, ?_, hclient ▸ hA.echoed⟩
  rw [State.expected, hclient]
  refine Eq.trans ?_ hA.all
  rw [← hall]
  ac_rfl

/-- The client that has got its line has printed all that it has sent. -/
theorem Accounted.sent_eq {lost : Multiset (Datagram k)} (hA : Accounted s lost) {i : Fin k}
    {text : List Byte} (h : (i, text) ∈ s.expected) :
    (s.client i).sent = (s.client i).printed ++ [text] := by
  obtain ⟨hwaiting, hlast⟩ := mem_expected.1 h
  obtain ⟨rest, hrest⟩ := hA.echoed i
  have hlength := hA.length i
  rw [hwaiting, if_pos rfl, ← hrest, List.length_append] at hlength
  obtain ⟨last, rfl⟩ := List.length_eq_one_iff.1 (Nat.add_left_cancel hlength)
  rw [← hrest, List.getLast?_append_of_ne_nil _ (List.cons_ne_nil _ _),
    List.getLast?_singleton] at hlast
  rw [← hrest, Option.some.inj hlast]

/-- A step of client `i`. -/
theorem Accounted.put {lost : Multiset (Datagram k)} (hA : Accounted s lost) (hI : Inv t)
    {i : Fin k} {c : Client} (hclient : t.client = Function.update s.client i c)
    (hall : t.all + (s.client i).expected i = s.all + c.expected i)
    (hechoed : c.printed <+: c.sent) : Accounted t lost := by
  refine ⟨hI, add_right_cancel (b := (s.client i).expected i) ?_, fun j => ?_⟩
  · calc t.all + lost + (s.client i).expected i
        = t.all + (s.client i).expected i + lost := add_right_comm _ _ _
      _ = s.all + lost + c.expected i := by rw [hall, add_right_comm]
      _ = t.expected + (s.client i).expected i := by rw [hA.all, expected_put hclient]
  · rw [hclient]
    by_cases hj : j = i
    · rw [hj, Function.update_self]
      exact hechoed
    · rw [Function.update_of_ne hj]
      exact hA.echoed j

/-- A step that repeats nothing. -/
theorem Accounted.step {lost : Multiset (Datagram k)} (hA : Accounted s lost)
    (ha : a.repeats = false) (h : UdpEcho.step s a = some t) :
    ∃ gone, Accounted t (lost + gone) ∧ gone.card = if a.loses = true then 1 else 0 := by
  have hI := hA.toInv.step h
  cases a with
  | line i sendline =>
    obtain ⟨⟨hidle, hshort⟩, h⟩ := Option.ite_none_right_eq_some.1 h
    obtain rfl := Option.some.inj h
    refine ⟨0, ?_, rfl⟩
    rw [add_zero]
    refine hA.put hI (i := i) rfl ?_ ((hA.echoed i).trans (List.prefix_append _ _))
    have hnone : (s.client i).expected i = 0 := if_neg (by rw [hidle]; decide)
    rw [hnone, add_zero, Client.expected, if_pos rfl, List.getLast?_concat, Option.elim_some]
    simp only [State.all, State.put, ← Multiset.singleton_add]
    ac_rfl
  | print i text =>
    obtain ⟨⟨hwaiting, htext⟩, h⟩ := Option.ite_none_right_eq_some.1 h
    obtain rfl := Option.some.inj h
    have hmem : (i, text) ∈ s.all := mem_all.2 (.inr (.inl htext))
    have hexpected : (i, text) ∈ s.expected := by
      rw [← hA.all]
      exact Multiset.mem_add.2 (.inl hmem)
    have hline := hA.lines i text (hA.copies _ hmem)
    have hsent := hA.sent_eq hexpected
    refine ⟨0, ?_, rfl⟩
    rw [add_zero]
    refine hA.put hI (i := i) rfl ?_ ?_
    · have hone : (s.client i).expected i = {(i, text)} := by
        rw [Client.expected, if_pos hwaiting, hsent, List.getLast?_concat, Option.elim_some]
      have hnone : ∀ c : Client, c.waiting = false → c.expected i = 0 := fun c hc =>
        if_neg (by rw [hc]; decide)
      rw [hone, hnone _ rfl, add_zero]
      conv_rhs => rw [State.all, ← Multiset.cons_erase htext, ← Multiset.singleton_add]
      simp only [State.all, State.put]
      ac_rfl
    · rw [hline.take, cstr_of_no_nul hline.2, hsent]
  | receive d =>
    obtain ⟨⟨hmsg, hd⟩, h⟩ := Option.ite_none_right_eq_some.1 h
    obtain rfl := Option.some.inj h
    refine ⟨0, hA.of_all hI rfl ?_, rfl⟩
    have hall : d ∈ s.all := mem_all.2 (.inl hd)
    rw [State.all, State.all, hA.toInv.take_eq hall, hmsg, add_zero]
    conv_rhs => rw [← Multiset.cons_erase hd, ← Multiset.singleton_add]
    simp only [Option.elim_some, Option.elim_none, Prod.mk.eta, add_zero]
    ac_rfl
  | send =>
    cases hmsg : s.msg with
    | none => simp [UdpEcho.step, hmsg] at h
    | some d =>
      simp only [UdpEcho.step, hmsg, Option.some.injEq] at h
      subst h
      refine ⟨0, hA.of_all hI rfl ?_, rfl⟩
      rw [State.all, State.all, hmsg, add_zero, ← Multiset.singleton_add]
      simp only [Option.elim_some, Option.elim_none, add_zero]
      ac_rfl
  | loseRequest d =>
    obtain ⟨hd, h⟩ := Option.ite_none_right_eq_some.1 h
    obtain rfl := Option.some.inj h
    refine ⟨{d}, hA.of_all hI rfl ?_, rfl⟩
    conv_rhs => rw [State.all, ← Multiset.cons_erase hd, ← Multiset.singleton_add]
    rw [State.all]
    dsimp only
    ac_rfl
  | loseReply d =>
    obtain ⟨hd, h⟩ := Option.ite_none_right_eq_some.1 h
    obtain rfl := Option.some.inj h
    refine ⟨{d}, hA.of_all hI rfl ?_, rfl⟩
    conv_rhs => rw [State.all, ← Multiset.cons_erase hd, ← Multiset.singleton_add]
    rw [State.all]
    dsimp only
    ac_rfl
  | repeatRequest => cases ha
  | repeatReply => cases ha

theorem Accounted.run {as : List (Action k)} {lost : Multiset (Datagram k)}
    (hA : Accounted s lost) (ha : ∀ a ∈ as, a.repeats = false)
    (h : (udpEcho k).run s as = some t) :
    ∃ gone, Accounted t (lost + gone) ∧ gone.card = as.countP Action.loses := by
  induction as generalizing s lost with
  | nil =>
    obtain rfl := Option.some.inj h
    exact ⟨0, (add_zero lost).symm ▸ hA, rfl⟩
  | cons a as ih =>
    obtain ⟨hhead, htail⟩ := List.forall_mem_cons.1 ha
    obtain ⟨u, hu, hrun⟩ := (System.run_cons_eq_some _).1 h
    obtain ⟨gone, hA', hcard⟩ := hA.step hhead hu
    obtain ⟨gone', hA'', hcard'⟩ := ih hA' htail hrun
    refine ⟨gone + gone', add_assoc lost gone gone' ▸ hA'', ?_⟩
    rw [Multiset.card_add, hcard, hcard', List.countP_cons, add_comm]

theorem accounted_start (k : ℕ) : Accounted (start k) 0 := by
  refine ⟨⟨nofun, nofun, fun _ => rfl, nofun⟩, ?_, fun _ => List.prefix_rfl⟩
  exact (Finset.sum_eq_zero fun _ _ => rfl).symm

/-! ## A client that waits -/

/-- In so many steps client `i` has printed `text`. -/
def Prints (s : State k) (i : Fin k) (text : List Byte) (n : ℕ) : Prop :=
  ∃ as t, as.length ≤ n ∧ (udpEcho k).run s as = some t ∧
    (t.client i).printed = (s.client i).printed ++ [text]

/-- A step that leaves the clients as they are. -/
theorem Prints.step {i : Fin k} {text : List Byte} {n : ℕ} (h : UdpEcho.step s a = some t)
    (hclient : t.client = s.client) (ht : Prints t i text n) : Prints s i text (n + 1) := by
  obtain ⟨as, u, hlength, hrun, hprinted⟩ := ht
  refine ⟨a :: as, u, Nat.succ_le_succ hlength, (System.run_cons_eq_some _).2 ⟨t, h, hrun⟩, ?_⟩
  rw [hprinted, hclient]

theorem prints_of_reply {i : Fin k} {text : List Byte} (hline : IsLine text)
    (hwaiting : (s.client i).waiting = true) (h : (i, text) ∈ s.replies) : Prints s i text 1 := by
  refine ⟨[.print i text], _, le_rfl, (System.run_cons_eq_some _).2
    ⟨_, if_pos ⟨hwaiting, h⟩, rfl⟩, ?_⟩
  simp only [State.put, Function.update_self]
  rw [hline.take, cstr_of_no_nul hline.2]

theorem prints_of_msg {i : Fin k} {text : List Byte} (hline : IsLine text)
    (hwaiting : (s.client i).waiting = true) (h : s.msg = some (i, text)) :
    Prints s i text 2 := by
  have hsend : UdpEcho.step s .send = some { s with
      msg := none
      replies := (i, text) ::ₘ s.replies
      serverOut := s.serverOut ++ [bytes "Received and sent: " ++ cstr text ++ bytes "\n"] } := by
    rw [UdpEcho.step, h]
  refine Prints.step hsend rfl ?_
  exact prints_of_reply hline hwaiting (Multiset.mem_cons_self _ _)

theorem prints_of_request {i : Fin k} {text : List Byte} (hline : IsLine text)
    (hwaiting : (s.client i).waiting = true) (h : (i, text) ∈ s.requests) (hmsg : s.msg = none) :
    Prints s i text 3 := by
  refine Prints.step (a := .receive (i, text)) (if_pos ⟨hmsg, h⟩) rfl ?_
  refine prints_of_msg hline hwaiting ?_
  exact congrArg (fun text => some (i, text)) hline.take

/-- A line that is on its way is printed. -/
theorem Inv.prints (hI : Inv s) {i : Fin k} {text : List Byte} (h : (i, text) ∈ s.all)
    (hwaiting : (s.client i).waiting = true) : Prints s i text 4 := by
  have hline := hI.lines i text (hI.copies _ h)
  have hweaken : ∀ {n}, n ≤ 4 → Prints s i text n → Prints s i text 4 := fun hn hp => by
    obtain ⟨as, t, hlength, hrun⟩ := hp
    exact ⟨as, t, hlength.trans hn, hrun⟩
  rcases mem_all.1 h with h | h | h
  · cases hmsg : s.msg with
    | none => exact hweaken (by decide) (prints_of_request hline hwaiting h hmsg)
    | some d =>
      -- the server answers another datagram first
      have hsend : UdpEcho.step s .send = some { s with
          msg := none
          replies := d ::ₘ s.replies
          serverOut := s.serverOut ++
            [bytes "Received and sent: " ++ cstr d.2 ++ bytes "\n"] } := by
        rw [UdpEcho.step, hmsg]
      refine Prints.step hsend rfl ?_
      exact prints_of_request hline hwaiting h rfl
  · exact hweaken (by decide) (prints_of_reply hline hwaiting h)
  · exact hweaken (by decide) (prints_of_msg hline hwaiting h)

/-- What a client prints is a line that it has sent by then, and no more lines than these. While
nothing is repeated it is the lines it has sent, in their order, up to the one it waits for.
Then there are no more clients that wait for nothing than datagrams that are lost, and each
other client that waits can have its line in four steps. -/
theorem echoes {as : List (Action k)} (h : (udpEcho k).run (start k) as = some s) :
    (∀ i, (s.client i).sent.length =
        (s.client i).printed.length + (if (s.client i).waiting = true then 1 else 0) ∧
      ∀ j text, (s.client i).printed[j]? = some text →
        text ∈ (s.client i).sent.take (j + 1)) ∧
    ((∀ a ∈ as, a.repeats = false) →
      (∀ i, (s.client i).printed <+: (s.client i).sent) ∧
      ∃ lost : Finset (Fin k), lost.card ≤ as.countP Action.loses ∧
        ∀ i ∉ lost, (s.client i).waiting = true →
          ∃ bs t, bs.length ≤ 4 ∧ (udpEcho k).run s bs = some t ∧
            (t.client i).printed = (s.client i).sent) := by
  have hI : Inv s := System.run_invariant (fun _ _ _ hI hstep => hI.step hstep)
    (accounted_start k).toInv h
  refine ⟨fun i => ⟨hI.length i, hI.printed i⟩, fun ha => ?_⟩
  obtain ⟨lost, hA, hcard⟩ := (accounted_start k).run ha h
  rw [zero_add] at hA
  refine ⟨hA.echoed, (lost.map Prod.fst).toFinset, ?_, fun i hi hwaiting => ?_⟩
  · rw [← hcard, ← Multiset.card_map Prod.fst lost]
    exact Multiset.toFinset_card_le _
  · have hlength := hA.length i
    rw [hwaiting, if_pos rfl] at hlength
    obtain ⟨text, htext⟩ : ∃ text, (s.client i).sent.getLast? = some text := by
      cases hlast : (s.client i).sent.getLast? with
      | none =>
        rw [List.getLast?_eq_none_iff.1 hlast] at hlength
        cases hlength
      | some text => exact ⟨text, rfl⟩
    have hexpected : (i, text) ∈ s.expected := mem_expected.2 ⟨hwaiting, htext⟩
    have hall : (i, text) ∈ s.all := by
      have hmem := hexpected
      rw [← hA.all] at hmem
      refine (Multiset.mem_add.1 hmem).resolve_right fun hlost => hi ?_
      exact Multiset.mem_toFinset.2 (Multiset.mem_map.2 ⟨_, hlost, rfl⟩)
    obtain ⟨bs, t, hle, hrun, hprinted⟩ := hI.prints hall hwaiting
    exact ⟨bs, t, hle, hrun, hprinted.trans (hA.sent_eq hexpected).symm⟩

/-- Two clients, whose lines cross. -/
theorem echoes_two : ∃ s : State 2, (udpEcho 2).run (start 2)
    [.line 0 [97, 10], .line 1 [98, 10], .receive (1, [98, 10]), .send, .receive (0, [97, 10]),
      .send, .print 0 [97, 10]] = some s ∧
    (s.client 0).printed <+: (s.client 0).sent := by
  obtain ⟨s, hs⟩ : ∃ s : State 2, (udpEcho 2).run (start 2)
      [.line 0 [97, 10], .line 1 [98, 10], .receive (1, [98, 10]), .send, .receive (0, [97, 10]),
        .send, .print 0 [97, 10]] = some s := ⟨_, rfl⟩
  exact ⟨s, hs, ((echoes hs).2 (by decide)).1 0⟩

/-! ## A datagram too many -/

/-- All is as it should be, but for the reply to the last line, which is there once more. -/
structure Behind (s : State 1) (first : List Byte) (lines : List (List Byte)) : Prop where
  client : s.client 0 = ⟨false, first :: lines, first :: (first :: lines).dropLast⟩
  requests : s.requests = 0
  replies : ∃ last, (first :: lines).getLast? = some last ∧ s.replies = {(0, last)}
  msg : s.msg = none

/-- The next line is answered with the reply that is there already, and then by the server. -/
theorem Behind.round {s : State 1} {first l : List Byte} {lines : List (List Byte)}
    (h : Behind s first lines) (hlines : ∀ text ∈ first :: lines, IsLine text) (hl : IsLine l) :
    ∃ as t, (udpEcho 1).run s as = some t ∧ as.countP Action.repeats = 0 ∧
      Behind t first (lines ++ [l]) := by
  obtain ⟨last, hlast, hreplies⟩ := h.replies
  obtain ⟨client, requests, replies, msg, out⟩ := s
  obtain ⟨hclient, rfl, -, rfl⟩ := h
  dsimp only at hclient hreplies
  subst hreplies
  have hline := hlines last (List.mem_of_getLast? hlast)
  have hsplit : (first :: lines).dropLast ++ [last] = first :: lines :=
    List.dropLast_append_getLast? last hlast
  let c (waiting : Bool) (printed : List (List Byte)) : Client :=
    ⟨waiting, first :: lines ++ [l], printed⟩
  have hsend : UdpEcho.step ⟨client, 0, {(0, last)}, none, out⟩ (.line 0 l) =
      some ⟨Function.update client 0 (c true (first :: (first :: lines).dropLast)), {(0, l)},
        {(0, last)}, none, out⟩ := by
    simp [UdpEcho.step, State.put, hclient, hl.1, cstr_of_no_nul hl.2, c]
  have hprint : UdpEcho.step ⟨Function.update client 0 (c true (first :: (first ::
      lines).dropLast)), {(0, l)}, {(0, last)}, none, out⟩ (.print 0 last) =
      some ⟨Function.update client 0 (c false (first :: first :: lines)), {(0, l)}, 0, none,
        out⟩ := by
    simp [UdpEcho.step, State.put, hline.take, cstr_of_no_nul hline.2, hsplit, c]
  have hreceive : UdpEcho.step ⟨Function.update client 0 (c false (first :: first :: lines)),
      {(0, l)}, 0, none, out⟩ (.receive (0, l)) =
      some ⟨Function.update client 0 (c false (first :: first :: lines)), 0, 0, some (0, l),
        out⟩ := by
    simp [UdpEcho.step, hl.take]
  refine ⟨[.line 0 l, .print 0 last, .receive (0, l), .send], _,
    (System.run_cons_eq_some _).2 ⟨_, hsend, (System.run_cons_eq_some _).2 ⟨_, hprint,
      (System.run_cons_eq_some _).2 ⟨_, hreceive, rfl⟩⟩⟩, rfl, ?_⟩
  refine ⟨?_, rfl, ⟨l, ?_, rfl⟩, rfl⟩
  · rw [← List.cons_append, List.dropLast_concat]
    exact Function.update_self (0 : Fin 1) (c false (first :: first :: lines)) client
  · rw [← List.cons_append, List.getLast?_concat]

/-- After one datagram that is delivered twice a client prints, for each line, the one before. -/
theorem stale {first : List Byte} {lines : List (List Byte)}
    (hlines : ∀ text ∈ first :: lines, IsLine text) : ∃ as s,
      (udpEcho 1).run (start 1) as = some s ∧ as.countP Action.repeats = 1 ∧
        Behind s first lines := by
  induction lines using List.reverseRecOn with
  | nil =>
    have hline := hlines first List.mem_cons_self
    let c (waiting : Bool) (printed : List (List Byte)) : Fin 1 → Client :=
      Function.update (start 1).client 0 ⟨waiting, [first], printed⟩
    have hsend : UdpEcho.step (start 1) (.line 0 first) =
        some ⟨c true [], {(0, first)}, 0, none, []⟩ := by
      simp [UdpEcho.step, State.put, start, hline.1, cstr_of_no_nul hline.2, c]
    have hrepeat : UdpEcho.step ⟨c true [], {(0, first)}, 0, none, []⟩
        (.repeatRequest (0, first)) =
        some ⟨c true [], {(0, first), (0, first)}, 0, none, []⟩ := by
      simp [UdpEcho.step]
    have hreceive : ∀ requests replies out, UdpEcho.step
        ⟨c true [], (0, first) ::ₘ requests, replies, none, out⟩ (.receive (0, first)) =
        some ⟨c true [], requests, replies, some (0, first), out⟩ := by
      simp [UdpEcho.step, hline.take]
    have hprint : ∀ out, UdpEcho.step ⟨c true [], 0, {(0, first), (0, first)}, none, out⟩
        (.print 0 first) = some ⟨c false [first], 0, {(0, first)}, none, out⟩ := by
      simp [UdpEcho.step, State.put, hline.take, cstr_of_no_nul hline.2, c]
    refine ⟨[.line 0 first, .repeatRequest (0, first), .receive (0, first), .send,
      .receive (0, first), .send, .print 0 first], _,
      (System.run_cons_eq_some _).2 ⟨_, hsend, (System.run_cons_eq_some _).2 ⟨_, hrepeat,
      (System.run_cons_eq_some _).2 ⟨_, hreceive _ _ _, (System.run_cons_eq_some _).2 ⟨_, rfl,
      (System.run_cons_eq_some _).2 ⟨_, hreceive 0 _ _, (System.run_cons_eq_some _).2 ⟨_, rfl,
      (System.run_cons_eq_some _).2 ⟨_, hprint _, rfl⟩⟩⟩⟩⟩⟩⟩, rfl, ?_⟩
    exact ⟨Function.update_self (0 : Fin 1) (⟨false, [first], [first]⟩ : Client) (start 1).client,
      rfl, ⟨first, rfl, rfl⟩, rfl⟩
  | append_singleton lines l ih =>
    obtain ⟨hbefore, hl⟩ := List.forall_mem_append.1 (List.cons_append ▸ hlines)
    obtain ⟨as, s, hrun, hcount, hs⟩ := ih hbefore
    obtain ⟨bs, t, hrun', hcount', ht⟩ := hs.round hbefore (hl l List.mem_cons_self)
    refine ⟨as ++ bs, t, ?_, ?_, ht⟩
    · rw [System.run_append, hrun, Option.bind_some, hrun']
    · rw [List.countP_append, hcount, hcount']

/-- The second line is answered with the first. -/
theorem stale_two : ∃ as s, (udpEcho 1).run (start 1) as = some s ∧
    as.countP Action.repeats = 1 ∧ (s.client 0).sent = [[97, 10], [98, 10]] ∧
      (s.client 0).printed = [[97, 10], [97, 10]] := by
  have hlines : ∀ text ∈ ([[97, 10], [98, 10]] : List (List Byte)), IsLine text := by
    intro text htext
    simp only [List.mem_cons, List.not_mem_nil, or_false] at htext
    rcases htext with rfl | rfl <;> exact ⟨by decide, by decide⟩
  obtain ⟨as, s, hrun, hcount, hs⟩ := stale hlines
  exact ⟨as, s, hrun, hcount, by rw [hs.client], by rw [hs.client]; rfl⟩

end NetCentric.UdpEcho
