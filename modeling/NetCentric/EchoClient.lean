import NetCentric.CString
import NetCentric.Transition
import Mathlib.Data.Multiset.Bind
import Mathlib.Data.Multiset.UnionInter

/-!
# The UDP echo clients with a timeout

The three variants of `echo_client` send a line, wait for a reply for some seconds, and go
on to the next line with or without one. `alarm` and `SO_RCVTIMEO` end `recvfrom` itself,
and `select` is asked first. The network may lose a datagram and keep a reply for any
time, and the server sends back what it gets. A datagram carries the number of its line
here, which the clients do not see : they take the first reply in the socket for the
answer.

`echo_replies` : every reply that is printed is a copy of a line that was sent, no reply is
printed twice, and if every reply comes while the client waits for it or not at all, each
is printed for its own line. A reply that comes late is printed for another
(`echo_late_reply`).
-/

namespace NetCentric

namespace EchoClient

/-- How a client waits for a reply. -/
inductive Variant
  /-- `recvfrom`, interrupted by SIGALRM. -/
  | alarm
  /-- `select`, and then `recvfrom`. -/
  | select
  /-- `recvfrom` on a socket with `SO_RCVTIMEO`. -/
  | rcvtimeo
  deriving DecidableEq

/-- Where a client is. -/
inductive Pc
  /-- At `fgets`. -/
  | reading
  /-- At `recvfrom`, or at `select`. -/
  | waiting
  /-- At `recvfrom`, after `select`. -/
  | readable
  deriving DecidableEq

/-- A datagram of the line with this number, and its bytes. -/
structure Datagram where
  line : ℕ
  text : List Byte
  deriving DecidableEq

/-- The client, and the datagrams that are on their way. -/
structure State where
  pc : Pc
  /-- The lines sent so far. -/
  sent : List (List Byte)
  toServer : Multiset Datagram
  toClient : Multiset Datagram
  /-- The replies that have come to the socket. -/
  socket : List Datagram
  /-- The replies printed, each with the number of the line that was sent last. -/
  printed : List (ℕ × Datagram)

/-- One step of the client, the server or the network. -/
inductive Action
  /-- `fgets` reads a line, and `sendto` sends it. -/
  | line (sendline : List Byte)
  /-- The server gets a datagram and sends it back. -/
  | echo (d : Datagram)
  | loseRequest (d : Datagram)
  | loseReply (d : Datagram)
  /-- A reply comes to the socket of the client. -/
  | deliver (d : Datagram)
  /-- `select` says that the socket is readable. -/
  | select
  /-- `recvfrom` returns a reply, and `fputs` prints it. -/
  | receive
  /-- The wait ends without a reply. -/
  | timeout

/-- Where a client of this kind calls `recvfrom`. -/
def Variant.receiving : Variant → Pc
  | .select => .readable
  | _ => .waiting

def step (v : Variant) (s : State) : Action → Option State
  | .line sendline =>
    if s.pc = .reading then some { s with
      pc := .waiting
      sent := s.sent ++ [cstr sendline]
      toServer := ⟨s.sent.length, cstr sendline⟩ ::ₘ s.toServer }
    else none
  | .echo d =>
    if d ∈ s.toServer then some { s with
      toServer := s.toServer.erase d
      toClient := d ::ₘ s.toClient }
    else none
  | .loseRequest d =>
    if d ∈ s.toServer then some { s with toServer := s.toServer.erase d } else none
  | .loseReply d =>
    if d ∈ s.toClient then some { s with toClient := s.toClient.erase d } else none
  | .deliver d =>
    if d ∈ s.toClient then some { s with
      toClient := s.toClient.erase d
      socket := s.socket ++ [d] }
    else none
  | .select =>
    if v = .select ∧ s.pc = .waiting ∧ s.socket ≠ [] then some { s with pc := .readable } else none
  | .receive =>
    match s.socket with
    | d :: socket =>
      if s.pc = v.receiving then some { s with
        pc := .reading
        socket := socket
        printed := s.printed ++ [(s.sent.length - 1, d)] }
      else none
    | [] => none
  | .timeout =>
    if s.pc = .waiting ∧ s.socket = [] then some { s with pc := .reading } else none

/-- Before the first line. -/
def start : State :=
  ⟨.reading, [], 0, 0, [], []⟩

/-- The client, the server and the network. -/
def echoClient (v : Variant) : System State Action where
  Init s := s = start
  step := step v

/-- A reply comes while the client waits for it. -/
def Timely (s : State) : Action → Prop
  | .deliver d => s.pc ≠ .reading ∧ d.line + 1 = s.sent.length
  | _ => True

instance (s : State) (a : Action) : Decidable (Timely s a) :=
  match a with
  | .deliver _ => inferInstanceAs (Decidable (_ ∧ _))
  | .line _ | .echo _ | .loseRequest _ | .loseReply _ | .select | .receive | .timeout =>
    .isTrue trivial

/-! ## The datagrams -/

/-- All datagrams that there are, as requests, as replies and as what was printed. -/
def State.all (s : State) : Multiset Datagram :=
  s.toServer + s.toClient + s.socket + s.printed.map Prod.snd

/-- Each line has at most one datagram, and that is a copy of it. -/
structure Inv (s : State) : Prop where
  once : (s.all.map Datagram.line).Nodup
  copies : ∀ d ∈ s.all, s.sent[d.line]? = some d.text
  order : ∀ p ∈ s.printed, p.2.line ≤ p.1

variable {v : Variant} {s t : State}

theorem Inv.lt_of_mem (hI : Inv s) {d : Datagram} (hd : d ∈ s.all) : d.line < s.sent.length :=
  List.getElem?_eq_some_iff.1 (hI.copies d hd) |>.1

/-- There are no two datagrams of a line in a place. -/
theorem Inv.nodup_of_le (hI : Inv s) {ds : List Datagram} (h : (ds : Multiset Datagram) ≤ s.all) :
    (ds.map Datagram.line).Nodup := by
  have hnodup := Multiset.nodup_of_le (Multiset.map_le_map h) hI.once
  rwa [Multiset.map_coe, Multiset.coe_nodup] at hnodup

/-- No datagram is new. -/
theorem Inv.of_le (hI : Inv s) (hall : t.all ≤ s.all) (hsent : t.sent = s.sent)
    (horder : ∀ p ∈ t.printed, p.2.line ≤ p.1) : Inv t :=
  ⟨Multiset.nodup_of_le (Multiset.map_le_map hall) hI.once,
    fun d hd => hsent ▸ hI.copies d (Multiset.mem_of_le hall hd), horder⟩

theorem step_receive (h : step v s .receive = some t) :
    ∃ d socket, s.socket = d :: socket ∧ s.pc = v.receiving ∧ t = { s with
      pc := .reading
      socket := socket
      printed := s.printed ++ [(s.sent.length - 1, d)] } := by
  cases hsocket : s.socket with
  | nil => simp [step, hsocket] at h
  | cons d socket =>
    simp only [step, hsocket, Option.ite_none_right_eq_some] at h
    exact ⟨d, socket, rfl, h.1, (Option.some.inj h.2).symm⟩

/-- A new line has a new number. -/
theorem Inv.line (hI : Inv s) (sendline : List Byte) : Inv { s with
    pc := .waiting
    sent := s.sent ++ [cstr sendline]
    toServer := ⟨s.sent.length, cstr sendline⟩ ::ₘ s.toServer } := by
  have hall : ∀ t : State, t = { s with
      pc := .waiting
      sent := s.sent ++ [cstr sendline]
      toServer := ⟨s.sent.length, cstr sendline⟩ ::ₘ s.toServer } →
      t.all = ⟨s.sent.length, cstr sendline⟩ ::ₘ s.all := by
    rintro t rfl
    simp only [State.all, Multiset.cons_add]
  refine ⟨?_, fun d hd => ?_, hI.order⟩
  · rw [hall _ rfl, Multiset.map_cons, Multiset.nodup_cons]
    refine ⟨fun hmem => ?_, hI.once⟩
    obtain ⟨d, hd, hline⟩ := Multiset.mem_map.1 hmem
    exact absurd hline (hI.lt_of_mem hd).ne
  · rw [hall _ rfl, Multiset.mem_cons] at hd
    rcases hd with rfl | hd
    · exact List.getElem?_concat_length
    · rw [List.getElem?_append_left (hI.lt_of_mem hd)]
      exact hI.copies d hd

theorem Inv.step {a : Action} (hI : Inv s) (h : step v s a = some t) : Inv t := by
  cases a with
  | line sendline =>
    obtain ⟨-, h⟩ := Option.ite_none_right_eq_some.1 h
    exact Option.some.inj h ▸ hI.line sendline
  | echo d =>
    obtain ⟨hd, h⟩ := Option.ite_none_right_eq_some.1 h
    obtain rfl := Option.some.inj h
    refine hI.of_le (le_of_eq ?_) rfl hI.order
    simp only [State.all, Multiset.add_cons, ← Multiset.cons_add, Multiset.cons_erase hd]
  | loseRequest d =>
    obtain ⟨-, h⟩ := Option.ite_none_right_eq_some.1 h
    obtain rfl := Option.some.inj h
    refine hI.of_le ?_ rfl hI.order
    simp only [State.all]
    gcongr
    exact Multiset.erase_le _ _
  | loseReply d =>
    obtain ⟨-, h⟩ := Option.ite_none_right_eq_some.1 h
    obtain rfl := Option.some.inj h
    refine hI.of_le ?_ rfl hI.order
    simp only [State.all]
    gcongr
    exact Multiset.erase_le _ _
  | deliver d =>
    obtain ⟨hd, h⟩ := Option.ite_none_right_eq_some.1 h
    obtain rfl := Option.some.inj h
    refine hI.of_le (le_of_eq ?_) rfl hI.order
    conv_rhs => rw [State.all, ← Multiset.cons_erase hd]
    simp only [State.all, ← Multiset.coe_add, Multiset.coe_singleton, ← Multiset.singleton_add]
    ac_rfl
  | select =>
    obtain ⟨-, h⟩ := Option.ite_none_right_eq_some.1 h
    exact Option.some.inj h ▸ ⟨hI.once, hI.copies, hI.order⟩
  | receive =>
    obtain ⟨d, socket, hsocket, -, rfl⟩ := step_receive h
    have hall : ∀ u : State, u = { s with
        pc := .reading
        socket := socket
        printed := s.printed ++ [(s.sent.length - 1, d)] } → u.all = s.all := by
      rintro u rfl
      simp only [State.all, hsocket, List.map_append, List.map_cons, List.map_nil,
        ← Multiset.coe_add, ← Multiset.cons_coe, ← Multiset.singleton_add]
      ac_rfl
    refine hI.of_le (hall _ rfl).le rfl fun p hp => ?_
    rcases List.mem_append.1 hp with hp | hp
    · exact hI.order p hp
    · obtain rfl := List.mem_singleton.1 hp
      have hd : d ∈ s.all := by simp [State.all, hsocket]
      have hlt := hI.lt_of_mem hd
      dsimp only
      omega
  | timeout =>
    obtain ⟨-, h⟩ := Option.ite_none_right_eq_some.1 h
    exact Option.some.inj h ▸ ⟨hI.once, hI.copies, hI.order⟩

/-! ## Replies in time -/

/-- The replies in the socket are those the client waits for, and each reply printed was for
the line sent last. -/
structure Matching (s : State) : Prop extends Inv s where
  current : ∀ d ∈ s.socket, s.pc ≠ .reading ∧ d.line + 1 = s.sent.length
  answers : ∀ p ∈ s.printed, p.2.line = p.1

theorem Matching.step {a : Action} (hM : Matching s) (ha : Timely s a) (h : step v s a = some t) :
    Matching t := by
  have hI := hM.toInv.step h
  have hempty : s.pc = .reading → s.socket = [] := fun hpc =>
    List.eq_nil_iff_forall_not_mem.2 fun d hd => (hM.current d hd).1 hpc
  cases a with
  | line sendline =>
    obtain ⟨hpc, h⟩ := Option.ite_none_right_eq_some.1 h
    obtain rfl := Option.some.inj h
    exact ⟨hI, by simp [hempty hpc], hM.answers⟩
  | echo d =>
    obtain ⟨-, h⟩ := Option.ite_none_right_eq_some.1 h
    exact Option.some.inj h ▸ ⟨Option.some.inj h ▸ hI, hM.current, hM.answers⟩
  | loseRequest d =>
    obtain ⟨-, h⟩ := Option.ite_none_right_eq_some.1 h
    exact Option.some.inj h ▸ ⟨Option.some.inj h ▸ hI, hM.current, hM.answers⟩
  | loseReply d =>
    obtain ⟨-, h⟩ := Option.ite_none_right_eq_some.1 h
    exact Option.some.inj h ▸ ⟨Option.some.inj h ▸ hI, hM.current, hM.answers⟩
  | deliver d =>
    obtain ⟨-, h⟩ := Option.ite_none_right_eq_some.1 h
    obtain rfl := Option.some.inj h
    refine ⟨hI, fun e he => ?_, hM.answers⟩
    rcases List.mem_append.1 he with he | he
    · exact hM.current e he
    · obtain rfl := List.mem_singleton.1 he
      exact ha
  | select =>
    obtain ⟨-, h⟩ := Option.ite_none_right_eq_some.1 h
    obtain rfl := Option.some.inj h
    exact ⟨hI, fun d hd => ⟨nofun, (hM.current d hd).2⟩, hM.answers⟩
  | receive =>
    obtain ⟨d, socket, hsocket, -, rfl⟩ := step_receive h
    have hd := (hM.current d (by simp [hsocket])).2
    -- a second reply in the socket would be for the same line
    have hnil : socket = [] := by
      refine List.eq_nil_iff_forall_not_mem.2 fun e he => ?_
      have hline : e.line = d.line := by
        have := (hM.current e (by simp [hsocket, he])).2
        omega
      have hnodup := hM.nodup_of_le (Multiset.le_add_left _ _ |>.trans (Multiset.le_add_right _ _) :
        (s.socket : Multiset Datagram) ≤ s.all)
      rw [hsocket, List.map_cons, List.nodup_cons] at hnodup
      exact hnodup.1 (List.mem_map.2 ⟨e, he, hline⟩)
    refine ⟨hI, by simp [hnil], fun p hp => ?_⟩
    rcases List.mem_append.1 hp with hp | hp
    · exact hM.answers p hp
    · obtain rfl := List.mem_singleton.1 hp
      dsimp only
      omega
  | timeout =>
    obtain ⟨⟨-, hsocket⟩, h⟩ := Option.ite_none_right_eq_some.1 h
    obtain rfl := Option.some.inj h
    exact ⟨hI, by simp [hsocket], hM.answers⟩

theorem matching_start : Matching start :=
  ⟨⟨Multiset.nodup_zero, fun _ hd => absurd hd (Multiset.notMem_zero _), nofun⟩, nofun, nofun⟩

/-- Every reply that is printed is a copy of a line sent by then, and no line's reply is
printed twice. If each reply comes while the client waits for it or not at all, it is
printed for its own line. -/
theorem echo_replies {s : State} {as : List Action} (h : (echoClient v).run start as = some s) :
    (∀ p ∈ s.printed, s.sent[p.2.line]? = some p.2.text ∧ p.2.line ≤ p.1) ∧
    (s.printed.map fun p => p.2.line).Nodup ∧
    ((∀ t a, (echoClient v).Takes start as t a → Timely t a) →
      ∀ p ∈ s.printed, p.2.line = p.1) := by
  have hI : Inv s := System.run_invariant (fun _ _ _ hI hstep => hI.step hstep)
    matching_start.toInv h
  have hle : ((s.printed.map Prod.snd : List Datagram) : Multiset Datagram) ≤ s.all :=
    Multiset.le_add_left _ _
  refine ⟨fun p hp => ⟨hI.copies p.2 ?_, hI.order p hp⟩, ?_, fun htimely => ?_⟩
  · exact Multiset.mem_of_le hle (List.mem_map_of_mem hp)
  · simpa [Function.comp_def] using hI.nodup_of_le hle
  · have hM : Matching s := System.visits_invariant (P := Timely)
      (fun _ _ _ hM ha hstep => hM.step ha hstep) matching_start htimely (System.visits_last h)
    exact hM.answers

/-- Three lines, of which the second one is not answered. -/
def threeLines : List Action :=
  [.line [97, 10], .echo ⟨0, [97, 10]⟩, .deliver ⟨0, [97, 10]⟩, .select, .receive,
    .line [98, 10], .echo ⟨1, [98, 10]⟩, .loseReply ⟨1, [98, 10]⟩, .timeout,
    .line [99, 10], .echo ⟨2, [99, 10]⟩, .deliver ⟨2, [99, 10]⟩, .select, .receive]

theorem echo_replies_three : ∃ s, (echoClient .select).run start threeLines = some s ∧
    s.printed = [(0, ⟨0, [97, 10]⟩), (2, ⟨2, [99, 10]⟩)] ∧ ∀ p ∈ s.printed, p.2.line = p.1 := by
  obtain ⟨s, hs, hprinted⟩ : ∃ s, (echoClient .select).run start threeLines = some s ∧
      s.printed = [(0, ⟨0, [97, 10]⟩), (2, ⟨2, [99, 10]⟩)] := ⟨_, rfl, rfl⟩
  have hpasses : (echoClient .select).passes (fun s a => decide (Timely s a)) start threeLines := by
    decide +kernel
  exact ⟨s, hs, hprinted, (echo_replies hs).2.2 fun t a ha =>
    of_decide_eq_true (ha.of_passes hpasses)⟩

/-- The reply to a line that the client has given up on answers the next line. -/
theorem echo_late_reply : ¬∀ (v : Variant) (s : State), (echoClient v).Reachable s →
    ∀ p ∈ s.printed, p.2.line = p.1 := by
  intro h
  obtain ⟨s, hs, hprinted⟩ : ∃ s, (echoClient .alarm).run start [.line [97, 10], .timeout,
      .line [98, 10], .echo ⟨0, [97, 10]⟩, .deliver ⟨0, [97, 10]⟩, .receive] = some s ∧
        s.printed = [(1, ⟨0, [97, 10]⟩)] := ⟨_, rfl, rfl⟩
  have hline := h .alarm s ⟨start, _, rfl, hs⟩ (1, ⟨0, [97, 10]⟩) (by simp [hprinted])
  cases hline

end EchoClient

end NetCentric
