import LinkManagement.Video.Sessions

/-!
# The INIT handshake

The server answers an INIT and goes to RECV_VIDEO in one step, and in RECV_VIDEO it answers nothing.
The client sends INIT until it is acknowledged.  Whether a client in its INIT loop can still be
acknowledged is therefore decided by the datagrams in flight and the state of the server.

* `canFinish_of_ack`, `canFinish_of_waiting` — the ways in which a client can still be acknowledged;
* `recvVideo_canFinish_iff` — in RECV_VIDEO there is only one: an INIT_ACK in flight;
* `handshake_completes` — a run without the events that close both keeps one open for every client;
* `lost_ack_stuck` — the only INIT_ACK is lost.
-/

namespace LinkManagement.Handshake

open LinkManagement.Transition LinkManagement.MachineInt LinkManagement.Connection
open LinkManagement.InitLoop LinkManagement.Sessions

/-- An INIT_ACK of the server to the client at `addr`. -/
def IsInitAck (serverAddr addr : Addr) (d : Datagram) : Prop :=
  d.src = serverAddr ∧ d.dst = addr ∧ d.data.head? = some PacketType.initAck.code

/-- A datagram of the client at `addr` that `wait_init` takes for an INIT, whatever its array holds. -/
def IsInit (serverAddr addr : Addr) (d : Datagram) : Prop :=
  d.src = addr ∧ d.dst = serverAddr ∧ d.data.head? = some PacketType.init.code

instance (serverAddr addr : Addr) (d : Datagram) : Decidable (IsInitAck serverAddr addr d) :=
  inferInstanceAs (Decidable (_ ∧ _))

instance (serverAddr addr : Addr) (d : Datagram) : Decidable (IsInit serverAddr addr d) :=
  inferInstanceAs (Decidable (_ ∧ _))

/-- Nothing is lost, and nothing is stopped, started or restarted. -/
def Continues : Act → Prop
  | .lose _ | .serverRestart _ _ | .clientStart _ _ _ _ | .clientStop _ => False
  | _ => True

/-- In state `s` client `j` waits for an INIT_ACK, and datagram `i` in flight is one. -/
def AckArrives (serverAddr : Addr) (s : Session) (j i : ℕ) : Prop :=
  ∃ c d, s.clients[j]? = some c ∧ c.phase = .waitAck ∧ s.net[i]? = some d ∧
    IsInitAck serverAddr c.addr d

/-- There is a continuation in which client `j` receives an INIT_ACK and enters `video_send_loop`. -/
def CanFinish (z : SizeT) (o : ByteOrder) (serverAddr : Addr) (max : ℕ) (s : Session) (j : ℕ) : Prop :=
  ∃ as m i s', (∀ a ∈ as, Continues a) ∧
    runFrom (sessionStep z o serverAddr max) s as = some m ∧ AckArrives serverAddr m j i ∧
    sessionStep z o serverAddr max m (.clientRecv j i) = some s' ∧
    ∃ c, s'.clients[j]? = some c ∧ c.phase = .video

instance (c : Client) : Decidable c.InInitLoop := inferInstanceAs (Decidable (_ ∨ _))

/-- The step is none of the events after which a client can be left behind: in RECV_VIDEO, the loss of an
INIT_ACK to a client in its INIT loop of which no copy is in flight; a session that starts on a datagram
of anyone but the client in its INIT loop; and the start of a client after the server has left
WAITING_INIT, or with an acknowledgement in its uninitialised variables. -/
def KeepsWay (serverAddr : Addr) (s : Session) : Act → Prop
  | .lose i => s.server.connectionStatus = .recvVideo → ∀ d ∈ s.net[i]?, ∀ c ∈ s.clients,
      c.InInitLoop → IsInitAck serverAddr c.addr d → d ∈ s.net.eraseIdx i
  | .serverRecv i => s.server.connectionStatus = .waitingInit → ∀ d ∈ s.net[i]?,
      testedByte s.server d = some PacketType.init.code → ∀ c ∈ s.clients, c.InInitLoop →
        d.src = c.addr
  | .clientStart _ srcAddr mem debug => debug = false →
      s.server.connectionStatus = .waitingInit ∧
        gotInitAck serverAddr srcAddr (uninitialised mem) = false
  | _ => True

instance (serverAddr : Addr) (s : Session) : (a : Act) → Decidable (KeepsWay serverAddr s a)
  | .lose i => inferInstanceAs (Decidable (_ → ∀ d ∈ s.net[i]?, ∀ c ∈ s.clients, _ → _ → _))
  | .serverRecv i => inferInstanceAs (Decidable (_ → ∀ d ∈ s.net[i]?, _ → ∀ c ∈ s.clients, _ → _))
  | .clientStart _ _ _ _ => inferInstanceAs (Decidable (_ → _ ∧ _))
  | .duplicate _ | .fifoRead | .serverRestart _ _ | .clientStop _ | .clientSend _ _
  | .clientTimeout _ | .clientRecv _ _ => isTrue trivial

/-! ### A client that can be acknowledged -/

section Continuations

variable {z : SizeT} {o : ByteOrder} {serverAddr : Addr} {max : ℕ} {s m : Session} {j : ℕ} {c : Client}

theorem ackArrives_finishes {i : ℕ} (h : AckArrives serverAddr s j i) :
    ∃ s', sessionStep z o serverAddr max s (.clientRecv j i) = some s' ∧
      ∃ c, s'.clients[j]? = some c ∧ c.phase = .video := by
  obtain ⟨c, d, hc, hphase, hd, hsrc, hdst, hbyte⟩ := h
  have hjlt : j < s.clients.length := (List.getElem?_eq_some_iff.mp hc).1
  have hgot : gotInitAck serverAddr d.src (recvData d.data c.response).2 = true := by
    rw [gotInitAck_iff (b := PacketType.initAck.code) (by rw [recvData_head?, hbyte]; rfl)]
    exact ⟨hsrc, rfl⟩
  have hrecv : clientReceive serverAddr c (.datagram d.src d.data) =
      some { c with srcAddr := d.src, response := (recvData d.data c.response).2, phase := .video } := by
    rw [clientReceive, hphase]
    simp only [recvDataTimeout, hgot, if_true]
  have hstep : sessionStep z o serverAddr max s (.clientRecv j i) = some { s with
      net := s.net.eraseIdx i
      clients := s.clients.set j
        { c with srcAddr := d.src, response := (recvData d.data c.response).2, phase := .video } } := by
    rw [sessionStep, hc, Option.bind_some, hd, Option.bind_some, if_pos hdst, hrecv, Option.map_some]
  exact ⟨_, hstep, _, List.getElem?_set_self hjlt, rfl⟩

theorem canFinish_of_ackArrives {i : ℕ} (h : AckArrives serverAddr s j i) :
    CanFinish z o serverAddr max s j := by
  obtain ⟨s', hstep, hvideo⟩ := ackArrives_finishes h
  exact ⟨[], s, i, s', List.forall_mem_nil _, rfl, h, hstep, hvideo⟩

theorem CanFinish.after {a : Act} (ha : Continues a)
    (hstep : sessionStep z o serverAddr max s a = some m) (h : CanFinish z o serverAddr max m j) :
    CanFinish z o serverAddr max s j := by
  obtain ⟨as, m', i, s', has, hrun, hrest⟩ := h
  exact ⟨a :: as, m', i, s', List.forall_mem_cons.mpr ⟨ha, has⟩,
    runFrom_cons_eq_some.mpr ⟨m, hstep, hrun⟩, hrest⟩

theorem sendInit_step (hc : s.clients[j]? = some c) (hphase : c.phase = .sendInit) :
    sessionStep z o serverAddr max s (.clientSend j .init) = some { s with
      net := s.net ++ [sendPacketType c.addr serverAddr .init]
      clients := s.clients.set j { c with phase := .waitAck } } := by
  have hsend : clientSend serverAddr c .init =
      some (.waitAck, [sendPacketType c.addr serverAddr .init]) := by
    simp only [clientSend, hphase]
  rw [sessionStep, hc, Option.bind_some, hsend, Option.map_some]

/-- **An INIT_ACK in flight** is enough; a client about to send INIT sends it first. -/
theorem canFinish_of_ack (hc : s.clients[j]? = some c) (hloop : c.InInitLoop) {d : Datagram}
    (hd : d ∈ s.net) (hack : IsInitAck serverAddr c.addr d) : CanFinish z o serverAddr max s j := by
  obtain ⟨i, hi⟩ := List.getElem?_of_mem hd
  rcases hloop with hphase | hphase
  · refine .after (a := .clientSend j .init) trivial (sendInit_step hc hphase) ?_
    have hjlt : j < s.clients.length := (List.getElem?_eq_some_iff.mp hc).1
    have hilt : i < s.net.length := (List.getElem?_eq_some_iff.mp hi).1
    exact canFinish_of_ackArrives (i := i) ⟨_, d, List.getElem?_set_self hjlt, rfl,
      (List.getElem?_append_left hilt).trans hi, hack⟩
  · exact canFinish_of_ackArrives ⟨c, d, hc, hphase, hi, hack⟩

/-- **A waiting server and an INIT in flight** are enough: the server answers it. -/
theorem canFinish_of_init (hc : s.clients[j]? = some c) (hloop : c.InInitLoop)
    (hwait : s.server.connectionStatus = .waitingInit) {d : Datagram} (hd : d ∈ s.net)
    (hinit : IsInit serverAddr c.addr d) : CanFinish z o serverAddr max s j := by
  obtain ⟨i, hi⟩ := List.getElem?_of_mem hd
  obtain ⟨hsrc, hdst, hbyte⟩ := hinit
  have htest : testedByte s.server d = some PacketType.init.code := by
    rw [testedByte, hbyte]
    rfl
  have hstep : ∃ m, sessionStep z o serverAddr max s (.serverRecv i) = some m ∧
      m.clients = s.clients ∧ sendPacketType serverAddr d.src .initAck ∈ m.net := by
    rw [sessionStep, hi, Option.bind_some, if_pos hdst, serverTakes, hwait]
    refine ⟨_, rfl, rfl, ?_⟩
    show _ ∈ s.net.eraseIdx i ++ (waitInit serverAddr s.server d).2
    rw [waitInit_eq, if_pos htest]
    exact List.mem_append_right _ (List.mem_singleton_self _)
  obtain ⟨m, hm, hclients, hnet⟩ := hstep
  refine .after (a := .serverRecv i) trivial hm ?_
  exact canFinish_of_ack (hclients ▸ hc) hloop hnet ⟨rfl, hsrc, rfl⟩

/-- **A waiting server** is enough, if the client's test rejects what its variables hold: the client can
time out and send INIT again. -/
theorem canFinish_of_waiting (hc : s.clients[j]? = some c) (hloop : c.InInitLoop)
    (hwait : s.server.connectionStatus = .waitingInit)
    (hrejects : gotInitAck serverAddr c.srcAddr c.response = false) :
    CanFinish z o serverAddr max s j := by
  have hjlt : j < s.clients.length := (List.getElem?_eq_some_iff.mp hc).1
  have hsend : ∀ {s : Session} {c : Client}, s.clients[j]? = some c → c.phase = .sendInit →
      s.server.connectionStatus = .waitingInit → CanFinish z o serverAddr max s j := by
    intro s c hc hphase hwait
    have hjlt : j < s.clients.length := (List.getElem?_eq_some_iff.mp hc).1
    refine .after (a := .clientSend j .init) trivial (sendInit_step hc hphase) ?_
    exact canFinish_of_init (List.getElem?_set_self hjlt) (.inr rfl) hwait
      (List.mem_append_right _ (List.mem_singleton_self _)) ⟨rfl, rfl, rfl⟩
  rcases hloop with hphase | hphase
  · exact hsend hc hphase hwait
  · have htimeout : sessionStep z o serverAddr max s (.clientTimeout j) = some { s with
        clients := s.clients.set j { c with phase := .sendInit } } := by
      rw [sessionStep, hc, Option.bind_some, clientReceive, hphase]
      simp only [recvDataTimeout, hrejects, Bool.false_eq_true, if_false, Option.map_some]
    refine .after (a := .clientTimeout j) trivial htimeout ?_
    exact hsend (List.getElem?_set_self hjlt) rfl hwait

end Continuations

/-! ### What one client does -/

/-- A client sends INIT and waits, or it leaves no INIT loop and enters none; what it sends goes to the
server under its own address. -/
theorem clientSend_spec {serverAddr : Addr} {c : Client} {a : ClientSend}
    {p : Phase × List Datagram} (h : clientSend serverAddr c a = some p) :
    (∀ d ∈ p.2, d.src = c.addr ∧ d.dst = serverAddr) ∧
      ((c.phase = .sendInit ∧ p = (.waitAck, [sendPacketType c.addr serverAddr .init])) ∨
        (c.phase ≠ .stopped ∧ p.1 ≠ .sendInit ∧ p.1 ≠ .waitAck)) := by
  have hvideo : ∀ data, ∀ d ∈ videoDatagrams serverAddr c data, d.src = c.addr ∧ d.dst = serverAddr := by
    intro data d hd
    obtain ⟨payload, -, rfl⟩ := List.mem_map.mp hd
    exact ⟨rfl, rfl⟩
  have hcontrol : ∀ type, ∀ d ∈ [sendPacketType c.addr serverAddr type],
      d.src = c.addr ∧ d.dst = serverAddr := by
    intro type d hd
    rw [List.mem_singleton.mp hd]
    exact ⟨rfl, rfl⟩
  unfold clientSend at h
  split at h
  · cases h
    exact ⟨hcontrol _, .inl ⟨‹_›, rfl⟩⟩
  · split at h
    · cases h
      dsimp only
      exact ⟨hvideo _, .inr (by simp [*])⟩
    · cases h
  · cases h
    exact ⟨hcontrol _, .inr (by simp [*])⟩
  · cases h
    dsimp only
    exact ⟨hvideo _, .inr (by simp [*])⟩
  · cases h
    dsimp only
    exact ⟨hvideo _, .inr (by simp [*])⟩
  · cases h
    exact ⟨List.forall_mem_nil _, .inr (by simp [*])⟩
  · cases h
    exact ⟨hcontrol _, .inr (by simp [*])⟩
  · cases h

/-- A client that receives, or times out, is in its INIT loop afterwards only if it was waiting there
and its test rejected what its variables now hold. -/
theorem clientReceive_spec {serverAddr : Addr} {c c' : Client} {r : Received}
    (h : clientReceive serverAddr c r = some c') :
    c'.addr = c.addr ∧ c.phase ≠ .stopped ∧
      (c'.InInitLoop → c.phase = .waitAck ∧
        c'.response = (recvDataTimeout r c.srcAddr c.response).2.2 ∧
        c'.srcAddr = (recvDataTimeout r c.srcAddr c.response).2.1 ∧
        gotInitAck serverAddr c'.srcAddr c'.response = false) := by
  unfold clientReceive at h
  dsimp only at h
  split at h
  · rename_i hphase
    cases h
    refine ⟨rfl, by simp [hphase], fun hloop => ?_⟩
    cases hgot : gotInitAck serverAddr (recvDataTimeout r c.srcAddr c.response).2.1
        (recvDataTimeout r c.srcAddr c.response).2.2 with
    | true => simp [Client.InInitLoop, hgot] at hloop
    | false => exact ⟨hphase, rfl, rfl, rfl⟩
  · rename_i hphase
    cases h
    exact ⟨rfl, by simp [hphase], fun hloop => by simp [Client.InInitLoop] at hloop⟩
  · cases h

theorem not_initAck_of_stays {serverAddr : Addr} {c c' : Client} {d : Datagram}
    (h : clientReceive serverAddr c (.datagram d.src d.data) = some c') (hloop : c'.InInitLoop) :
    ¬ IsInitAck serverAddr c.addr d := by
  intro ⟨hsrc, _, hbyte⟩
  obtain ⟨-, hresponse, hsrcAddr, hgot⟩ := (clientReceive_spec h).2.2 hloop
  have hhead : c'.response.head? = some PacketType.initAck.code := by
    rw [hresponse, recvDataTimeout, recvData_head?, hbyte]
    rfl
  rw [← Bool.not_eq_true, gotInitAck_iff hhead] at hgot
  exact hgot ⟨hsrcAddr.trans hsrc, rfl⟩

/-! ### What a step does to the clients -/

theorem ne_stopped_of_inInitLoop {c : Client} (h : c.InInitLoop) : c.phase ≠ .stopped := by
  rcases h with h | h <;> simp [h]

theorem getElem?_set_cases {cs : List Client} {j k : ℕ} {c e : Client} (hj : j < cs.length)
    (he : (cs.set j c)[k]? = some e) : k = j ∧ e = c ∨ k ≠ j ∧ cs[k]? = some e := by
  by_cases hk : k = j
  · subst hk
    rw [List.getElem?_set_self hj, Option.some.injEq] at he
    exact .inl ⟨rfl, he.symm⟩
  · rw [List.getElem?_set_ne (Ne.symm hk)] at he
    exact .inr ⟨hk, he⟩

theorem getElem?_concat_cases {α : Type*} {l : List α} {x y : α} {j : ℕ}
    (h : (l ++ [x])[j]? = some y) : l[j]? = some y ∨ j = l.length ∧ y = x := by
  rcases Nat.lt_or_ge j l.length with hj | hj
  · rw [List.getElem?_append_left hj] at h
    exact .inl h
  · rw [List.getElem?_append_right hj, List.getElem?_singleton] at h
    split at h
    · exact .inr ⟨by omega, (Option.some.inj h).symm⟩
    · cases h

/-- One step of a client: it keeps its address, it does not come back, and it is in its INIT loop only if
it was there; what its variables hold is then still rejected. -/
structure ClientMoves (serverAddr : Addr) (c c' : Client) : Prop where
  addr : c'.addr = c.addr
  live : c'.phase ≠ .stopped → c.phase ≠ .stopped
  loop : c'.InInitLoop → c.InInitLoop
  rejects : c'.InInitLoop → gotInitAck serverAddr c.srcAddr c.response = false →
    gotInitAck serverAddr c'.srcAddr c'.response = false

theorem clientReceive_moves {serverAddr : Addr} {c c' : Client} {r : Received}
    (h : clientReceive serverAddr c r = some c') : ClientMoves serverAddr c c' := by
  obtain ⟨haddr, hlive, hstays⟩ := clientReceive_spec h
  exact ⟨haddr, fun _ => hlive, fun hloop => .inr (hstays hloop).1,
    fun hloop _ => (hstays hloop).2.2.2⟩

theorem clientSend_moves {serverAddr : Addr} {c : Client} {a : ClientSend}
    {p : Phase × List Datagram} (h : clientSend serverAddr c a = some p) :
    ClientMoves serverAddr c { c with phase := p.1 } := by
  obtain ⟨-, ⟨hphase, -⟩ | ⟨hlive, hsend, hwaits⟩⟩ := clientSend_spec h
  · exact ⟨rfl, fun _ => ne_stopped_of_inInitLoop (.inl hphase), fun _ => .inl hphase, fun _ hr => hr⟩
  · refine ⟨rfl, fun _ => hlive, fun hloop => ?_, fun _ hr => hr⟩
    rcases hloop with hphase | hphase
    · exact absurd hphase hsend
    · exact absurd hphase hwaits

/-- What a step does to the clients. -/
inductive ClientsStep (serverAddr : Addr) (cs cs' : List Client) : Act → Prop
  | same {a : Act} (h : cs' = cs) : ClientsStep serverAddr cs cs' a
  | moved {a : Act} (j : ℕ) (c c' : Client) (hc : cs[j]? = some c) (h : cs' = cs.set j c')
      (hmoves : ClientMoves serverAddr c c') : ClientsStep serverAddr cs cs' a
  | started (addr srcAddr : Addr) (mem : ℕ → UInt8) (debug : Bool) (hserver : addr ≠ serverAddr)
      (hfree : ∀ e ∈ cs, e.phase ≠ .stopped → e.addr ≠ addr)
      (h : cs' = cs ++ [.start addr srcAddr mem debug]) :
      ClientsStep serverAddr cs cs' (.clientStart addr srcAddr mem debug)

theorem sessionStep_clients {z : SizeT} {o : ByteOrder} {serverAddr : Addr} {max : ℕ}
    {s s' : Session} {a : Act} (hstep : sessionStep z o serverAddr max s a = some s') :
    ClientsStep serverAddr s.clients s'.clients a := by
  cases a with
  | lose i =>
    rw [sessionStep] at hstep
    split at hstep
    · cases hstep
      exact .same rfl
    · cases hstep
  | duplicate i =>
    obtain ⟨d, -, rfl⟩ := Option.map_eq_some_iff.mp hstep
    exact .same rfl
  | serverRecv i =>
    obtain ⟨d, -, -, hstep⟩ := serverRecv_step hstep
    unfold serverTakes at hstep
    cases hstatus : s.server.connectionStatus with
    | waitingInit =>
      simp only [hstatus, Option.some.injEq] at hstep
      subst hstep
      exact .same rfl
    | recvVideo =>
      simp only [hstatus] at hstep
      obtain ⟨srv, -, rfl⟩ := Option.map_eq_some_iff.mp hstep
      exact .same rfl
  | fifoRead =>
    obtain ⟨-, p, -, rfl⟩ := fifoRead_step hstep
    exact .same rfl
  | serverRestart heap mem =>
    cases hstep
    exact .same rfl
  | clientStart addr srcAddr mem debug =>
    rw [sessionStep] at hstep
    split at hstep
    · cases hstep
    · rename_i hfree
      cases hstep
      obtain ⟨hserver, hother⟩ := not_or.mp hfree
      exact .started addr srcAddr mem debug hserver
        (fun e he hlive heq => hother ⟨e, he, hlive, heq⟩) rfl
  | clientStop j =>
    obtain ⟨c, hc, rfl⟩ := Option.map_eq_some_iff.mp hstep
    have hnot : ¬ Client.InInitLoop { c with phase := .stopped } := by simp [Client.InInitLoop]
    exact .moved j c _ hc rfl
      ⟨rfl, fun hlive => absurd rfl hlive, fun hloop => absurd hloop hnot, fun _ hr => hr⟩
  | clientSend j a =>
    obtain ⟨c, hc, hstep⟩ := Option.bind_eq_some_iff.mp hstep
    obtain ⟨p, hp, rfl⟩ := Option.map_eq_some_iff.mp hstep
    exact .moved j c _ hc rfl (clientSend_moves hp)
  | clientTimeout j =>
    obtain ⟨c, hc, hstep⟩ := Option.bind_eq_some_iff.mp hstep
    obtain ⟨c', hc', rfl⟩ := Option.map_eq_some_iff.mp hstep
    exact .moved j c c' hc rfl (clientReceive_moves hc')
  | clientRecv j i =>
    obtain ⟨c, hc, hstep⟩ := Option.bind_eq_some_iff.mp hstep
    obtain ⟨d, -, hstep⟩ := Option.bind_eq_some_iff.mp hstep
    split at hstep
    · obtain ⟨c', hc', rfl⟩ := Option.map_eq_some_iff.mp hstep
      exact .moved j c c' hc rfl (clientReceive_moves hc')
    · cases hstep

theorem ClientsStep.addr {serverAddr : Addr} {cs cs' : List Client} {a : Act}
    (hstep : ClientsStep serverAddr cs cs' a)
    (ha : ∀ addr srcAddr mem debug, a ≠ .clientStart addr srcAddr mem debug) (k : ℕ) (c' : Client)
    (hc' : cs'[k]? = some c') : ∃ c, cs[k]? = some c ∧ c'.addr = c.addr := by
  cases hstep with
  | same heq => exact ⟨c', heq ▸ hc', rfl⟩
  | moved j c c₁ hc heq hmoves =>
    rw [heq] at hc'
    rcases getElem?_set_cases (List.getElem?_eq_some_iff.mp hc).1 hc' with ⟨rfl, rfl⟩ | ⟨-, hc'⟩
    · exact ⟨c, hc, hmoves.addr⟩
    · exact ⟨c', hc', rfl⟩
  | started addr srcAddr mem debug => exact absurd rfl (ha addr srcAddr mem debug)

/-- The clients have addresses of their own. -/
structure AddrsOk (serverAddr : Addr) (cs : List Client) : Prop where
  ne : ∀ {j : ℕ} {c : Client}, cs[j]? = some c → c.addr ≠ serverAddr
  inj : ∀ {j k : ℕ} {c e : Client}, cs[j]? = some c → cs[k]? = some e →
    c.phase ≠ .stopped → e.phase ≠ .stopped → c.addr = e.addr → j = k

/-- **Every step keeps the addresses apart.** -/
theorem ClientsStep.addrsOk {serverAddr : Addr} {cs cs' : List Client} {a : Act}
    (hstep : ClientsStep serverAddr cs cs' a) (h : AddrsOk serverAddr cs) : AddrsOk serverAddr cs' := by
  cases hstep with
  | same heq => exact heq ▸ h
  | moved j c c' hc heq hmoves =>
    subst heq
    -- every client after the step was there before it, with its address
    have hold : ∀ {k : ℕ} {e : Client}, (cs.set j c')[k]? = some e → ∃ e₀, cs[k]? = some e₀ ∧
        e.addr = e₀.addr ∧ (e.phase ≠ .stopped → e₀.phase ≠ .stopped) := by
      intro k e he
      rcases getElem?_set_cases (List.getElem?_eq_some_iff.mp hc).1 he with ⟨rfl, rfl⟩ | ⟨-, he⟩
      · exact ⟨c, hc, hmoves.addr, hmoves.live⟩
      · exact ⟨e, he, rfl, id⟩
    constructor
    · intro k e he
      obtain ⟨e₀, he₀, haddr, -⟩ := hold he
      rw [haddr]
      exact h.ne he₀
    · intro k l e f he hf hle hlf heq
      obtain ⟨e₀, he₀, ha, hl⟩ := hold he
      obtain ⟨f₀, hf₀, hb, hm⟩ := hold hf
      exact h.inj he₀ hf₀ (hl hle) (hm hlf) (ha.symm.trans (heq.trans hb))
  | started addr srcAddr mem debug hserver hfree heq =>
    subst heq
    constructor
    · intro j c hc
      rcases getElem?_concat_cases hc with hc | ⟨-, rfl⟩
      · exact h.ne hc
      · exact hserver
    · intro j k c e hc he hlc hle heq
      rcases getElem?_concat_cases hc with hc | ⟨hj, rfl⟩
      · rcases getElem?_concat_cases he with he | ⟨-, rfl⟩
        · exact h.inj hc he hlc hle heq
        · exact absurd heq (hfree c (List.mem_of_getElem? hc) hlc)
      · rcases getElem?_concat_cases he with he | ⟨hk, rfl⟩
        · exact absurd heq.symm (hfree e (List.mem_of_getElem? he) hle)
        · rw [hj, hk]

theorem addrsOk_nil (serverAddr : Addr) : AddrsOk serverAddr [] := ⟨by simp, by simp⟩

/-! ### The invariant -/

/-- The client's test rejects what its variables hold, as long as it is in its INIT loop; and in
RECV_VIDEO, where the server answers nothing, each client there has an INIT_ACK in flight. -/
structure HandshakeInv (serverAddr : Addr) (s : Session) : Prop where
  addrs : AddrsOk serverAddr s.clients
  rejects : ∀ c ∈ s.clients, c.InInitLoop → gotInitAck serverAddr c.srcAddr c.response = false
  acked : s.server.connectionStatus = .recvVideo → ∀ c ∈ s.clients, c.InInitLoop →
    ∃ d ∈ s.net, IsInitAck serverAddr c.addr d

theorem mem_eraseIdx_of_ne {net : List Datagram} {i : ℕ} {d e : Datagram} (hd : d ∈ net)
    (he : net[i]? = some e) (hne : d ≠ e) : d ∈ net.eraseIdx i := by
  obtain ⟨k, hk⟩ := List.getElem?_of_mem hd
  refine List.mem_eraseIdx_iff_getElem?.mpr ⟨k, ?_, hk⟩
  rintro rfl
  exact hne (Option.some.inj (hk.symm.trans he))

theorem recvVideo_connectionStatus {z : SizeT} {o : ByteOrder} {srv srv' : Server} {d : Datagram}
    (h : recvVideo z o srv d = some srv') : srv'.connectionStatus = srv.connectionStatus := by
  rw [recvVideo] at h
  split at h
  · cases h
    rfl
  · obtain ⟨buf, -, rfl⟩ := Option.map_eq_some_iff.mp h
    rfl

section Steps

variable {z : SizeT} {o : ByteOrder} {serverAddr : Addr} {max : ℕ} {s s' : Session} {a : Act}

/-- A client in its INIT loop after the step was there before it, or the step has started it. -/
theorem ClientsStep.loop {cs cs' : List Client} (hstep : ClientsStep serverAddr cs cs' a)
    {c' : Client} (hc' : c' ∈ cs') (hloop : c'.InInitLoop) :
    (∃ c ∈ cs, c.InInitLoop ∧ c.addr = c'.addr ∧
        (gotInitAck serverAddr c.srcAddr c.response = false →
          gotInitAck serverAddr c'.srcAddr c'.response = false)) ∨
      ∃ addr srcAddr mem, a = .clientStart addr srcAddr mem false ∧
        c' = .start addr srcAddr mem false := by
  cases hstep with
  | same heq => exact .inl ⟨c', heq ▸ hc', hloop, rfl, id⟩
  | moved j c c₁ hc heq hmoves =>
    subst heq
    rcases List.mem_or_eq_of_mem_set hc' with hc' | rfl
    · exact .inl ⟨c', hc', hloop, rfl, id⟩
    · exact .inl ⟨c, List.mem_of_getElem? hc, hmoves.loop hloop, hmoves.addr.symm,
        hmoves.rejects hloop⟩
  | started addr srcAddr mem debug hserver hfree heq =>
    subst heq
    rcases List.mem_append.mp hc' with hc' | hc'
    · exact .inl ⟨c', hc', hloop, rfl, id⟩
    · obtain rfl := List.mem_singleton.mp hc'
      cases debug with
      | true => simp [Client.start, Client.InInitLoop] at hloop
      | false => exact .inr ⟨addr, srcAddr, mem, rfl, rfl⟩

/-- The variables: what an INIT loop keeps, its test has rejected. -/
theorem sessionStep_rejects (h : HandshakeInv serverAddr s) (hk : KeepsWay serverAddr s a)
    (hstep : sessionStep z o serverAddr max s a = some s') :
    ∀ c ∈ s'.clients, c.InInitLoop → gotInitAck serverAddr c.srcAddr c.response = false := by
  intro c' hc' hloop
  rcases (sessionStep_clients hstep).loop hc' hloop with
    ⟨c, hc, hloop, -, hrejects⟩ | ⟨addr, srcAddr, mem, rfl, rfl⟩
  · exact hrejects (h.rejects c hc hloop)
  · have hstart : s.server.connectionStatus = .waitingInit ∧
        gotInitAck serverAddr srcAddr (uninitialised mem) = false := hk rfl
    simpa only [Client.start] using hstart.2

/-- In RECV_VIDEO the INIT_ACK of each client in its INIT loop stays in flight, if the step leaves there
what goes to such a client. -/
theorem HandshakeInv.acked_of_stays (h : HandshakeInv serverAddr s)
    (hclients : ClientsStep serverAddr s.clients s'.clients a) (ha : ∀ addr srcAddr mem,
      a ≠ .clientStart addr srcAddr mem false)
    (hstatus : s.server.connectionStatus = .recvVideo)
    (hnet : ∀ c ∈ s'.clients, c.InInitLoop → ∀ d ∈ s.net, IsInitAck serverAddr c.addr d → d ∈ s'.net) :
    ∀ c ∈ s'.clients, c.InInitLoop → ∃ d ∈ s'.net, IsInitAck serverAddr c.addr d := by
  intro c' hc' hloop'
  rcases hclients.loop hc' hloop' with ⟨c, hc, hloop, haddr, -⟩ | ⟨addr, srcAddr, mem, heq, -⟩
  · obtain ⟨d, hd, hack⟩ := h.acked hstatus c hc hloop
    rw [haddr] at hack
    exact ⟨d, hnet c' hc' hloop' d hd hack, hack⟩
  · exact absurd heq (ha addr srcAddr mem)

/-- The server handles a datagram: it answers what starts the session, and takes no INIT_ACK out of the
network. -/
theorem serverRecv_acked {i : ℕ} {d : Datagram} (h : HandshakeInv serverAddr s)
    (hk : KeepsWay serverAddr s (.serverRecv i)) (hd : s.net[i]? = some d) (hdst : d.dst = serverAddr)
    (hclients : ClientsStep serverAddr s.clients s'.clients (.serverRecv i))
    (hstep : serverTakes z o serverAddr { s with net := s.net.eraseIdx i } d = some s')
    (hstatus' : s'.server.connectionStatus = .recvVideo) :
    ∀ c ∈ s'.clients, c.InInitLoop → ∃ e ∈ s'.net, IsInitAck serverAddr c.addr e := by
  unfold serverTakes at hstep
  cases hstatus : s.server.connectionStatus with
  | waitingInit =>
    simp only [hstatus, waitInit_eq, Option.some.injEq] at hstep
    by_cases htest : testedByte s.server d = some PacketType.init.code
    · rw [if_pos htest] at hstep
      subst hstep
      intro c hc hloop
      exact ⟨sendPacketType serverAddr d.src .initAck,
        List.mem_append_right _ (List.mem_singleton_self _), rfl,
        hk hstatus d hd htest c hc hloop, rfl⟩
    · rw [if_neg htest] at hstep
      subst hstep
      cases hstatus'
  | recvVideo =>
    simp only [hstatus] at hstep
    obtain ⟨srv, -, rfl⟩ := Option.map_eq_some_iff.mp hstep
    refine h.acked_of_stays hclients (by simp) hstatus fun c hc hloop e he hack => ?_
    refine mem_eraseIdx_of_ne he hd ?_
    rintro rfl
    obtain ⟨j, hj⟩ := List.getElem?_of_mem hc
    exact h.addrs.ne hj (hack.2.1.symm.trans hdst)

theorem clientRecv_acked {i j : ℕ} {c c₁ : Client} {d : Datagram} (h : HandshakeInv serverAddr s)
    (hc : s.clients[j]? = some c) (hd : s.net[i]? = some d) (hdst : d.dst = c.addr)
    (hrecv : clientReceive serverAddr c (.datagram d.src d.data) = some c₁)
    (hstatus : s.server.connectionStatus = .recvVideo) :
    ∀ e ∈ s.clients.set j c₁, e.InInitLoop → ∃ f ∈ s.net.eraseIdx i, IsInitAck serverAddr e.addr f := by
  obtain ⟨-, hlive, -⟩ := clientReceive_spec hrecv
  let t : Session := { s with net := s.net.eraseIdx i, clients := s.clients.set j c₁ }
  have hclients : ClientsStep serverAddr s.clients t.clients (.clientRecv j i) :=
    .moved j c c₁ hc rfl (clientReceive_moves hrecv)
  refine h.acked_of_stays hclients (by simp) hstatus fun e he hloop f hf hack => ?_
  refine mem_eraseIdx_of_ne hf hd ?_
  rintro rfl
  obtain ⟨k, hk⟩ := List.getElem?_of_mem he
  rcases getElem?_set_cases (List.getElem?_eq_some_iff.mp hc).1 hk with ⟨-, rfl⟩ | ⟨hkj, hk⟩
  · rw [(clientReceive_moves hrecv).addr] at hack
    exact not_initAck_of_stays hrecv hloop hack
  · exact hkj (h.addrs.inj hk hc (ne_stopped_of_inInitLoop hloop) hlive (hack.2.1.symm.trans hdst))

theorem sessionStep_acked (h : HandshakeInv serverAddr s) (hk : KeepsWay serverAddr s a)
    (hstep : sessionStep z o serverAddr max s a = some s')
    (hstatus : s'.server.connectionStatus = .recvVideo) :
    ∀ c ∈ s'.clients, c.InInitLoop → ∃ d ∈ s'.net, IsInitAck serverAddr c.addr d := by
  have hclients := sessionStep_clients hstep
  cases a with
  | lose i =>
    rw [sessionStep] at hstep
    split at hstep
    · rename_i hi
      cases hstep
      refine h.acked_of_stays hclients (by simp) hstatus fun c hc hloop d hd hack => ?_
      have hlost : s.net[i]? = some s.net[i] := List.getElem?_eq_getElem hi
      by_cases heq : d = s.net[i]
      · exact hk hstatus d (heq ▸ hlost) c hc hloop hack
      · exact mem_eraseIdx_of_ne hd hlost heq
    · cases hstep
  | duplicate i =>
    obtain ⟨e, -, rfl⟩ := Option.map_eq_some_iff.mp hstep
    exact h.acked_of_stays hclients (by simp) hstatus
      fun c hc hloop d hd hack => List.mem_append_left _ hd
  | serverRecv i =>
    obtain ⟨d, hd, hdst, hstep⟩ := serverRecv_step hstep
    exact serverRecv_acked h hk hd hdst hclients hstep hstatus
  | fifoRead =>
    obtain ⟨-, p, -, rfl⟩ := fifoRead_step hstep
    exact h.acked_of_stays hclients (by simp) hstatus fun c hc hloop d hd hack => hd
  | serverRestart heap mem =>
    cases hstep
    cases hstatus
  | clientStart addr srcAddr mem debug =>
    rw [sessionStep] at hstep
    split at hstep
    · cases hstep
    · cases hstep
      cases debug with
      | true => exact h.acked_of_stays hclients (by simp) hstatus fun c hc hloop d hd hack => hd
      | false =>
        -- a client is started only while the server waits
        rw [(hk rfl).1] at hstatus
        cases hstatus
  | clientStop j =>
    obtain ⟨c, -, rfl⟩ := Option.map_eq_some_iff.mp hstep
    exact h.acked_of_stays hclients (by simp) hstatus fun c hc hloop d hd hack => hd
  | clientSend j a =>
    obtain ⟨c, -, hstep⟩ := Option.bind_eq_some_iff.mp hstep
    obtain ⟨p, -, rfl⟩ := Option.map_eq_some_iff.mp hstep
    exact h.acked_of_stays hclients (by simp) hstatus
      fun c hc hloop d hd hack => List.mem_append_left _ hd
  | clientTimeout j =>
    obtain ⟨c, -, hstep⟩ := Option.bind_eq_some_iff.mp hstep
    obtain ⟨c', -, rfl⟩ := Option.map_eq_some_iff.mp hstep
    exact h.acked_of_stays hclients (by simp) hstatus fun c hc hloop d hd hack => hd
  | clientRecv j i =>
    obtain ⟨c, hc, hstep⟩ := Option.bind_eq_some_iff.mp hstep
    obtain ⟨d, hd, hstep⟩ := Option.bind_eq_some_iff.mp hstep
    split at hstep
    · obtain ⟨c₁, hrecv, rfl⟩ := Option.map_eq_some_iff.mp hstep
      exact clientRecv_acked h hc hd ‹_› hrecv hstatus
    · cases hstep

end Steps

theorem sessionStep_inv {z : SizeT} {o : ByteOrder} {serverAddr : Addr} {max : ℕ} (s : Session)
    (a : Act) (s' : Session) (h : HandshakeInv serverAddr s) (hk : KeepsWay serverAddr s a)
    (hstep : sessionStep z o serverAddr max s a = some s') : HandshakeInv serverAddr s' :=
  ⟨(sessionStep_clients hstep).addrsOk h.addrs, sessionStep_rejects h hk hstep,
    sessionStep_acked h hk hstep⟩

theorem start_handshakeInv (serverAddr : Addr) (max : ℕ) (heap mem : ℕ → UInt8) :
    HandshakeInv serverAddr (.start max heap mem) :=
  ⟨addrsOk_nil serverAddr, List.forall_mem_nil _, fun _ => List.forall_mem_nil _⟩

/-- **The invariant lets every client be acknowledged**: by a waiting server, or by the INIT_ACK in
flight. -/
theorem HandshakeInv.canFinish {z : SizeT} {o : ByteOrder} {serverAddr : Addr} {max j : ℕ}
    {s : Session} {c : Client} (h : HandshakeInv serverAddr s) (hc : s.clients[j]? = some c)
    (hloop : c.InInitLoop) : CanFinish z o serverAddr max s j := by
  have hmem : c ∈ s.clients := List.mem_of_getElem? hc
  cases hstatus : s.server.connectionStatus with
  | waitingInit => exact canFinish_of_waiting hc hloop hstatus (h.rejects c hmem hloop)
  | recvVideo =>
    obtain ⟨d, hd, hack⟩ := h.acked hstatus c hmem hloop
    exact canFinish_of_ack hc hloop hd hack

/-- **The handshake completes** in every run without such an event: in every state reached, each client
in its INIT loop has a continuation, without losses and restarts, in which it receives an INIT_ACK and
enters `video_send_loop`. -/
theorem handshake_completes (z : SizeT) (o : ByteOrder) (serverAddr : Addr) (max : ℕ)
    (heap mem : ℕ → UInt8) (as : List Act) (s : Session)
    (hrun : runFrom (sessionStep z o serverAddr max) (.start max heap mem) as = some s)
    (hkeeps : Along (sessionStep z o serverAddr max) (KeepsWay serverAddr) (.start max heap mem) as)
    (j : ℕ) (c : Client) (hc : s.clients[j]? = some c) (hloop : c.InInitLoop) :
    CanFinish z o serverAddr max s j := by
  have hinv : HandshakeInv serverAddr s :=
    hkeeps.invariant sessionStep_inv (start_handshakeInv serverAddr max heap mem) hrun
  exact hinv.canFinish hc hloop

/-- A lost INIT is sent again, and of two copies of the INIT_ACK one is lost. -/
theorem handshake_completes_lost_init :
    ∃ s : Session, (s.server.connectionStatus, s.net, s.clients.map Client.phase) =
        (.recvVideo, [sendPacketType ⟨1, 1337⟩ ⟨2, 80⟩ .initAck], [.waitAck]) ∧
      CanFinish ⟨64, by decide⟩ .little ⟨1, 1337⟩ 16 s 0 := by
  let acts : List Act :=
    [.clientStart ⟨2, 80⟩ ⟨0, 0⟩ (fun _ => 0) false, .clientSend 0 .init, .lose 0, .clientTimeout 0,
      .clientSend 0 .init, .serverRecv 0, .duplicate 0, .lose 0]
  have hstate : (runFrom (sessionStep ⟨64, by decide⟩ .little ⟨1, 1337⟩ 16)
      (.start 16 (fun _ => 0) fun _ => 0) acts).map
      (fun s => (s.server.connectionStatus, s.net, s.clients.map Client.phase)) =
      some (.recvVideo, [sendPacketType ⟨1, 1337⟩ ⟨2, 80⟩ .initAck], [.waitAck]) := by decide +kernel
  obtain ⟨s, hrun, hs⟩ := Option.map_eq_some_iff.mp hstate
  have hphases : s.clients.map Client.phase = [.waitAck] := congrArg (fun p => p.2.2) hs
  obtain ⟨c, hclients, hphase⟩ := List.map_eq_singleton_iff.mp hphases
  exact ⟨s, hs, handshake_completes ⟨64, by decide⟩ .little ⟨1, 1337⟩ 16 (fun _ => 0) (fun _ => 0) acts s
    hrun (by decide +kernel) 0 c (by rw [hclients]; rfl) (.inr hphase)⟩

/-! ### A client that cannot be acknowledged -/

/-- The server is in RECV_VIDEO, and no INIT_ACK to client `j`, at `addr`, is in flight. -/
structure Unacknowledged (serverAddr addr : Addr) (j : ℕ) (s : Session) : Prop where
  status : s.server.connectionStatus = .recvVideo
  net : ∀ d ∈ s.net, ¬ IsInitAck serverAddr addr d
  addr_ne : ∀ {k : ℕ} {c : Client}, s.clients[k]? = some c → c.addr ≠ serverAddr
  own : ∀ {c : Client}, s.clients[j]? = some c → c.addr = addr

/-- In RECV_VIDEO only the clients send. -/
theorem continues_spec {z : SizeT} {o : ByteOrder} {serverAddr : Addr} {max : ℕ} {s s' : Session}
    {a : Act} (ha : Continues a) (hstatus : s.server.connectionStatus = .recvVideo)
    (hstep : sessionStep z o serverAddr max s a = some s') :
    s'.server.connectionStatus = .recvVideo ∧
      ∀ d ∈ s'.net, d ∈ s.net ∨ ∃ (k : ℕ) (c : Client), s.clients[k]? = some c ∧ d.src = c.addr := by
  have hclients : a.ofServer = false → s'.server.connectionStatus = .recvVideo ∧
      ∀ d ∈ s'.net, d ∈ s.net ∨ ∃ (k : ℕ) (c : Client), s.clients[k]? = some c ∧ d.src = c.addr := by
    intro hof
    refine ⟨(sessionStep_frame hof hstep).1 ▸ hstatus, fun d hd => ?_⟩
    rcases sessionStep_net hof hstep d hd with hd | ⟨k, e, c, p, -, hc, hp, hd⟩
    · exact .inl hd
    · exact .inr ⟨k, c, hc, ((clientSend_spec hp).1 d hd).1⟩
  cases a with
  | serverRestart heap mem => exact ha.elim
  | serverRecv i =>
    obtain ⟨d, -, -, hstep⟩ := serverRecv_step hstep
    simp only [serverTakes, hstatus] at hstep
    obtain ⟨srv, hsrv, rfl⟩ := Option.map_eq_some_iff.mp hstep
    exact ⟨(recvVideo_connectionStatus hsrv).trans hstatus,
      fun e he => .inl (List.mem_of_mem_eraseIdx he)⟩
  | fifoRead =>
    obtain ⟨-, p, -, rfl⟩ := fifoRead_step hstep
    exact ⟨hstatus, fun e he => .inl he⟩
  | _ => exact hclients rfl

theorem Unacknowledged.step {z : SizeT} {o : ByteOrder} {serverAddr addr : Addr} {max j : ℕ}
    (s : Session) (a : Act) (s' : Session) (h : Unacknowledged serverAddr addr j s)
    (ha : Continues a) (hstep : sessionStep z o serverAddr max s a = some s') :
    Unacknowledged serverAddr addr j s' := by
  obtain ⟨hstatus, hnet⟩ := continues_spec ha h.status hstep
  have hclients := (sessionStep_clients hstep).addr (by rintro _ _ _ _ rfl; exact ha)
  refine ⟨hstatus, fun d hd hack => ?_, fun hc => ?_, fun hc => ?_⟩
  · rcases hnet d hd with hd | ⟨k, c, hc, hsrc⟩
    · exact h.net d hd hack
    · exact h.addr_ne hc (hsrc.symm.trans hack.1)
  · obtain ⟨c₀, hc₀, haddr⟩ := hclients _ _ hc
    exact haddr ▸ h.addr_ne hc₀
  · obtain ⟨c₀, hc₀, haddr⟩ := hclients _ _ hc
    exact haddr.trans (h.own hc₀)

/-- **No continuation brings an INIT_ACK**, however often the client sends INIT again. -/
theorem Unacknowledged.not_canFinish {z : SizeT} {o : ByteOrder} {serverAddr addr : Addr} {max j : ℕ}
    {s : Session} (h : Unacknowledged serverAddr addr j s) : ¬ CanFinish z o serverAddr max s j := by
  intro ⟨as, m, i, s', has, hrun, ⟨c, d, hc, _, hd, hack⟩, _⟩
  have hm : Unacknowledged serverAddr addr j m :=
    (Along.of_forall s as fun a ha _ => has a ha).invariant Unacknowledged.step h hrun
  rw [hm.own hc] at hack
  exact hm.net d (List.mem_of_getElem? hd) hack

/-- **In RECV_VIDEO a client in its INIT loop can finish exactly if an INIT_ACK to it is in flight.** -/
theorem recvVideo_canFinish_iff {z : SizeT} {o : ByteOrder} {serverAddr : Addr} {max j : ℕ}
    {s : Session} {c : Client} (hstatus : s.server.connectionStatus = .recvVideo)
    (haddr : ∀ {k : ℕ} {e : Client}, s.clients[k]? = some e → e.addr ≠ serverAddr)
    (hc : s.clients[j]? = some c) (hloop : c.InInitLoop) :
    CanFinish z o serverAddr max s j ↔ ∃ d ∈ s.net, IsInitAck serverAddr c.addr d := by
  constructor
  · intro hfin
    by_contra hnone
    have hun : Unacknowledged serverAddr c.addr j s :=
      ⟨hstatus, fun d hd hack => hnone ⟨d, hd, hack⟩, haddr, fun he => by
        rw [hc, Option.some.injEq] at he
        rw [he]⟩
    exact hun.not_canFinish hfin
  · intro ⟨d, hd, hack⟩
    exact canFinish_of_ack hc hloop hd hack

/-- The server answers the client's INIT, and the INIT_ACK is lost. -/
def lostAck : List Act :=
  [.clientStart ⟨2, 80⟩ ⟨0, 0⟩ (fun _ => 0) false, .clientSend 0 .init, .serverRecv 0, .lose 0]

/-- **The only INIT_ACK is lost.**  The client is in its INIT loop, and no continuation acknowledges
it. -/
theorem lost_ack_stuck :
    ∃ s c, runFrom (sessionStep ⟨64, by decide⟩ .little ⟨1, 1337⟩ 16)
        (.start 16 (fun _ => 0) fun _ => 0) lostAck = some s ∧
      s.clients[0]? = some c ∧ c.InInitLoop ∧
      ¬ CanFinish ⟨64, by decide⟩ .little ⟨1, 1337⟩ 16 s 0 := by
  have hrun : runFrom (sessionStep ⟨64, by decide⟩ .little ⟨1, 1337⟩ 16)
      (.start 16 (fun _ => 0) fun _ => 0) lostAck =
      some ⟨[], ⟨.recvVideo, ⟨2, 80⟩, (recvData [49] (uninitialised fun _ => 0)).2,
          Buffer.initBuffer 16 fun _ => 0⟩,
        [⟨⟨2, 80⟩, ⟨0, 0⟩, uninitialised fun _ => 0, .waitAck⟩], [],
        [sendPacketType ⟨2, 80⟩ ⟨1, 1337⟩ .init]⟩ := by decide +kernel
  refine ⟨_, _, hrun, rfl, .inr rfl, ?_⟩
  have hun : Unacknowledged ⟨1, 1337⟩ ⟨2, 80⟩ 0 ⟨[], ⟨.recvVideo, ⟨2, 80⟩,
      (recvData [49] (uninitialised fun _ => 0)).2, Buffer.initBuffer 16 fun _ => 0⟩,
      [⟨⟨2, 80⟩, ⟨0, 0⟩, uninitialised fun _ => 0, .waitAck⟩], [],
      [sendPacketType ⟨2, 80⟩ ⟨1, 1337⟩ .init]⟩ := by
    refine ⟨rfl, List.forall_mem_nil _, fun he => ?_, fun he => ?_⟩
    · rw [List.mem_singleton.mp (List.mem_of_getElem? he)]
      show (⟨2, 80⟩ : Addr) ≠ ⟨1, 1337⟩
      decide
    · rw [List.mem_singleton.mp (List.mem_of_getElem? he)]
  exact hun.not_canFinish

end LinkManagement.Handshake
