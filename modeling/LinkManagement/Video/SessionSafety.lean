import LinkManagement.Lib.Progress
import LinkManagement.Video.Handshake

/-!
# What the sessions guarantee

The server answers the datagram that it takes for an INIT, and nothing else; it takes one for each of
its starts.  A client that was not started in debug mode enters `video_send_loop` only on such an
answer, provided that its uninitialised `srcAddr` does not happen to hold the server's address: the
network delivers a client nothing but answers, so no other datagram can leave parts of one behind.

* `sessions_agree` — a client in `video_send_loop` has been answered, and at most one client is there
  for each start of the server;
* `late_client_iff` — in RECV_VIDEO a client can still be let in exactly by an INIT_ACK in flight;
* `server_handles` — no datagram, from whomever and whenever, leads the server to an undefined access,
  and its buffer holds the unread end of the frames it has stored; each call that fills or reads the
  buffer is one step of the session.
-/

namespace LinkManagement.SessionSafety

open LinkManagement.Transition LinkManagement.MachineInt LinkManagement.Buffer
open LinkManagement.Connection LinkManagement.InitLoop LinkManagement.SendPacket
open LinkManagement.VideoSendLoop LinkManagement.Sessions LinkManagement.Handshake

/-- No client is started in debug mode, and none with the server's address in its `srcAddr`. -/
def Proper (serverAddr : Addr) : Act → Prop
  | .clientStart _ srcAddr _ debug => debug = false ∧ srcAddr ≠ serverAddr
  | _ => True

instance (serverAddr : Addr) : (a : Act) → Decidable (Proper serverAddr a)
  | .clientStart _ _ _ _ => inferInstanceAs (Decidable (_ ∧ _))
  | .lose _ | .duplicate _ | .serverRecv _ | .fifoRead | .serverRestart _ _ | .clientStop _
  | .clientSend _ _ | .clientTimeout _ | .clientRecv _ _ => isTrue trivial

/-! ### The invariant -/

/-- A client outside debug mode.  In its INIT loop it has nothing of the server in `srcAddr`, and in
`video_send_loop` it has been answered. -/
structure ClientOk (serverAddr : Addr) (taken : List Datagram) (c : Client) : Prop where
  menu : c.phase ≠ .menu
  menuWait : c.phase ≠ .menuWait
  srcAddr : c.InInitLoop → c.srcAddr ≠ serverAddr
  answered : c.phase = .video → ∃ d ∈ taken, d.src = c.addr

/-- What is in flight from the server answers datagrams it has taken, everything else goes to the
server, and the clients have addresses of their own. -/
structure SessionInv (serverAddr : Addr) (s : Session) : Prop where
  addrs : AddrsOk serverAddr s.clients
  answers : ∀ d ∈ s.net, d.src = serverAddr →
    ∃ e ∈ s.taken, d = sendPacketType serverAddr e.src .initAck
  requests : ∀ d ∈ s.net, d.src ≠ serverAddr → d.dst = serverAddr
  client : ∀ {j : ℕ} {c : Client}, s.clients[j]? = some c → ClientOk serverAddr s.taken c

theorem ClientOk.mono {serverAddr : Addr} {taken taken' : List Datagram} {c : Client}
    (h : ClientOk serverAddr taken c) (hsub : ∀ d ∈ taken, d ∈ taken') :
    ClientOk serverAddr taken' c where
  menu := h.menu
  menuWait := h.menuWait
  srcAddr := h.srcAddr
  answered := fun hvideo => by
    obtain ⟨d, hd, hsrc⟩ := h.answered hvideo
    exact ⟨d, hsub d hd, hsrc⟩

theorem SessionInv.setNet {serverAddr : Addr} {s s' : Session} (h : SessionInv serverAddr s)
    (hclients : s'.clients = s.clients) (htaken : ∀ d ∈ s.taken, d ∈ s'.taken)
    (hnet : ∀ d ∈ s'.net, d ∈ s.net ∨
      ∃ e ∈ s'.taken, d = sendPacketType serverAddr e.src .initAck) : SessionInv serverAddr s' where
  addrs := by
    rw [hclients]
    exact h.addrs
  answers := by
    intro d hd hsrc
    rcases hnet d hd with hd | hans
    · obtain ⟨e, he, heq⟩ := h.answers d hd hsrc
      exact ⟨e, htaken e he, heq⟩
    · exact hans
  requests := by
    intro d hd hsrc
    rcases hnet d hd with hd | ⟨e, -, rfl⟩
    · exact h.requests d hd hsrc
    · exact absurd rfl hsrc
  client := by
    intro j c hc
    rw [hclients] at hc
    exact (h.client hc).mono htaken

theorem SessionInv.setClient {serverAddr : Addr} {s s' : Session} {j : ℕ} {c c' : Client}
    (h : SessionInv serverAddr s) (hc : s.clients[j]? = some c)
    (hclients : s'.clients = s.clients.set j c') (haddrs : AddrsOk serverAddr s'.clients)
    (htaken : s'.taken = s.taken) (hnet : ∀ d ∈ s'.net, d ∈ s.net ∨ d.src = c.addr ∧ d.dst = serverAddr)
    (hok : ClientOk serverAddr s.taken c') : SessionInv serverAddr s' where
  addrs := haddrs
  answers := by
    intro d hd hsrc
    rw [htaken]
    rcases hnet d hd with hd | ⟨hown, -⟩
    · exact h.answers d hd hsrc
    · exact absurd (hown.symm.trans hsrc) (h.addrs.ne hc)
  requests := by
    intro d hd hsrc
    rcases hnet d hd with hd | ⟨-, hdst⟩
    · exact h.requests d hd hsrc
    · exact hdst
  client := by
    intro k e he
    rw [htaken]
    rw [hclients] at he
    rcases getElem?_set_cases (List.getElem?_eq_some_iff.mp hc).1 he with ⟨-, rfl⟩ | ⟨-, he⟩
    · exact hok
    · exact h.client he

/-! ### The steps of a client -/

theorem clientSend_phase {serverAddr : Addr} {c : Client} {a : ClientSend}
    {p : Phase × List Datagram} (h : clientSend serverAddr c a = some p) (hmenu : c.phase ≠ .menu) :
    c.phase = .sendInit ∧ p.1 = .waitAck ∨ c.phase = .video ∧ p.1 = .video := by
  unfold clientSend at h
  split at h
  · cases h
    exact .inl ⟨‹_›, rfl⟩
  · split at h
    · cases h
      exact .inr ⟨‹_›, rfl⟩
    · cases h
  · exact absurd ‹c.phase = .menu› hmenu
  · exact absurd ‹c.phase = .menu› hmenu
  · exact absurd ‹c.phase = .menu› hmenu
  · exact absurd ‹c.phase = .menu› hmenu
  · exact absurd ‹c.phase = .menu› hmenu
  · cases h

theorem clientOk_send {serverAddr : Addr} {taken : List Datagram} {c : Client} {a : ClientSend}
    {p : Phase × List Datagram} (h : ClientOk serverAddr taken c)
    (hsend : clientSend serverAddr c a = some p) :
    ClientOk serverAddr taken { c with phase := p.1 } := by
  rcases clientSend_phase hsend h.menu with ⟨hphase, hnew⟩ | ⟨hphase, hnew⟩
  · rw [hnew]
    exact ⟨by simp, by simp, fun _ => h.srcAddr (.inl hphase), by simp⟩
  · rw [hnew]
    refine ⟨by simp, by simp, fun hloop => ?_, fun _ => h.answered hphase⟩
    simp [Client.InInitLoop] at hloop

theorem clientOk_timeout {serverAddr : Addr} {taken : List Datagram} {c c' : Client}
    (h : ClientOk serverAddr taken c) (hrecv : clientReceive serverAddr c .timedOut = some c') :
    ClientOk serverAddr taken c' := by
  cases hphase : c.phase with
  | waitAck =>
    have hsrc : c.srcAddr ≠ serverAddr := h.srcAddr (.inr hphase)
    have hno : gotInitAck serverAddr c.srcAddr c.response = false := by
      rw [gotInitAck, Bool.and_eq_false_iff]
      exact .inl (Bool.eq_false_iff.mpr fun hmatch => hsrc (addrMatch_iff.mp hmatch))
    simp only [clientReceive, hphase, recvDataTimeout, hno, Bool.false_eq_true, if_false,
      Option.some.injEq] at hrecv
    subst hrecv
    exact ⟨by simp, by simp, fun _ => hsrc, by simp⟩
  | menuWait => exact absurd hphase h.menuWait
  | _ =>
    simp only [clientReceive, hphase] at hrecv
    cases hrecv

/-- **A client that receives an answer leaves its loop.** -/
theorem clientOk_answer {serverAddr : Addr} {taken : List Datagram} {c c' : Client} {e : Datagram}
    (h : ClientOk serverAddr taken c) (he : e ∈ taken) (hsrc : e.src = c.addr)
    (hrecv : clientReceive serverAddr c
      (.datagram serverAddr (sendPacketType serverAddr e.src .initAck).data) = some c') :
    ClientOk serverAddr taken c' := by
  cases hphase : c.phase with
  | waitAck =>
    have hgot : gotInitAck serverAddr serverAddr
        (recvData (sendPacketType serverAddr e.src .initAck).data c.response).2 = true := by
      have hhead : (recvData (sendPacketType serverAddr e.src .initAck).data c.response).2.head? =
          some PacketType.initAck.code := by
        rw [recvData_head?]
        rfl
      rw [gotInitAck_iff hhead]
      exact ⟨rfl, rfl⟩
    simp only [clientReceive, hphase, recvDataTimeout, hgot, if_true, Option.some.injEq] at hrecv
    subst hrecv
    refine ⟨by simp, by simp, fun hloop => ?_, fun _ => ⟨e, he, hsrc⟩⟩
    simp [Client.InInitLoop] at hloop
  | menuWait => exact absurd hphase h.menuWait
  | _ =>
    simp only [clientReceive, hphase] at hrecv
    cases hrecv

/-! ### The steps of the system -/

/-- The server handles a datagram: it answers what it takes, and takes what it answers. -/
theorem serverTakes_inv {z : SizeT} {o : ByteOrder} {serverAddr : Addr} {s s' : Session} {i : ℕ}
    {d : Datagram} (h : SessionInv serverAddr s)
    (hstep : serverTakes z o serverAddr { s with net := s.net.eraseIdx i } d = some s') :
    SessionInv serverAddr s' := by
  have herase : ∀ e ∈ s.net.eraseIdx i, e ∈ s.net := fun e he => List.mem_of_mem_eraseIdx he
  unfold serverTakes at hstep
  cases hstatus : s.server.connectionStatus with
  | waitingInit =>
    simp only [hstatus, waitInit_eq, Option.some.injEq] at hstep
    by_cases htest : testedByte s.server d = some PacketType.init.code
    · rw [if_pos htest] at hstep
      subst hstep
      refine h.setNet rfl (fun e he => List.mem_append_left _ he) ?_
      intro e he
      rcases List.mem_append.mp he with he | he
      · exact .inl (herase e he)
      · exact .inr ⟨d, List.mem_append_right _ (List.mem_singleton_self _), List.mem_singleton.mp he⟩
    · rw [if_neg htest] at hstep
      subst hstep
      refine h.setNet rfl (fun e he => by simpa [hstatus] using he) ?_
      intro e he
      rw [List.append_nil] at he
      exact .inl (herase e he)
  | recvVideo =>
    simp only [hstatus] at hstep
    obtain ⟨srv, -, rfl⟩ := Option.map_eq_some_iff.mp hstep
    exact h.setNet rfl (fun e he => he) fun e he => .inl (herase e he)

theorem clientStart_session {serverAddr addr srcAddr : Addr} {s : Session} {mem : ℕ → UInt8}
    (h : SessionInv serverAddr s) (hsrc : srcAddr ≠ serverAddr)
    (haddrs : AddrsOk serverAddr (s.clients ++ [.start addr srcAddr mem false])) :
    SessionInv serverAddr { s with clients := s.clients ++ [.start addr srcAddr mem false] } where
  addrs := haddrs
  answers := h.answers
  requests := h.requests
  client := by
    intro j c hc
    rcases getElem?_concat_cases hc with hc | ⟨-, rfl⟩
    · exact h.client hc
    · exact ⟨by simp [Client.start], by simp [Client.start], fun _ => hsrc, by simp [Client.start]⟩

theorem sessionStep_session {z : SizeT} {o : ByteOrder} {serverAddr : Addr} {max : ℕ} (s : Session)
    (a : Act) (s' : Session) (h : SessionInv serverAddr s) (hproper : Proper serverAddr a)
    (hstep : sessionStep z o serverAddr max s a = some s') : SessionInv serverAddr s' := by
  have haddrs := (sessionStep_clients hstep).addrsOk h.addrs
  cases a with
  | lose i =>
    rw [sessionStep] at hstep
    split at hstep
    · cases hstep
      exact h.setNet rfl (fun d hd => hd) fun d hd => .inl (List.mem_of_mem_eraseIdx hd)
    · cases hstep
  | duplicate i =>
    obtain ⟨e, he, rfl⟩ := Option.map_eq_some_iff.mp hstep
    refine h.setNet rfl (fun d hd => hd) fun d hd => .inl ?_
    rcases List.mem_append.mp hd with hd | hd
    · exact hd
    · exact List.mem_singleton.mp hd ▸ List.mem_of_getElem? he
  | serverRecv i =>
    obtain ⟨d, -, -, hstep⟩ := serverRecv_step hstep
    exact serverTakes_inv h hstep
  | fifoRead =>
    obtain ⟨-, p, -, rfl⟩ := fifoRead_step hstep
    exact h.setNet rfl (fun d hd => hd) fun d hd => .inl hd
  | serverRestart heap mem =>
    cases hstep
    exact h.setNet rfl (fun d hd => hd) fun d hd => .inl hd
  | clientStart addr srcAddr mem debug =>
    obtain ⟨rfl, hsrc⟩ := hproper
    rw [sessionStep] at hstep
    split at hstep
    · cases hstep
    · cases hstep
      exact clientStart_session h hsrc haddrs
  | clientStop j =>
    obtain ⟨c, hc, rfl⟩ := Option.map_eq_some_iff.mp hstep
    refine h.setClient hc rfl haddrs rfl (fun d hd => .inl hd) ?_
    exact ⟨by simp, by simp, by simp [Client.InInitLoop], by simp⟩
  | clientSend j a =>
    obtain ⟨c, hc, hstep⟩ := Option.bind_eq_some_iff.mp hstep
    obtain ⟨p, hp, rfl⟩ := Option.map_eq_some_iff.mp hstep
    refine h.setClient hc rfl haddrs rfl (fun d hd => ?_) (clientOk_send (h.client hc) hp)
    rcases List.mem_append.mp hd with hd | hd
    · exact .inl hd
    · exact .inr ((clientSend_spec hp).1 d hd)
  | clientTimeout j =>
    obtain ⟨c, hc, hstep⟩ := Option.bind_eq_some_iff.mp hstep
    obtain ⟨c', hc', rfl⟩ := Option.map_eq_some_iff.mp hstep
    exact h.setClient hc rfl haddrs rfl (fun d hd => .inl hd) (clientOk_timeout (h.client hc) hc')
  | clientRecv j i =>
    obtain ⟨c, hc, hstep⟩ := Option.bind_eq_some_iff.mp hstep
    obtain ⟨d, hd, hstep⟩ := Option.bind_eq_some_iff.mp hstep
    split at hstep
    · rename_i hdst
      obtain ⟨c', hc', rfl⟩ := Option.map_eq_some_iff.mp hstep
      have hmem : d ∈ s.net := List.mem_of_getElem? hd
      -- what goes to a client is an answer of the server
      have hsrc : d.src = serverAddr := by
        by_contra hne
        exact h.addrs.ne hc (hdst.symm.trans (h.requests d hmem hne))
      obtain ⟨e, he, heq⟩ := h.answers d hmem hsrc
      rw [hsrc, heq] at hc'
      have hown : e.src = c.addr := by
        rw [← hdst, heq]
        rfl
      exact h.setClient hc rfl haddrs rfl (fun f hf => .inl (List.mem_of_mem_eraseIdx hf))
        (clientOk_answer (h.client hc) he hown hc')
    · cases hstep

theorem start_session (serverAddr : Addr) (max : ℕ) (heap mem : ℕ → UInt8) :
    SessionInv serverAddr (.start max heap mem) :=
  ⟨addrsOk_nil serverAddr, by simp [Session.start], by simp [Session.start], by simp [Session.start]⟩

/-! ### Agreement and exclusion -/

/-- **At most one client for each datagram taken** is in `video_send_loop`: their addresses are different,
and each is the source of one. -/
theorem SessionInv.video_le_taken {serverAddr : Addr} {s : Session} (h : SessionInv serverAddr s) :
    (s.clients.filter fun c => c.phase = .video).length ≤ s.taken.length := by
  have hapart : s.clients.Pairwise fun c e =>
      c.phase ≠ .stopped → e.phase ≠ .stopped → c.addr ≠ e.addr := by
    rw [List.pairwise_iff_getElem]
    intro j k hj hk hjk hlc hle heq
    have hsame := h.addrs.inj (List.getElem?_eq_getElem hj) (List.getElem?_eq_getElem hk) hlc hle heq
    omega
  have hvideo : ∀ c ∈ s.clients.filter fun c => c.phase = .video, c ∈ s.clients ∧ c.phase = .video :=
    fun c hc => ⟨(List.mem_filter.mp hc).1, of_decide_eq_true (List.mem_filter.mp hc).2⟩
  have hnodup : ((s.clients.filter fun c => c.phase = .video).map Client.addr).Nodup := by
    rw [List.Nodup, List.pairwise_map]
    refine (hapart.filter _).imp_of_mem fun hc he hne => hne ?_ ?_
    · rw [(hvideo _ hc).2]
      decide
    · rw [(hvideo _ he).2]
      decide
  have hsub : (s.clients.filter fun c => c.phase = .video).map Client.addr ⊆
      s.taken.map Datagram.src := by
    intro addr haddr
    obtain ⟨c, hc, rfl⟩ := List.mem_map.mp haddr
    obtain ⟨hmem, hphase⟩ := hvideo c hc
    obtain ⟨j, hj⟩ := List.getElem?_of_mem hmem
    obtain ⟨d, hd, hsrc⟩ := (h.client hj).answered hphase
    exact List.mem_map.mpr ⟨d, hd, hsrc⟩
  have hle := hnodup.length_le_of_subset hsub
  rwa [List.length_map, List.length_map] at hle

def Act.isRestart : Act → Bool
  | .serverRestart _ _ => true
  | _ => false

/-- The INITs taken, and one more while the server waits. -/
def starts (s : Session) : ℕ :=
  s.taken.length + if s.server.connectionStatus = .waitingInit then 1 else 0

theorem sessionStep_starts {z : SizeT} {o : ByteOrder} {serverAddr : Addr} {max : ℕ} (s : Session)
    (a : Act) (s' : Session) (hstep : sessionStep z o serverAddr max s a = some s') :
    starts s' ≤ starts s + if Act.isRestart a then 1 else 0 := by
  cases a with
  | serverRecv i =>
    obtain ⟨d, -, -, hstep⟩ := serverRecv_step hstep
    unfold serverTakes at hstep
    cases hstatus : s.server.connectionStatus with
    | waitingInit =>
      simp only [hstatus, waitInit_eq, Option.some.injEq] at hstep
      subst hstep
      by_cases htest : testedByte s.server d = some PacketType.init.code
      · simp [starts, htest, hstatus]
      · simp [starts, htest, hstatus]
    | recvVideo =>
      simp only [hstatus] at hstep
      obtain ⟨srv, hsrv, rfl⟩ := Option.map_eq_some_iff.mp hstep
      simp only [starts, recvVideo_connectionStatus hsrv]
      exact Nat.le_add_right _ _
  | fifoRead =>
    obtain ⟨-, p, -, rfl⟩ := fifoRead_step hstep
    exact Nat.le_add_right _ _
  | serverRestart heap mem =>
    cases hstep
    simp only [starts, Server.start, Act.isRestart, if_true]
    omega
  | _ =>
    obtain ⟨hserver, -, htaken⟩ := sessionStep_frame rfl hstep
    rw [starts, starts, hserver, htaken]
    exact Nat.le_add_right _ _

/-- What the sessions agree on: what the server sends are answers to INITs it has taken; a client in
`video_send_loop` has been answered; there is at most one such client for each INIT taken; and the server
takes at most one after each of its starts. -/
structure Agreement (serverAddr : Addr) (restarts : ℕ) (s : Session) : Prop where
  answers : ∀ d ∈ s.net, d.src = serverAddr →
    ∃ e ∈ s.taken, d = sendPacketType serverAddr e.src .initAck
  answered : ∀ c ∈ s.clients, c.phase = .video → ∃ d ∈ s.taken, d.src = c.addr
  exclusive : (s.clients.filter fun c => c.phase = .video).length ≤ s.taken.length
  once : s.taken.length ≤ 1 + restarts

/-- **The sessions agree**, over every network that loses, duplicates, delays and reorders datagrams, with
any number of clients, and with both sides stopped and started at any moment. -/
theorem sessions_agree (z : SizeT) (o : ByteOrder) (serverAddr : Addr) (max : ℕ) (heap mem : ℕ → UInt8)
    (as : List Act) (hproper : ∀ a ∈ as, Proper serverAddr a) (s : Session)
    (hrun : runFrom (sessionStep z o serverAddr max) (.start max heap mem) as = some s) :
    Agreement serverAddr (as.countP Act.isRestart) s := by
  have h : SessionInv serverAddr s :=
    (Along.of_forall (C := fun _ a => Proper serverAddr a) _ as fun a ha _ => hproper a ha).invariant
      sessionStep_session (start_session serverAddr max heap mem) hrun
  refine ⟨h.answers, fun c hc hvideo => ?_, h.video_le_taken, ?_⟩
  · obtain ⟨j, hj⟩ := List.getElem?_of_mem hc
    exact (h.client hj).answered hvideo
  · have hle : starts s ≤ 1 + as.countP Act.isRestart := runFrom_le_countP sessionStep_starts hrun
    exact (Nat.le_add_right _ _).trans hle

/-- One client, answered and in `video_send_loop`, while another one still waits. -/
theorem sessions_agree_two_clients :
    ∃ s : Session, s.clients.map Client.phase = [.video, .waitAck] ∧ Agreement ⟨1, 1337⟩ 0 s := by
  have hphases : (runFrom (sessionStep ⟨64, by decide⟩ .little ⟨1, 1337⟩ 16)
      (.start 16 (fun _ => 0) fun _ => 0)
      [.clientStart ⟨2, 80⟩ ⟨0, 0⟩ (fun _ => 0) false, .clientStart ⟨3, 80⟩ ⟨0, 0⟩ (fun _ => 0) false,
        .clientSend 0 .init, .clientSend 1 .init, .serverRecv 0, .clientRecv 0 1]).map
      (fun s => s.clients.map Client.phase) = some [.video, .waitAck] := by decide +kernel
  obtain ⟨s, hrun, hs⟩ := Option.map_eq_some_iff.mp hphases
  exact ⟨s, hs, sessions_agree ⟨64, by decide⟩ .little ⟨1, 1337⟩ 16 (fun _ => 0) (fun _ => 0) _
    (by decide +kernel) s hrun⟩

/-! ### A client that the server has not answered -/

theorem sessionRun_addrsOk {z : SizeT} {o : ByteOrder} {serverAddr : Addr} {max : ℕ}
    {heap mem : ℕ → UInt8} {as : List Act} {s : Session}
    (hrun : runFrom (sessionStep z o serverAddr max) (.start max heap mem) as = some s) :
    AddrsOk serverAddr s.clients :=
  runFrom_invariant (I := fun s => AddrsOk serverAddr s.clients)
    (fun _ _ _ h hstep => (sessionStep_clients hstep).addrsOk h) (addrsOk_nil serverAddr) hrun

/-- **Once the server is in RECV_VIDEO, only an INIT_ACK in flight can still let a client in**: in every
state of every run, a client in its INIT loop has a continuation, without losses and restarts, in which it
is acknowledged, if and only if an INIT_ACK to it is in flight. -/
theorem late_client_iff (z : SizeT) (o : ByteOrder) (serverAddr : Addr) (max : ℕ)
    (heap mem : ℕ → UInt8) (as : List Act) (s : Session)
    (hrun : runFrom (sessionStep z o serverAddr max) (.start max heap mem) as = some s)
    (hstatus : s.server.connectionStatus = .recvVideo) (j : ℕ) (c : Client)
    (hc : s.clients[j]? = some c) (hloop : c.InInitLoop) :
    CanFinish z o serverAddr max s j ↔ ∃ d ∈ s.net, IsInitAck serverAddr c.addr d := by
  have haddrs : AddrsOk serverAddr s.clients := sessionRun_addrsOk hrun
  exact recvVideo_canFinish_iff hstatus haddrs.ne hc hloop

/-- Two clients send INIT, and the server answers the first: its INIT_ACK is in flight, and the second
has none. -/
theorem late_client_iff_second :
    ∃ (s : Session) (c : Client), s.net = [sendPacketType ⟨3, 80⟩ ⟨1, 1337⟩ .init,
        sendPacketType ⟨1, 1337⟩ ⟨2, 80⟩ .initAck] ∧ c.addr = ⟨3, 80⟩ ∧
      (CanFinish ⟨64, by decide⟩ .little ⟨1, 1337⟩ 16 s 1 ↔
        ∃ d ∈ s.net, IsInitAck ⟨1, 1337⟩ c.addr d) := by
  have hrun : runFrom (sessionStep ⟨64, by decide⟩ .little ⟨1, 1337⟩ 16)
      (.start 16 (fun _ => 0) fun _ => 0)
      [.clientStart ⟨2, 80⟩ ⟨0, 0⟩ (fun _ => 0) false, .clientStart ⟨3, 80⟩ ⟨0, 0⟩ (fun _ => 0) false,
        .clientSend 0 .init, .clientSend 1 .init, .serverRecv 0] =
      some ⟨[sendPacketType ⟨3, 80⟩ ⟨1, 1337⟩ .init, sendPacketType ⟨1, 1337⟩ ⟨2, 80⟩ .initAck],
        ⟨.recvVideo, ⟨2, 80⟩, (recvData [49] (uninitialised fun _ => 0)).2,
          initBuffer 16 fun _ => 0⟩,
        [⟨⟨2, 80⟩, ⟨0, 0⟩, uninitialised fun _ => 0, .waitAck⟩,
          ⟨⟨3, 80⟩, ⟨0, 0⟩, uninitialised fun _ => 0, .waitAck⟩], [],
        [sendPacketType ⟨2, 80⟩ ⟨1, 1337⟩ .init]⟩ := by decide +kernel
  exact ⟨_, _, rfl, rfl, late_client_iff ⟨64, by decide⟩ .little ⟨1, 1337⟩ 16 (fun _ => 0) (fun _ => 0)
    _ _ hrun rfl 1 _ rfl (.inr rfl)⟩

/-! ### The server handles every datagram -/

/-- The frames of the stored datagrams, as the buffer receives them. -/
def storedStream (o : ByteOrder) (stored : List Datagram) : List UInt8 :=
  stream o (stored.map fun d => d.data.take maxPacketSize)

def FramesOk (o : ByteOrder) (max : ℕ) (s : Session) : Prop :=
  s.server.videoBuffer.max = max ∧
    ∃ q, Represents s.server.videoBuffer q ∧ q <:+ storedStream o s.stored

theorem storedStream_append (o : ByteOrder) (stored : List Datagram) (d : Datagram) :
    storedStream o (stored ++ [d]) = storedStream o stored ++ frameBytes o (d.data.take maxPacketSize) := by
  simp [storedStream, stream]

theorem sessionStep_framesOk {z : SizeT} {o : ByteOrder} {serverAddr : Addr} {max : ℕ}
    (hpos : 1 ≤ max) (hmax : max ≤ intMax) (s : Session) (a : Act) (s' : Session)
    (h : FramesOk o max s) (hstep : sessionStep z o serverAddr max s a = some s') :
    FramesOk o max s' := by
  obtain ⟨hsize, q, hrep, hq⟩ := h
  obtain ⟨hsize', hmoves⟩ := sessionStep_buffer hpos hmax hsize hrep hstep
  cases hmoves with
  | same hrep' hstored => exact ⟨hsize', q, hrep', hstored ▸ hq⟩
  | appended i d hrep' hstored =>
    refine ⟨hsize', _, hrep', ?_⟩
    obtain ⟨before, hbefore⟩ := hq
    rw [hstored, storedStream_append, ← hbefore, List.append_assoc]
    exact List.suffix_append _ _
  | popped c rest hcons hrep' hstored =>
    rw [hcons] at hq
    exact ⟨hsize', rest, hrep', hstored ▸ (List.suffix_cons c rest).trans hq⟩
  | fresh heap mem hrep' hstored => exact ⟨hsize', [], hrep', List.nil_suffix⟩

/-- The server can handle whatever is in flight to it, `fifo_write_thread` can read whenever it finds the
buffer not empty, and the buffer holds the end of the stream of stored frames. -/
structure Handles (z : SizeT) (o : ByteOrder) (serverAddr : Addr) (max : ℕ) (s : Session) : Prop where
  recv : ∀ i d, s.net[i]? = some d → d.dst = serverAddr →
    sessionStep z o serverAddr max s (.serverRecv i) ≠ none
  read : bufferIsEmpty z s.server.videoBuffer = false →
    sessionStep z o serverAddr max s .fifoRead ≠ none
  holds : ∃ q, Represents s.server.videoBuffer q ∧ q <:+ storedStream o s.stored

/-- **The server handles every datagram**, in every state that the steps of a session lead to: of INITs,
frames, the datagrams of debug clients, empty ones, and those of earlier sessions, in any order. -/
theorem server_handles (z : SizeT) (o : ByteOrder) (serverAddr : Addr) (max : ℕ) (heap mem : ℕ → UInt8)
    (hpos : 1 ≤ max) (hmax : max ≤ intMax) (as : List Act) (s : Session)
    (hrun : runFrom (sessionStep z o serverAddr max) (.start max heap mem) as = some s) :
    Handles z o serverAddr max s := by
  have hstart : FramesOk o max (.start max heap mem) :=
    ⟨rfl, [], initBuffer_represents max heap hpos, List.nil_suffix⟩
  obtain ⟨hsize, q, hrep, hq⟩ := runFrom_invariant (sessionStep_framesOk hpos hmax) hstart hrun
  have hle : s.server.videoBuffer.max ≤ intMax := hsize.trans_le hmax
  refine ⟨fun i d hd hdst => ?_, fun hne => ?_, q, hrep, hq⟩
  · rw [sessionStep, hd, Option.bind_some, if_pos hdst]
    cases hstatus : s.server.connectionStatus with
    | waitingInit =>
      simp only [serverTakes, hstatus]
      exact Option.some_ne_none _
    | recvVideo =>
      obtain ⟨t, ht, -⟩ := serverTakes_recvVideo
        (s := { s with net := s.net.eraseIdx i }) z o serverAddr d hstatus hrep hle
      rw [ht]
      exact Option.some_ne_none _
  · cases q with
    | nil =>
      rw [(hrep.bufferIsEmpty_iff z hle).mpr rfl] at hne
      cases hne
    | cons c q =>
      simp only [sessionStep, hne, Bool.false_eq_true, if_false, hrep.readDataBuffer_eq z hle,
        Option.map_some]
      exact Option.some_ne_none _

/-- A session with two frames, of which one byte has been read. -/
theorem server_handles_two_frames :
    ∃ s : Session, s.stored.map Datagram.data = [[7], [8, 9]] ∧
      Handles ⟨64, by decide⟩ .little ⟨1, 1337⟩ 16 s := by
  have hstored : (runFrom (sessionStep ⟨64, by decide⟩ .little ⟨1, 1337⟩ 16)
      (.start 16 (fun _ => 0) fun _ => 0)
      [.clientStart ⟨2, 80⟩ ⟨0, 0⟩ (fun _ => 0) false, .clientSend 0 .init, .serverRecv 0,
        .clientRecv 0 0, .clientSend 0 (.frame [7]), .clientSend 0 (.frame [8, 9]), .serverRecv 0,
        .fifoRead, .serverRecv 0]).map (fun s => s.stored.map Datagram.data) =
      some [[7], [8, 9]] := by decide +kernel
  obtain ⟨s, hrun, hs⟩ := Option.map_eq_some_iff.mp hstored
  exact ⟨s, hs, server_handles ⟨64, by decide⟩ .little ⟨1, 1337⟩ 16 (fun _ => 0) (fun _ => 0)
    (by decide) (by decide) _ s hrun⟩

end LinkManagement.SessionSafety
