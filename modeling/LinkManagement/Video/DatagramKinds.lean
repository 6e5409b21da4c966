import LinkManagement.Video.Handshake

/-!
# Control and video datagrams at the server

A datagram carries no mark of the function it was sent with.  `wait_init` goes by the first byte of its
array, and `recv_video` stores whatever is not empty.  So what keeps the two kinds apart is when they are
sent: INIT and TERMINATE only while the server waits, and none of them left in flight when the session
starts; video that begins with the code of INIT only while the server does not wait, and none of it left
in flight when the server is restarted.

* `clientSend_kinds` — which of the client's calls send a datagram of each kind;
* `sessionStep_apart` — what is in flight, step by step;
* `kinds_kept_apart` — a run of such steps confuses no datagram;
* `resent_init_stored` — a resent INIT becomes a frame, and after a restart of the server a frame starts
  a session.
-/

namespace LinkManagement.DatagramKinds

open LinkManagement.Transition LinkManagement.MachineInt LinkManagement.Buffer
open LinkManagement.SendPacket LinkManagement.Connection LinkManagement.VideoSendLoop
open LinkManagement.Sessions LinkManagement.Handshake

/-- No control datagram was stored as a frame, and no video datagram was taken for an INIT. -/
structure NeverConfused (s : Session) : Prop where
  stored : ∀ d ∈ s.stored, d.sentBy = .sendVideoPacket
  taken : ∀ d ∈ s.taken, d.sentBy = .sendPacketType

/-- An INIT or a TERMINATE to the server. -/
def Control (serverAddr : Addr) (d : Datagram) : Prop := d.sentBy = .sendPacketType ∧ d.dst = serverAddr

/-- Video to the server that begins with the code of INIT. -/
def LikeInit (serverAddr : Addr) (d : Datagram) : Prop :=
  d.sentBy = .sendVideoPacket ∧ d.dst = serverAddr ∧ d.data.head? = some PacketType.init.code

instance (serverAddr : Addr) (d : Datagram) : Decidable (Control serverAddr d) :=
  inferInstanceAs (Decidable (_ ∧ _))

instance (serverAddr : Addr) (d : Datagram) : Decidable (LikeInit serverAddr d) :=
  inferInstanceAs (Decidable (_ ∧ _))

/-- The clients send control datagrams only while the server waits, and video that begins with the code
of INIT only while it does not; no control datagram is in flight behind the one that starts the session;
and a restart of the server finds no such video in flight, nor the code of INIT in the uninitialised
array of `wait_init`. -/
def KeepsApart (serverAddr : Addr) (s : Session) : Act → Prop
  | .serverRecv i => s.server.connectionStatus = .waitingInit → ∀ d ∈ s.net[i]?,
      d.data.head? = some PacketType.init.code → ∀ e ∈ s.net.eraseIdx i, ¬ Control serverAddr e
  | .clientSend _ .init | .clientSend _ .terminate => s.server.connectionStatus = .waitingInit
  | .clientSend _ (.frame data) | .clientSend _ (.fromFifo data) =>
      s.server.connectionStatus = .waitingInit → data.head? ≠ some PacketType.init.code
  | .serverRestart _ mem => mem 0 ≠ PacketType.init.code ∧ ∀ d ∈ s.net, ¬ LikeInit serverAddr d
  | _ => True

instance (serverAddr : Addr) (s : Session) : (a : Act) → Decidable (KeepsApart serverAddr s a)
  | .serverRecv i =>
      inferInstanceAs (Decidable (_ → ∀ d ∈ s.net[i]?, _ → ∀ e ∈ s.net.eraseIdx i, _))
  | .clientSend _ .init | .clientSend _ .terminate => inferInstanceAs (Decidable (_ = _))
  | .clientSend _ (.frame _) | .clientSend _ (.fromFifo _) => inferInstanceAs (Decidable (_ → _ ≠ _))
  | .serverRestart _ _ => inferInstanceAs (Decidable (_ ∧ ∀ d ∈ s.net, _))
  | .lose _ | .duplicate _ | .fifoRead | .clientStart _ _ _ _ | .clientStop _ | .clientTimeout _
  | .clientRecv _ _ | .clientSend _ .dummy | .clientSend _ .videoLoop => isTrue trivial

/-! ### What is in flight -/

/-- A control datagram comes of `send_packet_type`; video begins with the first byte it was given. -/
theorem clientSend_kinds {serverAddr : Addr} {c : Client} {a : ClientSend}
    {p : Phase × List Datagram} (h : clientSend serverAddr c a = some p) {d : Datagram} (hd : d ∈ p.2) :
    (d.sentBy = .sendPacketType → a = .init ∨ a = .terminate) ∧
      (LikeInit serverAddr d → ∃ data, (a = .frame data ∨ a = .fromFifo data) ∧
        data.head? = some PacketType.init.code) := by
  have hcontrol : ∀ type, d ∈ [sendPacketType c.addr serverAddr type] → ¬ LikeInit serverAddr d := by
    intro type hd hlike
    rw [List.mem_singleton.mp hd] at hlike
    cases hlike.1
  have hvideo : ∀ data, d ∈ videoDatagrams serverAddr c data → d.sentBy ≠ .sendPacketType ∧
      ∀ b, d.data.head? = some b → data.head? = some b := by
    intro data hd
    obtain ⟨payload, hpayload, rfl⟩ := List.mem_map.mp hd
    refine ⟨by simp, fun b hb => ?_⟩
    rw [Option.mem_toList, sendVideoPacket] at hpayload
    split at hpayload
    · obtain rfl := Option.some.inj hpayload
      dsimp only at hb
      rw [List.head?_take] at hb
      split at hb
      · cases hb
      · exact hb
    · cases hpayload
  unfold clientSend at h
  split at h
  · cases h
    exact ⟨fun _ => .inl rfl, fun hlike => absurd hlike (hcontrol _ hd)⟩
  · split at h
    · cases h
      dsimp only at hd
      obtain ⟨hby, hhead⟩ := hvideo _ hd
      exact ⟨fun hc => absurd hc hby, fun hlike => ⟨_, .inl rfl, hhead _ hlike.2.2⟩⟩
    · cases h
  · cases h
    exact ⟨fun _ => .inl rfl, fun hlike => absurd hlike (hcontrol _ hd)⟩
  · -- the string of choice 2 begins with 48
    cases h
    dsimp only at hd
    obtain ⟨hby, hhead⟩ := hvideo _ hd
    exact ⟨fun hc => absurd hc hby, fun hlike => absurd (hhead _ hlike.2.2) (by decide)⟩
  · cases h
    dsimp only at hd
    obtain ⟨hby, hhead⟩ := hvideo _ hd
    exact ⟨fun hc => absurd hc hby, fun hlike => ⟨_, .inr rfl, hhead _ hlike.2.2⟩⟩
  · cases h
    cases hd
  · cases h
    exact ⟨fun _ => .inr rfl, fun hlike => absurd hlike (hcontrol _ hd)⟩
  · cases h

/-- While the server waits, no video that looks like an INIT is in flight to it, and its array does not
begin with one; in RECV_VIDEO, no control datagram is in flight to it. -/
structure ApartInv (serverAddr : Addr) (s : Session) : Prop where
  addrs : AddrsOk serverAddr s.clients
  src : ∀ d ∈ s.net, d.dst = serverAddr → d.src ≠ serverAddr
  control : s.server.connectionStatus = .recvVideo → ∀ d ∈ s.net, ¬ Control serverAddr d
  array : s.server.connectionStatus = .waitingInit →
    s.server.data.head? ≠ some PacketType.init.code
  video : s.server.connectionStatus = .waitingInit → ∀ d ∈ s.net, ¬ LikeInit serverAddr d

theorem start_data_head? (max : ℕ) (heap mem : ℕ → UInt8) :
    (Server.start max heap mem).data.head? = some (mem 0) := by
  rw [Server.start, uninitialised_head?]

section Steps

variable {z : SizeT} {o : ByteOrder} {serverAddr : Addr} {max : ℕ} {s s' : Session} {a : Act}

theorem ApartInv.setNet (h : ApartInv serverAddr s) (haddrs : AddrsOk serverAddr s'.clients)
    (hstatus : s'.server.connectionStatus = s.server.connectionStatus)
    (hdata : s'.server.connectionStatus = .waitingInit → s'.server.data = s.server.data)
    (hnet : ∀ d ∈ s'.net, d ∈ s.net ∨ d.src ≠ serverAddr ∧
      (s.server.connectionStatus = .recvVideo → ¬ Control serverAddr d) ∧
      (s.server.connectionStatus = .waitingInit → ¬ LikeInit serverAddr d)) :
    ApartInv serverAddr s' where
  addrs := haddrs
  src := by
    intro d hd hdst
    rcases hnet d hd with hd | ⟨hsrc, -⟩
    · exact h.src d hd hdst
    · exact hsrc
  control := by
    intro hrecv d hd
    rw [hstatus] at hrecv
    rcases hnet d hd with hd | ⟨-, hcontrol, -⟩
    · exact h.control hrecv d hd
    · exact hcontrol hrecv
  array := by
    intro hwait
    rw [hdata hwait]
    exact h.array (hstatus ▸ hwait)
  video := by
    intro hwait d hd
    rw [hstatus] at hwait
    rcases hnet d hd with hd | ⟨-, -, hvideo⟩
    · exact h.video hwait d hd
    · exact hvideo hwait

/-- What `wait_init` tests is the first byte of the datagram: its array begins with no INIT. -/
theorem ApartInv.testedByte_init (h : ApartInv serverAddr s)
    (hwait : s.server.connectionStatus = .waitingInit) {d : Datagram}
    (htest : testedByte s.server d = some PacketType.init.code) :
    d.data.head? = some PacketType.init.code := by
  rw [testedByte] at htest
  cases hhead : d.data.head? with
  | none =>
    rw [hhead, Option.none_or] at htest
    exact absurd htest (h.array hwait)
  | some b =>
    rw [hhead, Option.some_or] at htest
    exact htest

theorem serverRecv_apart {i : ℕ} {d : Datagram} (h : ApartInv serverAddr s)
    (hk : KeepsApart serverAddr s (.serverRecv i)) (hd : s.net[i]? = some d) (hdst : d.dst = serverAddr)
    (haddrs : AddrsOk serverAddr s'.clients)
    (hstep : serverTakes z o serverAddr { s with net := s.net.eraseIdx i } d = some s') :
    ApartInv serverAddr s' := by
  have herase : ∀ e ∈ s.net.eraseIdx i, e ∈ s.net := fun e he => List.mem_of_mem_eraseIdx he
  unfold serverTakes at hstep
  cases hstatus : s.server.connectionStatus with
  | waitingInit =>
    simp only [hstatus, waitInit_eq, Option.some.injEq] at hstep
    by_cases htest : testedByte s.server d = some PacketType.init.code
    · -- the session starts; the answer goes to a client
      rw [if_pos htest] at hstep
      subst hstep
      have hhead := h.testedByte_init hstatus htest
      have hsrc : d.src ≠ serverAddr := h.src d (List.mem_of_getElem? hd) hdst
      have hanswer : ∀ e ∈ [sendPacketType serverAddr d.src .initAck], e.dst ≠ serverAddr := by
        intro e he
        rw [List.mem_singleton.mp he]
        exact hsrc
      refine ⟨haddrs, fun e he hto => ?_, fun _ e he hcontrol => ?_, fun hwait => ?_, fun hwait => ?_⟩
      · rcases List.mem_append.mp he with he | he
        · exact h.src e (herase e he) hto
        · exact absurd hto (hanswer e he)
      · rcases List.mem_append.mp he with he | he
        · exact hk hstatus d hd hhead e he hcontrol
        · exact hanswer e he hcontrol.2
      · cases hwait
      · cases hwait
    · rw [if_neg htest] at hstep
      subst hstep
      refine ⟨haddrs, fun e he hto => ?_, fun hrecv => ?_, fun _ => ?_, fun _ e he => ?_⟩
      · rw [List.append_nil] at he
        exact h.src e (herase e he) hto
      · cases hrecv
      · dsimp only
        rw [recvData_head?]
        exact htest
      · rw [List.append_nil] at he
        exact h.video hstatus e (herase e he)
  | recvVideo =>
    simp only [hstatus] at hstep
    obtain ⟨srv, hsrv, rfl⟩ := Option.map_eq_some_iff.mp hstep
    have hsame := recvVideo_connectionStatus hsrv
    refine h.setNet haddrs hsame (fun hwait => ?_) fun e he => .inl (herase e he)
    rw [hsame, hstatus] at hwait
    cases hwait

theorem sessionStep_apart (h : ApartInv serverAddr s) (hk : KeepsApart serverAddr s a)
    (hstep : sessionStep z o serverAddr max s a = some s') : ApartInv serverAddr s' := by
  have haddrs := (sessionStep_clients hstep).addrsOk h.addrs
  have hclients : a.ofServer = false → ApartInv serverAddr s' := by
    intro hof
    have hserver := (sessionStep_frame hof hstep).1
    refine h.setNet haddrs (by rw [hserver]) (fun _ => by rw [hserver]) fun d hd => ?_
    rcases sessionStep_net hof hstep d hd with hd | ⟨j, e, c, p, rfl, hc, hp, hd⟩
    · exact .inl hd
    · obtain ⟨hcontrol, hvideo⟩ := clientSend_kinds hp hd
      refine .inr ⟨?_, fun hrecv hc => ?_, fun hwait hlike => ?_⟩
      · rw [((clientSend_spec hp).1 d hd).1]
        exact h.addrs.ne hc
      · have hwait : s.server.connectionStatus = .waitingInit := by
          rcases hcontrol hc.1 with rfl | rfl <;> exact hk
        rw [hrecv] at hwait
        cases hwait
      · obtain ⟨data, rfl | rfl, hhead⟩ := hvideo hlike <;> exact hk hwait hhead
  cases a with
  | serverRecv i =>
    obtain ⟨d, hd, hdst, hstep⟩ := serverRecv_step hstep
    exact serverRecv_apart h hk hd hdst haddrs hstep
  | fifoRead =>
    obtain ⟨-, p, -, rfl⟩ := fifoRead_step hstep
    exact h.setNet haddrs rfl (fun _ => rfl) fun d hd => .inl hd
  | serverRestart heap mem =>
    cases hstep
    refine ⟨haddrs, h.src, fun hrecv => ?_, fun _ => ?_, fun _ => hk.2⟩
    · cases hrecv
    · dsimp only
      rw [start_data_head?]
      exact fun heq => hk.1 (Option.some.inj heq)
  | _ => exact hclients rfl

/-! ### What the server makes of it -/

/-- What is in flight is treated as what it is. -/
theorem serverTakes_neverConfused {d : Datagram} (h : ApartInv serverAddr s) (hn : NeverConfused s)
    (hd : d ∈ s.net) (hdst : d.dst = serverAddr) {net : List Datagram}
    (hstep : serverTakes z o serverAddr { s with net := net } d = some s') : NeverConfused s' := by
  have hkind : ∀ {l : List Datagram} {k : SentBy}, (∀ e ∈ l, e.sentBy = k) → d.sentBy = k →
      ∀ e ∈ l ++ [d], e.sentBy = k := fun hl hby =>
    List.forall_mem_append.mpr ⟨hl, List.forall_mem_singleton.mpr hby⟩
  unfold serverTakes at hstep
  cases hstatus : s.server.connectionStatus with
  | waitingInit =>
    simp only [hstatus, waitInit_eq, Option.some.injEq] at hstep
    by_cases htest : testedByte s.server d = some PacketType.init.code
    · rw [if_pos htest] at hstep
      subst hstep
      refine ⟨hn.stored, hkind hn.taken ?_⟩
      cases hby : d.sentBy with
      | sendPacketType => rfl
      | sendVideoPacket =>
        exact absurd ⟨hby, hdst, h.testedByte_init hstatus htest⟩ (h.video hstatus d hd)
    · rw [if_neg htest] at hstep
      subst hstep
      exact ⟨hn.stored, hn.taken⟩
  | recvVideo =>
    simp only [hstatus] at hstep
    obtain ⟨srv, -, rfl⟩ := Option.map_eq_some_iff.mp hstep
    by_cases hstores : Stores z s.server.videoBuffer d
    · simp only [if_pos hstores]
      refine ⟨hkind hn.stored ?_, hn.taken⟩
      cases hby : d.sentBy with
      | sendPacketType => exact absurd ⟨hby, hdst⟩ (h.control hstatus d hd)
      | sendVideoPacket => rfl
    · simp only [if_neg hstores]
      exact ⟨hn.stored, hn.taken⟩

theorem sessionStep_neverConfused (h : ApartInv serverAddr s) (hn : NeverConfused s)
    (hstep : sessionStep z o serverAddr max s a = some s') : NeverConfused s' := by
  cases a with
  | serverRecv i =>
    obtain ⟨d, hd, hdst, hstep⟩ := serverRecv_step hstep
    exact serverTakes_neverConfused h hn (List.mem_of_getElem? hd) hdst hstep
  | fifoRead =>
    obtain ⟨-, p, -, rfl⟩ := fifoRead_step hstep
    exact ⟨hn.stored, hn.taken⟩
  | serverRestart heap mem =>
    cases hstep
    exact ⟨hn.stored, hn.taken⟩
  | _ =>
    obtain ⟨-, hstored, htaken⟩ := sessionStep_frame rfl hstep
    exact ⟨hstored.symm ▸ hn.stored, htaken.symm ▸ hn.taken⟩

end Steps

/-! ### Runs -/

/-- **The kinds are kept apart** in every run of such steps, over every network, with any number of clients
of either kind, and with either side restarted at any moment. -/
theorem kinds_kept_apart (z : SizeT) (o : ByteOrder) (serverAddr : Addr) (max : ℕ)
    (heap mem : ℕ → UInt8) (hmem : mem 0 ≠ PacketType.init.code) (as : List Act)
    (hkeeps : Along (sessionStep z o serverAddr max) (KeepsApart serverAddr) (.start max heap mem) as)
    (s : Session)
    (hrun : runFrom (sessionStep z o serverAddr max) (.start max heap mem) as = some s) :
    NeverConfused s := by
  have hstart : ApartInv serverAddr (.start max heap mem) := by
    refine ⟨addrsOk_nil serverAddr, List.forall_mem_nil _, fun hrecv => ?_, fun _ => ?_,
      fun _ => List.forall_mem_nil _⟩
    · cases hrecv
    · rw [Session.start, start_data_head?]
      exact fun heq => hmem (Option.some.inj heq)
  have hinv : ApartInv serverAddr s ∧ NeverConfused s :=
    hkeeps.invariant (I := fun s => ApartInv serverAddr s ∧ NeverConfused s)
      (fun _ _ _ ⟨h, hn⟩ hk hstep => ⟨sessionStep_apart h hk hstep, sessionStep_neverConfused h hn hstep⟩)
      ⟨hstart, List.forall_mem_nil _, List.forall_mem_nil _⟩ hrun
  exact hinv.2

/-- Two sessions: an INIT is lost and sent again, a frame that begins with the code of INIT is stored, and
the server is restarted with another frame in flight. -/
theorem kinds_kept_apart_two_sessions :
    ∃ s : Session, (s.stored.map Datagram.data, s.taken.length) = ([[49, 7]], 2) ∧ NeverConfused s := by
  let acts : List Act :=
    [.clientStart ⟨2, 80⟩ ⟨0, 0⟩ (fun _ => 0) false, .clientSend 0 .init, .lose 0, .clientTimeout 0,
      .clientSend 0 .init, .serverRecv 0, .clientRecv 0 0, .clientSend 0 (.frame [49, 7]), .serverRecv 0,
      .clientSend 0 (.frame [7]), .serverRestart (fun _ => 0) (fun _ => 0), .serverRecv 0,
      .clientStop 0, .clientStart ⟨2, 80⟩ ⟨0, 0⟩ (fun _ => 0) false, .clientSend 1 .init, .serverRecv 0]
  have hlogs : (runFrom (sessionStep ⟨64, by decide⟩ .little ⟨1, 1337⟩ 16)
      (.start 16 (fun _ => 0) fun _ => 0) acts).map
      (fun s => (s.stored.map Datagram.data, s.taken.length)) = some ([[49, 7]], 2) := by decide +kernel
  obtain ⟨s, hrun, hs⟩ := Option.map_eq_some_iff.mp hlogs
  exact ⟨s, hs, kinds_kept_apart ⟨64, by decide⟩ .little ⟨1, 1337⟩ 16 (fun _ => 0) (fun _ => 0)
    (by decide) acts (by decide +kernel) s hrun⟩

/-- The INIT_ACK is late, so the client sends INIT again before it receives it.  It then sends a frame
that begins with the code of INIT, which arrives after a restart of the server. -/
def resentInit : List Act :=
  [.clientStart ⟨2, 80⟩ ⟨0, 0⟩ (fun _ => 0) false, .clientSend 0 .init, .serverRecv 0,
    .clientTimeout 0, .clientSend 0 .init, .serverRecv 1, .clientRecv 0 0,
    .clientSend 0 (.frame [49, 7]), .serverRestart (fun _ => 0) (fun _ => 0), .serverRecv 0]

theorem resentInit_logs :
    ∃ s, runFrom (sessionStep ⟨64, by decide⟩ .little ⟨1, 1337⟩ 16) (.start 16 (fun _ => 0) fun _ => 0)
        resentInit = some s ∧
      s.stored = [sendPacketType ⟨2, 80⟩ ⟨1, 1337⟩ .init] ∧
      s.taken = [sendPacketType ⟨2, 80⟩ ⟨1, 1337⟩ .init,
        ⟨⟨2, 80⟩, ⟨1, 1337⟩, [49, 7], .sendVideoPacket⟩] := by
  have hlogs : (runFrom (sessionStep ⟨64, by decide⟩ .little ⟨1, 1337⟩ 16)
      (.start 16 (fun _ => 0) fun _ => 0) resentInit).map (fun s => (s.stored, s.taken)) =
      some ([sendPacketType ⟨2, 80⟩ ⟨1, 1337⟩ .init], [sendPacketType ⟨2, 80⟩ ⟨1, 1337⟩ .init,
        ⟨⟨2, 80⟩, ⟨1, 1337⟩, [49, 7], .sendVideoPacket⟩]) := by decide +kernel
  obtain ⟨s, hs, h⟩ := Option.map_eq_some_iff.mp hlogs
  obtain ⟨hstored, htaken⟩ := Prod.mk.inj h
  exact ⟨s, hs, hstored, htaken⟩

/-- **Both confusions in one run**: the resent INIT is stored as a frame of one byte, and the frame is
taken for an INIT. -/
theorem resent_init_stored :
    ∃ s, runFrom (sessionStep ⟨64, by decide⟩ .little ⟨1, 1337⟩ 16) (.start 16 (fun _ => 0) fun _ => 0)
        resentInit = some s ∧
      (∃ d ∈ s.stored, d.sentBy = .sendPacketType) ∧ ∃ d ∈ s.taken, d.sentBy = .sendVideoPacket := by
  obtain ⟨s, hs, hstored, htaken⟩ := resentInit_logs
  refine ⟨s, hs, ⟨sendPacketType ⟨2, 80⟩ ⟨1, 1337⟩ .init, ?_, rfl⟩,
    ⟨⟨⟨2, 80⟩, ⟨1, 1337⟩, [49, 7], .sendVideoPacket⟩, ?_, rfl⟩⟩
  · rw [hstored]
    exact List.mem_singleton_self _
  · rw [htaken]
    exact List.mem_cons_of_mem _ (List.mem_singleton_self _)

end LinkManagement.DatagramKinds
