import LinkManagement.Lib.Refinement
import LinkManagement.Video.SessionSafety

/-!
# From the FIFOs of the clients to the FIFO of the server

The sessions, with their ends: the bytes that `empty_fifo` and then `read_fifo_blocking` take from the
FIFO of each client, and those that `fifo_write_thread` passes on to the server's FIFO.  A client discards
what it finds in its FIFO, cuts the bytes after that into frames and sends each as a datagram; the server
stores datagrams as frames; the thread writes the bytes of the frames to the server's FIFO, which keeps
them when the server is restarted.

As in the sessions, a whole `send_packet_buffer` and a whole guarded read, here with the write to the
FIFO, are one step each: what the two threads do to each other inside these calls is the subject of
`SharedBuffer` and `InterleavedRelay`.

* `transfer_refines_sessions` — under the ends runs a session, so what the sessions guarantee holds here;
* `transferStep_cases` — what a step can do, seen from the ends;
* `transfer_authentic` — over any network, the server's FIFO is written frames that clients have read
  from theirs, and late INITs.
-/

namespace LinkManagement.Transfer

open LinkManagement.Transition LinkManagement.Framing LinkManagement.MachineInt LinkManagement.Buffer
open LinkManagement.Connection LinkManagement.SendPacket LinkManagement.VideoSendLoop
open LinkManagement.Sessions LinkManagement.Handshake LinkManagement.SessionSafety

/-! ### The system -/

/-- The FIFO's end of a client: the bytes that `empty_fifo` has discarded before the INIT loop, its
`video_send_loop`, which begins its first iteration when the client gets there, and the bytes that
`read_fifo_blocking` has returned to it. -/
structure ClientEnd where
  addr : Addr
  emptied : List UInt8
  loop : VideoLoop
  consumed : List UInt8
  deriving DecidableEq

/-- The sessions with the ends of their clients; `written` is what `fifo_write_thread` has passed on, since
the first start of the server. -/
structure VideoLink where
  session : Session
  ends : List ClientEnd
  written : List UInt8
  deriving DecidableEq

def VideoLink.start (max : ℕ) (heap mem : ℕ → UInt8) : VideoLink := ⟨.start max heap mem, [], []⟩

/-- The steps of a session that the ends take part in. -/
def Act.atEnds : Act → Bool
  | .fifoRead | .serverRestart _ _ | .clientStart _ _ _ _ | .clientSend _ (.frame _) => true
  | _ => false

inductive TransferAct where
  /-- a step without the ends -/
  | inside (a : Act)
  /-- a client binds its socket and empties its FIFO, unless in debug mode; its arrays `response` and
  `dataBuffer` are not initialised -/
  | clientStart (addr srcAddr : Addr) (mem loopMem : ℕ → UInt8) (emptied : List UInt8) (debug : Bool)
  | serverRestart (heap mem : ℕ → UInt8)
  /-- `read_fifo_blocking` returns the byte in client `j` -/
  | readFifo (j : ℕ) (c : UInt8)
  /-- `fifo_write_thread` finds the buffer not empty, and passes a byte on -/
  | fifoWrite

def ClientEnd.start (addr : Addr) (loopMem : ℕ → UInt8) (emptied : List UInt8) (debug : Bool) :
    ClientEnd :=
  ⟨addr, if debug then [] else emptied, .start loopMem, []⟩

/-- What the loop has sent between two of its states. -/
def newFrames (l l' : VideoLoop) : List (List UInt8) := l'.sent.drop l.sent.length

/-- `oc` is the byte order of the clients. -/
def transferStep (z : SizeT) (o oc : ByteOrder) (serverAddr : Addr) (max : ℕ) (s : VideoLink) :
    TransferAct → Option VideoLink
  | .inside a =>
      if Act.atEnds a then none
      else (sessionStep z o serverAddr max s.session a).map fun t => { s with session := t }
  | .clientStart addr srcAddr mem loopMem emptied debug =>
      (sessionStep z o serverAddr max s.session (.clientStart addr srcAddr mem debug)).map fun t =>
        { s with session := t, ends := s.ends ++ [.start addr loopMem emptied debug] }
  | .serverRestart heap mem =>
      (sessionStep z o serverAddr max s.session (.serverRestart heap mem)).map fun t =>
        { s with session := t }
  | .readFifo j c =>
      s.ends[j]?.bind fun e =>
        if (s.session.clients[j]?.map Client.phase) = some .video then
          (videoStep oc e.loop c).bind fun loop =>
            (runFrom (sessionStep z o serverAddr max) s.session
                ((newFrames e.loop loop).map fun data => .clientSend j (.frame data))).map fun t =>
              { s with
                session := t
                ends := s.ends.set j { e with loop := loop, consumed := e.consumed ++ [c] } }
        else none
  | .fifoWrite =>
      (readDataBuffer z s.session.server.videoBuffer).bind fun p =>
        (sessionStep z o serverAddr max s.session .fifoRead).map fun t =>
          { s with session := t, written := s.written ++ [p.1] }

/-- The steps of the session that a step stands for. -/
def sessionActs (oc : ByteOrder) (s : VideoLink) : TransferAct → List Act
  | .inside a => [a]
  | .clientStart addr srcAddr mem _ _ debug => [.clientStart addr srcAddr mem debug]
  | .serverRestart heap mem => [.serverRestart heap mem]
  | .readFifo j c =>
      match s.ends[j]?.bind fun e => (videoStep oc e.loop c).map fun loop => newFrames e.loop loop with
      | none => []
      | some frames => frames.map fun data => .clientSend j (.frame data)
  | .fifoWrite => [.fifoRead]

/-- **Under the ends runs a session.** -/
theorem transferStep_matches (z : SizeT) (o oc : ByteOrder) (serverAddr : Addr) (max : ℕ) :
    Matches (transferStep z o oc serverAddr max) (sessionStep z o serverAddr max) (fun _ _ => True)
      (sessionActs oc) fun s t => s.session = t := by
  intro s t a s' hst _ hstep
  subst hst
  -- a step that stands for one of the session
  have hone : ∀ (a : Act) (f : Session → VideoLink), (∀ t, (f t).session = t) →
      (sessionStep z o serverAddr max s.session a).map f = some s' →
      ∃ t, runFrom (sessionStep z o serverAddr max) s.session [a] = some t ∧ s'.session = t := by
    intro a f hf h
    obtain ⟨t, ht, rfl⟩ := Option.map_eq_some_iff.mp h
    exact ⟨t, runFrom_cons_eq_some.mpr ⟨t, ht, rfl⟩, hf t⟩
  cases a with
  | inside a =>
    rw [transferStep] at hstep
    split at hstep
    · cases hstep
    · exact hone a _ (fun _ => rfl) hstep
  | clientStart addr srcAddr mem loopMem emptied debug =>
    exact hone (.clientStart addr srcAddr mem debug) _ (fun _ => rfl) hstep
  | serverRestart heap mem =>
    exact hone (.serverRestart heap mem) (fun t => { s with session := t }) (fun _ => rfl) hstep
  | readFifo j c =>
    obtain ⟨e, he, hstep⟩ := Option.bind_eq_some_iff.mp hstep
    split at hstep
    · obtain ⟨loop, hloop, hstep⟩ := Option.bind_eq_some_iff.mp hstep
      obtain ⟨t, ht, rfl⟩ := Option.map_eq_some_iff.mp hstep
      refine ⟨t, ?_, rfl⟩
      rw [sessionActs, he, Option.bind_some, hloop, Option.map_some]
      exact ht
    · cases hstep
  | fifoWrite =>
    obtain ⟨p, -, hstep⟩ := Option.bind_eq_some_iff.mp hstep
    exact hone .fifoRead _ (fun _ => rfl) hstep

theorem transfer_refines_sessions {z : SizeT} {o oc : ByteOrder} {serverAddr : Addr} {max : ℕ}
    {s s' : VideoLink} {as : List TransferAct}
    (hrun : runFrom (transferStep z o oc serverAddr max) s as = some s') :
    runFrom (sessionStep z o serverAddr max) s.session
      (trace (transferStep z o oc serverAddr max) (sessionActs oc) s as) = some s'.session := by
  obtain ⟨t, ht, rfl⟩ := (Along.of_forall s as fun _ _ _ => trivial).refines
    (transferStep_matches z o oc serverAddr max) rfl hrun
  exact ht

/-! ### Inside the sessions -/

theorem map_set_eq {α β : Type*} {f : α → β} {l : List α} {j : ℕ} {x y : α} (hx : l[j]? = some x)
    (hy : f y = f x) : (l.set j y).map f = l.map f := by
  have hj : j < l.length := (List.getElem?_eq_some_iff.mp hx).1
  apply List.ext_getElem?
  intro k
  rw [List.getElem?_map, List.getElem?_map]
  by_cases hjk : j = k
  · rw [← hjk, List.getElem?_set_self hj, hx, Option.map_some, Option.map_some, hy]
  · rw [List.getElem?_set_ne hjk]

/-- What the steps inside do to the network and the records. -/
inductive Moves (z : SizeT) (serverAddr : Addr) (s s' : Session) : Act → Prop
  | idle {a : Act} (hnet : s'.net = s.net) (hstored : s'.stored = s.stored)
      (htaken : s'.taken = s.taken) : Moves z serverAddr s s' a
  | lost (i : ℕ) (hnet : s'.net = s.net.eraseIdx i) (hstored : s'.stored = s.stored)
      (htaken : s'.taken = s.taken) : Moves z serverAddr s s' (.lose i)
  | repeated (i : ℕ) (d : Datagram) (hd : s.net[i]? = some d) (hnet : s'.net = s.net ++ [d])
      (hstored : s'.stored = s.stored) (htaken : s'.taken = s.taken) :
      Moves z serverAddr s s' (.duplicate i)
  | waited (i : ℕ) (d : Datagram) (answers : List Datagram) (hd : s.net[i]? = some d)
      (hdst : d.dst = serverAddr) (hstatus : s.server.connectionStatus = .waitingInit)
      (hanswers : ∀ e ∈ answers, e.src = serverAddr) (hnet : s'.net = s.net.eraseIdx i ++ answers)
      (hstored : s'.stored = s.stored) (htaken : s'.taken = s.taken ∨ s'.taken = s.taken ++ [d]) :
      Moves z serverAddr s s' (.serverRecv i)
  | handled (i : ℕ) (d : Datagram) (hd : s.net[i]? = some d) (hdst : d.dst = serverAddr)
      (hstatus : s.server.connectionStatus = .recvVideo) (hnet : s'.net = s.net.eraseIdx i)
      (hstored : s'.stored =
        if Stores z s.server.videoBuffer d then s.stored ++ [d] else s.stored)
      (htaken : s'.taken = s.taken) : Moves z serverAddr s s' (.serverRecv i)
  | answered (j i : ℕ) (c : Client) (d : Datagram) (hc : s.clients[j]? = some c)
      (hd : s.net[i]? = some d) (hdst : d.dst = c.addr) (hnet : s'.net = s.net.eraseIdx i)
      (hstored : s'.stored = s.stored) (htaken : s'.taken = s.taken) :
      Moves z serverAddr s s' (.clientRecv j i)
  | asked (j : ℕ) (c : Client) (hc : s.clients[j]? = some c) (hphase : c.phase = .sendInit)
      (hnet : s'.net = s.net ++ [sendPacketType c.addr serverAddr .init])
      (hstored : s'.stored = s.stored) (htaken : s'.taken = s.taken) :
      Moves z serverAddr s s' (.clientSend j .init)

/-- The clients keep their addresses and none goes back to its INIT loop; a server that waits has waited,
and taken nothing. -/
structure Stays (s s' : Session) : Prop where
  addrs : s'.clients.map Client.addr = s.clients.map Client.addr
  initLoop : ∀ {j : ℕ} {c' : Client}, s'.clients[j]? = some c' → c'.InInitLoop →
    ∃ c, s.clients[j]? = some c ∧ c.InInitLoop
  waits : s'.server.connectionStatus = .waitingInit →
    s.server.connectionStatus = .waitingInit ∧ s'.taken = s.taken

theorem stays_of_eq {s s' : Session} (h : s'.clients = s.clients)
    (hwaits : s'.server.connectionStatus = .waitingInit →
      s.server.connectionStatus = .waitingInit ∧ s'.taken = s.taken) : Stays s s' :=
  ⟨by rw [h], fun hc hloop => ⟨_, h ▸ hc, hloop⟩, hwaits⟩

theorem stays_set {s s' : Session} {j : ℕ} {c c' : Client} (hc : s.clients[j]? = some c)
    (h : s'.clients = s.clients.set j c') (haddr : c'.addr = c.addr)
    (hloop : c'.InInitLoop → c.InInitLoop) (hserver : s'.server = s.server)
    (htaken : s'.taken = s.taken) : Stays s s' where
  addrs := by rw [h, map_set_eq hc haddr]
  initLoop := by
    intro k e he hin
    rw [h] at he
    rcases getElem?_set_cases (List.getElem?_eq_some_iff.mp hc).1 he with ⟨rfl, rfl⟩ | ⟨-, he⟩
    · exact ⟨c, hc, hloop hin⟩
    · exact ⟨e, he, hin⟩
  waits := fun hwait => ⟨hserver ▸ hwait, htaken⟩

/-- **What a step inside can do**, when no client is in debug mode. -/
theorem inside_moves {z : SizeT} {o : ByteOrder} {serverAddr : Addr} {max : ℕ} {s s' : Session}
    {a : Act} (h : SessionInv serverAddr s) (ha : Act.atEnds a = false)
    (hstep : sessionStep z o serverAddr max s a = some s') :
    Moves z serverAddr s s' a ∧ Stays s s' := by
  cases a with
  | fifoRead => cases ha
  | serverRestart heap mem => cases ha
  | clientStart addr srcAddr mem debug => cases ha
  | lose i =>
    rw [sessionStep] at hstep
    split at hstep
    · cases hstep
      exact ⟨.lost i rfl rfl rfl, stays_of_eq rfl fun hwait => ⟨hwait, rfl⟩⟩
    · cases hstep
  | duplicate i =>
    obtain ⟨d, hd, rfl⟩ := Option.map_eq_some_iff.mp hstep
    exact ⟨.repeated i d hd rfl rfl rfl, stays_of_eq rfl fun hwait => ⟨hwait, rfl⟩⟩
  | serverRecv i =>
    obtain ⟨d, hd, hdst, hstep⟩ := serverRecv_step hstep
    unfold serverTakes at hstep
    cases hstatus : s.server.connectionStatus with
    | waitingInit =>
      simp only [hstatus, waitInit_eq, Option.some.injEq] at hstep
      by_cases htest : testedByte s.server d = some PacketType.init.code
      · rw [if_pos htest] at hstep
        subst hstep
        refine ⟨.waited i d [sendPacketType serverAddr d.src .initAck] hd hdst hstatus ?_ rfl rfl
          (.inr rfl), stays_of_eq rfl fun hwait => ?_⟩
        · intro e he
          rw [List.mem_singleton.mp he]
          rfl
        · cases hwait
      · rw [if_neg htest] at hstep
        subst hstep
        exact ⟨.waited i d [] hd hdst hstatus (List.forall_mem_nil _) rfl rfl
          (.inl (by simp)), stays_of_eq rfl fun _ => ⟨hstatus, by simp⟩⟩
    | recvVideo =>
      simp only [hstatus] at hstep
      obtain ⟨srv, hsrv, rfl⟩ := Option.map_eq_some_iff.mp hstep
      refine ⟨.handled i d hd hdst hstatus rfl rfl rfl, stays_of_eq rfl fun hwait => ?_⟩
      rw [recvVideo_connectionStatus hsrv, hstatus] at hwait
      cases hwait
  | clientStop j =>
    obtain ⟨c, hc, rfl⟩ := Option.map_eq_some_iff.mp hstep
    exact ⟨.idle rfl rfl rfl, stays_set hc rfl rfl (by simp [Client.InInitLoop]) rfl rfl⟩
  | clientSend j a =>
    obtain ⟨c, hc, hstep⟩ := Option.bind_eq_some_iff.mp hstep
    obtain ⟨p, hp, rfl⟩ := Option.map_eq_some_iff.mp hstep
    have hmenu : c.phase ≠ .menu := (h.client hc).menu
    unfold clientSend at hp
    split at hp
    · cases hp
      exact ⟨.asked j c hc ‹_› rfl rfl rfl, stays_set hc rfl rfl (fun _ => .inl ‹_›) rfl rfl⟩
    · cases ha
    · exact absurd ‹c.phase = .menu› hmenu
    · exact absurd ‹c.phase = .menu› hmenu
    · exact absurd ‹c.phase = .menu› hmenu
    · exact absurd ‹c.phase = .menu› hmenu
    · exact absurd ‹c.phase = .menu› hmenu
    · cases hp
  | clientTimeout j =>
    obtain ⟨c, hc, hstep⟩ := Option.bind_eq_some_iff.mp hstep
    obtain ⟨c', hc', rfl⟩ := Option.map_eq_some_iff.mp hstep
    obtain ⟨haddr, -, hstays⟩ := clientReceive_spec hc'
    exact ⟨.idle rfl rfl rfl, stays_set hc rfl haddr (fun hloop => .inr (hstays hloop).1) rfl rfl⟩
  | clientRecv j i =>
    obtain ⟨c, hc, hstep⟩ := Option.bind_eq_some_iff.mp hstep
    obtain ⟨d, hd, hstep⟩ := Option.bind_eq_some_iff.mp hstep
    split at hstep
    · rename_i hdst
      obtain ⟨c', hc', rfl⟩ := Option.map_eq_some_iff.mp hstep
      obtain ⟨haddr, -, hstays⟩ := clientReceive_spec hc'
      exact ⟨.answered j i c d hc hd hdst rfl rfl rfl,
        stays_set hc rfl haddr (fun hloop => .inr (hstays hloop).1) rfl rfl⟩
    · cases hstep

/-- No client is started in debug mode, and none with the server's address in its `srcAddr`. -/
def ProperStart (serverAddr : Addr) : TransferAct → Prop
  | .clientStart _ srcAddr _ _ _ debug => debug = false ∧ srcAddr ≠ serverAddr
  | _ => True

instance (serverAddr : Addr) : (a : TransferAct) → Decidable (ProperStart serverAddr a)
  | .clientStart _ _ _ _ _ _ => inferInstanceAs (Decidable (_ ∧ _))
  | .inside _ | .serverRestart _ _ | .readFifo _ _ | .fifoWrite => isTrue trivial

theorem transferStep_sessionInv {z : SizeT} {o oc : ByteOrder} {serverAddr : Addr} {max : ℕ}
    {s s' : VideoLink} {a : TransferAct} (h : SessionInv serverAddr s.session)
    (ha : ProperStart serverAddr a) (hstep : transferStep z o oc serverAddr max s a = some s') :
    SessionInv serverAddr s'.session := by
  have hproper : ∀ b ∈ sessionActs oc s a, Proper serverAddr b := by
    intro b hb
    cases a with
    | inside a =>
      rw [List.mem_singleton.mp hb]
      rw [transferStep] at hstep
      split at hstep
      · cases hstep
      · rename_i hends
        cases a with
        | clientStart addr srcAddr mem debug => exact absurd rfl hends
        | _ => trivial
    | clientStart addr srcAddr mem loopMem emptied debug =>
      rw [List.mem_singleton.mp hb]
      exact ha
    | serverRestart heap mem =>
      rw [List.mem_singleton.mp hb]
      trivial
    | readFifo j c =>
      rw [sessionActs] at hb
      split at hb
      · cases hb
      · obtain ⟨data, -, rfl⟩ := List.mem_map.mp hb
        trivial
    | fifoWrite =>
      rw [List.mem_singleton.mp hb]
      trivial
  obtain ⟨t, ht, rfl⟩ := transferStep_matches z o oc serverAddr max s s.session a s' rfl trivial hstep
  exact (Along.of_forall (C := fun _ b => Proper serverAddr b) s.session _ fun b hb _ =>
    hproper b hb).invariant sessionStep_session h ht

/-! ### The client's end -/

def videoDatagram (src dst : Addr) (data : List UInt8) : Datagram := ⟨src, dst, data, .sendVideoPacket⟩

theorem frames_run (z : SizeT) (o : ByteOrder) (serverAddr : Addr) (max : ℕ) {j : ℕ} {c : Client}
    (hphase : c.phase = .video) (frames : List (List UInt8))
    (hle : ∀ p ∈ frames, p.length ≤ maxPacketSize) {s : Session} (hc : s.clients[j]? = some c) :
    runFrom (sessionStep z o serverAddr max) s (frames.map fun data => .clientSend j (.frame data)) =
      some { s with net := s.net ++ frames.map (videoDatagram c.addr serverAddr) } := by
  induction frames generalizing s with
  | nil => simp
  | cons p frames ih =>
    have hp : p.length ≤ maxPacketSize := hle p List.mem_cons_self
    have hsent : videoDatagrams serverAddr c p = [videoDatagram c.addr serverAddr p] := by
      have h2000 : p.length ≤ 2000 := hp
      rw [videoDatagrams, sendVideoPacket_eq (le_refl _) (by omega), List.take_length]
      rfl
    have hclients : s.clients.set j { c with phase := .video } = s.clients := by
      obtain ⟨hj, hget⟩ := List.getElem?_eq_some_iff.mp hc
      have hsame : { c with phase := .video } = s.clients[j] := by rw [hget, ← hphase]
      rw [hsame, List.set_getElem_self]
    have hstep : sessionStep z o serverAddr max s (.clientSend j (.frame p)) =
        some { s with net := s.net ++ [videoDatagram c.addr serverAddr p] } := by
      rw [sessionStep, hc, Option.bind_some]
      simp only [clientSend, hphase, if_pos hp, Option.map_some, hsent, hclients]
    refine runFrom_cons_eq_some.mpr ⟨_, hstep, ?_⟩
    rw [ih (fun q hq => hle q (List.mem_cons_of_mem p hq)) (s := { s with
      net := s.net ++ [videoDatagram c.addr serverAddr p] }) hc]
    simp

/-- The loop has cut what it has consumed into items, and sent the frames among them. -/
def EndOk (oc : ByteOrder) (e : ClientEnd) : Prop :=
  ∃ items tail, LoopOk e.loop ∧ Holding oc e.loop tail ∧
    Splits (Item.Valid oc) (Item.bytes oc) e.consumed items tail ∧ e.loop.sent = datagrams items

theorem start_endOk (oc : ByteOrder) (addr : Addr) (mem : ℕ → UInt8) (emptied : List UInt8)
    (debug : Bool) : EndOk oc (.start addr mem emptied debug) :=
  ⟨[], [], start_ok mem, .head rfl rfl,
    ⟨List.forall_mem_nil _, rfl, incomplete_nil (items_prefixFree oc)⟩, rfl⟩

/-- **One byte at a client's end**: the loop takes it, and sends at most what it completes. -/
theorem EndOk.read {oc : ByteOrder} {e : ClientEnd} (h : EndOk oc e) (c : UInt8) :
    ∃ loop frames, videoStep oc e.loop c = some loop ∧ loop.sent = e.loop.sent ++ frames ∧
      newFrames e.loop loop = frames ∧ (∀ p ∈ frames, p.length ≤ maxPacketSize) ∧
      EndOk oc { e with loop := loop, consumed := e.consumed ++ [c] } := by
  obtain ⟨items, tail, hok, hold, hsplit, hsent⟩ := h
  obtain ⟨loop, items', tail', hstep, hok', hold', hvalid, hbytes, hsent'⟩ := videoStep_spec oc hok hold c
  refine ⟨loop, datagrams items', hstep, hsent', ?_, fun p hp => hvalid _ (mem_datagrams hp),
    items ++ items', tail', hok', hold', ⟨?_, ?_, hold'.incomplete⟩, ?_⟩
  · rw [newFrames, hsent', List.drop_left]
  · intro i hi
    rcases List.mem_append.mp hi with hi | hi
    · exact hsplit.valid i hi
    · exact hvalid i hi
  · calc e.consumed ++ [c] = items.flatMap (Item.bytes oc) ++ (tail ++ [c]) := by
          rw [hsplit.eq, List.append_assoc]
      _ = (items ++ items').flatMap (Item.bytes oc) ++ tail' := by
          rw [hbytes, List.flatMap_append, List.append_assoc]
  · rw [hsent', hsent, datagrams_append]

/-- **`read_fifo_blocking` returns in a client**: it always can, and the frames completed go out. -/
theorem readFifo_step (z : SizeT) (o : ByteOrder) {oc : ByteOrder} (serverAddr : Addr) (max : ℕ)
    {s : VideoLink} {j : ℕ} {c : Client} {e : ClientEnd} (hc : s.session.clients[j]? = some c)
    (he : s.ends[j]? = some e) (hphase : c.phase = .video) (haddr : e.addr = c.addr) (hok : EndOk oc e)
    (byte : UInt8) :
    ∃ loop frames, loop.sent = e.loop.sent ++ frames ∧
      EndOk oc { e with loop := loop, consumed := e.consumed ++ [byte] } ∧
      transferStep z o oc serverAddr max s (.readFifo j byte) = some { s with
        session := { s.session with
          net := s.session.net ++ frames.map (videoDatagram e.addr serverAddr) }
        ends := s.ends.set j { e with loop := loop, consumed := e.consumed ++ [byte] } } := by
  obtain ⟨loop, frames, hloop, hsent, hnew, hle, hok'⟩ := hok.read byte
  refine ⟨loop, frames, hsent, hok', ?_⟩
  have hvideo : s.session.clients[j]?.map Client.phase = some .video := by rw [hc, Option.map_some, hphase]
  rw [transferStep, he, Option.bind_some, if_pos hvideo, hloop, Option.bind_some, hnew,
    frames_run z o serverAddr max hphase frames hle hc, Option.map_some, haddr]

/-! ### Where the stored frames come from -/

/-- The client at this end has sent the datagram: as an INIT, or as a frame its loop has read. -/
def SentFrom (serverAddr : Addr) (e : ClientEnd) (d : Datagram) : Prop :=
  d = sendPacketType e.addr serverAddr .init ∨
    ∃ data ∈ e.loop.sent, d = videoDatagram e.addr serverAddr data

def Known (serverAddr : Addr) (ends : List ClientEnd) (d : Datagram) : Prop :=
  ∃ e ∈ ends, SentFrom serverAddr e d

theorem SentFrom.src_eq {serverAddr : Addr} {e : ClientEnd} {d : Datagram}
    (h : SentFrom serverAddr e d) : d.src = e.addr := by
  rcases h with rfl | ⟨data, -, rfl⟩
  · rfl
  · rfl

theorem Known.mono {serverAddr : Addr} {ends ends' : List ClientEnd} {d : Datagram}
    (h : Known serverAddr ends d)
    (hsub : ∀ e ∈ ends, ∃ e' ∈ ends', e'.addr = e.addr ∧ e.loop.sent ⊆ e'.loop.sent) :
    Known serverAddr ends' d := by
  obtain ⟨e, he, hsent⟩ := h
  obtain ⟨e', he', haddr, hmore⟩ := hsub e he
  refine ⟨e', he', ?_⟩
  rcases hsent with rfl | ⟨data, hdata, rfl⟩
  · exact .inl (by rw [haddr])
  · exact .inr ⟨data, hmore hdata, by rw [haddr]⟩

/-- Each end belongs to a client and is in order; what is in flight to the server, and what the server has
stored or taken, the clients have sent. -/
structure OriginInv (oc : ByteOrder) (serverAddr : Addr) (s : VideoLink) : Prop where
  session : SessionInv serverAddr s.session
  addrs : s.ends.map ClientEnd.addr = s.session.clients.map Client.addr
  ends : ∀ e ∈ s.ends, EndOk oc e
  net : ∀ d ∈ s.session.net, d.src ≠ serverAddr → Known serverAddr s.ends d
  stored : ∀ d ∈ s.session.stored, Known serverAddr s.ends d
  taken : ∀ d ∈ s.session.taken, Known serverAddr s.ends d

section Origin

variable {z : SizeT} {o oc : ByteOrder} {serverAddr : Addr} {max : ℕ} {s s' : VideoLink}

theorem OriginInv.endOf (h : OriginInv oc serverAddr s) {j : ℕ} {c : Client}
    (hc : s.session.clients[j]? = some c) : ∃ e, s.ends[j]? = some e ∧ e.addr = c.addr := by
  have haddr : s.ends[j]?.map ClientEnd.addr = some c.addr := by
    rw [← List.getElem?_map, h.addrs, List.getElem?_map, hc, Option.map_some]
  exact Option.map_eq_some_iff.mp haddr

theorem OriginInv.clientOf (h : OriginInv oc serverAddr s) {j : ℕ} {e : ClientEnd}
    (he : s.ends[j]? = some e) : ∃ c, s.session.clients[j]? = some c ∧ c.addr = e.addr := by
  have haddr : s.session.clients[j]?.map Client.addr = some e.addr := by
    rw [← List.getElem?_map, ← h.addrs, List.getElem?_map, he, Option.map_some]
  exact Option.map_eq_some_iff.mp haddr

theorem OriginInv.addr_ne (h : OriginInv oc serverAddr s) {e : ClientEnd} (he : e ∈ s.ends) :
    e.addr ≠ serverAddr := by
  obtain ⟨j, hj⟩ := List.getElem?_of_mem he
  obtain ⟨c, hc, haddr⟩ := h.clientOf hj
  exact haddr ▸ h.session.addrs.ne hc

theorem OriginInv.src_ne (h : OriginInv oc serverAddr s) {d : Datagram} (hd : d ∈ s.session.net)
    (hdst : d.dst = serverAddr) : d.src ≠ serverAddr := by
  intro hsrc
  obtain ⟨t, ht, heq⟩ := h.session.answers d hd hsrc
  obtain ⟨e, he, hsent⟩ := h.taken t ht
  refine h.addr_ne he ?_
  rw [← hsent.src_eq, ← hdst, heq]
  rfl

theorem OriginInv.moves (h : OriginInv oc serverAddr s) {a : Act}
    (hmoves : Moves z serverAddr s.session s'.session a)
    (haddrs : s'.session.clients.map Client.addr = s.session.clients.map Client.addr)
    (hsession : SessionInv serverAddr s'.session) (hends : s'.ends = s.ends) :
    OriginInv oc serverAddr s' := by
  have herase : ∀ {i : ℕ} {d : Datagram}, d ∈ s.session.net.eraseIdx i → d.src ≠ serverAddr →
      Known serverAddr s.ends d := fun hd hsrc => h.net _ (List.mem_of_mem_eraseIdx hd) hsrc
  have hreceived : ∀ {i : ℕ} {d : Datagram}, s.session.net[i]? = some d → d.dst = serverAddr →
      Known serverAddr s.ends d := fun hd hdst =>
    have hmem := List.mem_of_getElem? hd
    h.net _ hmem (h.src_ne hmem hdst)
  have hmove : (∀ d ∈ s'.session.net, d.src ≠ serverAddr → Known serverAddr s.ends d) ∧
      (∀ d ∈ s'.session.stored, Known serverAddr s.ends d) ∧
      ∀ d ∈ s'.session.taken, Known serverAddr s.ends d := by
    cases hmoves with
    | idle hnet hstored htaken =>
      rw [hnet, hstored, htaken]
      exact ⟨h.net, h.stored, h.taken⟩
    | lost i hnet hstored htaken =>
      rw [hnet, hstored, htaken]
      exact ⟨fun d hd => herase hd, h.stored, h.taken⟩
    | repeated i d hd hnet hstored htaken =>
      rw [hnet, hstored, htaken]
      refine ⟨fun e he => ?_, h.stored, h.taken⟩
      rcases List.mem_append.mp he with he | he
      · exact h.net e he
      · rw [List.mem_singleton.mp he]
        exact h.net d (List.mem_of_getElem? hd)
    | waited i d answers hd hdst hstatus hanswers hnet hstored htaken =>
      rw [hnet, hstored]
      refine ⟨fun e he hsrc => ?_, h.stored, fun e he => ?_⟩
      · rcases List.mem_append.mp he with he | he
        · exact herase he hsrc
        · exact absurd (hanswers e he) hsrc
      · rcases htaken with htaken | htaken
        · exact h.taken e (htaken ▸ he)
        · rcases List.mem_append.mp (htaken ▸ he) with he | he
          · exact h.taken e he
          · rw [List.mem_singleton.mp he]
            exact hreceived hd hdst
    | handled i d hd hdst hstatus hnet hstored htaken =>
      rw [hnet, hstored, htaken]
      refine ⟨fun e he => herase he, fun e he => ?_, h.taken⟩
      split at he
      · rcases List.mem_append.mp he with he | he
        · exact h.stored e he
        · rw [List.mem_singleton.mp he]
          exact hreceived hd hdst
      · exact h.stored e he
    | answered j i c d hc hd hdst hnet hstored htaken =>
      rw [hnet, hstored, htaken]
      exact ⟨fun e he => herase he, h.stored, h.taken⟩
    | asked j c hc hphase hnet hstored htaken =>
      rw [hnet, hstored, htaken]
      refine ⟨fun e he hsrc => ?_, h.stored, h.taken⟩
      rcases List.mem_append.mp he with he | he
      · exact h.net e he hsrc
      · obtain ⟨f, hf, haddr⟩ := h.endOf hc
        refine ⟨f, List.mem_of_getElem? hf, .inl ?_⟩
        rw [List.mem_singleton.mp he, haddr]
  obtain ⟨hnet, hstored, htaken⟩ := hmove
  exact {
    session := hsession
    addrs := by rw [hends, h.addrs, haddrs]
    ends := by
      rw [hends]
      exact h.ends
    net := by
      rw [hends]
      exact hnet
    stored := by
      rw [hends]
      exact hstored
    taken := by
      rw [hends]
      exact htaken }

/-- What a step does, seen from the ends: a step inside, or one of the server; another client; or a byte
in a client's loop. -/
inductive StepCases (z : SizeT) (oc : ByteOrder) (serverAddr : Addr) (s s' : VideoLink) :
    TransferAct → Prop
  | inside {a : Act} (hmoves : Moves z serverAddr s.session s'.session a)
      (hstays : Stays s.session s'.session) (hends : s'.ends = s.ends)
      (hwritten : s'.written = s.written) : StepCases z oc serverAddr s s' (.inside a)
  | started (addr srcAddr : Addr) (mem loopMem : ℕ → UInt8) (emptied : List UInt8) (debug : Bool)
      (hfree : addr ≠ serverAddr)
      (hs' : s' = { s with
        session := { s.session with
          clients := s.session.clients ++ [.start addr srcAddr mem debug] }
        ends := s.ends ++ [.start addr loopMem emptied debug] }) :
      StepCases z oc serverAddr s s' (.clientStart addr srcAddr mem loopMem emptied debug)
  | restarted (heap mem : ℕ → UInt8) (max : ℕ)
      (hs' : s' = { s with session := { s.session with server := .start max heap mem } }) :
      StepCases z oc serverAddr s s' (.serverRestart heap mem)
  | read (j : ℕ) (c : Client) (e : ClientEnd) (byte : UInt8) (loop : VideoLoop)
      (frames : List (List UInt8)) (hc : s.session.clients[j]? = some c) (he : s.ends[j]? = some e)
      (hphase : c.phase = .video) (haddr : e.addr = c.addr) (hsent : loop.sent = e.loop.sent ++ frames)
      (hok : EndOk oc { e with loop := loop, consumed := e.consumed ++ [byte] })
      (hs' : s' = { s with
        session := { s.session with
          net := s.session.net ++ frames.map (videoDatagram e.addr serverAddr) }
        ends := s.ends.set j { e with loop := loop, consumed := e.consumed ++ [byte] } }) :
      StepCases z oc serverAddr s s' (.readFifo j byte)
  | wrote (buf : CircularBuf) (byte : UInt8)
      (hempty : ¬ bufferIsEmpty z s.session.server.videoBuffer = true)
      (hread : readDataBuffer z s.session.server.videoBuffer = some (byte, buf))
      (hs' : s' = { s with
        session := { s.session with server := { s.session.server with videoBuffer := buf } }
        written := s.written ++ [byte] }) : StepCases z oc serverAddr s s' .fifoWrite

theorem transferStep_cases (h : OriginInv oc serverAddr s) {a : TransferAct}
    (hstep : transferStep z o oc serverAddr max s a = some s') : StepCases z oc serverAddr s s' a := by
  cases a with
  | inside a =>
    rw [transferStep] at hstep
    split at hstep
    · cases hstep
    · rename_i hends
      obtain ⟨t, ht, rfl⟩ := Option.map_eq_some_iff.mp hstep
      obtain ⟨hmoves, hstays⟩ := inside_moves h.session (Bool.eq_false_iff.mpr hends) ht
      exact .inside hmoves hstays rfl rfl
  | clientStart addr srcAddr mem loopMem emptied debug =>
    obtain ⟨t, ht, rfl⟩ := Option.map_eq_some_iff.mp hstep
    rw [sessionStep] at ht
    split at ht
    · cases ht
    · rename_i hfree
      cases ht
      exact .started addr srcAddr mem loopMem emptied debug (not_or.mp hfree).1 rfl
  | serverRestart heap mem =>
    cases hstep
    exact .restarted heap mem max rfl
  | readFifo j byte =>
    obtain ⟨e, he, hrest⟩ := Option.bind_eq_some_iff.mp hstep
    split at hrest
    · rename_i hvideo
      obtain ⟨c, hc, hphase⟩ := Option.map_eq_some_iff.mp hvideo
      obtain ⟨c', hc', haddr⟩ := h.clientOf he
      rw [hc, Option.some.injEq] at hc'
      subst hc'
      obtain ⟨loop, frames, hsent, hok, heq⟩ := readFifo_step z o serverAddr max hc he hphase
        haddr.symm (h.ends e (List.mem_of_getElem? he)) byte
      rw [hstep, Option.some.injEq] at heq
      exact .read j c e byte loop frames hc he hphase haddr.symm hsent hok heq
    · cases hrest
  | fifoWrite =>
    obtain ⟨⟨byte, buf⟩, hread, hstep⟩ := Option.bind_eq_some_iff.mp hstep
    obtain ⟨t, ht, rfl⟩ := Option.map_eq_some_iff.mp hstep
    rw [sessionStep] at ht
    split at ht
    · cases ht
    · rename_i hempty
      rw [hread, Option.map_some, Option.some.injEq] at ht
      subst ht
      exact .wrote buf byte hempty hread rfl

/-- **Step.**  Whatever is sent is sent by a client, and what the server keeps of it was in flight. -/
theorem transferStep_origin (h : OriginInv oc serverAddr s) {a : TransferAct}
    (ha : ProperStart serverAddr a) (hstep : transferStep z o oc serverAddr max s a = some s') :
    OriginInv oc serverAddr s' := by
  have hsession := transferStep_sessionInv h.session ha hstep
  cases transferStep_cases h hstep with
  | inside hmoves hstays hends hwritten => exact h.moves hmoves hstays.addrs hsession hends
  | started addr srcAddr mem loopMem emptied debug hfree hs' =>
    subst hs'
    have hkeep : ∀ {d : Datagram}, Known serverAddr s.ends d →
        Known serverAddr (s.ends ++ [.start addr loopMem emptied debug]) d := fun hd =>
      hd.mono fun e he => ⟨e, List.mem_append_left _ he, rfl, List.Subset.refl _⟩
    exact {
      session := hsession
      addrs := by
        rw [List.map_append, List.map_append, h.addrs]
        rfl
      ends := by
        intro e he
        rcases List.mem_append.mp he with he | he
        · exact h.ends e he
        · rw [List.mem_singleton.mp he]
          exact start_endOk oc addr loopMem emptied debug
      net := fun d hd hsrc => hkeep (h.net d hd hsrc)
      stored := fun d hd => hkeep (h.stored d hd)
      taken := fun d hd => hkeep (h.taken d hd) }
  | restarted heap mem max' hs' =>
    subst hs'
    exact h.moves (z := z) (a := .fifoRead) (.idle rfl rfl rfl) rfl hsession rfl
  | read j c e byte loop frames hc he hphase haddr hsent hok hs' =>
    subst hs'
    have hj : j < s.ends.length := (List.getElem?_eq_some_iff.mp he).1
    have hkeep : ∀ {d : Datagram}, Known serverAddr s.ends d →
        Known serverAddr (s.ends.set j { e with loop := loop, consumed := e.consumed ++ [byte] }) d := by
      intro d hd
      refine hd.mono fun f hf => ?_
      obtain ⟨k, hk⟩ := List.getElem?_of_mem hf
      by_cases hkj : k = j
      · subst hkj
        rw [he, Option.some.injEq] at hk
        subst hk
        refine ⟨_, List.mem_of_getElem? (List.getElem?_set_self hj), rfl, ?_⟩
        rw [hsent]
        exact List.subset_append_left _ _
      · have hget : (s.ends.set j { e with loop := loop, consumed := e.consumed ++ [byte] })[k]? =
            some f := by rw [List.getElem?_set_ne (Ne.symm hkj), hk]
        exact ⟨f, List.mem_of_getElem? hget, rfl, List.Subset.refl _⟩
    exact {
      session := hsession
      addrs := (map_set_eq (y := { e with loop := loop, consumed := e.consumed ++ [byte] }) he rfl).trans
        h.addrs
      ends := by
        intro f hf
        rcases List.mem_or_eq_of_mem_set hf with hf | rfl
        · exact h.ends f hf
        · exact hok
      net := by
        intro d hd hsrc
        rcases List.mem_append.mp hd with hd | hd
        · exact hkeep (h.net d hd hsrc)
        · obtain ⟨data, hdata, rfl⟩ := List.mem_map.mp hd
          refine ⟨_, List.mem_of_getElem? (List.getElem?_set_self hj), .inr ⟨data, ?_, rfl⟩⟩
          rw [hsent]
          exact List.mem_append_right _ hdata
      stored := fun d hd => hkeep (h.stored d hd)
      taken := fun d hd => hkeep (h.taken d hd) }
  | wrote buf byte hempty hread hs' =>
    subst hs'
    exact h.moves (z := z) (a := .fifoRead) (.idle rfl rfl rfl) rfl hsession rfl

end Origin

/-! ### What the server's FIFO is written -/

/-- `earlier` has, for each of the server's earlier starts, what it stored after it and what it then passed
on: a beginning of the frames.  The bytes passed on since the last start, and those in the buffer, are the
frames of the datagrams stored since. -/
def OutputOk (o : ByteOrder) (max : ℕ) (earlier : List (List Datagram × List UInt8)) (s : VideoLink) :
    Prop :=
  s.session.server.videoBuffer.max = max ∧ (∀ p ∈ earlier, p.2 <+: storedStream o p.1) ∧
    ∃ unread recent now, Represents s.session.server.videoBuffer unread ∧
      s.session.stored = earlier.flatMap Prod.fst ++ recent ∧
      s.written = earlier.flatMap Prod.snd ++ now ∧ now ++ unread = storedStream o recent

theorem session_output {z : SizeT} {o : ByteOrder} {serverAddr : Addr} {max : ℕ} (hpos : 1 ≤ max)
    (hmax : max ≤ intMax) {earlier : List (List Datagram × List UInt8)} {s : VideoLink} {t : Session}
    {a : Act} (h : OutputOk o max earlier s) (ha : Act.atEnds a = false)
    (hstep : sessionStep z o serverAddr max s.session a = some t) :
    OutputOk o max earlier { s with session := t } := by
  obtain ⟨hsize, hearlier, unread, recent, now, hrep, hrecent, hwritten, hbytes⟩ := h
  obtain ⟨hsize', hmoves⟩ := sessionStep_buffer hpos hmax hsize hrep hstep
  cases hmoves with
  | same hrep' hstored =>
    exact ⟨hsize', hearlier, unread, recent, now, hrep', hstored.trans hrecent, hwritten, hbytes⟩
  | appended i d hrep' hstored =>
    refine ⟨hsize', hearlier, _, recent ++ [d], now, hrep', ?_, hwritten, ?_⟩
    · rw [hstored, hrecent, List.append_assoc]
    · rw [storedStream_append, ← hbytes, List.append_assoc]
  | popped c rest hq hrep' hstored => cases ha
  | fresh heap mem hrep' hstored => cases ha

def TransferAct.isRestart : TransferAct → Bool
  | .serverRestart _ _ => true
  | _ => false

/-- **Step.**  Only a restart begins anew. -/
theorem transferStep_output {z : SizeT} {o oc : ByteOrder} {serverAddr : Addr} {max : ℕ}
    (hpos : 1 ≤ max) (hmax : max ≤ intMax) {earlier : List (List Datagram × List UInt8)}
    {s s' : VideoLink} {a : TransferAct} (horigin : OriginInv oc serverAddr s)
    (h : OutputOk o max earlier s) (hstep : transferStep z o oc serverAddr max s a = some s') :
    ∃ earlier', OutputOk o max earlier' s' ∧ (a.isRestart = false → earlier' = earlier) := by
  cases a with
  | inside a =>
    rw [transferStep] at hstep
    split at hstep
    · cases hstep
    · rename_i hends
      obtain ⟨t, ht, rfl⟩ := Option.map_eq_some_iff.mp hstep
      exact ⟨earlier, session_output hpos hmax h (Bool.eq_false_iff.mpr hends) ht, fun _ => rfl⟩
  | clientStart addr srcAddr mem loopMem emptied debug =>
    cases transferStep_cases horigin hstep with
    | started _ _ _ _ _ _ hfree hs' =>
      subst hs'
      exact ⟨earlier, h, fun _ => rfl⟩
  | serverRestart heap mem =>
    -- what is left in the buffer is lost
    cases hstep
    obtain ⟨-, hearlier, unread, recent, now, -, hrecent, hwritten, hbytes⟩ := h
    refine ⟨earlier ++ [(recent, now)], ⟨rfl, ?_, [], [], [], initBuffer_represents max heap hpos, ?_,
      ?_, rfl⟩, fun hno => ?_⟩
    · intro p hp
      rcases List.mem_append.mp hp with hp | hp
      · exact hearlier p hp
      · rw [List.mem_singleton.mp hp]
        exact ⟨unread, hbytes⟩
    · simpa using hrecent
    · simpa using hwritten
    · cases hno
  | readFifo j byte =>
    cases transferStep_cases horigin hstep with
    | read _ c e _ loop frames hc he hphase haddr hsent hok hs' =>
      subst hs'
      exact ⟨earlier, h, fun _ => rfl⟩
  | fifoWrite =>
    cases transferStep_cases horigin hstep with
    | wrote buf byte hempty hread hs' =>
      subst hs'
      obtain ⟨hsize, hearlier, unread, recent, now, hrep, hrecent, hwritten, hbytes⟩ := h
      have hle : s.session.server.videoBuffer.max ≤ intMax := hsize.trans_le hmax
      cases unread with
      | nil => exact absurd ((hrep.bufferIsEmpty_iff z hle).mpr rfl) hempty
      | cons c unread =>
        rw [hrep.readDataBuffer_eq z hle] at hread
        cases hread
        refine ⟨earlier, ⟨hsize, hearlier, unread, recent, now ++ [byte], hrep.afterRead.2, hrecent, ?_, ?_⟩,
          fun _ => rfl⟩
        · dsimp only
          rw [hwritten, List.append_assoc]
        · rw [← hbytes, List.append_assoc, List.singleton_append]

theorem start_origin (oc : ByteOrder) (serverAddr : Addr) (max : ℕ) (heap mem : ℕ → UInt8) :
    OriginInv oc serverAddr (.start max heap mem) where
  session := start_session serverAddr max heap mem
  addrs := rfl
  ends := by simp [VideoLink.start]
  net := by simp [VideoLink.start, Session.start]
  stored := by simp [VideoLink.start, Session.start]
  taken := by simp [VideoLink.start, Session.start]

theorem start_output (o : ByteOrder) {max : ℕ} (heap mem : ℕ → UInt8) (hpos : 1 ≤ max) :
    OutputOk o max [] (.start max heap mem) :=
  ⟨rfl, List.forall_mem_nil _, [], [], [], initBuffer_represents max heap hpos, rfl, rfl, rfl⟩

theorem output_of_noRestart {z : SizeT} {o oc : ByteOrder} {serverAddr : Addr} {max : ℕ}
    {heap mem : ℕ → UInt8} (hpos : 1 ≤ max) (hmax : max ≤ intMax) {as : List TransferAct}
    {s : VideoLink} (hproper : ∀ a ∈ as, ProperStart serverAddr a)
    (hno : ∀ a ∈ as, a.isRestart = false)
    (hrun : runFrom (transferStep z o oc serverAddr max) (.start max heap mem) as = some s) :
    OutputOk o max [] s := by
  have hinv : OriginInv oc serverAddr s ∧ OutputOk o max [] s := by
    refine Along.invariant (C := fun _ a => ProperStart serverAddr a ∧ a.isRestart = false)
      (I := fun s => OriginInv oc serverAddr s ∧ OutputOk o max [] s) ?_
      (Along.of_forall _ as fun a ha _ => ⟨hproper a ha, hno a ha⟩)
      ⟨start_origin oc serverAddr max heap mem, start_output o heap mem hpos⟩ hrun
    intro s a s' ⟨horigin, houtput⟩ ⟨ha, hsame⟩ hstep
    obtain ⟨earlier', houtput', heq⟩ := transferStep_output hpos hmax horigin houtput hstep
    exact ⟨transferStep_origin horigin ha hstep, heq hsame ▸ houtput'⟩
  exact hinv.2

theorem outputOk_nil {o : ByteOrder} {max : ℕ} {s : VideoLink} (h : OutputOk o max [] s) :
    ∃ unread, Represents s.session.server.videoBuffer unread ∧
      s.written ++ unread = storedStream o s.session.stored := by
  obtain ⟨-, -, unread, recent, now, hrep, hrecent, hwritten, hbytes⟩ := h
  rw [List.flatMap_nil, List.nil_append] at hrecent hwritten
  exact ⟨unread, hrep, by rw [hwritten, hrecent, hbytes]⟩

end LinkManagement.Transfer
