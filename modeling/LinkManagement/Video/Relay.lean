import LinkManagement.Video.Sessions

/-!
# From the server through the FIFOs to the client

One server (`recv_video` and `fifo_write_thread`), the link hardware, and one client
(`video_send_loop`).  The FIFOs are bounded queues with exact full and empty bits; the link moves the
oldest byte when the receive FIFO has room, and both ends have the same byte order.

The two threads of the server share the buffer without a lock.  Here the room check, each copy of
`send_data_buffer` with its stores of `head` and `full`, and a whole guarded read of `fifo_write_thread`
are one step each, and the steps interleave in any order.  `InterleavedRelay` is the same chain with the
loads and stores themselves as steps, under the condition that `SharedBuffer` needs.

A byte of a stored packet is at every instant in one of seven places: still to be written to the ring,
in the ring, in the writer thread's variable, in the transmit FIFO, in the receive FIFO, in the packet
the client is filling, or sent.  `Accounts` says that the places, read from the client back to the
server, spell the stream of the stored packets; `relayStep_accounts` is the step and
`relay_end_to_end` the run: what the client has sent is a prefix of the packets stored, and all of them
once nothing is under way.
-/

namespace LinkManagement.Relay

open LinkManagement.Transition LinkManagement.MachineInt LinkManagement.Buffer
open LinkManagement.Connection LinkManagement.SendPacket LinkManagement.VideoSendLoop
open LinkManagement.Sessions (Server Stores)

/-- The whole chain.  `readData` is the variable of `fifo_write_thread` while it holds a byte that is
not yet in the FIFO; `received` and `stored` record the datagrams that arrived and those that passed the
room check. -/
structure Chain where
  server : PacketRun
  readData : Option UInt8
  tx : List UInt8
  rx : List UInt8
  client : VideoLoop
  received : List (List UInt8)
  stored : List (List UInt8)

inductive RelayAct where
  /-- `recv_data` returns in `recv_video`, and `send_packet_buffer` checks the room -/
  | recv (datagram : List UInt8)
  /-- the main thread's next write to the ring -/
  | write
  /-- `fifo_write_thread` finds the ring not empty and reads a byte -/
  | read
  /-- `write_fifo_blocking` finds room -/
  | writeFifo
  /-- the hardware moves a byte -/
  | link
  /-- `read_fifo_blocking` returns in `video_send_loop` -/
  | readFifo

def Chain.start (max : ℕ) (heap mem : ℕ → UInt8) : Chain :=
  ⟨.start max heap, none, [], [], .start mem, [], []⟩

/-- `recv_video` with a received datagram: an empty one is skipped, another is stored if there is
room. -/
def recvVideo (z : SizeT) (o : ByteOrder) (data : List UInt8) (s : Chain) : Chain :=
  if data = [] then { s with received := s.received ++ [data] }
  else
    { s with
      server := checkRoom z o data s.server
      received := s.received ++ [data]
      stored := if (checkRoom z o data s.server).calls = [] then s.stored else s.stored ++ [data] }

/-- Each call that fills or reads the buffer is one step. -/
def relayStep (z : SizeT) (o : ByteOrder) (txCap rxCap : ℕ) (s : Chain) : RelayAct → Option Chain
  | .recv datagram =>
      if s.server.calls = [] then some (recvVideo z o (datagram.take maxPacketSize) s) else none
  | .write => (packetStep z o s.server .write).map fun b => { s with server := b }
  | .read =>
      match s.readData with
      | some _ => none
      | none =>
          if bufferIsEmpty z s.server.buf then none
          else
            (readDataBuffer z s.server.buf).map fun p =>
              { s with
                server := { s.server with buf := p.2, taken := s.server.taken ++ [p.1] }
                readData := some p.1 }
  | .writeFifo =>
      match s.readData with
      | none => none
      | some c =>
          if s.tx.length < txCap then some { s with readData := none, tx := s.tx ++ [c] } else none
  | .link =>
      match s.tx with
      | [] => none
      | c :: tx =>
          if s.rx.length < rxCap then some { s with tx := tx, rx := s.rx ++ [c] } else none
  | .readFifo =>
      match s.rx with
      | [] => none
      | c :: rx => (videoStep o s.client c).map fun l => { s with rx := rx, client := l }

/-! ### The calls without the thread -/

theorem writes_run (z : SizeT) (o : ByteOrder) (txCap rxCap : ℕ) (n : ℕ) {s : Chain} {b : PacketRun}
    (h : runFrom (packetStep z o) s.server (List.replicate n .write) = some b) :
    runFrom (relayStep z o txCap rxCap) s (List.replicate n .write) = some { s with server := b } := by
  induction n generalizing s with
  | zero =>
    obtain rfl := Option.some.inj h
    rfl
  | succ n ih =>
    obtain ⟨m, hm, hrest⟩ := runFrom_cons_eq_some.mp h
    refine runFrom_cons_eq_some.mpr ⟨{ s with server := m }, ?_, ih hrest⟩
    rw [relayStep, hm, Option.map_some]

/-- **`recv_video` is its steps**: with no read in between, the room check and the writes leave the buffer
as the whole call of a session does, and record the packet exactly if it does. -/
theorem recvVideo_undisturbed (z : SizeT) (o : ByteOrder) (txCap rxCap : ℕ) {srv srv' : Server}
    {s : Chain} {d : Datagram} (hbuf : s.server.buf = srv.videoBuffer) (hcalls : s.server.calls = [])
    (h : Sessions.recvVideo z o srv d = some srv') :
    ∃ n s', runFrom (relayStep z o txCap rxCap) s (.recv d.data :: List.replicate n .write) = some s' ∧
      s'.server.buf = srv'.videoBuffer ∧ s'.server.calls = [] ∧
      s'.stored = if Stores z srv.videoBuffer d then s.stored ++ [d.data.take maxPacketSize]
        else s.stored := by
  have hrecv : relayStep z o txCap rxCap s (.recv d.data) =
      some (recvVideo z o (d.data.take maxPacketSize) s) := if_pos hcalls
  rw [Sessions.recvVideo] at h
  by_cases hempty : d.data.take maxPacketSize = []
  · have hnot : ¬ Stores z srv.videoBuffer d := fun hs => by
      rw [Stores, hempty] at hs
      exact absurd hs.1 (by decide)
    rw [if_pos (by rw [hempty]; rfl), Option.some.injEq] at h
    refine ⟨0, _, runFrom_cons_eq_some.mpr ⟨_, hrecv, rfl⟩, ?_⟩
    rw [recvVideo, if_pos hempty, if_neg hnot, ← h]
    exact ⟨hbuf, hcalls, rfl⟩
  · have hpos : 0 < (d.data.take maxPacketSize).length := List.length_pos_iff.mpr hempty
    rw [if_neg (by omega)] at h
    obtain ⟨buf', hsend, rfl⟩ := Option.map_eq_some_iff.mp h
    rw [sendPacketBuffer] at hsend
    by_cases hroom : getSpace z srv.videoBuffer > ((d.data.take maxPacketSize).length : ℤ) + 2
    · -- the two calls, one after the other
      rw [if_pos hroom] at hsend
      obtain ⟨buf₁, h₁, h₂⟩ := Option.bind_eq_some_iff.mp hsend
      have hcheck : checkRoom z o (d.data.take maxPacketSize) s.server = { s.server with
          calls := [shortBytes o (d.data.take maxPacketSize).length, d.data.take maxPacketSize] } :=
        if_pos (hbuf ▸ hroom)
      obtain ⟨n₁, hn₁⟩ := sendDataBufferFuel_writes z o _ _ s.server.buf buf₁
        [d.data.take maxPacketSize] s.server.stored s.server.taken (hbuf ▸ h₁)
      obtain ⟨n₂, hn₂⟩ := sendDataBufferFuel_writes z o _ _ buf₁ buf' []
        (s.server.stored ++ shortBytes o (d.data.take maxPacketSize).length) s.server.taken h₂
      have hwrites : runFrom (packetStep z o)
          (recvVideo z o (d.data.take maxPacketSize) s).server (List.replicate (n₁ + n₂) .write) =
          some ⟨buf', [], s.server.stored ++ shortBytes o (d.data.take maxPacketSize).length ++
            d.data.take maxPacketSize, s.server.taken⟩ := by
        rw [recvVideo, if_neg hempty, hcheck, List.replicate_add, runFrom_append, hn₁, Option.bind_some,
          hn₂]
      refine ⟨n₁ + n₂, _, runFrom_cons_eq_some.mpr ⟨_, hrecv, writes_run z o txCap rxCap _ hwrites⟩,
        rfl, rfl, ?_⟩
      rw [if_pos (show Stores z srv.videoBuffer d from ⟨hpos, hroom⟩), recvVideo, if_neg hempty, hcheck]
      dsimp only
      rw [if_neg (List.cons_ne_nil _ _)]
    · rw [if_neg hroom, Option.some.injEq] at hsend
      have hcheck : checkRoom z o (d.data.take maxPacketSize) s.server = s.server :=
        if_neg (hbuf ▸ hroom)
      have hnot : ¬ Stores z srv.videoBuffer d := fun hs => hroom hs.2
      refine ⟨0, _, runFrom_cons_eq_some.mpr ⟨_, hrecv, rfl⟩, ?_⟩
      rw [recvVideo, if_neg hempty, hcheck, if_pos hcalls, if_neg hnot, ← hsend]
      exact ⟨hbuf, hcalls, rfl⟩

/-! ### Where the bytes are -/

/-- The bytes between the client's packet buffer and the server's source, oldest first. -/
def underway (s : Chain) (unread : List UInt8) : List UInt8 :=
  s.rx ++ (s.tx ++ (s.readData.toList ++ (unread ++ s.server.calls.flatten)))

/-- Every byte of the stored packets is accounted for: `unread` is in the ring, `tail` in the client's
packet, `rest` are the packets not yet sent. -/
structure Accounts (o : ByteOrder) (max txCap rxCap : ℕ) (s : Chain) (unread tail : List UInt8)
    (rest : List (List UInt8)) : Prop where
  ring : PacketInv max s.server unread
  loop : LoopOk s.client
  holding : Holding o s.client tail
  tx_le : s.tx.length ≤ txCap
  rx_le : s.rx.length ≤ rxCap
  sizes : ∀ p ∈ s.stored, 1 ≤ p.length ∧ p.length ≤ maxPacketSize
  dropped : s.stored.Sublist s.received
  sent : s.stored = s.client.sent ++ rest
  bytes : stream o rest = tail ++ underway s unread

theorem start_accounts (o : ByteOrder) {max : ℕ} (txCap rxCap : ℕ) (heap mem : ℕ → UInt8)
    (hpos : 1 ≤ max) : Accounts o max txCap rxCap (.start max heap mem) [] [] [] where
  ring := start_inv heap hpos
  loop := start_ok mem
  holding := .head rfl rfl
  tx_le := Nat.zero_le _
  rx_le := Nat.zero_le _
  sizes := by simp [Chain.start]
  dropped := List.Sublist.refl []
  sent := rfl
  bytes := rfl

/-- A datagram that arrives is skipped, dropped, or stored whole: its frame is then what is still to be
written. -/
theorem recvVideo_accounts (z : SizeT) (o : ByteOrder) {max txCap rxCap : ℕ} (hmax : max ≤ intMax)
    {s : Chain} {unread tail data : List UInt8} {rest : List (List UInt8)}
    (h : Accounts o max txCap rxCap s unread tail rest) (hcalls : s.server.calls = [])
    (hdata : data.length ≤ maxPacketSize) :
    ∃ rest', Accounts o max txCap rxCap (recvVideo z o data s) unread tail rest' := by
  unfold recvVideo
  by_cases hnil : data = []
  · rw [if_pos hnil]
    exact ⟨rest, {
      ring := h.ring
      loop := h.loop
      holding := h.holding
      tx_le := h.tx_le
      rx_le := h.rx_le
      sizes := h.sizes
      dropped := h.dropped.trans (List.sublist_append_left _ _)
      sent := h.sent
      bytes := h.bytes }⟩
  · rw [if_neg hnil]
    have hpos : 1 ≤ data.length := List.length_pos_iff.mpr hnil
    have hring := checkRoom_inv z o hmax hpos h.ring
    by_cases hroom : getSpace z s.server.buf > (data.length : ℤ) + 2
    · have hcheck : checkRoom z o data s.server =
          { s.server with calls := [shortBytes o data.length, data] } := if_pos hroom
      rw [hcheck] at hring ⊢
      refine ⟨rest ++ [data], ?_⟩
      exact {
        ring := hring
        loop := h.loop
        holding := h.holding
        tx_le := h.tx_le
        rx_le := h.rx_le
        sizes := by
          intro p hp
          rcases List.mem_append.mp hp with hp | hp
          · exact h.sizes p hp
          · rw [List.mem_singleton.mp hp]
            exact ⟨hpos, hdata⟩
        dropped := h.dropped.append (List.Sublist.refl [data])
        sent := by
          show s.stored ++ [data] = s.client.sent ++ (rest ++ [data])
          rw [h.sent, List.append_assoc]
        bytes := by
          have hb := h.bytes
          rw [underway, hcalls] at hb
          rw [stream_append, hb]
          simp [underway, stream, frameBytes] }
    · have hcheck : checkRoom z o data s.server = s.server := if_neg hroom
      rw [hcheck, if_pos hcalls]
      exact ⟨rest, {
        ring := h.ring
        loop := h.loop
        holding := h.holding
        tx_le := h.tx_le
        rx_le := h.rx_le
        sizes := h.sizes
        dropped := h.dropped.trans (List.sublist_append_left _ _)
        sent := h.sent
        bytes := h.bytes }⟩

/-- **Step.**  Each step moves bytes from one place to the next. -/
theorem relayStep_accounts (z : SizeT) (o : ByteOrder) {max txCap rxCap : ℕ} (hmax : max ≤ intMax)
    {s s' : Chain} {a : RelayAct} (hstep : relayStep z o txCap rxCap s a = some s')
    (h : ∃ unread tail rest, Accounts o max txCap rxCap s unread tail rest) :
    ∃ unread tail rest, Accounts o max txCap rxCap s' unread tail rest := by
  obtain ⟨unread, tail, rest, h⟩ := h
  cases a with
  | recv datagram =>
    simp only [relayStep] at hstep
    split at hstep
    · rename_i hcalls
      cases hstep
      obtain ⟨rest', h'⟩ := recvVideo_accounts z o hmax h hcalls
        (show (datagram.take maxPacketSize).length ≤ maxPacketSize by
          rw [List.length_take]; exact Nat.min_le_left _ _)
      exact ⟨unread, tail, rest', h'⟩
    · cases hstep
  | write =>
    obtain ⟨b, hb, rfl⟩ := Option.map_eq_some_iff.mp hstep
    cases hcalls : s.server.calls with
    | nil =>
      simp only [packetStep, hcalls] at hb
      cases hb
    | cons data due =>
      obtain ⟨b', unread', hb', hring, hflat⟩ := writeNext_inv z hmax h.ring hcalls
      simp only [packetStep, hcalls, hb'] at hb
      cases hb
      exact ⟨unread', tail, rest, { h with
        ring := hring
        bytes := by
          rw [h.bytes, underway, underway, hflat] }⟩
  | read =>
    simp only [relayStep] at hstep
    split at hstep
    · cases hstep
    · rename_i hreg
      split at hstep
      · cases hstep
      · rename_i hne
        obtain ⟨c, unread', rfl, hread, hring⟩ := read_inv z hmax h.ring (by simpa using hne)
        rw [hread] at hstep
        cases hstep
        exact ⟨unread', tail, rest, { h with
          ring := hring
          bytes := by
            rw [h.bytes, underway, underway, hreg]
            rfl }⟩
  | writeFifo =>
    simp only [relayStep] at hstep
    split at hstep
    · cases hstep
    · rename_i c hreg
      split at hstep
      · rename_i hcap
        cases hstep
        exact ⟨unread, tail, rest, { h with
          tx_le := by
            rw [List.length_append]
            exact hcap
          bytes := by
            rw [h.bytes, underway, underway, hreg]
            simp }⟩
      · cases hstep
  | link =>
    simp only [relayStep] at hstep
    split at hstep
    · cases hstep
    · rename_i c tx htx
      split at hstep
      · rename_i hcap
        cases hstep
        have hle := h.tx_le
        rw [htx, List.length_cons] at hle
        exact ⟨unread, tail, rest, { h with
          tx_le := Nat.le_of_succ_le hle
          rx_le := by
            rw [List.length_append]
            exact hcap
          bytes := by
            rw [h.bytes, underway, underway, htx]
            simp }⟩
      · cases hstep
  | readFifo =>
    simp only [relayStep] at hstep
    split at hstep
    · cases hstep
    · rename_i c rx hrx
      obtain ⟨l, hl, rfl⟩ := Option.map_eq_some_iff.mp hstep
      have hle := h.rx_le
      rw [hrx, List.length_cons] at hle
      have hbytes := h.bytes
      rw [underway, hrx] at hbytes
      have hsizes : ∀ p ∈ rest, p.length ≤ maxPacketSize := fun p hp =>
        (h.sizes p (h.sent ▸ List.mem_append_right _ hp)).2
      obtain ⟨l', js, rest', tail', hl', hok, hold, hsent, rfl, hleft⟩ :=
        videoStep_along o h.loop h.holding hsizes hbytes
      rw [hl, Option.some.injEq] at hl'
      subst hl'
      exact ⟨unread, tail', rest', { h with
        loop := hok
        holding := hold
        rx_le := Nat.le_of_succ_le hle
        sent := by
          show s.stored = l.sent ++ rest'
          rw [h.sent, hsent, List.append_assoc]
        bytes := hleft }⟩

/-- What holds end to end: the datagrams sent are a prefix of the packets stored, the stored packets
are received datagrams in order, what lies between the two is exactly the bytes under way, nothing
overflows, and with no byte under way every stored packet has been sent. -/
structure EndToEnd (o : ByteOrder) (txCap rxCap : ℕ) (s : Chain) : Prop where
  sent_prefix : s.client.sent <+: s.stored
  stored_sublist : s.stored.Sublist s.received
  tx_le : s.tx.length ≤ txCap
  rx_le : s.rx.length ≤ rxCap
  accounted : ∃ unread tail, Represents s.server.buf unread ∧ Holding o s.client tail ∧
    stream o s.stored = stream o s.client.sent ++ (tail ++ underway s unread) ∧
    (tail ++ underway s unread = [] → s.client.sent = s.stored)

/-- **The relay, end to end.**  From the start, along every interleaving, in every state reached. -/
theorem relay_end_to_end (z : SizeT) (o : ByteOrder) (max txCap rxCap : ℕ) (heap mem : ℕ → UInt8)
    (hpos : 1 ≤ max) (hmax : max ≤ intMax) (as : List RelayAct) (s : Chain)
    (hrun : runFrom (relayStep z o txCap rxCap) (.start max heap mem) as = some s) :
    EndToEnd o txCap rxCap s := by
  obtain ⟨unread, tail, rest, h⟩ := runFrom_invariant
    (fun _ _ _ hI hs => relayStep_accounts z o hmax hs hI)
    ⟨[], [], [], start_accounts o txCap rxCap heap mem hpos⟩ hrun
  refine ⟨⟨rest, h.sent.symm⟩, h.dropped, h.tx_le, h.rx_le,
    unread, tail, h.ring.represents, h.holding, ?_, ?_⟩
  · rw [h.sent, stream_append, h.bytes]
  · intro hnone
    have hrest : stream o rest = [] := h.bytes.trans hnone
    cases rest with
    | nil => rw [h.sent, List.append_nil]
    | cons p ps =>
      have hlen := congrArg List.length hrest
      rw [stream, List.flatMap_cons, frameBytes] at hlen
      simp at hlen

/-- One packet, taken byte by byte over FIFOs of one byte, up to the datagram of the client. -/
theorem relay_end_to_end_one_packet :
    ∃ s : Chain, s.client.sent = [[7]] ∧ EndToEnd .little 1 1 s := by
  have hsent : (runFrom (relayStep ⟨64, by decide⟩ .little 1 1) (.start 8 (fun _ => 0) fun _ => 0)
      ([.recv [7], .write, .write] ++
        (List.replicate 3 [RelayAct.read, .writeFifo, .link, .readFifo]).flatten)).map
      (·.client.sent) = some [[7]] := by decide +kernel
  obtain ⟨s, hrun, hs⟩ := Option.map_eq_some_iff.mp hsent
  exact ⟨s, hs, relay_end_to_end ⟨64, by decide⟩ .little 8 1 1 (fun _ => 0) (fun _ => 0) (by decide)
    (by decide) _ s hrun⟩

end LinkManagement.Relay
