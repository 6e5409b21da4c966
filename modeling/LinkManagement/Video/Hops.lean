import LinkManagement.Video.TransferOrder

/-!
# Hop after hop

A client sends to a server, whose FIFO feeds the client on the same board, which sends to the next server.
The clients run without `-d` and the servers without `-iperf`, and no server is restarted.  What a server
writes to its FIFO is in the format that a client reads, so a hop can follow a hop, as long as the packets
that a client finds in its FIFO at its start, and `empty_fifo` discards, are whole.

* `datagrams_prefix` — from a piece of a stream of frames the packets are read back;
* `hops_in_order` — over any number of hops, each with losses, the frames of the first client's FIFO
  arrive at the last server in order and at most once each, behind the INITs stored on the way.
-/

namespace LinkManagement.Hops

open LinkManagement.Transition LinkManagement.Framing LinkManagement.MachineInt
open LinkManagement.Connection LinkManagement.SendPacket LinkManagement.VideoSendLoop
open LinkManagement.Sessions LinkManagement.SessionSafety LinkManagement.Transfer
open LinkManagement.TransferOrder

theorem datagrams_prefix {o : ByteOrder} {packets : List (List UInt8)}
    (hle : ∀ p ∈ packets, p.length ≤ maxPacketSize) {x y : List UInt8} {items : List Item}
    {tail : List UInt8} (h : x ++ y = stream o packets)
    (hsplit : Splits (Item.Valid o) (Item.bytes o) x items tail) : datagrams items <+: packets := by
  have hc := items_prefixFree o
  have hvalid : ∀ i ∈ packets.map Item.frame, i.Valid o := by
    intro i hi
    obtain ⟨p, hp, rfl⟩ := List.mem_map.mp hi
    exact hle p hp
  rw [← flatMap_map_frame] at h
  obtain ⟨is, js, t, hps, hsplit', -⟩ := splits_of_append hc hvalid h
  obtain ⟨rfl, rfl⟩ := hsplit.unique hc hsplit'
  obtain ⟨sent, rest, rfl, rfl, rfl⟩ := List.map_eq_append_iff.mp hps
  rw [datagrams_map_frame]
  exact List.prefix_append sent rest

theorem datagrams_sublist {o : ByteOrder} {dropped packets : List (List UInt8)}
    (hdropped : ∀ p ∈ dropped, p.length ≤ maxPacketSize) (hle : ∀ p ∈ packets, p.length ≤ maxPacketSize)
    {x y : List UInt8} {items : List Item} {tail : List UInt8}
    (h : stream o dropped ++ (x ++ y) = stream o packets)
    (hsplit : Splits (Item.Valid o) (Item.bytes o) x items tail) :
    (datagrams items).Sublist packets := by
  have hwhole : Splits (Item.Valid o) (Item.bytes o) (stream o dropped) (dropped.map Item.frame) [] := by
    refine ⟨fun i hi => ?_, ?_, incomplete_nil (items_prefixFree o)⟩
    · obtain ⟨p, hp, rfl⟩ := List.mem_map.mp hi
      exact hdropped p hp
    · rw [flatMap_map_frame, List.append_nil]
  have hfirst := datagrams_prefix hle h hwhole
  rw [datagrams_map_frame] at hfirst
  obtain ⟨rest, rfl⟩ := hfirst
  have hrest : x ++ y = stream o rest := by
    rw [stream, stream, List.flatMap_append] at h
    exact List.append_cancel_left h
  have hread := datagrams_prefix (fun p hp => hle p (List.mem_append_right dropped hp)) hrest hsplit
  exact hread.sublist.trans (List.sublist_append_right dropped rest)

/-- A hop: one client, outside debug mode, and one server, not restarted, after a run over a network that
keeps the order. -/
def Hop (o : ByteOrder) (s : VideoLink) (e : ClientEnd) : Prop :=
  s.ends = [e] ∧ ∃ (z : SizeT) (serverAddr : Addr) (max : ℕ) (heap mem : ℕ → UInt8)
    (as : List TransferAct), 1 ≤ max ∧ max ≤ intMax ∧ (∀ a ∈ as, ProperStart serverAddr a) ∧
      (∀ a ∈ as, a.isRestart = false) ∧
      Along (transferStep z o o serverAddr max) KeepsOrder (.start max heap mem) as ∧
      runFrom (transferStep z o o serverAddr max) (.start max heap mem) as = some s

/-- The INITs that the server has stored as frames. -/
def strays (s : VideoLink) : ℕ := s.session.stored.countP fun d => d.sentBy = .sendPacketType

theorem countP_inits (n : ℕ) (frames : List (List UInt8)) (addr serverAddr : Addr) :
    (List.replicate n (sendPacketType addr serverAddr .init) ++
      frames.map (videoDatagram addr serverAddr)).countP (fun d => d.sentBy = .sendPacketType) = n := by
  have hframes : (frames.map (videoDatagram addr serverAddr)).countP
      (fun d => d.sentBy = .sendPacketType) = 0 := by
    rw [List.countP_eq_zero]
    intro d hd
    obtain ⟨data, -, rfl⟩ := List.mem_map.mp hd
    simp [videoDatagram]
  rw [List.countP_append, hframes, Nat.add_zero, List.countP_replicate, if_pos (by simp [sendPacketType])]

/-- **One hop**: the server has stored INITs and then frames of the client's FIFO, in order, and has
written the packets it has stored. -/
theorem hop_spec {o : ByteOrder} {s : VideoLink} {e : ClientEnd} (h : Hop o s e) :
    (∃ frames items tail, Splits (Item.Valid o) (Item.bytes o) e.consumed items tail ∧
      frames.Sublist (datagrams items) ∧
      s.session.stored.map Datagram.data =
        List.replicate (strays s) [PacketType.init.code] ++ frames) ∧
    (∀ p ∈ s.session.stored.map Datagram.data, p.length ≤ maxPacketSize) ∧
    ∃ unread, s.written ++ unread = stream o (s.session.stored.map Datagram.data) := by
  obtain ⟨hends, z, serverAddr, max, heap, mem, as, hpos, hmax, hproper, hno, hkeeps, hrun⟩ := h
  obtain ⟨horigin, hordered⟩ := keepsOrder_run hpos hmax hproper hkeeps hrun
  obtain ⟨unread, -, hbytes⟩ := outputOk_nil (output_of_noRestart hpos hmax hproper hno hrun)
  have hfrom : ∀ d ∈ s.session.stored, SentFrom serverAddr e d := by
    intro d hd
    obtain ⟨f, hf, hsent⟩ := horigin.stored d hd
    rw [hends, List.mem_singleton] at hf
    exact hf ▸ hsent
  have hsize : ∀ d ∈ s.session.stored, d.data.length ≤ maxPacketSize := by
    intro d hd
    rcases hfrom d hd with rfl | ⟨data, hdata, rfl⟩
    · show 1 ≤ 2000
      decide
    · obtain ⟨items, tail, -, -, hsplit, hsent⟩ := horigin.ends e (hends ▸ List.mem_singleton_self e)
      exact hsplit.valid _ (mem_datagrams (hsent ▸ hdata))
  refine ⟨?_, fun p hp => ?_, unread, ?_⟩
  · have halone : Alone s.ends 0 e := by
      intro k f hf _
      rw [hends, List.getElem?_singleton] at hf
      split at hf
      · assumption
      · cases hf
    obtain ⟨n, frames, items, tail, hsplit, hframes, hstored⟩ :=
      hordered.order 0 e (by rw [hends]; rfl) halone
    have hall : s.session.stored.filter (fromAddr e.addr) = s.session.stored := by
      rw [List.filter_eq_self]
      exact fun d hd => fromAddr_iff.mpr (hfrom d hd).src_eq
    rw [hall] at hstored
    have hn : strays s = n := by rw [strays, hstored, countP_inits]
    refine ⟨frames, items, tail, hsplit, hframes, ?_⟩
    rw [hn, hstored, List.map_append, List.map_replicate, List.map_map]
    exact congrArg _ (List.map_id frames)
  · obtain ⟨d, hd, rfl⟩ := List.mem_map.mp hp
    exact hsize d hd
  · have htake : s.session.stored.map (fun d => d.data.take maxPacketSize) =
        s.session.stored.map Datagram.data :=
      List.map_congr_left fun d hd => List.take_of_length_le (hsize d hd)
    rw [hbytes, storedStream, htake]

/-- The client reads what the server has written; what it finds at its start, and discards, are whole
packets. -/
def Feeds (o : ByteOrder) (s : VideoLink) (e : ClientEnd) : Prop :=
  e.emptied ++ e.consumed <+: s.written ∧
    ∃ dropped : List (List UInt8), (∀ p ∈ dropped, p.length ≤ maxPacketSize) ∧
      e.emptied = stream o dropped

/-- **Over any number of hops**, each over a network of its own that keeps the order, and each client
reading what the server before it has written: what the last server has stored are INITs, no more than the
servers on the way have stored, and then frames of the first client's FIFO, in order and each at most
once. -/
theorem hops_in_order (o : ByteOrder) (hops : List (VideoLink × ClientEnd))
    (hhops : ∀ h ∈ hops, Hop o h.1 h.2) (hfeeds : hops.IsChain fun h h' => Feeds o h.1 h'.2) :
    ∀ first ∈ hops.head?, ∀ last ∈ hops.getLast?, ∃ items tail,
      Splits (Item.Valid o) (Item.bytes o) first.2.consumed items tail ∧
        (last.1.session.stored.map Datagram.data).Sublist
          (List.replicate (hops.map fun h => strays h.1).sum [PacketType.init.code] ++
            datagrams items) := by
  induction hops with
  | nil =>
    intro first hfirst
    cases hfirst
  | cons h hops ih =>
    intro first hfirst last hlast
    obtain rfl : h = first := Option.some.inj hfirst
    obtain ⟨⟨frames, items, tail, hsplit, hframes, hstored⟩, hle, unread, hwritten⟩ :=
      hop_spec (hhops h List.mem_cons_self)
    cases hops with
    | nil =>
      obtain rfl : h = last := Option.some.inj hlast
      refine ⟨items, tail, hsplit, ?_⟩
      rw [hstored, List.map_singleton, List.sum_singleton]
      exact (List.Sublist.refl _).append hframes
    | cons h' hops =>
      obtain ⟨⟨⟨y, hy⟩, dropped, hdropped, hemptied⟩, hrest⟩ := List.isChain_cons_cons.mp hfeeds
      rw [List.getLast?_cons_cons] at hlast
      obtain ⟨items', tail', hsplit', hsub'⟩ :=
        ih (fun g hg => hhops g (List.mem_cons_of_mem h hg)) hrest h' rfl last hlast
      -- the next client has read some of the packets that this server has written
      have hread : (datagrams items').Sublist (h.1.session.stored.map Datagram.data) := by
        refine datagrams_sublist hdropped hle (y := y ++ unread) ?_ hsplit'
        rw [← hemptied, ← List.append_assoc, ← List.append_assoc, hy, hwritten]
      rw [hstored] at hread
      refine ⟨items, tail, hsplit, ?_⟩
      rw [List.map_cons, List.sum_cons, Nat.add_comm, List.replicate_add, List.append_assoc]
      exact hsub'.trans ((List.Sublist.refl _).append
        (hread.trans ((List.Sublist.refl _).append hframes)))

/-- Two packets over two hops.  The first client sends INIT twice, so the first server writes a stray INIT,
which is all that the second client finds in its FIFO; the second hop loses the first packet. -/
theorem hops_in_order_second_packet :
    ∃ first last : VideoLink × ClientEnd,
      (first.2.consumed, last.2.emptied, last.1.session.stored.map Datagram.data) =
        ([1, 0, 7, 1, 0, 8], [1, 0, 49], [[8]]) ∧
      ∃ items tail, Splits (Item.Valid .little) (Item.bytes .little) first.2.consumed items tail ∧
        (last.1.session.stored.map Datagram.data).Sublist
          (List.replicate (strays first.1 + (strays last.1 + 0)) [PacketType.init.code] ++
            datagrams items) := by
  let handshake : List UInt8 → List TransferAct := fun emptied =>
    [.clientStart ⟨2, 80⟩ ⟨0, 0⟩ (fun _ => 0) (fun _ => 0) emptied false, .inside (.clientSend 0 .init)]
  let reads : List TransferAct := ([1, 0, 7, 1, 0, 8] : List UInt8).map (.readFifo 0)
  let acts₁ : List TransferAct := handshake [] ++
    [.inside (.clientTimeout 0), .inside (.clientSend 0 .init), .inside (.serverRecv 0),
      .inside (.clientRecv 0 1), .inside (.serverRecv 0)] ++ reads ++
    [.inside (.serverRecv 0), .inside (.serverRecv 0)] ++ List.replicate 9 .fifoWrite
  let acts₂ : List TransferAct := handshake [1, 0, 49] ++
    [.inside (.serverRecv 0), .inside (.clientRecv 0 0)] ++ reads ++
    [.inside (.lose 0), .inside (.serverRecv 0)]
  have h₁ : (runFrom (transferStep ⟨64, by decide⟩ .little .little ⟨1, 1337⟩ 16)
      (.start 16 (fun _ => 0) fun _ => 0) acts₁).map
      (fun s => (s.ends.map fun e => (e.emptied, e.consumed), s.written)) =
      some ([([], [1, 0, 7, 1, 0, 8])], [1, 0, 49, 1, 0, 7, 1, 0, 8]) := by decide +kernel
  have h₂ : (runFrom (transferStep ⟨64, by decide⟩ .little .little ⟨1, 1337⟩ 16)
      (.start 16 (fun _ => 0) fun _ => 0) acts₂).map
      (fun s => (s.ends.map fun e => (e.emptied, e.consumed), s.session.stored.map Datagram.data)) =
      some ([([1, 0, 49], [1, 0, 7, 1, 0, 8])], [[8]]) := by decide +kernel
  obtain ⟨s₁, hrun₁, hs₁⟩ := Option.map_eq_some_iff.mp h₁
  obtain ⟨s₂, hrun₂, hs₂⟩ := Option.map_eq_some_iff.mp h₂
  obtain ⟨hends₁, hwritten⟩ := Prod.mk.inj hs₁
  obtain ⟨hends₂, hstored⟩ := Prod.mk.inj hs₂
  obtain ⟨e₁, he₁, hread₁⟩ := List.map_eq_singleton_iff.mp hends₁
  obtain ⟨e₂, he₂, hread₂⟩ := List.map_eq_singleton_iff.mp hends₂
  obtain ⟨-, hconsumed₁⟩ := Prod.mk.inj hread₁
  obtain ⟨hemptied₂, hconsumed₂⟩ := Prod.mk.inj hread₂
  refine ⟨(s₁, e₁), (s₂, e₂), by rw [hconsumed₁, hemptied₂, hstored],
    hops_in_order .little [(s₁, e₁), (s₂, e₂)] ?_ ?_ (s₁, e₁) rfl (s₂, e₂) rfl⟩
  · intro h hh
    rcases List.mem_pair.mp hh with rfl | rfl
    · exact ⟨he₁, ⟨64, by decide⟩, ⟨1, 1337⟩, 16, fun _ => 0, fun _ => 0, acts₁, by decide, by decide,
        by decide +kernel, by decide +kernel, by decide +kernel, hrun₁⟩
    · exact ⟨he₂, ⟨64, by decide⟩, ⟨1, 1337⟩, 16, fun _ => 0, fun _ => 0, acts₂, by decide, by decide,
        by decide +kernel, by decide +kernel, by decide +kernel, hrun₂⟩
  · refine List.isChain_cons_cons.mpr ⟨⟨?_, [[49]], by decide, ?_⟩, .singleton _⟩
    · rw [hemptied₂, hconsumed₂, hwritten]
      exact List.prefix_refl _
    · rw [hemptied₂]
      rfl

end LinkManagement.Hops
