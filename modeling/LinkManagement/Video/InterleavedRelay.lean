import LinkManagement.Lib.LossyPipe
import LinkManagement.Video.Fifo
import LinkManagement.Video.Relay
import LinkManagement.Video.SharedRefinement

/-!
# The relay with its threads interleaved

The chain of `Relay` once more, now with nothing atomic but a single access: the two threads of the
server share the buffer load by load and store by store, as in `SharedBuffer`, and `fifo_write_thread`
and the client poll the FIFO registers, as in `Fifo`.  The hardware moves bytes at any time.

The abstract view is a `Pipe` of packets: a datagram is accepted or refused when the room check has done
its last load, and delivered when the client sends it.

* `mainStep_packets` — the main thread writes what it has accepted, and nothing else;
* `interleavedStep_matches` — every step is matched by the pipe, or invisible to it;
* `interleaved_relay` — every run in which no load of `tail` for `full` finds the buffer drained: no
  access is undefined, and the client sends the accepted packets, each once and in order.
-/

namespace LinkManagement.InterleavedRelay

open LinkManagement.Transition LinkManagement.MachineInt LinkManagement.LossyPipe
open LinkManagement.Buffer LinkManagement.Connection LinkManagement.SendPacket
open LinkManagement.VideoSendLoop LinkManagement.SharedBuffer LinkManagement.SharedRefinement
open LinkManagement.Fifo

/-! ### The system -/

/-- The two threads of the server, `fifo_write_thread` inside `write_fifo_blocking`, the FIFOs, the
client inside `read_fifo_blocking`, and its loop.  `received` and `stored` record the datagrams that
arrived and those that passed the room check. -/
structure Interleaved where
  server : Shared
  send : SendPc
  tx : List UInt8
  rx : List UInt8
  recv : RecvPc
  client : VideoLoop
  received : List (List UInt8)
  stored : List (List UInt8)
  deriving DecidableEq

def Interleaved.start (max : ℕ) (heap mem : ℕ → UInt8) : Interleaved :=
  ⟨.start max heap, .idle, [], [], .idle, .start mem, [], []⟩

inductive InterleavedAct where
  /-- `recv_data` returns in `recv_video` -/
  | recv (datagram : List UInt8)
  | main
  | writer
  /-- the hardware moves a byte -/
  | link
  | client
  deriving DecidableEq

/-- The packet about which the next load of the main thread decides, and how. -/
def decides (z : SizeT) (s : Shared) : Option (List UInt8 × Bool) :=
  match s.main with
  | .checking data p =>
      match spaceNext z s.mem p with
      | .inl _ => none
      | .inr bufferSpace => some (data, decide (bufferSpace > data.length + 2))
  | _ => none

def accepts (z : SizeT) (s : Shared) : List (List UInt8) :=
  match decides z s with
  | some (data, true) => [data]
  | _ => []

/-- One access of `fifo_write_thread`: in `write_fifo_blocking` to the FIFO, elsewhere to the buffer. -/
def writerAccess (z : SizeT) {txCap : ℕ} (tst : StatusWord txCap) (s : Interleaved) :
    Option Interleaved :=
  match s.server.writer with
  | .hand data =>
      if s.send = .idle then some { s with send := .poll true data }
      else
        (sendNext tst s.tx s.send).bind fun p =>
          if p.1 = .idle then
            (writerStep z s.server).map fun b => { s with server := b, send := .idle, tx := p.2.1 }
          else some { s with send := p.1, tx := p.2.1 }
  | _ => (writerStep z s.server).map fun b => { s with server := b }

/-- One access of the client in `read_fifo_blocking`, up to the next call of it. -/
def clientAccess (o : ByteOrder) {rxCap : ℕ} (rst : StatusWord rxCap) (s : Interleaved) :
    Option Interleaved :=
  if s.recv = .idle then some { s with recv := .poll true }
  else
    (recvNext rst s.rx s.recv).bind fun p =>
      match p.2.2 with
      | some (some c) =>
          (videoStep o s.client c).map fun l => { s with recv := p.1, rx := p.2.1, client := l }
      | _ => some { s with recv := p.1, rx := p.2.1 }

def interleavedStep (z : SizeT) (o : ByteOrder) {txCap rxCap : ℕ} (tst : StatusWord txCap)
    (rst : StatusWord rxCap) (s : Interleaved) : InterleavedAct → Option Interleaved
  | .recv datagram =>
      let data := datagram.take maxPacketSize
      if s.server.main = .idle then
        if data = [] then some { s with received := s.received ++ [data] }
        else
          (sharedStep z o s.server (.packet data)).map fun b =>
            { s with server := b, received := s.received ++ [data] }
      else none
  | .main =>
      (mainStep z o s.server).map fun b =>
        { s with server := b, stored := s.stored ++ accepts z s.server }
  | .writer => writerAccess z tst s
  | .link =>
      match s.tx with
      | [] => none
      | c :: tx => if s.rx.length < rxCap then some { s with tx := tx, rx := s.rx ++ [c] } else none
  | .client => clientAccess o rst s

/-- The main thread's load of `tail` for `full` does not find the buffer drained. -/
def InTime (s : Interleaved) : InterleavedAct → Prop
  | .main => NotDrained s.server .main
  | _ => True

instance (s : Interleaved) : (a : InterleavedAct) → Decidable (InTime s a)
  | .recv _ => isTrue trivial
  | .main => inferInstanceAs (Decidable (NotDrained s.server .main))
  | .writer => isTrue trivial
  | .link => isTrue trivial
  | .client => isTrue trivial

/-! ### What the main thread writes -/

/-- The bytes that the main thread has still to publish. -/
def due (s : Shared) : List UInt8 := s.main.holding ++ s.calls.flatten

def pending : MainPc → List (List UInt8)
  | .checking data _ => [data]
  | _ => []

def CallsOk (s : Shared) : Prop :=
  (s.main = .idle ∨ ∃ data p, s.main = .checking data p) → s.calls = []

/-- **A step of the main thread** moves bytes from those due to those published; the load that accepts a
packet makes its frame due. -/
structure MainPackets (z : SizeT) (o : ByteOrder) (s s' : Shared) : Prop where
  calls : CallsOk s'
  bytes : publishes s.main ++ due s' = due s ++ stream o (accepts z s)
  pending : pending s.main = (decides z s).toList.map Prod.fst ++ pending s'.main

theorem mainPackets_of_due {z : SizeT} {o : ByteOrder} {s s' : Shared} (hdec : decides z s = none)
    (hcalls : CallsOk s') (hpub : publishes s.main ++ due s' = due s)
    (hpend : pending s.main = pending s'.main) : MainPackets z o s s' where
  calls := hcalls
  bytes := by
    rw [accepts, hdec, stream, List.flatMap_nil, List.append_nil]
    exact hpub
  pending := by
    rw [hdec]
    exact hpend

theorem callsOk_of_busy {s : Shared} (hidle : s.main ≠ .idle)
    (hcheck : ∀ data p, s.main ≠ .checking data p) : CallsOk s := by
  rintro (h | ⟨data, p, h⟩)
  · exact absurd h hidle
  · exact absurd h (hcheck data p)

theorem mainStep_packets {z : SizeT} {o : ByteOrder} {s s' : Shared} (hok : CallsOk s)
    (h : mainStep z o s = some s') : MainPackets z o s s' := by
  unfold mainStep at h
  cases hpc : s.main with
  | idle =>
    rw [hpc] at h
    cases h
  | checking data p =>
    have hcalls : s.calls = [] := hok (.inr ⟨data, p, hpc⟩)
    rw [hpc] at h
    dsimp only at h
    cases hnext : spaceNext z s.mem p with
    | inl p' =>
      rw [hnext] at h
      cases h
      exact mainPackets_of_due (by simp only [decides, hpc, hnext]) (fun _ => hcalls)
        (by simp [hpc, publishes, due, MainPc.holding]) (by rw [hpc]; rfl)
    | inr space =>
      rw [hnext] at h
      dsimp only at h
      split at h
      · rename_i hroom
        cases h
        have hdec : decides z s = some (data, true) := by
          simp only [decides, hpc, hnext, decide_eq_true hroom]
        exact {
          calls := callsOk_of_busy (by simp) (by simp)
          bytes := by
            simp [accepts, hdec, hpc, publishes, due, MainPc.holding, hcalls, stream, frameBytes]
          pending := by
            rw [hdec, hpc]
            rfl }
      · rename_i hroom
        cases h
        have hdec : decides z s = some (data, false) := by
          simp only [decides, hpc, hnext, decide_eq_false hroom]
        exact {
          calls := fun _ => hcalls
          bytes := by
            simp [accepts, hdec, hpc, publishes, due, MainPc.holding, stream]
          pending := by
            rw [hdec, hpc]
            rfl }
  | test data =>
    have hdec : decides z s = none := by simp only [decides, hpc]
    rw [hpc] at h
    dsimp only at h
    split at h
    · cases h
      exact mainPackets_of_due hdec (callsOk_of_busy (by simp) (by simp))
        (by simp [hpc, publishes, due, MainPc.holding]) (by rw [hpc]; rfl)
    · cases h
      exact mainPackets_of_due hdec (callsOk_of_busy (by simp) (by simp))
        (by simp [hpc, publishes, due, MainPc.holding]) (by rw [hpc]; rfl)
  | split data =>
    have hdec : decides z s = none := by simp only [decides, hpc]
    rw [hpc] at h
    obtain ⟨parts, hparts, rfl⟩ := Option.map_eq_some_iff.mp h
    refine mainPackets_of_due hdec (callsOk_of_busy (by simp) (by simp)) ?_ (by rw [hpc]; rfl)
    simp [hpc, publishes, due, MainPc.holding, ← splitParts_append hparts]
  | copy data h' =>
    have hdec : decides z s = none := by simp only [decides, hpc]
    rw [hpc] at h
    obtain ⟨cells, -, rfl⟩ := Option.map_eq_some_iff.mp h
    exact mainPackets_of_due hdec (callsOk_of_busy (by simp) (by simp))
      (by simp [hpc, publishes, due, MainPc.holding]) (by rw [hpc]; rfl)
  | fullStore full =>
    have hdec : decides z s = none := by simp only [decides, hpc]
    rw [hpc] at h
    dsimp only at h
    cases hcalls : s.calls with
    | nil =>
      rw [hcalls] at h
      cases h
      exact mainPackets_of_due hdec (fun _ => rfl)
        (by simp [hpc, publishes, due, MainPc.holding, hcalls]) (by rw [hpc]; rfl)
    | cons data rest =>
      rw [hcalls] at h
      cases h
      exact mainPackets_of_due hdec (callsOk_of_busy (by simp) (by simp))
        (by simp [hpc, publishes, due, MainPc.holding, hcalls]) (by rw [hpc]; rfl)
  | _ =>
    have hdec : decides z s = none := by simp only [decides, hpc]
    rw [hpc] at h
    cases h
    exact mainPackets_of_due hdec (callsOk_of_busy (by simp) (by simp))
      (by simp [hpc, publishes, due, MainPc.holding]) (by rw [hpc]; rfl)

/-! ### The two ends of the link -/

/-- Where `fifo_write_thread` is with the FIFO: in `write_fifo_blocking` with the byte it has read, or
not in it; about to store, it has room. -/
inductive Sending (txCap : ℕ) (tx : List UInt8) : WriterPc → SendPc → Prop
  | outside {w : WriterPc} (h : ∀ c, w ≠ .hand c) : Sending txCap tx w .idle
  | call (c : UInt8) : Sending txCap tx (.hand c) .idle
  | poll (c : UInt8) : Sending txCap tx (.hand c) (.poll true c)
  | store (c : UInt8) (hroom : tx.length < txCap) : Sending txCap tx (.hand c) (.store c)

/-- Where the client is in `read_fifo_blocking`; about to load, it has a byte. -/
inductive Receiving (rx : List UInt8) : RecvPc → Prop
  | call : Receiving rx .idle
  | poll : Receiving rx (.poll true)
  | load (hbyte : rx ≠ []) : Receiving rx .load

theorem Sending.mono {txCap : ℕ} {tx tx' : List UInt8} {w : WriterPc} {pc : SendPc}
    (h : Sending txCap tx w pc) (hle : tx'.length ≤ tx.length) : Sending txCap tx' w pc := by
  cases h with
  | outside h => exact .outside h
  | call c => exact .call c
  | poll c => exact .poll c
  | store c hroom => exact .store c (Nat.lt_of_le_of_lt hle hroom)

theorem sending_idle {txCap : ℕ} {tx : List UInt8} (w : WriterPc) : Sending txCap tx w .idle := by
  cases w with
  | hand c => exact .call c
  | _ => exact .outside (by simp)

theorem Receiving.append {rx : List UInt8} {pc : RecvPc} (h : Receiving rx pc) (more : List UInt8) :
    Receiving (rx ++ more) pc := by
  cases h with
  | call => exact .call
  | poll => exact .poll
  | load hbyte => exact .load fun hnil => hbyte (List.append_eq_nil_iff.mp hnil).1

/-! ### The invariant -/

/-- The bytes between the client's packet and the main thread's source, oldest first. -/
def underway (s : Interleaved) (q : List UInt8) : List UInt8 :=
  s.rx ++ (s.tx ++ (s.server.writer.holding ++ (q ++ due s.server)))

/-- The chain carries the packets inside the pipe: the places of their bytes, read from the client back
to the server, spell the stream of these packets. -/
structure Carries (o : ByteOrder) (txCap rxCap : ℕ) (s : Interleaved) (p : Pipe (List UInt8))
    (q tail : List UInt8) : Prop where
  shared : SharedInv s.server q
  calls : CallsOk s.server
  sending : Sending txCap s.tx s.server.writer s.send
  receiving : Receiving s.rx s.recv
  tx_le : s.tx.length ≤ txCap
  rx_le : s.rx.length ≤ rxCap
  loop : LoopOk s.client
  holding : Holding o s.client tail
  sizes : ∀ d ∈ p.inside ++ pending s.server.main, d.length ≤ maxPacketSize
  received : s.received = p.offered ++ pending s.server.main
  stored : s.stored = p.accepted
  sent : s.client.sent = p.delivered
  bytes : stream o p.inside = tail ++ underway s q

theorem start_carries (o : ByteOrder) {max : ℕ} (txCap rxCap : ℕ) (heap mem : ℕ → UInt8)
    (hpos : 1 ≤ max) (hmax : max ≤ intMax) :
    Carries o txCap rxCap (.start max heap mem) (Pipe.empty _) [] [] where
  shared := start_sharedInv heap hpos hmax
  calls := fun _ => rfl
  sending := .outside (by simp [Interleaved.start, Shared.start])
  receiving := .call
  tx_le := Nat.zero_le _
  rx_le := Nat.zero_le _
  loop := start_ok mem
  holding := .head rfl rfl
  sizes := by simp [Pipe.empty, pending, Interleaved.start, Shared.start]
  received := rfl
  stored := rfl
  sent := rfl
  bytes := rfl

/-- What the pipe sees of a step. -/
def pipeOps (z : SizeT) (o : ByteOrder) {rxCap : ℕ} (rst : StatusWord rxCap) (s : Interleaved) :
    InterleavedAct → List (PipeOp (List UInt8))
  | .recv datagram => if datagram.take maxPacketSize = [] then [.refuse []] else []
  | .main =>
      match decides z s.server with
      | none => []
      | some (data, true) => [.accept data]
      | some (data, false) => [.refuse data]
  | .writer => []
  | .link => []
  | .client =>
      match clientAccess o rst s with
      | none => []
      | some s' => List.replicate (s'.client.sent.length - s.client.sent.length) .deliver

/-! ### The steps -/

section Steps

variable {z : SizeT} {o : ByteOrder} {txCap rxCap : ℕ} {tst : StatusWord txCap}
  {rst : StatusWord rxCap} {s s' : Interleaved} {p : Pipe (List UInt8)} {q tail : List UInt8}

/-- A datagram arrives: an empty one is refused at once, another goes into the room check. -/
theorem recv_carries (h : Carries o txCap rxCap s p q tail) {datagram : List UInt8}
    (hstep : interleavedStep z o tst rst s (.recv datagram) = some s') :
    ∃ p', runFrom pipeStep p (pipeOps z o rst s (.recv datagram)) = some p' ∧
      Carries o txCap rxCap s' p' q tail := by
  simp only [interleavedStep] at hstep
  split at hstep
  · rename_i hidle
    have hpend : pending s.server.main = [] := by rw [hidle]; rfl
    have hrec := h.received
    rw [hpend, List.append_nil] at hrec
    split at hstep
    · rename_i hnil
      cases hstep
      refine ⟨{ p with offered := p.offered ++ [[]] }, ?_, ?_⟩
      · simp only [pipeOps, if_pos hnil, runFrom, pipeStep, Option.bind_some]
      · exact { h with
          received := by
            show s.received ++ [datagram.take maxPacketSize] = _
            rw [hrec, hnil, hpend, List.append_nil] }
    · rename_i hne
      obtain ⟨b, hb, rfl⟩ := Option.map_eq_some_iff.mp hstep
      rw [sharedStep] at hb
      split at hb
      · rename_i hlen
        cases hb
        have hroom := h.shared.room
        rw [hidle] at hroom
        refine ⟨p, ?_, ?_⟩
        · simp only [pipeOps, if_neg hne, runFrom_nil]
        · have hsizes := h.sizes
          have hbytes := h.bytes
          rw [hpend, List.append_nil] at hsizes
          rw [underway, due, hidle] at hbytes
          exact { h with
            shared := h.shared.mainLoads hroom trivial
            calls := fun _ => h.calls (.inl hidle)
            sizes := by
              intro d hd
              rcases List.mem_append.mp hd with hd | hd
              · exact hsizes d hd
              · rw [List.mem_singleton.mp hd]
                exact hlen.2.2
            received := by rw [hrec]; rfl
            bytes := hbytes }
      · cases hb
  · cases hstep

theorem decision_pipe (z : SizeT) (rst : StatusWord rxCap)
    (h : Carries o txCap rxCap s p q tail) {main : MainPc}
    (hpend : pending s.server.main = (decides z s.server).toList.map Prod.fst ++ pending main) :
    ∃ p', runFrom pipeStep p (pipeOps z o rst s .main) = some p' ∧
      s.received = p'.offered ++ pending main ∧ p'.accepted = s.stored ++ accepts z s.server ∧
      p'.delivered = p.delivered ∧ p'.inside = p.inside ++ accepts z s.server := by
  have hrec := h.received
  have hstored := h.stored
  cases hdec : decides z s.server with
  | none =>
    rw [hpend, hdec] at hrec
    refine ⟨p, ?_, hrec, ?_, rfl, ?_⟩
    · simp only [pipeOps, hdec, runFrom_nil]
    · rw [accepts, hdec, hstored, List.append_nil]
    · rw [accepts, hdec, List.append_nil]
  | some d =>
    obtain ⟨data, accept⟩ := d
    rw [hpend, hdec] at hrec
    cases accept with
    | true =>
      refine ⟨{ p with
        offered := p.offered ++ [data]
        accepted := p.accepted ++ [data]
        inside := p.inside ++ [data] }, ?_, ?_, ?_, rfl, ?_⟩
      · simp only [pipeOps, hdec, runFrom, pipeStep, Option.bind_some]
      · rw [hrec]
        simp
      · rw [accepts, hdec, hstored]
      · rw [accepts, hdec]
    | false =>
      refine ⟨{ p with offered := p.offered ++ [data] }, ?_, ?_, ?_, rfl, ?_⟩
      · simp only [pipeOps, hdec, runFrom, pipeStep, Option.bind_some]
      · rw [hrec]
        simp
      · rw [accepts, hdec, hstored, List.append_nil]
      · rw [accepts, hdec, List.append_nil]

theorem mem_pending_of_mem_accepts {b : Shared} {d : List UInt8} (hd : d ∈ accepts z b) {main : MainPc}
    (hpend : pending b.main = (decides z b).toList.map Prod.fst ++ pending main) :
    d ∈ pending b.main := by
  rw [hpend]
  unfold accepts at hd
  split at hd
  · rename_i data hdec
    rw [List.mem_singleton.mp hd, hdec]
    simp
  · cases hd

theorem main_carries (h : Carries o txCap rxCap s p q tail) (hC : NotDrained s.server .main)
    (hstep : interleavedStep z o tst rst s .main = some s') :
    ∃ p', runFrom pipeStep p (pipeOps z o rst s .main) = some p' ∧
      ∃ q', Carries o txCap rxCap s' p' q' tail := by
  obtain ⟨b, hb, rfl⟩ := Option.map_eq_some_iff.mp hstep
  obtain ⟨q', hinv⟩ := mainStep_inv h.shared hC hb
  have hflow := mainStep_flow hb
  have hpack := mainStep_packets h.calls hb
  have hq := hflow.queue_eq h.shared hinv
  obtain ⟨p', hp', hoffered, haccepted, hdelivered, hinside⟩ :=
    decision_pipe z rst h hpack.pending
  refine ⟨p', hp', q', ?_⟩
  exact {
    shared := hinv
    calls := hpack.calls
    sending := by
      rw [show b.writer = s.server.writer from hflow.writer]
      exact h.sending
    receiving := h.receiving
    tx_le := h.tx_le
    rx_le := h.rx_le
    loop := h.loop
    holding := h.holding
    sizes := by
      intro d hd
      rcases List.mem_append.mp hd with hd | hd
      · rw [hinside] at hd
        rcases List.mem_append.mp hd with hd | hd
        · exact h.sizes d (List.mem_append_left _ hd)
        · exact h.sizes d (List.mem_append_right _ (mem_pending_of_mem_accepts hd hpack.pending))
      · have hmem : d ∈ pending s.server.main := by
          rw [hpack.pending]
          exact List.mem_append_right _ hd
        exact h.sizes d (List.mem_append_right _ hmem)
    received := hoffered
    stored := haccepted.symm
    sent := h.sent.trans hdelivered.symm
    bytes := by
      have hdue : publishes s.server.main ++ due b = due s.server ++ stream o (accepts z s.server) :=
        hpack.bytes
      show stream o p'.inside =
        tail ++ (s.rx ++ (s.tx ++ (b.writer.holding ++ (q' ++ due b))))
      rw [hinside, stream_append, h.bytes, underway, hflow.writer, hq, List.append_assoc q, hdue]
      simp only [List.append_assoc] }

theorem writer_buffer_carries (h : Carries o txCap rxCap s p q tail) {b : Shared}
    (hb : writerStep z s.server = some b) (hhand : ∀ c, s.server.writer ≠ .hand c) :
    ∃ q', Carries o txCap rxCap { s with server := b } p q' tail := by
  obtain ⟨q', hinv⟩ := writerStep_inv h.shared hb
  have hflow := writerStep_flow hb
  have hhold := hflow.holding_eq h.shared hinv
  have hhands : hands s.server.writer = [] := by
    cases hpc : s.server.writer with
    | hand c => exact absurd hpc (hhand c)
    | _ => rfl
  rw [hhands, List.nil_append] at hhold
  have hidle : s.send = .idle := by
    have hsending := h.sending
    cases hpc : s.send with
    | idle => rfl
    | poll blocking c =>
      rw [hpc] at hsending
      generalize s.server.writer = w at hsending hhand
      cases hsending with
      | poll c => exact absurd rfl (hhand c)
    | store c =>
      rw [hpc] at hsending
      generalize s.server.writer = w at hsending hhand
      cases hsending with
      | store c hroom => exact absurd rfl (hhand c)
  refine ⟨q', { h with
    shared := hinv
    calls := ?_
    sending := ?_
    sizes := ?_
    received := ?_
    bytes := ?_ }⟩
  · intro hout
    rw [hflow.main] at hout
    exact hflow.calls.trans (h.calls hout)
  · show Sending txCap s.tx b.writer s.send
    rw [hidle]
    exact sending_idle _
  · rw [hflow.main]
    exact h.sizes
  · rw [hflow.main]
    exact h.received
  · have hdue : due b = due s.server := by rw [due, due, hflow.main, hflow.calls]
    show stream o p.inside = tail ++ (s.rx ++ (s.tx ++ (b.writer.holding ++ (q' ++ due b))))
    rw [h.bytes, underway, ← List.append_assoc b.writer.holding, ← hhold, hdue, List.append_assoc]

/-- A step of the writer in `write_fifo_blocking`: it finds room, and then stores its byte. -/
theorem writer_fifo_carries (z : SizeT) (tst : StatusWord txCap)
    (h : Carries o txCap rxCap s p q tail) {c : UInt8} (hhand : s.server.writer = .hand c) :
    ∃ s', writerAccess z tst s = some s' ∧ ∃ q', Carries o txCap rxCap s' p q' tail := by
  have hsending := h.sending
  rw [hhand] at hsending
  generalize hpc : s.send = pc at hsending
  cases hsending with
  | outside hno => exact absurd rfl (hno c)
  | call c =>
    refine ⟨{ s with send := .poll true c }, by simp only [writerAccess, hhand, hpc, if_true], q, ?_⟩
    exact { h with
      sending := by
        rw [hhand]
        exact .poll c }
  | poll c =>
    by_cases hfull : txFull tst s.tx = true
    · refine ⟨{ s with send := .poll true c }, ?_, q, ?_⟩
      · simp [writerAccess, hhand, hpc, sendNext, hfull]
      · exact { h with
          sending := by
            rw [hhand]
            exact .poll c }
    · have hroom : s.tx.length < txCap := by
        have hle := h.tx_le
        rw [txFull_iff] at hfull
        omega
      refine ⟨{ s with send := .store c }, ?_, q, ?_⟩
      · simp [writerAccess, hhand, hpc, sendNext, hfull]
      · exact { h with
          sending := by
            rw [hhand]
            exact .store c hroom }
  | store c hroom =>
    have hb : writerStep z s.server = some { s.server with
        writer := .checking .loadFull
        handed := s.server.handed ++ [c] } := by
      simp only [writerStep, hhand]
    obtain ⟨q', hinv⟩ := writerStep_inv h.shared hb
    have hhold := (writerStep_flow hb).holding_eq h.shared hinv
    rw [hhand] at hhold
    refine ⟨{ s with
      server := { s.server with
        writer := .checking .loadFull
        handed := s.server.handed ++ [c] }
      send := .idle
      tx := s.tx ++ [c] }, ?_, q', ?_⟩
    · simp [writerAccess, hhand, hpc, sendNext, hroom, hb]
    · exact { h with
        shared := hinv
        calls := h.calls
        sending := sending_idle _
        tx_le := by
          rw [List.length_append]
          exact hroom
        bytes := by
          have hq : q = q' := List.append_cancel_left hhold
          rw [h.bytes, underway, underway, hhand, hq]
          simp [WriterPc.holding, due] }

theorem link_carries (h : Carries o txCap rxCap s p q tail)
    (hstep : interleavedStep z o tst rst s .link = some s') : Carries o txCap rxCap s' p q tail := by
  simp only [interleavedStep] at hstep
  split at hstep
  · cases hstep
  · rename_i c tx htx
    split at hstep
    · rename_i hcap
      cases hstep
      have hle : tx.length ≤ s.tx.length := by rw [htx]; exact Nat.le_succ _
      exact { h with
        sending := h.sending.mono hle
        receiving := h.receiving.append [c]
        tx_le := hle.trans h.tx_le
        rx_le := by
          rw [List.length_append]
          exact hcap
        bytes := by
          rw [h.bytes, underway, underway, htx]
          simp }
    · cases hstep

theorem client_silent {s' : Interleaved} (hstep : clientAccess o rst s = some s')
    (hsent : s'.client.sent = s.client.sent) (p : Pipe (List UInt8)) :
    runFrom pipeStep p (pipeOps z o rst s .client) = some p := by
  simp only [pipeOps, hstep, hsent, Nat.sub_self, List.replicate_zero, runFrom_nil]

/-- A step of the client: it finds a byte, and then takes it; the pipe delivers the packet that the byte
completes. -/
theorem client_carries (z : SizeT) (rst : StatusWord rxCap) (h : Carries o txCap rxCap s p q tail) :
    ∃ s', clientAccess o rst s = some s' ∧
      ∃ p', runFrom pipeStep p (pipeOps z o rst s .client) = some p' ∧
        ∃ tail', Carries o txCap rxCap s' p' q tail' := by
  have hreceiving := h.receiving
  generalize hpc : s.recv = pc at hreceiving
  cases hreceiving with
  | call =>
    have hstep : clientAccess o rst s = some { s with recv := .poll true } := by
      simp only [clientAccess, hpc, if_true]
    exact ⟨_, hstep, p, client_silent hstep rfl p, tail, { h with receiving := .poll }⟩
  | poll =>
    by_cases hempty : rxEmpty rst s.rx = true
    · have hstep : clientAccess o rst s = some { s with recv := .poll true } := by
        simp [clientAccess, hpc, recvNext, hempty]
      exact ⟨_, hstep, p, client_silent hstep rfl p, tail, { h with receiving := .poll }⟩
    · have hstep : clientAccess o rst s = some { s with recv := .load } := by
        simp [clientAccess, hpc, recvNext, hempty]
      have hbyte : s.rx ≠ [] := fun hnil => hempty ((rxEmpty_iff rst s.rx).mpr hnil)
      exact ⟨_, hstep, p, client_silent hstep rfl p, tail, { h with receiving := .load hbyte }⟩
  | load hbyte =>
    obtain ⟨c, rx, hrx⟩ := List.exists_cons_of_ne_nil hbyte
    have hbytes := h.bytes
    rw [underway, hrx, List.cons_append] at hbytes
    obtain ⟨l, js, rest, tail', hl, hok, hold, hsent, hinside, hleft⟩ := videoStep_along o h.loop
      h.holding (fun d hd => h.sizes d (List.mem_append_left _ hd)) hbytes
    have hstep : clientAccess o rst s = some { s with recv := .idle, rx := rx, client := l } := by
      simp [clientAccess, hpc, recvNext, hrx, hl]
    have hcount : l.sent.length - s.client.sent.length = js.length := by
      rw [hsent, List.length_append, Nat.add_sub_cancel_left]
    refine ⟨_, hstep, { p with inside := rest, delivered := p.delivered ++ js }, ?_, tail', ?_⟩
    · simp only [pipeOps, hstep, hcount]
      exact runFrom_deliver p js rest hinside
    · have hle := h.rx_le
      rw [hrx, List.length_cons] at hle
      exact { h with
        receiving := .call
        rx_le := Nat.le_of_succ_le hle
        loop := hok
        holding := hold
        sizes := by
          intro d hd
          apply h.sizes d
          rw [hinside, List.append_assoc]
          exact List.mem_append_right _ hd
        sent := by
          show l.sent = p.delivered ++ js
          rw [hsent, h.sent]
        bytes := hleft }

end Steps

/-- **Step.**  The pipe matches every step of the chain, or does not see it. -/
theorem interleavedStep_matches (z : SizeT) (o : ByteOrder) {txCap rxCap : ℕ} (tst : StatusWord txCap)
    (rst : StatusWord rxCap) :
    Matches (interleavedStep z o tst rst) pipeStep InTime (pipeOps z o rst)
      (fun s p => ∃ q tail, Carries o txCap rxCap s p q tail) := by
  rintro s p a s' ⟨q, tail, h⟩ hC hstep
  cases a with
  | recv datagram =>
    obtain ⟨p', hp', h'⟩ := recv_carries h hstep
    exact ⟨p', hp', q, tail, h'⟩
  | main =>
    obtain ⟨p', hp', q', h'⟩ := main_carries h hC hstep
    exact ⟨p', hp', q', tail, h'⟩
  | writer =>
    refine ⟨p, rfl, ?_⟩
    simp only [interleavedStep] at hstep
    cases hpc : s.server.writer with
    | hand c =>
      obtain ⟨t, ht, q', h'⟩ := writer_fifo_carries z tst h hpc
      rw [ht, Option.some.injEq] at hstep
      subst hstep
      exact ⟨q', tail, h'⟩
    | _ =>
      simp only [writerAccess, hpc] at hstep
      obtain ⟨b, hb, rfl⟩ := Option.map_eq_some_iff.mp hstep
      obtain ⟨q', h'⟩ := writer_buffer_carries h hb (by simp [hpc])
      exact ⟨q', tail, h'⟩
  | link => exact ⟨p, rfl, q, tail, link_carries h hstep⟩
  | client =>
    obtain ⟨t, ht, p', hp', tail', h'⟩ := client_carries z rst h
    simp only [interleavedStep, ht, Option.some.injEq] at hstep
    subst hstep
    exact ⟨p', hp', q, tail', h'⟩

/-- What holds of a state and the pipe it stands for: the pipe has seen the datagrams that arrived, up to
the one in the room check; its histories are those of the chain; the packets inside it are exactly the
bytes under way; the FIFOs keep to their sizes; and every thread that has something to do can go on: no
access to the buffer, to `dataBuffer` or to a FIFO is undefined. -/
structure Relays (z : SizeT) (o : ByteOrder) {txCap rxCap : ℕ} (tst : StatusWord txCap)
    (rst : StatusWord rxCap) (s : Interleaved) (p : Pipe (List UInt8)) : Prop where
  received : s.received = p.offered ++ pending s.server.main
  stored : s.stored = p.accepted
  sent : s.client.sent = p.delivered
  law : p.Law
  accounted : ∃ q tail, Represents s.server.mem q ∧ Holding o s.client tail ∧
    stream o p.inside = tail ++ underway s q
  tx_le : s.tx.length ≤ txCap
  rx_le : s.rx.length ≤ rxCap
  main_defined : s.server.main ≠ .idle → interleavedStep z o tst rst s .main ≠ none
  writer_defined : interleavedStep z o tst rst s .writer ≠ none
  client_defined : interleavedStep z o tst rst s .client ≠ none

theorem Carries.writer_defined {z : SizeT} {o : ByteOrder} {txCap rxCap : ℕ} (tst : StatusWord txCap)
    {s : Interleaved} {p : Pipe (List UInt8)} {q tail : List UInt8}
    (h : Carries o txCap rxCap s p q tail) : writerAccess z tst s ≠ none := by
  have hdef := (h.shared.step_defined z o).2
  cases hpc : s.server.writer with
  | hand c =>
    obtain ⟨t, ht, -⟩ := writer_fifo_carries z tst h hpc
    rw [ht]
    exact Option.some_ne_none _
  | _ =>
    obtain ⟨b, hb⟩ := Option.ne_none_iff_exists'.mp hdef
    simp only [writerAccess, hpc, hb, Option.map_some]
    exact Option.some_ne_none _

/-- **The interleaved relay.**  Along every interleaving of the loads, stores and FIFO accesses in which
no load of `tail` for `full` finds the buffer drained, the chain is a lossy pipe. -/
theorem interleaved_relay (z : SizeT) (o : ByteOrder) (max : ℕ) {txCap rxCap : ℕ}
    (tst : StatusWord txCap) (rst : StatusWord rxCap) (heap mem : ℕ → UInt8) (hpos : 1 ≤ max)
    (hmax : max ≤ intMax) (as : List InterleavedAct) (s : Interleaved)
    (hrun : runFrom (interleavedStep z o tst rst) (.start max heap mem) as = some s)
    (hC : Along (interleavedStep z o tst rst) InTime (.start max heap mem) as) :
    ∃ p, runFrom pipeStep (Pipe.empty _)
        (trace (interleavedStep z o tst rst) (pipeOps z o rst) (.start max heap mem) as) = some p ∧
      Relays z o tst rst s p := by
  obtain ⟨p, hp, ⟨q, tail, h⟩, hlaw⟩ := hC.refines_invariant (interleavedStep_matches z o tst rst)
    pipeStep_law ⟨[], [], start_carries o txCap rxCap heap mem hpos hmax⟩ empty_law hrun
  refine ⟨p, hp, {
    received := h.received
    stored := h.stored
    sent := h.sent
    law := hlaw
    accounted := ⟨q, tail, h.shared.represents, h.holding, h.bytes⟩
    tx_le := h.tx_le
    rx_le := h.rx_le
    main_defined := fun hbusy => ?_
    writer_defined := h.writer_defined tst
    client_defined := ?_ }⟩
  · obtain ⟨b, hb⟩ := Option.ne_none_iff_exists'.mp ((h.shared.step_defined z o).1 hbusy)
    simp only [interleavedStep, hb, Option.map_some]
    exact Option.some_ne_none _
  · obtain ⟨t, ht, -⟩ := client_carries z rst h
    simp only [interleavedStep, ht]
    exact Option.some_ne_none _

/-- One packet, stored before its bytes go one after the other over FIFOs of one byte. -/
def onePacket : List InterleavedAct :=
  .recv [7] :: List.replicate 21 .main ++
    (List.replicate 3 (List.replicate 13 .writer ++ .link :: List.replicate 3 .client)).flatten

theorem interleaved_relay_one_packet :
    ∃ s p, s.client.sent = [[7]] ∧
      Relays ⟨64, by decide⟩ .little (StatusWord.plain 1) (StatusWord.plain 1) s p := by
  have hsent : (runFrom (interleavedStep ⟨64, by decide⟩ .little (StatusWord.plain 1)
      (StatusWord.plain 1)) (.start 8 (fun _ => 0) fun _ => 0) onePacket).map (·.client.sent)
        = some [[7]] := by decide +kernel
  obtain ⟨s, hrun, hs⟩ := Option.map_eq_some_iff.mp hsent
  obtain ⟨p, -, hp⟩ := interleaved_relay ⟨64, by decide⟩ .little 8 (StatusWord.plain 1)
    (StatusWord.plain 1) (fun _ => 0) (fun _ => 0) (by decide) (by decide) onePacket s hrun
    (by decide +kernel)
  exact ⟨s, p, hs, hp⟩

end LinkManagement.InterleavedRelay
