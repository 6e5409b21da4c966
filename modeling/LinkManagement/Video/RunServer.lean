import LinkManagement.Lib.Admission
import LinkManagement.Video.Occupancy
import LinkManagement.Video.StorePacket
import LinkManagement.Video.WaitInit

/-!
# The server with its options

`run_server` of `VideoServer/src/server.c`, from the start on: `-nf` leaves out the thread that empties
the video buffer, `-iperf` goes to `recv_video` without `wait_init`.  `recv_video` counts the packets it
handles and reports the fill level after every `BUFFER_PRINT_INTERVAL` of them; `printed` records the
reported levels (the percentage that is made of them, in floating point, is not modelled).  An iteration
of `recv_video`, from the room check to the report, is one step, and so is a guarded read of the thread:
it reads between the iterations, never inside one.

* `run_server_accounts` — what a run with any options has answered, reported, stored and written, from
  the datagrams it received;
* `no_fifo_admits` — without the thread, and so with nothing to interrupt an iteration, the buffer holds
  the packets of a greedy admission, and the reports are determined by the packets that `recv_video` was
  handed.
-/

namespace LinkManagement.RunServer

open LinkManagement.Transition LinkManagement.Admission LinkManagement.CyclicArray
open LinkManagement.MachineInt LinkManagement.Buffer LinkManagement.BufferRefinement
open LinkManagement.SendPacket LinkManagement.WriteBytes LinkManagement.StorePacket
open LinkManagement.Occupancy LinkManagement.Connection LinkManagement.VideoSendLoop
open LinkManagement.Sessions LinkManagement.WaitInit

/-- `enum server_options`. -/
inductive ServerOption where
  | noFifo
  | serverRunIperf
  deriving DecidableEq

def ServerOption.code : ServerOption → BitVec 32
  | .noFifo => 1
  | .serverRunIperf => 2

/-- `BUFFER_PRINT_INTERVAL`. -/
def bufferPrintInterval : ℕ := 250

/-- The state of `run_server`: the packets since the last report, the levels reported, the datagrams
sent, and the bytes that `fifo_write_thread`, if it was created, has passed on. -/
structure ServerRun where
  server : Server
  fifoThread : Bool
  packNum : ℕ
  printed : List ℤ
  sent : List Datagram
  written : List UInt8
  deriving DecidableEq

/-- `run_server` before its first datagram. -/
def ServerRun.start (options : BitVec 32) (max : ℕ) (heap mem : ℕ → UInt8) : ServerRun where
  server := { Server.start max heap mem with
    connectionStatus :=
      if isOptionSet options ServerOption.serverRunIperf.code then .recvVideo else .waitingInit }
  fifoThread := !isOptionSet options ServerOption.noFifo.code
  packNum := 0
  printed := []
  sent := []
  written := []

/-- The end of an iteration of `recv_video` that stored or refused a packet. -/
def countPacket (z : SizeT) (s : ServerRun) : ServerRun :=
  if s.packNum + 1 ≥ bufferPrintInterval then
    { s with packNum := 0, printed := s.printed ++ [fillLevel z s.server.videoBuffer] }
  else { s with packNum := s.packNum + 1 }

def recvPacket (z : SizeT) (o : ByteOrder) (s : ServerRun) (d : Datagram) : Option ServerRun :=
  (recvVideo z o s.server d).map fun srv =>
    if (d.data.take maxPacketSize).length ≤ 0 then { s with server := srv }
    else countPacket z { s with server := srv }

inductive ServerAct where
  /-- `recv_data` returns the datagram -/
  | recv (d : Datagram)
  /-- `fifo_write_thread` finds the buffer not empty, and passes a byte on -/
  | fifoWrite

def serverStep (z : SizeT) (o : ByteOrder) (serverAddr : Addr) (s : ServerRun) :
    ServerAct → Option ServerRun
  | .recv d =>
      match s.server.connectionStatus with
      | .waitingInit =>
          let r := waitInit serverAddr s.server d
          some { s with server := r.1, sent := s.sent ++ r.2 }
      | .recvVideo => recvPacket z o s d
  | .fifoWrite =>
      if s.fifoThread = false ∨ bufferIsEmpty z s.server.videoBuffer = true then none
      else
        (readDataBuffer z s.server.videoBuffer).map fun p =>
          { s with server := { s.server with videoBuffer := p.2 }, written := s.written ++ [p.1] }

/-! ### What the datagrams determine -/

def received (as : List ServerAct) : List Datagram :=
  as.filterMap fun
    | .recv d => some d
    | .fifoWrite => none

/-- The packets that `recv_video` handles: it skips empty datagrams. -/
def packets (ds : List Datagram) : List (List UInt8) :=
  (ds.map fun d => d.data.take maxPacketSize).filter fun p => 0 < p.length

/-- What a packet takes up in the buffer, with its length bytes. -/
def packetCost (data : List UInt8) : ℕ := data.length + 2

theorem length_stream (o : ByteOrder) (ps : List (List UInt8)) :
    (stream o ps).length = total packetCost ps := by
  induction ps with
  | nil => rfl
  | cons p ps ih =>
    have hcons : stream o (p :: ps) = frameBytes o p ++ stream o ps := rfl
    rw [hcons, List.length_append, ih, frameBytes, List.length_append, length_shortBytes, total,
      packetCost]
    omega

theorem received_recv (as : List ServerAct) (d : Datagram) :
    received (as ++ [.recv d]) = received as ++ [d] := by
  simp [received]

theorem received_fifoWrite (as : List ServerAct) : received (as ++ [.fifoWrite]) = received as := by
  simp [received]

theorem packets_append (ds : List Datagram) (d : Datagram) :
    packets (ds ++ [d]) =
      if (d.data.take maxPacketSize).length ≤ 0 then packets ds
      else packets ds ++ [d.data.take maxPacketSize] := by
  rw [packets, packets, List.map_append, List.filter_append, List.map_singleton, List.filter_cons]
  by_cases hempty : (d.data.take maxPacketSize).length ≤ 0
  · rw [if_pos hempty, if_neg (by simpa only [decide_eq_true_eq, Nat.not_lt] using hempty),
      List.filter_nil, List.append_nil]
  · rw [if_neg hempty, if_pos (by simpa only [decide_eq_true_eq, Nat.not_le] using hempty),
      List.filter_nil]

theorem waitInit_videoBuffer (serverAddr : Addr) (srv : Server) (buf : CircularBuf) (d : Datagram) :
    waitInit serverAddr { srv with videoBuffer := buf } d =
      ({ (waitInit serverAddr srv d).1 with videoBuffer := buf }, (waitInit serverAddr srv d).2) := by
  simp only [waitInit]
  split <;> rfl

theorem waitInitLoop_waits {serverAddr : Addr} {srv : Server} {ds : List Datagram}
    (hwait : (waitInitLoop serverAddr srv ds).server.connectionStatus = .waitingInit) :
    (waitInitLoop serverAddr srv ds).unreceived = [] ∧ ∀ d,
      waitInitLoop serverAddr srv (ds ++ [d]) =
        ⟨(waitInit serverAddr (waitInitLoop serverAddr srv ds).server d).1,
          (waitInitLoop serverAddr srv ds).sent ++
            (waitInit serverAddr (waitInitLoop serverAddr srv ds).server d).2, []⟩ := by
  induction ds generalizing srv with
  | nil =>
    refine ⟨rfl, fun d => ?_⟩
    have hsrv : srv.connectionStatus = .waitingInit := hwait
    simp only [List.nil_append, waitInitLoop, if_pos hsrv, List.append_nil]
  | cons e ds ih =>
    by_cases hsrv : srv.connectionStatus = .waitingInit
    · rw [waitInitLoop, if_pos hsrv] at hwait ⊢
      obtain ⟨hall, hnext⟩ := ih hwait
      refine ⟨hall, fun d => ?_⟩
      rw [List.cons_append, waitInitLoop, if_pos hsrv]
      simp only [hnext d, List.append_assoc]
    · rw [waitInitLoop, if_neg hsrv] at hwait
      exact absurd hwait hsrv

theorem waitInitLoop_done {serverAddr : Addr} {srv : Server} {ds : List Datagram}
    (hleft : (waitInitLoop serverAddr srv ds).server.connectionStatus = .recvVideo) (d : Datagram) :
    waitInitLoop serverAddr srv (ds ++ [d]) =
      { waitInitLoop serverAddr srv ds with
        unreceived := (waitInitLoop serverAddr srv ds).unreceived ++ [d] } := by
  induction ds generalizing srv with
  | nil => exact waitInitLoop_left hleft [d]
  | cons e ds ih =>
    rw [List.cons_append]
    by_cases hsrv : srv.connectionStatus = .waitingInit
    · rw [waitInitLoop, if_pos hsrv] at hleft
      simp only [waitInitLoop, if_pos hsrv, ih hleft]
    · simp only [waitInitLoop, if_neg hsrv, List.cons_append]

/-! ### Reports -/

/-- A report after every `BUFFER_PRINT_INTERVAL` packets, where `level` is what is reported after them. -/
def reports (level : List (List UInt8) → ℤ) (ps : List (List UInt8)) : List ℤ :=
  (List.range (ps.length / bufferPrintInterval)).map fun i =>
    level (ps.take (bufferPrintInterval * (i + 1)))

theorem reports_append (level : List (List UInt8) → ℤ) (ps : List (List UInt8)) (p : List UInt8)
    {k n : ℕ} (hn : n < bufferPrintInterval) (hps : bufferPrintInterval * k + n = ps.length) :
    reports level (ps ++ [p]) =
      if n + 1 ≥ bufferPrintInterval then reports level ps ++ [level (ps ++ [p])]
      else reports level ps := by
  rw [bufferPrintInterval] at hn hps
  have hold : ∀ i < k, (ps ++ [p]).take (250 * (i + 1)) = ps.take (250 * (i + 1)) := by
    intro i hi
    exact List.take_append_of_le_length (by omega)
  have hdiv : ps.length / 250 = k := by omega
  have hreports : (List.range k).map (fun i => level ((ps ++ [p]).take (250 * (i + 1)))) =
      reports level ps := by
    rw [reports, bufferPrintInterval, hdiv]
    apply List.map_congr_left
    intro i hi
    rw [hold i (List.mem_range.mp hi)]
  rw [← hreports, reports, List.length_append, List.length_singleton, bufferPrintInterval]
  by_cases hdue : n + 1 ≥ 250
  · have hnext : (ps.length + 1) / 250 = k + 1 := by omega
    have hall : (ps ++ [p]).take (250 * (k + 1)) = ps ++ [p] := by
      apply List.take_of_length_le
      rw [List.length_append, List.length_singleton]
      omega
    rw [if_pos hdue, hnext, List.range_succ, List.map_append, List.map_singleton, hall]
  · have hsame : (ps.length + 1) / 250 = k := by omega
    rw [if_neg hdue, hsame]

/-! ### One packet -/

theorem recvVideo_packet {srv : Server} {q : List UInt8} (z : SizeT) (o : ByteOrder) (d : Datagram)
    (h : Represents srv.videoBuffer q) (hmax : srv.videoBuffer.max ≤ intMax)
    (hpos : ¬ (d.data.take maxPacketSize).length ≤ 0) :
    ∃ buf, recvVideo z o srv d = some { srv with videoBuffer := buf } ∧
      buf.tail = srv.videoBuffer.tail ∧ buf.max = srv.videoBuffer.max ∧
      Represents buf (if q.length + packetCost (d.data.take maxPacketSize) < srv.videoBuffer.max then
        q ++ frameBytes o (d.data.take maxPacketSize) else q) := by
  have hlen : (d.data.take maxPacketSize).length ≤ 65535 :=
    (List.length_take_le _ _).trans (by decide)
  rw [recvVideo, if_neg hpos, sendPacketBuffer_eq z o (wellFormed_of_represents h) hmax hlen,
    storedCount_eq h, Option.map_some]
  refine ⟨_, rfl, ?_⟩
  have hcost : (frameBytes o (d.data.take maxPacketSize)).length =
      packetCost (d.data.take maxPacketSize) := by
    rw [frameBytes, List.length_append, length_shortBytes, packetCost, Nat.add_comm]
  rw [packetCost, ← Nat.add_assoc] at *
  split
  · refine ⟨foldl_writeByte_tail _ _, foldl_writeByte_max _ _, ?_⟩
    exact represents_foldl_writeByte _ h (by omega)
  · exact ⟨rfl, rfl, h⟩

/-- After the packets `ps`, of which `kept` were stored: the counter and the reports, and the bytes
written and those still in the buffer. -/
structure Accounts (o : ByteOrder) (max : ℕ) (ps : List (List UInt8)) (s : ServerRun)
    (kept : List (List UInt8)) (unread : List UInt8) : Prop where
  represents : Represents s.server.videoBuffer unread
  max_eq : s.server.videoBuffer.max = max
  room : unread.length < max
  kept_sublist : kept.Sublist ps
  written_eq : s.written ++ unread = stream o kept
  count : bufferPrintInterval * s.printed.length + s.packNum = ps.length
  due : s.packNum < bufferPrintInterval
  levels : ∀ l ∈ s.printed, 0 ≤ l ∧ l < max

/-- What holds besides when there is no thread that reads. -/
structure Greedy (max : ℕ) (ps : List (List UInt8)) (s : ServerRun) (kept : List (List UInt8)) :
    Prop where
  kept_eq : kept = admitted packetCost max 0 ps
  written_nil : s.written = []
  tail_eq : s.server.videoBuffer.tail = 0
  printed_eq : s.printed = reports (fun ps => total packetCost (admitted packetCost max 0 ps)) ps

def afterPacket (z : SizeT) (s : ServerRun) (buf : CircularBuf) : ServerRun :=
  countPacket z { s with server := { s.server with videoBuffer := buf } }

theorem afterPacket_frame (z : SizeT) (s : ServerRun) (buf : CircularBuf) :
    (afterPacket z s buf).server = { s.server with videoBuffer := buf } ∧
      (afterPacket z s buf).sent = s.sent ∧ (afterPacket z s buf).fifoThread = s.fifoThread ∧
      (afterPacket z s buf).written = s.written := by
  rw [afterPacket, countPacket]
  split <;> exact ⟨rfl, rfl, rfl, rfl⟩

/-- **The counter**: a report for each completed interval, of the exact level. -/
theorem afterPacket_printed {z : SizeT} {s : ServerRun} {buf : CircularBuf} {q : List UInt8}
    (h : Represents buf q) (hmax : buf.max ≤ intMax) :
    (afterPacket z s buf).printed =
        (if s.packNum + 1 ≥ bufferPrintInterval then s.printed ++ [(q.length : ℤ)] else s.printed) ∧
      (afterPacket z s buf).packNum =
        if s.packNum + 1 ≥ bufferPrintInterval then 0 else s.packNum + 1 := by
  rw [afterPacket, countPacket]
  split
  · exact ⟨congrArg (s.printed ++ [·]) (fillLevel_eq h z hmax), rfl⟩
  · exact ⟨rfl, rfl⟩

theorem Accounts.packet {o : ByteOrder} {max : ℕ} {ps kept : List (List UInt8)} {s : ServerRun}
    {unread p : List UInt8} {buf : CircularBuf} (z : SizeT) (hmax : max ≤ intMax)
    (h : Accounts o max ps s kept unread) (hbuf : buf.max = max)
    (hrep : Represents buf
      (if unread.length + packetCost p < max then unread ++ frameBytes o p else unread)) :
    Accounts o max (ps ++ [p]) (afterPacket z s buf)
      (if unread.length + packetCost p < max then kept ++ [p] else kept)
      (if unread.length + packetCost p < max then unread ++ frameBytes o p else unread) := by
  obtain ⟨hserver, -, -, hwritten⟩ := afterPacket_frame z s buf
  obtain ⟨hprinted, hpackNum⟩ := afterPacket_printed (z := z) (s := s) hrep (hbuf.trans_le hmax)
  have hcount := h.count
  have hdue := h.due
  have hroom : (if unread.length + packetCost p < max then unread ++ frameBytes o p
      else unread).length < max := by
    split
    · rw [List.length_append, frameBytes, List.length_append, length_shortBytes]
      rw [packetCost] at *
      omega
    · exact h.room
  exact {
    represents := by
      rw [hserver]
      exact hrep
    max_eq := by
      rw [hserver]
      exact hbuf
    room := hroom
    kept_sublist := by
      split
      · exact h.kept_sublist.append (List.Sublist.refl [p])
      · exact h.kept_sublist.trans (List.sublist_append_left ps [p])
    written_eq := by
      rw [hwritten]
      split
      · rw [← List.append_assoc, h.written_eq, stream_append]
        simp [stream]
      · exact h.written_eq
    count := by
      rw [hprinted, hpackNum, List.length_append, List.length_singleton]
      split
      · rw [List.length_append, List.length_singleton]
        rw [bufferPrintInterval] at *
        omega
      · omega
    due := by
      rw [hpackNum]
      split
      · decide
      · omega
    levels := by
      rw [hprinted]
      intro l hl
      split at hl
      · rcases List.mem_append.mp hl with hl | hl
        · exact h.levels l hl
        · rw [List.mem_singleton.mp hl]
          omega
      · exact h.levels l hl }

/-- **Without reads the packets stored are those of a greedy admission.** -/
theorem Greedy.packet {o : ByteOrder} {max : ℕ} {ps kept : List (List UInt8)} {s : ServerRun}
    {unread p : List UInt8} {buf : CircularBuf} (z : SizeT) (hmax : max ≤ intMax)
    (hacc : Accounts o max ps s kept unread) (h : Greedy max ps s kept) (hbuf : buf.max = max)
    (htail : buf.tail = s.server.videoBuffer.tail)
    (hrep : Represents buf
      (if unread.length + packetCost p < max then unread ++ frameBytes o p else unread)) :
    Greedy max (ps ++ [p]) (afterPacket z s buf)
      (if unread.length + packetCost p < max then kept ++ [p] else kept) := by
  obtain ⟨hserver, -, -, hwritten⟩ := afterPacket_frame z s buf
  have hafter := hacc.packet z hmax hbuf hrep
  obtain ⟨hprinted, -⟩ := afterPacket_printed (z := z) (s := s) hrep (hbuf.trans_le hmax)
  have hunread : unread = stream o kept := by
    rw [← hacc.written_eq, h.written_nil, List.nil_append]
  have hused : unread.length = total packetCost kept := by rw [hunread, length_stream]
  have hkept : (if unread.length + packetCost p < max then kept ++ [p] else kept) =
      admitted packetCost max 0 (ps ++ [p]) := by
    rw [admitted_append, ← h.kept_eq, Nat.zero_add, ← hused]
    simp only [admitted]
    split
    · rfl
    · rw [List.append_nil]
  have hlevel : (if unread.length + packetCost p < max then unread ++ frameBytes o p
      else unread).length = total packetCost (admitted packetCost max 0 (ps ++ [p])) := by
    have hwritten' := hafter.written_eq
    rw [hwritten, h.written_nil, List.nil_append, hkept] at hwritten'
    rw [hwritten', length_stream]
  exact {
    kept_eq := hkept
    written_nil := by rw [hwritten, h.written_nil]
    tail_eq := by rw [hserver, htail, h.tail_eq]
    printed_eq := by
      rw [hprinted, hlevel, reports_append _ ps p hacc.due hacc.count, h.printed_eq] }

/-! ### Runs -/

/-- The packets that `recv_video` has been handed, when the server received `ds` from `srv` on. -/
def handed (serverAddr : Addr) (srv : Server) (ds : List Datagram) : List (List UInt8) :=
  packets (waitInitLoop serverAddr srv ds).unreceived

structure ServerInv (o : ByteOrder) (serverAddr : Addr) (max : ℕ) (s₀ : ServerRun) (ds : List Datagram)
    (s : ServerRun) (kept : List (List UInt8)) (unread : List UInt8) : Prop where
  server_eq : s.server = { (waitInitLoop serverAddr s₀.server ds).server with
    videoBuffer := s.server.videoBuffer }
  sent_eq : s.sent = (waitInitLoop serverAddr s₀.server ds).sent
  thread_eq : s.fifoThread = s₀.fifoThread
  accounts : Accounts o max (handed serverAddr s₀.server ds) s kept unread
  greedy : s₀.fifoThread = false → Greedy max (handed serverAddr s₀.server ds) s kept

theorem serverInv_waiting {z : SizeT} {o : ByteOrder} {serverAddr : Addr} {max : ℕ}
    {s₀ s s' : ServerRun} {ds : List Datagram} {kept : List (List UInt8)} {unread : List UInt8}
    {d : Datagram} (h : ServerInv o serverAddr max s₀ ds s kept unread)
    (hwait : s.server.connectionStatus = .waitingInit)
    (hstep : serverStep z o serverAddr s (.recv d) = some s') :
    ServerInv o serverAddr max s₀ (ds ++ [d]) s' kept unread := by
  have hloop : (waitInitLoop serverAddr s₀.server ds).server.connectionStatus = .waitingInit := by
    rw [h.server_eq] at hwait
    exact hwait
  obtain ⟨hall, hnext⟩ := waitInitLoop_waits hloop
  have hhanded : handed serverAddr s₀.server (ds ++ [d]) = handed serverAddr s₀.server ds := by
    rw [handed, handed, hnext d, hall]
  have hinit := waitInit_videoBuffer serverAddr (waitInitLoop serverAddr s₀.server ds).server
    s.server.videoBuffer d
  rw [← h.server_eq] at hinit
  rw [serverStep, hwait, Option.some.injEq] at hstep
  subst hstep
  refine ⟨?_, ?_, h.thread_eq, ?_, fun hno => ?_⟩
  · rw [hnext d]
    simp only [hinit]
  · rw [hnext d, h.sent_eq]
    simp only [hinit]
  · have hacc := h.accounts
    rw [hhanded]
    refine ⟨?_, ?_, hacc.room, hacc.kept_sublist, hacc.written_eq, hacc.count, hacc.due, hacc.levels⟩
    · simp only [hinit]
      exact hacc.represents
    · simp only [hinit]
      exact hacc.max_eq
  · have hgreedy := h.greedy hno
    rw [hhanded]
    refine ⟨hgreedy.kept_eq, hgreedy.written_nil, ?_, hgreedy.printed_eq⟩
    simp only [hinit]
    exact hgreedy.tail_eq

theorem serverInv_video {z : SizeT} {o : ByteOrder} {serverAddr : Addr} {max : ℕ} (hmax : max ≤ intMax)
    {s₀ s s' : ServerRun} {ds : List Datagram} {kept : List (List UInt8)} {unread : List UInt8}
    {d : Datagram} (h : ServerInv o serverAddr max s₀ ds s kept unread)
    (hvideo : s.server.connectionStatus = .recvVideo)
    (hstep : serverStep z o serverAddr s (.recv d) = some s') :
    ∃ kept' unread', ServerInv o serverAddr max s₀ (ds ++ [d]) s' kept' unread' := by
  have hleft : (waitInitLoop serverAddr s₀.server ds).server.connectionStatus = .recvVideo := by
    rw [h.server_eq] at hvideo
    exact hvideo
  have hloop := waitInitLoop_done hleft d
  have hsrv : (waitInitLoop serverAddr s₀.server (ds ++ [d])).server =
      (waitInitLoop serverAddr s₀.server ds).server := by rw [hloop]
  have hsent : (waitInitLoop serverAddr s₀.server (ds ++ [d])).sent =
      (waitInitLoop serverAddr s₀.server ds).sent := by rw [hloop]
  have hhanded : handed serverAddr s₀.server (ds ++ [d]) =
      if (d.data.take maxPacketSize).length ≤ 0 then handed serverAddr s₀.server ds
      else handed serverAddr s₀.server ds ++ [d.data.take maxPacketSize] := by
    rw [handed, handed, hloop]
    exact packets_append _ d
  rw [serverStep, hvideo] at hstep
  dsimp only [recvPacket] at hstep
  by_cases hempty : (d.data.take maxPacketSize).length ≤ 0
  · rw [if_pos hempty] at hhanded
    rw [recvVideo, if_pos hempty, Option.map_some, if_pos hempty, Option.some.injEq] at hstep
    subst hstep
    exact ⟨kept, unread, hsrv ▸ h.server_eq, h.sent_eq.trans hsent.symm, h.thread_eq,
      hhanded ▸ h.accounts, hhanded ▸ h.greedy⟩
  · rw [if_neg hempty] at hhanded
    have hle : s.server.videoBuffer.max ≤ intMax := h.accounts.max_eq.trans_le hmax
    obtain ⟨buf, hbuf, htail, hsize, hrep⟩ :=
      recvVideo_packet z o d h.accounts.represents hle hempty
    rw [hbuf, Option.map_some, if_neg hempty, Option.some.injEq] at hstep
    subst hstep
    rw [h.accounts.max_eq] at hsize hrep
    obtain ⟨hserver, hsent', hthread, -⟩ := afterPacket_frame z s buf
    have hacc := h.accounts.packet z hmax hsize hrep
    rw [← hhanded] at hacc
    refine ⟨_, _, ?_, ?_, hthread.trans h.thread_eq, hacc, fun hno => ?_⟩
    · show (afterPacket z s buf).server = { (waitInitLoop serverAddr s₀.server (ds ++ [d])).server with
        videoBuffer := (afterPacket z s buf).server.videoBuffer }
      rw [hserver, hsrv]
      conv_lhs => rw [h.server_eq]
    · exact hsent'.trans (h.sent_eq.trans hsent.symm)
    · rw [hhanded]
      exact (h.greedy hno).packet z hmax h.accounts hsize htail hrep

theorem serverInv_fifoWrite {z : SizeT} {o : ByteOrder} {serverAddr : Addr} {max : ℕ}
    (hmax : max ≤ intMax) {s₀ s s' : ServerRun} {ds : List Datagram} {kept : List (List UInt8)}
    {unread : List UInt8} (h : ServerInv o serverAddr max s₀ ds s kept unread)
    (hstep : serverStep z o serverAddr s .fifoWrite = some s') :
    ∃ unread', ServerInv o serverAddr max s₀ ds s' kept unread' := by
  have hacc := h.accounts
  have hle : s.server.videoBuffer.max ≤ intMax := hacc.max_eq.trans_le hmax
  rw [serverStep] at hstep
  split at hstep
  · cases hstep
  · rename_i hcan
    push Not at hcan
    cases unread with
    | nil => exact absurd ((hacc.represents.bufferIsEmpty_iff z hle).mpr rfl) hcan.2
    | cons c q =>
      rw [hacc.represents.readDataBuffer_eq z hle, Option.map_some, Option.some.injEq] at hstep
      subst hstep
      have hroom := hacc.room
      rw [List.length_cons] at hroom
      refine ⟨q, ?_, h.sent_eq, h.thread_eq, ?_, fun hno => ?_⟩
      · show ({ s.server with videoBuffer := _ } : Server) = _
        rw [h.server_eq]
      · refine ⟨hacc.represents.afterRead.2, hacc.max_eq, by omega, hacc.kept_sublist, ?_, hacc.count,
          hacc.due, hacc.levels⟩
        rw [← hacc.written_eq, List.append_assoc, List.singleton_append]
      · exact absurd (h.thread_eq.trans hno) hcan.1

theorem start_serverInv (o : ByteOrder) (serverAddr : Addr) (options : BitVec 32) {max : ℕ}
    (heap mem : ℕ → UInt8) (hpos : 1 ≤ max) :
    ServerInv o serverAddr max (.start options max heap mem) [] (.start options max heap mem) [] [] := by
  have hloop (srv : Server) : waitInitLoop serverAddr srv [] = ⟨srv, [], []⟩ := rfl
  have hnone (srv : Server) : handed serverAddr srv [] = [] := rfl
  refine ⟨?_, ?_, rfl, ?_, fun _ => ?_⟩
  · rw [hloop]
  · rw [hloop, ServerRun.start]
  · rw [hnone]
    exact ⟨initBuffer_represents max heap hpos, rfl, hpos, List.Sublist.refl [], rfl, rfl,
      show 0 < bufferPrintInterval by decide, by simp [ServerRun.start]⟩
  · rw [hnone]
    exact ⟨rfl, rfl, rfl, by simp [ServerRun.start, reports]⟩

theorem serverRun_inv {z : SizeT} {o : ByteOrder} {serverAddr : Addr} {options : BitVec 32} {max : ℕ}
    {heap mem : ℕ → UInt8} (hpos : 1 ≤ max) (hmax : max ≤ intMax) {as : List ServerAct} {s : ServerRun}
    (hrun : runFrom (serverStep z o serverAddr) (.start options max heap mem) as = some s) :
    ∃ kept unread,
      ServerInv o serverAddr max (.start options max heap mem) (received as) s kept unread := by
  refine runFrom_history (I := fun as s => ∃ kept unread,
    ServerInv o serverAddr max (.start options max heap mem) (received as) s kept unread) ?_ ?_ hrun
  · exact ⟨[], [], start_serverInv o serverAddr options heap mem hpos⟩
  · intro as s a s' ⟨kept, unread, h⟩ hstep
    cases a with
    | recv d =>
      rw [received_recv]
      cases hstatus : s.server.connectionStatus with
      | waitingInit => exact ⟨kept, unread, serverInv_waiting h hstatus hstep⟩
      | recvVideo => exact serverInv_video hmax h hstatus hstep
    | fifoWrite =>
      rw [received_fifoWrite]
      obtain ⟨unread', h'⟩ := serverInv_fifoWrite hmax h hstep
      exact ⟨kept, unread', h'⟩

/-- The buffer of a server without the thread, which was handed the packets `ps`: those of a greedy
admission lie at its start, nothing was passed on, and each report is the level they determine.  Once a
packet has been refused, only shorter ones are stored. -/
structure FilledBy (o : ByteOrder) (max : ℕ) (ps : List (List UInt8)) (s : ServerRun) : Prop where
  tail_eq : s.server.videoBuffer.tail = 0
  head_eq : s.server.videoBuffer.head = total packetCost (admitted packetCost max 0 ps)
  contents : s.server.videoBuffer.buffer.take s.server.videoBuffer.head =
    stream o (admitted packetCost max 0 ps)
  written_nil : s.written = []
  printed_eq : s.printed = reports (fun ps => total packetCost (admitted packetCost max 0 ps)) ps
  refusal : ∀ before p after, ps = before ++ p :: after →
    max ≤ total packetCost (admitted packetCost max 0 before) + packetCost p →
    ∃ later, admitted packetCost max 0 ps = admitted packetCost max 0 before ++ later ∧
      ∀ q ∈ later, q.length < p.length

/-- **A server without the thread fills up**: what it stores and reports is a function of the packets that
`recv_video` is handed.  (Which these are depends on the uninitialised array of `wait_init` as well, if
the first datagram is empty.) -/
theorem no_fifo_admits (z : SizeT) (o : ByteOrder) (serverAddr : Addr) (options : BitVec 32)
    (hno : isOptionSet options ServerOption.noFifo.code = true) (max : ℕ) (heap mem : ℕ → UInt8)
    (hpos : 1 ≤ max) (hmax : max ≤ intMax) (as : List ServerAct) (s : ServerRun)
    (hrun : runFrom (serverStep z o serverAddr) (.start options max heap mem) as = some s) :
    FilledBy o max
      (handed serverAddr (ServerRun.start options max heap mem).server (received as)) s := by
  obtain ⟨kept, unread, h⟩ := serverRun_inv hpos hmax hrun
  have hthread : (ServerRun.start options max heap mem).fifoThread = false := by
    rw [ServerRun.start, hno]
    rfl
  have hgreedy := h.greedy hthread
  have hunread : unread = stream o kept := by
    rw [← h.accounts.written_eq, hgreedy.written_nil, List.nil_append]
  have hrep := h.accounts.represents
  have hroom := h.accounts.room
  have hhead : s.server.videoBuffer.head = unread.length := by
    rw [hrep.head_eq, hgreedy.tail_eq, Nat.zero_add, h.accounts.max_eq, Nat.mod_eq_of_lt hroom]
  refine ⟨hgreedy.tail_eq, ?_, ?_, hgreedy.written_nil, hgreedy.printed_eq, ?_⟩
  · rw [hhead, hunread, length_stream, hgreedy.kept_eq]
  · rw [hhead, ← hgreedy.kept_eq, ← hunread]
    have hstored := hrep.stored
    rw [hgreedy.tail_eq, window, List.rotate_zero] at hstored
    exact hstored
  · intro before p after hps hrefused
    rw [hps, admitted_append, Nat.zero_add]
    refine ⟨_, rfl, fun q hq => ?_⟩
    have hlt := cost_lt_of_refused packetCost max (p := p) (by omega) hq
    rw [packetCost, packetCost] at hlt
    omega

/-- A buffer of 16 cells without the thread: the packets of five bytes and of one fit, that of ten does
not, and the one of six after it does not either. -/
theorem no_fifo_admits_refused :
    ∃ s : ServerRun, s.server.videoBuffer.head = 10 ∧
      FilledBy .little 16 (handed ⟨1, 1337⟩ (ServerRun.start 1 16 (fun _ => 0) fun _ => 0).server
        [sendPacketType ⟨2, 80⟩ ⟨1, 1337⟩ .init, ⟨⟨2, 80⟩, ⟨1, 1337⟩, [1, 2, 3, 4, 5], .sendVideoPacket⟩,
          ⟨⟨2, 80⟩, ⟨1, 1337⟩, List.replicate 10 0, .sendVideoPacket⟩,
          ⟨⟨3, 80⟩, ⟨1, 1337⟩, [6], .sendVideoPacket⟩,
          ⟨⟨2, 80⟩, ⟨1, 1337⟩, List.replicate 6 0, .sendVideoPacket⟩]) s := by
  have h : (runFrom (serverStep ⟨64, by decide⟩ .little ⟨1, 1337⟩)
      (.start 1 16 (fun _ => 0) fun _ => 0)
      [.recv (sendPacketType ⟨2, 80⟩ ⟨1, 1337⟩ .init),
        .recv ⟨⟨2, 80⟩, ⟨1, 1337⟩, [1, 2, 3, 4, 5], .sendVideoPacket⟩,
        .recv ⟨⟨2, 80⟩, ⟨1, 1337⟩, List.replicate 10 0, .sendVideoPacket⟩,
        .recv ⟨⟨3, 80⟩, ⟨1, 1337⟩, [6], .sendVideoPacket⟩,
        .recv ⟨⟨2, 80⟩, ⟨1, 1337⟩, List.replicate 6 0, .sendVideoPacket⟩]).map
      (fun s => s.server.videoBuffer.head) = some 10 := by decide +kernel
  obtain ⟨s, hrun, hs⟩ := Option.map_eq_some_iff.mp h
  exact ⟨s, hs, no_fifo_admits ⟨64, by decide⟩ .little ⟨1, 1337⟩ 1 (by decide) 16 (fun _ => 0)
    (fun _ => 0) (by decide) (by decide) _ s hrun⟩

end LinkManagement.RunServer
