import LinkManagement.Lib.Progress
import LinkManagement.Video.BufferRefinement
import LinkManagement.Video.Relay

/-!
# The relay delivers everything it has stored

Once no datagram arrives, the relay of `Relay`, with its calls as steps, empties itself.  `work` prices
the steps that a byte has still to make: into the ring, into the writer's variable, into the transmit
FIFO, over the link, and to the client.  A call that is split at the end of the array costs a step more,
and no part of it is empty; so `work` falls with every step, and it bounds how long any schedule can go
on.

`relay_drains` — with room for one byte in each FIFO the relay has no deadlock: where none of its steps
is enabled, the client has sent every stored packet, and nothing is left on the way.
-/

namespace LinkManagement.RelayProgress

open LinkManagement.Transition LinkManagement.MachineInt LinkManagement.Buffer
open LinkManagement.BufferRefinement LinkManagement.Connection LinkManagement.SendPacket
open LinkManagement.VideoSendLoop LinkManagement.Relay

def Internal : RelayAct → Prop
  | .recv _ => False
  | .write | .read | .writeFifo | .link | .readFifo => True

/-- The work in the server: a byte to be written costs six, less one for each call that is due, and a
stored one four. -/
def serverWork (s : PacketRun) : ℕ :=
  6 * s.calls.flatten.length - s.calls.length + 4 * storedCount s.buf

/-- A bound on the steps that the bytes under way have still to make. -/
def work (s : Chain) : ℕ :=
  serverWork s.server + 3 * s.readData.toList.length + 2 * s.tx.length + s.rx.length

/-- Nothing is under way, and the client waits for a new frame. -/
structure Delivered (z : SizeT) (s : Chain) : Prop where
  sent : s.client.sent = s.stored
  calls : s.server.calls = []
  ring : bufferIsEmpty z s.server.buf = true
  readData : s.readData = none
  tx : s.tx = []
  rx : s.rx = []
  client : s.client.pos = .len0

/-! ### The price of a step -/

theorem length_le_length_flatten {α : Type*} {calls : List (List α)}
    (h : ∀ c ∈ calls, 1 ≤ c.length) : calls.length ≤ calls.flatten.length := by
  induction calls with
  | nil => exact Nat.le_refl 0
  | cons c calls ih =>
    have hc : 1 ≤ c.length := h c List.mem_cons_self
    have hle := ih fun d hd => h d (List.mem_cons_of_mem c hd)
    rw [List.flatten_cons, List.length_append, List.length_cons]
    omega

theorem writeNext_calls {z : SizeT} {s s' : PacketRun} {data : List UInt8} {rest : List (List UInt8)}
    (h : writeNext z s data rest = some s') :
    (∃ a b, a ++ b = data ∧ s'.calls = a :: b :: rest) ∨ s'.calls = rest := by
  unfold writeNext at h
  split at h
  · obtain ⟨p, hp, rfl⟩ := Option.map_eq_some_iff.mp h
    exact .inl ⟨p.1, p.2, splitParts_append hp, rfl⟩
  · obtain ⟨b, -, rfl⟩ := Option.map_eq_some_iff.mp h
    exact .inr rfl

theorem serverWork_eq {max : ℕ} {s : PacketRun} {unread : List UInt8} (h : PacketInv max s unread) :
    serverWork s = 6 * s.calls.flatten.length - s.calls.length + 4 * unread.length := by
  rw [serverWork, storedCount_eq h.represents]

/-- **A write lowers the work**: the parts of a split call are not empty, and a copy moves at least one
byte into the ring. -/
theorem writeNext_lowers (z : SizeT) {max : ℕ} (hmax : max ≤ intMax) {s : PacketRun}
    {unread data : List UInt8} {rest : List (List UInt8)} (h : PacketInv max s unread)
    (hcalls : s.calls = data :: rest) {s' : PacketRun} (hs' : writeNext z s data rest = some s') :
    serverWork s' < serverWork s := by
  obtain ⟨s₁, unread₁, hs₁, h₁, hflat⟩ := writeNext_inv z hmax h hcalls
  rw [hs', Option.some.injEq] at hs₁
  subst hs₁
  have hbytes := congrArg List.length hflat
  rw [List.length_append, List.length_append] at hbytes
  have hpos : 1 ≤ data.length := h.nonempty data (by simp [hcalls])
  have hle := length_le_length_flatten h.nonempty
  have hle₁ := length_le_length_flatten h₁.nonempty
  rw [serverWork_eq h, serverWork_eq h₁]
  rcases writeNext_calls hs' with ⟨a, b, rfl, hnew⟩ | hnew
  · simp only [hcalls, hnew, List.flatten_cons, List.length_append, List.length_cons] at *
    omega
  · simp only [hcalls, hnew, List.flatten_cons, List.length_append, List.length_cons] at *
    omega

/-- **Step.**  Every internal step lowers the work, and stores no packet. -/
theorem relayStep_lowers (z : SizeT) (o : ByteOrder) {max txCap rxCap : ℕ} (hmax : max ≤ intMax)
    {s s' : Chain} {a : RelayAct} (ha : Internal a) (hstep : relayStep z o txCap rxCap s a = some s')
    {unread tail : List UInt8} {rest : List (List UInt8)}
    (h : Accounts o max txCap rxCap s unread tail rest) :
    s'.stored = s.stored ∧ work s' < work s := by
  cases a with
  | recv datagram => cases ha
  | write =>
    obtain ⟨b, hb, rfl⟩ := Option.map_eq_some_iff.mp hstep
    cases hcalls : s.server.calls with
    | nil =>
      simp only [packetStep, hcalls] at hb
      cases hb
    | cons data due =>
      simp only [packetStep, hcalls] at hb
      have hlt := writeNext_lowers z hmax h.ring hcalls hb
      refine ⟨rfl, ?_⟩
      simp only [work]
      omega
  | read =>
    simp only [relayStep] at hstep
    split at hstep
    · cases hstep
    · rename_i hreg
      split at hstep
      · cases hstep
      · rename_i hne
        obtain ⟨c, unread', rfl, hread, hring⟩ := read_inv z hmax h.ring (by simpa using hne)
        rw [hread] at hstep
        cases hstep
        refine ⟨rfl, ?_⟩
        simp only [work, serverWork_eq h.ring, serverWork_eq hring, hreg, Option.toList_some,
          Option.toList_none, List.length_cons, List.length_nil]
        omega
  | writeFifo =>
    simp only [relayStep] at hstep
    split at hstep
    · cases hstep
    · rename_i c hreg
      split at hstep
      · cases hstep
        refine ⟨rfl, ?_⟩
        simp only [work, hreg, Option.toList_some, Option.toList_none, List.length_append,
          List.length_cons, List.length_nil]
        omega
      · cases hstep
  | link =>
    simp only [relayStep] at hstep
    split at hstep
    · cases hstep
    · rename_i c tx htx
      split at hstep
      · cases hstep
        refine ⟨rfl, ?_⟩
        simp only [work, htx, List.length_append, List.length_cons, List.length_nil]
        omega
      · cases hstep
  | readFifo =>
    simp only [relayStep] at hstep
    split at hstep
    · cases hstep
    · rename_i c rx hrx
      obtain ⟨l, -, rfl⟩ := Option.map_eq_some_iff.mp hstep
      refine ⟨rfl, ?_⟩
      simp only [work, hrx, List.length_cons]
      omega

/-! ### Where no step is enabled -/

/-- **No deadlock.**  From the client back to the ring: a byte in one of the places would enable the
step that moves it on. -/
theorem quiet_delivered (z : SizeT) {o : ByteOrder} {max txCap rxCap : ℕ} (hmax : max ≤ intMax)
    (htx : 1 ≤ txCap) (hrx : 1 ≤ rxCap) {s : Chain} {unread tail : List UInt8}
    {rest : List (List UInt8)} (h : Accounts o max txCap rxCap s unread tail rest)
    (hquiet : Quiet (relayStep z o txCap rxCap) Internal s) : Delivered z s := by
  have hrxnil : s.rx = [] := by
    cases hq : s.rx with
    | nil => rfl
    | cons c rx =>
      obtain ⟨l, -, -, hl, -⟩ := videoStep_spec o h.loop h.holding c
      have hnone := hquiet .readFifo trivial
      simp only [relayStep, hq, hl, Option.map_some] at hnone
      cases hnone
  have htxnil : s.tx = [] := by
    cases hq : s.tx with
    | nil => rfl
    | cons c tx =>
      have hnone := hquiet .link trivial
      simp only [relayStep, hq, hrxnil, List.length_nil, if_pos (show 0 < rxCap from hrx)] at hnone
      cases hnone
  have hregnil : s.readData = none := by
    cases hq : s.readData with
    | none => rfl
    | some c =>
      have hnone := hquiet .writeFifo trivial
      simp only [relayStep, hq, htxnil, List.length_nil, if_pos (show 0 < txCap from htx)] at hnone
      cases hnone
  have hempty : bufferIsEmpty z s.server.buf = true := by
    by_contra hne
    obtain ⟨c, -, -, hread, -⟩ := read_inv z hmax h.ring (by simpa using hne)
    have hnone := hquiet .read trivial
    simp only [relayStep, hregnil, if_neg hne, hread, Option.map_some] at hnone
    cases hnone
  have hcalls : s.server.calls = [] := by
    cases hq : s.server.calls with
    | nil => rfl
    | cons data due =>
      obtain ⟨b, -, hb, -⟩ := writeNext_inv z hmax h.ring hq
      have hnone := hquiet .write trivial
      simp only [relayStep, packetStep, hq, hb, Option.map_some] at hnone
      cases hnone
  have hunread : unread = [] :=
    (h.ring.represents.bufferIsEmpty_iff z (h.ring.max_eq ▸ hmax)).mp hempty
  have htail : stream o rest = tail := by
    rw [h.bytes, underway, hrxnil, htxnil, hregnil, hunread, hcalls]
    simp
  have hrest : rest = [] := h.holding.eq_nil_of_stream
    (fun p hp => (h.sizes p (h.sent ▸ List.mem_append_right _ hp)).2) htail
  subst hrest
  have hhold : Holding o s.client [] := by
    have hhold := h.holding
    rwa [← htail] at hhold
  exact {
    sent := by rw [h.sent, List.append_nil]
    calls := hcalls
    ring := hempty
    readData := hregnil
    tx := htxnil
    rx := hrxnil
    client := by
      cases hhold with
      | head hpos => exact hpos }

/-! ### The relay -/

theorem relay_decreasing (z : SizeT) (o : ByteOrder) {max txCap rxCap : ℕ} (hmax : max ≤ intMax)
    (stored : List (List UInt8)) :
    Decreasing (relayStep z o txCap rxCap) Internal
      (fun s => s.stored = stored ∧ ∃ unread tail rest, Accounts o max txCap rxCap s unread tail rest)
      work where
  keeps := by
    rintro s a s' ⟨hstored, unread, tail, rest, h⟩ ha hstep
    exact ⟨(relayStep_lowers z o hmax ha hstep h).1.trans hstored,
      relayStep_accounts z o hmax hstep ⟨unread, tail, rest, h⟩⟩
  lowers := by
    rintro s a s' ⟨-, unread, tail, rest, h⟩ ha hstep
    exact (relayStep_lowers z o hmax ha hstep h).2

/-- **The relay delivers everything.**  In every state that can be reached, with whatever arrived until
then: if no more datagrams arrive, every schedule of the steps of the threads, the hardware and the client
ends within `work s` of them, and where it ends the client has sent all the packets stored. -/
theorem relay_drains (z : SizeT) (o : ByteOrder) (max txCap rxCap : ℕ) (heap mem : ℕ → UInt8)
    (hpos : 1 ≤ max) (hmax : max ≤ intMax) (htx : 1 ≤ txCap) (hrx : 1 ≤ rxCap) (as : List RelayAct)
    (s : Chain) (hrun : runFrom (relayStep z o txCap rxCap) (.start max heap mem) as = some s) :
    Drains (relayStep z o txCap rxCap) Internal (work s)
      (fun s' => s'.stored = s.stored ∧ Delivered z s') s := by
  have hinv := runFrom_invariant (fun _ _ _ hI hs => relayStep_accounts z o hmax hs hI)
    ⟨[], [], [], start_accounts o txCap rxCap heap mem hpos⟩ hrun
  refine (relay_decreasing z o hmax s.stored).drains ?_ ⟨rfl, hinv⟩
  rintro s' ⟨hstored, unread, tail, rest, h⟩ hquiet
  exact ⟨hstored, quiet_delivered z hmax htx hrx h hquiet⟩

/-- One packet, of whose header's write nothing has been read yet, over FIFOs of one byte. -/
theorem relay_drains_one_packet :
    ∃ s, s.stored = [[7]] ∧ Drains (relayStep ⟨64, by decide⟩ .little 1 1) Internal (work s)
      (fun s' => s'.stored = s.stored ∧ Delivered ⟨64, by decide⟩ s') s := by
  have hstored : (runFrom (relayStep ⟨64, by decide⟩ .little 1 1) (.start 8 (fun _ => 0) fun _ => 0)
      [.recv [7], .write]).map (·.stored) = some [[7]] := by decide +kernel
  obtain ⟨s, hrun, hs⟩ := Option.map_eq_some_iff.mp hstored
  exact ⟨s, hs, relay_drains ⟨64, by decide⟩ .little 8 1 1 (fun _ => 0) (fun _ => 0) (by decide)
    (by decide) (by decide) (by decide) _ s hrun⟩

end LinkManagement.RelayProgress
