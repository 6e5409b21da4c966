import LinkManagement.Lib.Transition
import LinkManagement.Video.Buffer

/-!
# Storing packets while the buffer is being read

`send_packet_buffer` of `VideoServer/src/server.c` checks the free space once and then makes two calls
of `send_data_buffer`, for the two bytes of the length and for the packet.  `packetStep` runs it next to
the reads of `fifo_write_thread`: the room check, each copy into the array and each guarded read is one
step, so reads can fall between any two writes of a packet, also between the halves of a write that is
split at the end of the array.  `sendDataBufferFuel_writes` ties the steps to the calls they stand for.

The room check is strict (`bufferSpace > dataLen + 2`).  `PacketInv` carries it through the run: the
bytes stored and the bytes still to be written are together fewer than `max`.  Hence `full` is never
set (`full_never_set`), as long as no packet is empty: `recv_video` skips empty datagrams, and
`empty_packet_sets_full` shows what one would do.
-/

namespace LinkManagement.SendPacket

open LinkManagement.Transition LinkManagement.MachineInt LinkManagement.Buffer

/-- A packet as it lies in the buffer: the native-order bytes of its length, then its bytes. -/
def frameBytes (o : ByteOrder) (data : List UInt8) : List UInt8 := shortBytes o data.length ++ data

/-- `send_packet_buffer`, without interleaved reads; `dataLen` is the length of `data`, an `unsigned
short`. -/
def sendPacketBuffer (z : SizeT) (o : ByteOrder) (data : List UInt8) (buf : CircularBuf) :
    Option CircularBuf :=
  if getSpace z buf > (data.length : ℤ) + 2 then
    (sendDataBuffer z (shortBytes o data.length) buf).bind fun buf => sendDataBuffer z data buf
  else some buf

/-- **A packet is stored whole or not at all**, when nothing reads in between. -/
theorem sendPacketBuffer_spec {buf : CircularBuf} {q data : List UInt8}
    (h : Represents buf q) (z : SizeT) (o : ByteOrder) (hmax : buf.max ≤ intMax)
    (hpos : 1 ≤ data.length) :
    ∃ buf', sendPacketBuffer z o data buf = some buf' ∧
      Represents buf' (if getSpace z buf > (data.length : ℤ) + 2 then q ++ frameBytes o data else q) ∧
      buf'.max = buf.max := by
  rw [sendPacketBuffer]
  have hspace := h.getSpace_eq z hmax
  split
  · have hheader : (shortBytes o data.length).length = 2 := length_shortBytes o _
    have hheader_pos : 1 ≤ (shortBytes o data.length).length := by omega
    obtain ⟨b₁, hb₁, hr₁, hm₁⟩ := h.sendDataBuffer z hmax hheader_pos (by omega)
    have hfit : (q ++ shortBytes o data.length).length + data.length ≤ b₁.max := by
      rw [List.length_append, hm₁]
      omega
    obtain ⟨b₂, hb₂, hr₂, hm₂⟩ := hr₁.sendDataBuffer z (hm₁.trans_le hmax) hpos hfit
    refine ⟨b₂, ?_, ?_, hm₂.trans hm₁⟩
    · rw [hb₁, Option.bind_some, hb₂]
    · rw [frameBytes, ← List.append_assoc]
      exact hr₂
  · exact ⟨buf, rfl, h, rfl⟩

/-- The buffer between two steps; `calls` are the `send_data_buffer` calls that the packet in progress
still has to make.  `stored` and `taken` record the bytes copied in and read out so far. -/
structure PacketRun where
  buf : CircularBuf
  calls : List (List UInt8)
  stored : List UInt8
  taken : List UInt8
  deriving DecidableEq

inductive PacketAct where
  /-- enter `send_packet_buffer` and check the room -/
  | check (data : List UInt8)
  /-- go on with the next `send_data_buffer` call: split it, or copy and advance -/
  | write
  /-- `fifo_write_thread` finds the buffer not empty and reads a byte -/
  | read

def PacketRun.start (max : ℕ) (heap : ℕ → UInt8) : PacketRun := ⟨initBuffer max heap, [], [], []⟩

/-- The room check: on success the calls for header and packet are due. -/
def checkRoom (z : SizeT) (o : ByteOrder) (data : List UInt8) (s : PacketRun) : PacketRun :=
  if getSpace z s.buf > (data.length : ℤ) + 2 then
    { s with calls := [shortBytes o data.length, data] }
  else s

def writeNext (z : SizeT) (s : PacketRun) (data : List UInt8) (rest : List (List UInt8)) :
    Option PacketRun :=
  if z.add data.length s.buf.head > s.buf.max then
    (splitParts z data s.buf).map fun p => { s with calls := p.1 :: p.2 :: rest }
  else
    (copyAndAdvance z data s.buf).map fun b =>
      { s with buf := b, calls := rest, stored := s.stored ++ data }

def packetStep (z : SizeT) (o : ByteOrder) (s : PacketRun) : PacketAct → Option PacketRun
  | .check data => if s.calls = [] then some (checkRoom z o data s) else none
  | .write =>
      match s.calls with
      | [] => none
      | data :: rest => writeNext z s data rest
  | .read =>
      if bufferIsEmpty z s.buf then none
      else (readDataBuffer z s.buf).map fun p => { s with buf := p.2, taken := s.taken ++ [p.1] }

/-! ### The steps of one call -/

/-- **A call is its writes**: where `send_data_buffer` has a result, finitely many steps without
interleaved reads reach it. -/
theorem sendDataBufferFuel_writes (z : SizeT) (o : ByteOrder) (fuel : ℕ) :
    ∀ (data : List UInt8) (buf buf' : CircularBuf) (rest : List (List UInt8))
      (stored taken : List UInt8), sendDataBufferFuel z fuel data buf = some buf' →
      ∃ n, runFrom (packetStep z o) ⟨buf, data :: rest, stored, taken⟩ (List.replicate n .write)
        = some ⟨buf', rest, stored ++ data, taken⟩ := by
  induction fuel with
  | zero =>
    intro data buf buf' rest stored taken h
    cases h
  | succ fuel ih =>
    intro data buf buf' rest stored taken h
    rw [sendDataBufferFuel] at h
    by_cases hover : z.add data.length buf.head > buf.max
    · rw [if_pos hover] at h
      obtain ⟨parts, hparts, h⟩ := Option.bind_eq_some_iff.mp h
      obtain ⟨b, hb, hb'⟩ := Option.bind_eq_some_iff.mp h
      obtain ⟨n₁, hn₁⟩ := ih parts.1 buf b (parts.2 :: rest) stored taken hb
      obtain ⟨n₂, hn₂⟩ := ih parts.2 b buf' rest (stored ++ parts.1) taken hb'
      have hsplit : packetStep z o ⟨buf, data :: rest, stored, taken⟩ .write
          = some ⟨buf, parts.1 :: parts.2 :: rest, stored, taken⟩ := by
        simp only [packetStep, writeNext, if_pos hover, hparts, Option.map_some]
      refine ⟨n₁ + n₂ + 1, ?_⟩
      rw [List.replicate_succ, List.replicate_add, runFrom, hsplit, Option.bind_some, runFrom_append,
        hn₁, Option.bind_some, hn₂, List.append_assoc, splitParts_append hparts]
    · rw [if_neg hover] at h
      refine ⟨1, runFrom_cons_eq_some.mpr ⟨_, ?_, rfl⟩⟩
      simp only [packetStep, writeNext, if_neg hover, h, Option.map_some]

/-! ### The invariant -/

/-- The bytes in the buffer are those stored and not yet taken, and with the writes still due they do
not fill it. -/
structure PacketInv (max : ℕ) (s : PacketRun) (unread : List UInt8) : Prop where
  represents : Represents s.buf unread
  max_eq : s.buf.max = max
  history : s.stored = s.taken ++ unread
  room : unread.length + s.calls.flatten.length < max
  nonempty : ∀ c ∈ s.calls, 1 ≤ c.length

theorem start_inv {max : ℕ} (heap : ℕ → UInt8) (hpos : 1 ≤ max) :
    PacketInv max (.start max heap) [] where
  represents := initBuffer_represents max heap hpos
  max_eq := rfl
  history := rfl
  room := hpos
  nonempty := by simp [PacketRun.start]

theorem checkRoom_inv (z : SizeT) (o : ByteOrder) {max : ℕ} (hmax : max ≤ intMax)
    {data : List UInt8} (hdata : 1 ≤ data.length) {s : PacketRun} {unread : List UInt8}
    (h : PacketInv max s unread) : PacketInv max (checkRoom z o data s) unread := by
  unfold checkRoom
  split
  · rename_i hspace
    rw [h.represents.getSpace_eq z (h.max_eq ▸ hmax), h.max_eq] at hspace
    have hlen : [shortBytes o data.length, data].flatten.length = 2 + data.length := by
      simp
    exact {
      represents := h.represents
      max_eq := h.max_eq
      history := h.history
      room := by
        show unread.length + [shortBytes o data.length, data].flatten.length < max
        omega
      nonempty := by
        intro c hc
        rcases List.mem_pair.mp hc with rfl | rfl
        · rw [length_shortBytes]
          decide
        · exact hdata }
  · exact h

/-- The next write of a call that is not empty is defined; a copy moves bytes from those due to those
stored. -/
theorem writeNext_inv (z : SizeT) {max : ℕ} (hmax : max ≤ intMax) {s : PacketRun}
    {unread data : List UInt8} {rest : List (List UInt8)} (h : PacketInv max s unread)
    (hcalls : s.calls = data :: rest) :
    ∃ s' unread', writeNext z s data rest = some s' ∧ PacketInv max s' unread' ∧
      unread' ++ s'.calls.flatten = unread ++ s.calls.flatten := by
  have hle : s.buf.max ≤ intMax := h.max_eq ▸ hmax
  have hm : s.buf.max ≤ 2 ^ 31 - 1 := hle
  have hpos : 1 ≤ data.length := h.nonempty data (by simp [hcalls])
  have hrest : ∀ c ∈ rest, 1 ≤ c.length := fun c hc => h.nonempty c (by simp [hcalls, hc])
  have hroom : unread.length + (data.length + rest.flatten.length) < s.buf.max := by
    have h' := h.room
    rw [hcalls, List.flatten_cons, List.length_append, ← h.max_eq] at h'
    exact h'
  have hhead := h.represents.head_lt
  unfold writeNext
  rw [z.add_eq (by omega)]
  by_cases hover : data.length + s.buf.head > s.buf.max
  · rw [if_pos hover, h.represents.splitParts_eq z hle hover]
    have hflat : (data.take (s.buf.max - s.buf.head) :: data.drop (s.buf.max - s.buf.head) ::
        rest).flatten = s.calls.flatten := by
      rw [hcalls, List.flatten_cons, List.flatten_cons, List.flatten_cons, ← List.append_assoc,
        List.take_append_drop]
    refine ⟨_, unread, rfl, ?_, by rw [hflat]⟩
    exact {
      represents := h.represents
      max_eq := h.max_eq
      history := h.history
      room := by
        rw [hflat]
        exact h.room
      nonempty := by
        intro c hc
        rcases List.mem_cons.mp hc with rfl | hc
        · rw [List.length_take]
          omega
        · rcases List.mem_cons.mp hc with rfl | hc
          · rw [List.length_drop]
            omega
          · exact hrest c hc }
  · rw [if_neg hover, h.represents.copyAndAdvance_eq z hle (by omega)]
    refine ⟨_, unread ++ data, rfl, ?_,
      by rw [hcalls, List.flatten_cons, List.append_assoc]⟩
    exact {
      represents := h.represents.afterCopy data hpos (by omega) (by omega)
      max_eq := h.max_eq
      history := by
        show s.stored ++ data = s.taken ++ (unread ++ data)
        rw [h.history, List.append_assoc]
      room := by
        show (unread ++ data).length + rest.flatten.length < max
        rw [List.length_append, ← h.max_eq]
        omega
      nonempty := hrest }

theorem read_inv (z : SizeT) {max : ℕ} (hmax : max ≤ intMax) {s : PacketRun} {unread : List UInt8}
    (h : PacketInv max s unread) (hne : bufferIsEmpty z s.buf = false) :
    ∃ c rest, unread = c :: rest ∧ readDataBuffer z s.buf = some (c, s.buf.afterRead) ∧
      PacketInv max { s with buf := s.buf.afterRead, taken := s.taken ++ [c] } rest := by
  have hle : s.buf.max ≤ intMax := h.max_eq ▸ hmax
  cases unread with
  | nil =>
    rw [(h.represents.bufferIsEmpty_iff z hle).mpr rfl] at hne
    cases hne
  | cons c rest =>
    refine ⟨c, rest, rfl, h.represents.readDataBuffer_eq z hle, ?_⟩
    exact {
      represents := h.represents.afterRead.2
      max_eq := h.max_eq
      history := by
        show s.stored = s.taken ++ [c] ++ rest
        rw [h.history, List.append_assoc, List.singleton_append]
      room := by
        have h' := h.room
        rw [List.length_cons] at h'
        show rest.length + s.calls.flatten.length < max
        omega
      nonempty := h.nonempty }

/-- The labels whose packets are not empty and have an `unsigned short` length. -/
def PacketAct.Fits : PacketAct → Prop
  | .check data => 1 ≤ data.length ∧ data.length ≤ 65535
  | .write => True
  | .read => True

theorem packetStep_inv (z : SizeT) (o : ByteOrder) {max : ℕ} (hmax : max ≤ intMax)
    {s s' : PacketRun} {a : PacketAct} (hfits : a.Fits) (hstep : packetStep z o s a = some s')
    (h : ∃ unread, PacketInv max s unread) : ∃ unread, PacketInv max s' unread := by
  obtain ⟨unread, h⟩ := h
  cases a with
  | check data =>
    simp only [packetStep] at hstep
    split at hstep
    · cases hstep
      exact ⟨unread, checkRoom_inv z o hmax hfits.1 h⟩
    · cases hstep
  | write =>
    simp only [packetStep] at hstep
    split at hstep
    · cases hstep
    · rename_i data rest hcalls
      obtain ⟨s₁, unread₁, hs₁, h₁, -⟩ := writeNext_inv z hmax h hcalls
      rw [hs₁] at hstep
      cases hstep
      exact ⟨unread₁, h₁⟩
  | read =>
    simp only [packetStep] at hstep
    split at hstep
    · cases hstep
    · rename_i hne
      obtain ⟨c, rest, -, hread, h₁⟩ := read_inv z hmax h (by simpa using hne)
      rw [hread] at hstep
      cases hstep
      exact ⟨rest, h₁⟩

theorem packetRun_inv (z : SizeT) (o : ByteOrder) {max : ℕ} (heap : ℕ → UInt8) (hpos : 1 ≤ max)
    (hmax : max ≤ intMax) {as : List PacketAct} (hfits : ∀ a ∈ as, a.Fits) {s : PacketRun}
    (hrun : runFrom (packetStep z o) (.start max heap) as = some s) :
    ∃ unread, PacketInv max s unread :=
  (Along.of_forall (C := fun _ a => a.Fits) _ as fun a ha _ => hfits a ha).invariant
    (fun _ _ _ hI hC hs => packetStep_inv z o hmax hC hs hI) ⟨[], start_inv heap hpos⟩ hrun

/-! ### The flag is never needed -/

/-- `get_space` without its test of `full`. -/
def getSpaceNoFull (z : SizeT) (buf : CircularBuf) : ℤ :=
  spaceExpr z buf.max (decide (buf.head < buf.tail)) buf.head buf.tail

def fillLevelNoFull (z : SizeT) (buf : CircularBuf) : ℤ :=
  narrow (z.sub buf.max (z.ofInt (getSpaceNoFull z buf)))

def bufferIsEmptyNoFull (z : SizeT) (buf : CircularBuf) : Bool :=
  z.ofInt (getSpaceNoFull z buf) == buf.max

theorem getSpace_eq_noFull (z : SizeT) {buf : CircularBuf} (h : buf.full = false) :
    getSpace z buf = getSpaceNoFull z buf := by
  rw [getSpace, h, if_neg Bool.false_ne_true, getSpaceNoFull]

/-- **An empty packet sets the flag of an empty buffer.**  Its two header bytes are read before the
write of its zero payload bytes, which then finds `head == tail`: the state has `full` set, nothing
stored, and reports no free space. -/
theorem empty_packet_sets_full :
    ∃ as s, runFrom (packetStep ⟨64, by decide⟩ .little) (.start 4 fun _ => 0) as = some s ∧
      (∀ data, PacketAct.check data ∈ as → data.length ≤ 65535) ∧
      s.buf.full = true ∧ s.stored = s.taken ∧ getSpace ⟨64, by decide⟩ s.buf = 0 := by
  refine ⟨[.check [], .write, .read, .read, .write], _, rfl, ?_, rfl, rfl, rfl⟩
  intro data h
  simp only [List.mem_cons, PacketAct.check.injEq, reduceCtorEq, List.not_mem_nil, or_false] at h
  rw [h]
  decide

/-- What it means in a state that the flag is not needed: it is not set, fewer than `max` of the stored
bytes are unread, `head` meets `tail` exactly when none is, and the functions that test `full` return
what they would without the test.  The last two fields say that what can happen next has defined
behaviour. -/
structure FlagUnused (z : SizeT) (o : ByteOrder) (max : ℕ) (s : PacketRun) (unread : List UInt8) :
    Prop where
  history : s.stored = s.taken ++ unread
  represents : Represents s.buf unread
  full : s.buf.full = false
  length_le : unread.length ≤ max - 1
  head_eq_tail_iff : s.buf.head = s.buf.tail ↔ unread = []
  getSpace : getSpace z s.buf = getSpaceNoFull z s.buf
  fillLevel : fillLevel z s.buf = fillLevelNoFull z s.buf
  bufferIsEmpty : bufferIsEmpty z s.buf = bufferIsEmptyNoFull z s.buf
  write_defined : s.calls ≠ [] → packetStep z o s .write ≠ none
  read_defined : Buffer.bufferIsEmpty z s.buf = false → packetStep z o s .read ≠ none

theorem PacketInv.flagUnused (z : SizeT) (o : ByteOrder) {max : ℕ} (hmax : max ≤ intMax)
    {s : PacketRun} {unread : List UInt8} (h : PacketInv max s unread) :
    FlagUnused z o max s unread := by
  have hroom := h.room
  have hmaxeq := h.max_eq
  have hfull : s.buf.full = false := by
    rw [Bool.eq_false_iff, Ne, h.represents.full_iff]
    omega
  have hspace := getSpace_eq_noFull z hfull
  refine {
    history := h.history
    represents := h.represents
    full := hfull
    length_le := by omega
    head_eq_tail_iff := ?_
    getSpace := hspace
    fillLevel := by rw [Buffer.fillLevel, fillLevelNoFull, hspace]
    bufferIsEmpty := by rw [Buffer.bufferIsEmpty, bufferIsEmptyNoFull, hspace]
    write_defined := ?_
    read_defined := ?_ }
  · rw [h.represents.head_eq_tail_iff, ← List.length_eq_zero_iff]
    omega
  · intro hcalls
    obtain ⟨data, rest, hcons⟩ := List.exists_cons_of_ne_nil hcalls
    obtain ⟨s₁, -, hs₁, -⟩ := writeNext_inv z hmax h hcons
    simp only [packetStep, hcons, hs₁]
    exact Option.some_ne_none _
  · intro hne
    obtain ⟨c, rest, -, hread, -⟩ := read_inv z hmax h hne
    simp only [packetStep, hne, hread, Bool.false_eq_true, if_false, Option.map_some]
    exact Option.some_ne_none _

/-- **The flag is never needed**, in any state that packets of 1 to 65535 bytes and guarded reads reach,
between any two writes. -/
theorem full_never_set (z : SizeT) (o : ByteOrder) (max : ℕ) (heap : ℕ → UInt8) (hpos : 1 ≤ max)
    (hmax : max ≤ intMax) (as : List PacketAct) (hfits : ∀ a ∈ as, a.Fits) (s : PacketRun)
    (hrun : runFrom (packetStep z o) (.start max heap) as = some s) :
    ∃ unread, FlagUnused z o max s unread := by
  obtain ⟨unread, h⟩ := packetRun_inv z o heap hpos hmax hfits hrun
  exact ⟨unread, h.flagUnused z o hmax⟩

/-- One packet in a buffer of eight bytes, its header read before its payload is written. -/
theorem full_never_set_header_read :
    ∃ unread, FlagUnused ⟨64, by decide⟩ .little 8
      ⟨⟨[1, 0, 7, 0, 0, 0, 0, 0], 3, 2, 8, false⟩, [], [1, 0, 7], [1, 0]⟩ unread :=
  full_never_set ⟨64, by decide⟩ .little 8 (fun _ => 0) (by decide) (by decide)
    [.check [7], .write, .read, .read, .write] (by simp [PacketAct.Fits]) _ (by decide +kernel)

end LinkManagement.SendPacket
