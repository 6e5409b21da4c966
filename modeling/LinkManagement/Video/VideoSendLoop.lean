import LinkManagement.Lib.Framing
import LinkManagement.Lib.Transition
import LinkManagement.Video.Connection
import LinkManagement.Video.SendPacket

/-!
# The client's video loop

`video_send_loop` of `VideoServer/src/client.c` takes one byte after the other from the receive FIFO:
two length bytes, then that many bytes into `dataBuffer`, which it sends as a datagram; a length above
`MAX_PACKET_SIZE` is skipped.  `videoStep` runs the loop from one `read_fifo_blocking` call to the next,
so the states are the points at which the loop can wait.  A write outside `dataBuffer` would give
`none`.

The bytes consumed split into `Item`s: frames, each sent, and skipped headers.

* `videoRun_splits` — whatever arrives, the loop consumes it along the one split there is;
* `decoder_splits_uniquely` — the law for arbitrary bytes, from the start of the loop;
* `videoRun_along` — on a stream of packets the loop sends the packets, each once and in order;
* `drained_start_not_resynchronised`, `decoder_after_drain` — what a start in the middle of the stream,
  after `empty_fifo`, can do, and what it always does.
-/

namespace LinkManagement.VideoSendLoop

open LinkManagement.Transition LinkManagement.MachineInt LinkManagement.Framing
open LinkManagement.Connection LinkManagement.SendPacket

/-- `send_video_packet`: the `int` length passes through a `short` parameter.  `none` when no datagram
with the contents of the array leaves: `sendto` refuses the huge length that a negative one becomes, and
a length past the end of the array has no defined contents. -/
def sendVideoPacket (data : List UInt8) (len : ℤ) : Option (List UInt8) :=
  let short := narrowShort len
  if 0 ≤ short ∧ short ≤ data.length then some (data.take short.toNat) else none

/-- The `read_fifo_blocking` call the loop waits in: for a length byte, or for `dataBuffer`. -/
inductive ReadAt where
  | len0
  | len1 (b : UInt8)
  | data
  deriving DecidableEq

/-- The state of `video_send_loop`.  `sent` records the datagrams, `lens` the `int` lengths given to
`send_video_packet`. -/
structure VideoLoop where
  pos : ReadAt
  packetLen : ℕ
  currentSize : ℕ
  dataBuffer : List UInt8
  sent : List (List UInt8)
  lens : List ℤ
  deriving DecidableEq

def VideoLoop.start (mem : ℕ → UInt8) : VideoLoop :=
  ⟨.len0, 0, 0, uninitialised mem, [], []⟩

/-- The inner loop's test: read on, or send what was read and return to the head of the loop. -/
def readOrSend (s : VideoLoop) : VideoLoop :=
  if s.currentSize < s.packetLen then { s with pos := .data }
  else
    { s with
      pos := .len0
      currentSize := 0
      sent := s.sent ++ (sendVideoPacket s.dataBuffer s.currentSize).toList
      lens := s.lens ++ [(s.currentSize : ℤ)] }

/-- One byte returned by `read_fifo_blocking`, up to the next call of it. -/
def videoStep (o : ByteOrder) (s : VideoLoop) (c : UInt8) : Option VideoLoop :=
  match s.pos with
  | .len0 => some { s with pos := .len1 c }
  | .len1 b =>
      let packetLen := shortOfBytes o b c
      if packetLen > maxPacketSize then some { s with pos := .len0, packetLen := packetLen }
      else some (readOrSend { s with packetLen := packetLen })
  | .data =>
      if s.currentSize < s.dataBuffer.length then
        some (readOrSend { s with
          dataBuffer := s.dataBuffer.set s.currentSize c
          currentSize := s.currentSize + 1 })
      else none

/-! ### The items of a byte stream -/

/-- What the loop makes of the bytes: a frame, or a header whose length is too large. -/
inductive Item where
  | frame (data : List UInt8)
  | skipped (a b : UInt8)

def Item.Valid (o : ByteOrder) : Item → Prop
  | .frame data => data.length ≤ maxPacketSize
  | .skipped a b => maxPacketSize < shortOfBytes o a b

/-- The bytes of an item; a frame is encoded as `send_packet_buffer` stores it. -/
def Item.bytes (o : ByteOrder) : Item → List UInt8
  | .frame data => frameBytes o data
  | .skipped a b => [a, b]

def datagrams : List Item → List (List UInt8)
  | [] => []
  | .frame data :: items => data :: datagrams items
  | .skipped _ _ :: items => datagrams items

theorem datagrams_append (is js : List Item) : datagrams (is ++ js) = datagrams is ++ datagrams js := by
  induction is with
  | nil => rfl
  | cons i is ih =>
    cases i with
    | frame data => simp only [List.cons_append, datagrams, ih]
    | skipped a b => simp only [List.cons_append, datagrams, ih]

theorem datagrams_map_frame (ps : List (List UInt8)) : datagrams (ps.map .frame) = ps := by
  induction ps with
  | nil => rfl
  | cons p ps ih => simp only [List.map_cons, datagrams, ih]

theorem mem_datagrams {d : List UInt8} {items : List Item} (h : d ∈ datagrams items) :
    Item.frame d ∈ items := by
  induction items with
  | nil => cases h
  | cons i items ih =>
    cases i with
    | frame data =>
      rcases List.mem_cons.mp h with rfl | h
      · exact List.mem_cons_self
      · exact List.mem_cons_of_mem _ (ih h)
    | skipped a b => exact List.mem_cons_of_mem _ (ih h)

theorem item_bytes (o : ByteOrder) {i : Item} (hi : i.Valid o) :
    ∃ a b rest, i.bytes o = a :: b :: rest ∧
      ((∃ data, i = .frame data ∧ rest = data ∧ shortOfBytes o a b = data.length) ∨
        (i = .skipped a b ∧ rest = [] ∧ maxPacketSize < shortOfBytes o a b)) := by
  cases i with
  | frame data =>
    have hlen : data.length ≤ 2000 := hi
    obtain ⟨a, b, hab, hval⟩ := shortBytes_eq o (show data.length < 65536 by omega)
    exact ⟨a, b, data, by rw [Item.bytes, frameBytes, hab]; rfl, .inl ⟨data, rfl, rfl, hval⟩⟩
  | skipped a b => exact ⟨a, b, [], rfl, .inr ⟨rfl, rfl, hi⟩⟩

/-- **The items form a prefix-free code**: the two bytes decide between a frame and a skipped header,
and how long the frame is. -/
theorem items_prefixFree (o : ByteOrder) : PrefixFree (Item.Valid o) (Item.bytes o) where
  ne_nil := by
    intro i hi h
    obtain ⟨a, b, rest, hb, -⟩ := item_bytes o hi
    rw [hb] at h
    cases h
  cancel := by
    intro i j x y hi hj h
    obtain ⟨a, b, r, hr, hcase⟩ := item_bytes o hi
    obtain ⟨a', b', r', hr', hcase'⟩ := item_bytes o hj
    rw [hr, hr'] at h
    simp only [List.cons_append, List.cons.injEq] at h
    obtain ⟨rfl, rfl, h⟩ := h
    rcases hcase with ⟨d, rfl, rfl, hd⟩ | ⟨rfl, rfl, hd⟩
    · have hlen : r.length ≤ maxPacketSize := hi
      rcases hcase' with ⟨d', rfl, rfl, hd'⟩ | ⟨rfl, rfl, hd'⟩
      · obtain ⟨rfl, rfl⟩ := List.append_inj h (by omega)
        exact ⟨rfl, rfl⟩
      · omega
    · rcases hcase' with ⟨d', rfl, rfl, hd'⟩ | ⟨rfl, rfl, hd'⟩
      · have hlen : r'.length ≤ maxPacketSize := hj
        omega
      · exact ⟨rfl, h⟩

/-! ### The loop at a byte -/

/-- The loop has consumed `tail` of the item it is in, and its memory says so. -/
inductive Holding (o : ByteOrder) (s : VideoLoop) : List UInt8 → Prop
  | head (hpos : s.pos = .len0) (hsize : s.currentSize = 0) : Holding o s []
  | header (b : UInt8) (hpos : s.pos = .len1 b) (hsize : s.currentSize = 0) : Holding o s [b]
  | payload (a b : UInt8) (data : List UInt8) (hpos : s.pos = .data)
      (hlen : s.packetLen = shortOfBytes o a b) (hle : s.packetLen ≤ maxPacketSize)
      (hsize : s.currentSize = data.length) (hlt : s.currentSize < s.packetLen)
      (hdata : s.dataBuffer.take s.currentSize = data) : Holding o s (a :: b :: data)

structure LoopOk (s : VideoLoop) : Prop where
  size : s.dataBuffer.length = maxPacketSize
  lens : ∀ n ∈ s.lens, narrowShort n = n

theorem sendVideoPacket_eq {data : List UInt8} {n : ℕ} (hn : n ≤ data.length) (hshort : n < 2 ^ 15) :
    sendVideoPacket data n = some (data.take n) := by
  rw [sendVideoPacket, narrowShort_eq (by omega) (by omega), if_pos (by omega), Int.toNat_natCast]

/-- The end of the inner loop: with the whole payload read, one datagram with it is sent. -/
theorem readOrSend_spec (o : ByteOrder) (s : VideoLoop) (a b : UInt8) (data : List UInt8)
    (hok : LoopOk s) (hlen : s.packetLen = shortOfBytes o a b) (hle : s.packetLen ≤ maxPacketSize)
    (hsize : s.currentSize = data.length) (hsle : s.currentSize ≤ s.packetLen)
    (hdata : s.dataBuffer.take s.currentSize = data) :
    ∃ items tail, LoopOk (readOrSend s) ∧ Holding o (readOrSend s) tail ∧
      (∀ i ∈ items, i.Valid o) ∧ a :: b :: data = items.flatMap (Item.bytes o) ++ tail ∧
      (readOrSend s).sent = s.sent ++ datagrams items := by
  unfold readOrSend
  by_cases hlt : s.currentSize < s.packetLen
  · rw [if_pos hlt]
    exact ⟨[], a :: b :: data, ⟨hok.size, hok.lens⟩,
      .payload a b data rfl hlen hle hsize hlt hdata, by simp, rfl, by simp [datagrams]⟩
  · rw [if_neg hlt]
    have h2000 : s.dataBuffer.length = 2000 := hok.size
    have hfull : data.length = shortOfBytes o a b := by omega
    have hle' : s.packetLen ≤ 2000 := hle
    refine ⟨[.frame data], [], ⟨hok.size, ?_⟩, .head rfl rfl, ?_, ?_, ?_⟩
    · intro n hn
      rcases List.mem_append.mp hn with hn | hn
      · exact hok.lens n hn
      · rw [List.mem_singleton.mp hn]
        exact narrowShort_eq (by omega) (by omega)
    · intro i hi
      rw [List.mem_singleton.mp hi]
      show data.length ≤ maxPacketSize
      omega
    · rw [List.flatMap_cons, List.flatMap_nil, List.append_nil, List.append_nil, Item.bytes,
        frameBytes, hfull, shortBytes_shortOfBytes]
      rfl
    · show s.sent ++ (sendVideoPacket s.dataBuffer s.currentSize).toList = s.sent ++ [data]
      rw [sendVideoPacket_eq (by omega) (by omega), hdata]
      rfl

/-- **Step.**  One more byte never goes past the array, finishes at most one item, and sends its
datagram if it is a frame. -/
theorem videoStep_spec (o : ByteOrder) {s : VideoLoop} {tail : List UInt8} (hok : LoopOk s)
    (hold : Holding o s tail) (c : UInt8) :
    ∃ s' items tail', videoStep o s c = some s' ∧ LoopOk s' ∧ Holding o s' tail' ∧
      (∀ i ∈ items, i.Valid o) ∧ tail ++ [c] = items.flatMap (Item.bytes o) ++ tail' ∧
      s'.sent = s.sent ++ datagrams items := by
  have h2000 : s.dataBuffer.length = 2000 := hok.size
  cases hold with
  | head hpos hsize =>
    refine ⟨{ s with pos := .len1 c }, [], [c], ?_, ⟨hok.size, hok.lens⟩, .header c rfl hsize,
      by simp, rfl, by simp [datagrams]⟩
    simp only [videoStep, hpos]
  | header b hpos hsize =>
    by_cases hbig : shortOfBytes o b c > maxPacketSize
    · refine ⟨{ s with pos := .len0, packetLen := shortOfBytes o b c }, [.skipped b c], [], ?_,
        ⟨hok.size, hok.lens⟩, .head rfl hsize, ?_, rfl, by simp [datagrams]⟩
      · simp only [videoStep, hpos, if_pos hbig]
      · intro i hi
        rw [List.mem_singleton.mp hi]
        exact hbig
    · obtain ⟨items, tail', hok', hold', hvalid, hbytes, hsent⟩ :=
        readOrSend_spec o { s with packetLen := shortOfBytes o b c } b c []
          ⟨hok.size, hok.lens⟩ rfl (show shortOfBytes o b c ≤ maxPacketSize by omega) hsize
           (show s.currentSize ≤ shortOfBytes o b c by omega)
          (show s.dataBuffer.take s.currentSize = [] by rw [hsize, List.take_zero])
      refine ⟨_, items, tail', ?_, hok', hold', hvalid, hbytes, hsent⟩
      simp only [videoStep, hpos, if_neg hbig]
  | payload a b data hpos hlen hle hsize hlt hdata =>
    have hle' : s.packetLen ≤ 2000 := hle
    have hset : (s.dataBuffer.set s.currentSize c).length = s.dataBuffer.length := List.length_set
    have htake : (s.dataBuffer.set s.currentSize c).take (s.currentSize + 1) = data ++ [c] := by
      rw [List.take_add_one, List.take_set_of_le (le_refl _), hdata,
        List.getElem?_set_self (by omega)]
      rfl
    obtain ⟨items, tail', hok', hold', hvalid, hbytes, hsent⟩ :=
      readOrSend_spec o
        { s with
          dataBuffer := s.dataBuffer.set s.currentSize c
          currentSize := s.currentSize + 1 }
        a b (data ++ [c]) ⟨hset.trans hok.size, hok.lens⟩ hlen hle
        (by rw [List.length_append, List.length_singleton, ← hsize]) hlt htake
    refine ⟨_, items, tail', ?_, hok', hold', hvalid, hbytes, hsent⟩
    simp only [videoStep, hpos, if_pos (show s.currentSize < s.dataBuffer.length by omega)]

theorem Holding.incomplete {o : ByteOrder} {s : VideoLoop} {tail : List UInt8}
    (h : Holding o s tail) : Incomplete (Item.Valid o) (Item.bytes o) tail := by
  cases h with
  | head hpos hsize => exact incomplete_nil (items_prefixFree o)
  | header b hpos hsize =>
    intro i x hi h
    obtain ⟨a', b', rest, hb, -⟩ := item_bytes o hi
    rw [hb] at h
    simp at h
  | payload a b data hpos hlen hle hsize hlt hdata =>
    intro i x hi h
    obtain ⟨a', b', rest, hb, hcase⟩ := item_bytes o hi
    rw [hb] at h
    simp only [List.cons_append, List.cons.injEq] at h
    obtain ⟨rfl, rfl, rfl⟩ := h
    rcases hcase with ⟨d, rfl, rfl, hd⟩ | ⟨rfl, rfl, hd⟩
    · rw [List.length_append] at hsize
      omega
    · omega

theorem Holding.eq_nil {o : ByteOrder} {s : VideoLoop} {tail : List UInt8} (h : Holding o s tail)
    (hpos : s.pos = .len0) : tail = [] := by
  cases h with
  | head => rfl
  | header b hpos' => rw [hpos] at hpos'; cases hpos'
  | payload a b data hpos' => rw [hpos] at hpos'; cases hpos'

/-! ### Runs of the loop -/

/-- **Run.**  Whatever arrives, the loop consumes it item by item and sends the frames among them. -/
theorem videoRun_splits (o : ByteOrder) (bytes : List UInt8) :
    ∀ {s : VideoLoop} {tail : List UInt8}, LoopOk s → Holding o s tail →
      ∃ s' items tail', runFrom (videoStep o) s bytes = some s' ∧ LoopOk s' ∧ Holding o s' tail' ∧
        Splits (Item.Valid o) (Item.bytes o) (tail ++ bytes) items tail' ∧
        s'.sent = s.sent ++ datagrams items := by
  induction bytes with
  | nil =>
    intro s tail hok hold
    exact ⟨s, [], tail, rfl, hok, hold, ⟨by simp, by simp, hold.incomplete⟩, by simp [datagrams]⟩
  | cons c bytes ih =>
    intro s tail hok hold
    obtain ⟨s₁, is₁, tail₁, hstep, hok₁, hold₁, hvalid₁, hbytes₁, hsent₁⟩ :=
      videoStep_spec o hok hold c
    obtain ⟨s₂, is₂, tail₂, hrun, hok₂, hold₂, hsplit, hsent₂⟩ := ih hok₁ hold₁
    refine ⟨s₂, is₁ ++ is₂, tail₂, runFrom_cons_eq_some.mpr ⟨s₁, hstep, hrun⟩, hok₂, hold₂,
      ⟨?_, ?_, hsplit.incomplete⟩, ?_⟩
    · intro i hi
      rcases List.mem_append.mp hi with hi | hi
      · exact hvalid₁ i hi
      · exact hsplit.valid i hi
    · calc tail ++ c :: bytes = tail ++ [c] ++ bytes := by simp
        _ = is₁.flatMap (Item.bytes o) ++ (tail₁ ++ bytes) := by rw [hbytes₁, List.append_assoc]
        _ = (is₁ ++ is₂).flatMap (Item.bytes o) ++ tail₂ := by
          rw [hsplit.eq, List.flatMap_append, List.append_assoc]
    · rw [hsent₂, hsent₁, datagrams_append, List.append_assoc]

theorem start_ok (mem : ℕ → UInt8) : LoopOk (.start mem) :=
  ⟨by simp [VideoLoop.start], by simp [VideoLoop.start]⟩

/-- **The decoder on arbitrary bytes.**  Wherever the loop waits, the bytes `s` it has consumed split
into items and an incomplete tail, in exactly one way; it has sent one datagram for each frame, with the
frame's bytes and in order.  No write left `dataBuffer` (the run has a result), and no length changed in
the `short` parameter. -/
theorem decoder_splits_uniquely (o : ByteOrder) (mem : ℕ → UInt8) (s : List UInt8) :
    ∃ st items tail, runFrom (videoStep o) (.start mem) s = some st ∧
      Splits (Item.Valid o) (Item.bytes o) s items tail ∧
      (∀ is t, Splits (Item.Valid o) (Item.bytes o) s is t → is = items ∧ t = tail) ∧
      st.sent = datagrams items ∧ st.dataBuffer.length = maxPacketSize ∧
      ∀ n ∈ st.lens, narrowShort n = n := by
  obtain ⟨st, items, tail, hrun, hok, -, hsplit, hsent⟩ :=
    videoRun_splits o s (start_ok mem) (.head rfl rfl)
  exact ⟨st, items, tail, hrun, hsplit, fun is t h => h.unique (items_prefixFree o) hsplit, hsent,
    hok.size, hok.lens⟩

/-! ### Streams of packets -/

/-- The bytes that the peer's server writes to the FIFO for the packets it stored. -/
def stream (o : ByteOrder) (packets : List (List UInt8)) : List UInt8 :=
  packets.flatMap (frameBytes o)

/-- Fed `y`, the loop sends the packets whose frames `y` contains whole, each once and in order. -/
def SendsPackets (o : ByteOrder) (s : VideoLoop) (packets : List (List UInt8)) (y : List UInt8) :
    Prop :=
  ∃ s' js rest tail, runFrom (videoStep o) s y = some s' ∧ s'.sent = s.sent ++ js ∧
    packets = js ++ rest ∧ y = stream o js ++ tail ∧
    ∀ p ∈ rest.head?, tail.length < (frameBytes o p).length

theorem flatMap_map_frame (o : ByteOrder) (packets : List (List UInt8)) :
    (packets.map Item.frame).flatMap (Item.bytes o) = stream o packets := by
  rw [List.flatMap_map]
  rfl

/-- **Along a stream of packets.**  While the item the loop is in and the bytes to come are a piece of
the stream, the loop sends the packets of the stream and holds a part of the next one. -/
theorem videoRun_along (o : ByteOrder) {s : VideoLoop} {tail : List UInt8} (hok : LoopOk s)
    (hold : Holding o s tail) {packets : List (List UInt8)}
    (hle : ∀ p ∈ packets, p.length ≤ maxPacketSize) {y z : List UInt8}
    (h : tail ++ y ++ z = stream o packets) :
    ∃ s' js rest tail', runFrom (videoStep o) s y = some s' ∧ LoopOk s' ∧ Holding o s' tail' ∧
      s'.sent = s.sent ++ js ∧ packets = js ++ rest ∧ tail ++ y = stream o js ++ tail' ∧
      ∀ p ∈ rest.head?, tail'.length < (frameBytes o p).length := by
  have hc := items_prefixFree o
  rw [← flatMap_map_frame] at h
  have hvalid : ∀ i ∈ packets.map Item.frame, i.Valid o := by
    intro i hi
    obtain ⟨p, hp, rfl⟩ := List.mem_map.mp hi
    exact hle p hp
  obtain ⟨is, js, t, hps, hsplit, hnext⟩ := splits_of_append hc hvalid h
  obtain ⟨s', is', t', hrun, hok', hold', hsplit', hsent⟩ := videoRun_splits o y hok hold
  obtain ⟨rfl, rfl⟩ := hsplit'.unique hc hsplit
  obtain ⟨sent, rest, rfl, rfl, rfl⟩ := List.map_eq_append_iff.mp hps
  refine ⟨s', sent, rest, t', hrun, hok', hold', ?_, rfl, ?_, ?_⟩
  · rw [hsent, datagrams_map_frame]
  · rw [hsplit.eq, flatMap_map_frame]
  · intro p hp
    exact hnext (.frame p) (by rw [List.head?_map]; exact Option.mem_map_of_mem _ hp)

theorem stream_append (o : ByteOrder) (ps qs : List (List UInt8)) :
    stream o (ps ++ qs) = stream o ps ++ stream o qs := List.flatMap_append

/-- **One byte of a stream of packets**: the loop takes it and sends at most what it completes. -/
theorem videoStep_along (o : ByteOrder) {s : VideoLoop} {tail : List UInt8} (hok : LoopOk s)
    (hold : Holding o s tail) {packets : List (List UInt8)}
    (hle : ∀ p ∈ packets, p.length ≤ maxPacketSize) {c : UInt8} {behind : List UInt8}
    (h : stream o packets = tail ++ c :: behind) :
    ∃ s' js rest tail', videoStep o s c = some s' ∧ LoopOk s' ∧ Holding o s' tail' ∧
      s'.sent = s.sent ++ js ∧ packets = js ++ rest ∧ stream o rest = tail' ++ behind := by
  obtain ⟨s', js, rest, tail', hrun, hok', hold', hsent, rfl, htail, -⟩ :=
    videoRun_along o hok hold hle (y := [c]) (z := behind) (by rw [h]; simp)
  obtain ⟨m, hm, hms⟩ := runFrom_cons_eq_some.mp hrun
  rw [runFrom_nil, Option.some.injEq] at hms
  subst hms
  refine ⟨m, js, rest, tail', hm, hok', hold', hsent, rfl, ?_⟩
  have hall : stream o js ++ stream o rest = stream o js ++ (tail' ++ behind) :=
    calc stream o js ++ stream o rest = tail ++ [c] ++ behind := by
          rw [← stream_append, h]
          simp
      _ = stream o js ++ (tail' ++ behind) := by rw [htail, List.append_assoc]
  exact List.append_cancel_left hall

theorem Holding.eq_nil_of_stream {o : ByteOrder} {s : VideoLoop} {tail : List UInt8}
    (hold : Holding o s tail) {packets : List (List UInt8)}
    (hle : ∀ p ∈ packets, p.length ≤ maxPacketSize) (h : stream o packets = tail) :
    packets = [] := by
  cases packets with
  | nil => rfl
  | cons p ps =>
    rw [stream, List.flatMap_cons] at h
    exact absurd h.symm (hold.incomplete (.frame p) _ (hle p List.mem_cons_self))

/-- **In step.**  At the head of the loop and the start of a frame, any piece of the stream is decoded
to the packets in it. -/
theorem videoRun_in_step (o : ByteOrder) {s : VideoLoop} (hok : LoopOk s) (hold : Holding o s [])
    {packets : List (List UInt8)} (hle : ∀ p ∈ packets, p.length ≤ maxPacketSize) {y z : List UInt8}
    (h : y ++ z = stream o packets) : SendsPackets o s packets y := by
  obtain ⟨s', js, rest, tail, hrun, -, -, hsent, hps, hy, hnext⟩ := videoRun_along o hok hold hle h
  exact ⟨s', js, rest, tail, hrun, hsent, hps, hy, hnext⟩

/-! ### Starting after a drain -/

/-- `read_data_fifo`: `none` when the FIFO is empty and the call returns 1. -/
def readDataFifo : List UInt8 → Option (UInt8 × List UInt8)
  | [] => none
  | c :: rx => some (c, rx)

/-- `empty_fifo`: read until a call finds the FIFO empty.  The first argument has the bytes that arrive
before each call; the result is the number of bytes read, what the FIFO then holds, and what arrives
later.  `none` while no call has found the FIFO empty. -/
def emptyFifo : List (List UInt8) → List UInt8 → Option (ℕ × List UInt8 × List (List UInt8))
  | [], _ => none
  | new :: later, rx =>
      match readDataFifo (rx ++ new) with
      | none => some (0, rx ++ new, later)
      | some (_, rx') => (emptyFifo later rx').map fun r => (r.1 + 1, r.2)

theorem emptyFifo_drop : ∀ (arrivals : List (List UInt8)) (rx : List UInt8)
    {k : ℕ} {rx' : List UInt8} {later : List (List UInt8)},
    emptyFifo arrivals rx = some (k, rx', later) →
      rx' ++ later.flatten = (rx ++ arrivals.flatten).drop k := by
  intro arrivals
  induction arrivals with
  | nil => intro rx k rx' later h; cases h
  | cons new arrivals ih =>
    intro rx k rx' later h
    rw [emptyFifo] at h
    cases hrx : rx ++ new with
    | nil =>
      rw [hrx, readDataFifo] at h
      cases h
      rw [List.flatten_cons, ← List.append_assoc, hrx]
      rfl
    | cons c rest =>
      rw [hrx, readDataFifo] at h
      obtain ⟨⟨k₁, rx₁, later₁⟩, hr, hk⟩ := Option.map_eq_some_iff.mp h
      cases hk
      rw [ih rest hr, List.flatten_cons, ← List.append_assoc, hrx, List.cons_append,
        List.drop_succ_cons]

/-- **A start in the middle of a frame need not find the next one.**  One packet of three bytes is
stored and `empty_fifo` takes the two bytes of its length.  The loop reads the packet's first two bytes
as a length and sends its last byte as a datagram, which is none of the packets. -/
theorem drained_start_not_resynchronised :
    ∃ (packets arrivals : List (List UInt8)) (k : ℕ) (rx : List UInt8) (later : List (List UInt8)),
      (∀ p ∈ packets, 1 ≤ p.length ∧ p.length ≤ maxPacketSize) ∧
      arrivals.flatten = stream .little packets ∧
      emptyFifo arrivals [] = some (k, rx, later) ∧
      (runFrom (videoStep .little) (.start fun _ => 0) (rx ++ later.flatten)).map VideoLoop.sent
        = some [[7]] ∧
      [7] ∉ packets :=
  ⟨[[1, 0, 7]], [[3, 0], [], [], [1, 0, 7]], 2, [], [[1, 0, 7]], by decide, rfl, rfl,
    by decide +kernel, by decide⟩

/-- **The decoder after a drain.**  Let `empty_fifo` have taken any number `k` of bytes, and the loop
have consumed `x` of the rest.  Each datagram it has sent stands in `x` behind its own length.  If the
loop is at its head and the `k + x.length` bytes gone end a frame, as they do from the start when `k`
bytes end a frame, it sends the packets from there on, each once and in order. -/
theorem decoder_after_drain (o : ByteOrder) (packets : List (List UInt8))
    (hps : ∀ p ∈ packets, 1 ≤ p.length ∧ p.length ≤ maxPacketSize) (arrivals : List (List UInt8))
    (hstream : arrivals.flatten = stream o packets) (k : ℕ) (rx : List UInt8)
    (later : List (List UInt8)) (hdrain : emptyFifo arrivals [] = some (k, rx, later))
    (mem : ℕ → UInt8) (x y : List UInt8) (hxy : x ++ y = rx ++ later.flatten) :
    ∃ st, runFrom (videoStep o) (.start mem) x = some st ∧
      (∀ d ∈ st.sent, d.length ≤ maxPacketSize ∧ frameBytes o d <:+: x) ∧
      ∀ j, k + x.length = (stream o (packets.take j)).length → st.pos = .len0 →
        ∀ y', y' <+: y → SendsPackets o st (packets.drop j) y' := by
  obtain ⟨st, items, tail, hrun, hok, hold, hsplit, hsent⟩ :=
    videoRun_splits o x (start_ok mem) (.head rfl rfl)
  refine ⟨st, hrun, ?_, ?_⟩
  · intro d hd
    rw [hsent] at hd
    have hmem : Item.frame d ∈ items := mem_datagrams hd
    refine ⟨hsplit.valid _ hmem, ?_⟩
    obtain ⟨before, after, rfl⟩ := List.append_of_mem hmem
    refine ⟨before.flatMap (Item.bytes o), after.flatMap (Item.bytes o) ++ tail, ?_⟩
    have heq := hsplit.eq
    rw [List.nil_append, List.flatMap_append, List.flatMap_cons] at heq
    rw [heq, Item.bytes]
    simp only [List.append_assoc]
  · rintro j hj hpos y' ⟨z, rfl⟩
    rw [emptyFifo_drop arrivals [] hdrain, List.nil_append, hstream] at hxy
    have hcut : y' ++ z = stream o (packets.drop j) := by
      have happ : stream o packets = stream o (packets.take j) ++ stream o (packets.drop j) := by
        rw [stream, stream, stream, ← List.flatMap_append, List.take_append_drop]
      have hdrop := congrArg (List.drop x.length) hxy
      rw [List.drop_left, List.drop_drop, hj, happ, List.drop_left] at hdrop
      exact hdrop
    exact videoRun_in_step o hok (hold.eq_nil hpos ▸ hold)
      (fun p hp => (hps p (List.mem_of_mem_drop hp)).2) hcut

/-- A drain that ends with the first of three frames: the loop has read the second and sends the third. -/
theorem decoder_after_drain_second_packet :
    ∃ st, runFrom (videoStep .little) (.start fun _ => 0) [1, 0, 8] = some st ∧
      (∀ d ∈ st.sent, d.length ≤ maxPacketSize ∧ frameBytes .little d <:+: [1, 0, 8]) ∧
      ∀ j, 3 + 3 = (stream .little ([[7], [8], [9]].take j)).length → st.pos = .len0 →
        ∀ y', y' <+: [1, 0, 9] → SendsPackets .little st ([[7], [8], [9]].drop j) y' :=
  decoder_after_drain .little [[7], [8], [9]] (by decide)
    [[1, 0, 7], [], [], [], [1, 0, 8, 1, 0, 9]] rfl 3 [] [[1, 0, 8, 1, 0, 9]] rfl (fun _ => 0)
    [1, 0, 8] [1, 0, 9] rfl

end LinkManagement.VideoSendLoop
