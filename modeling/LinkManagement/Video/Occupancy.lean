import LinkManagement.Video.WriteBytes

/-!
# The occupancy arithmetic on machine words

`get_space`, `fill_level` and `buffer_is_empty` of `VideoServer/src/buffer.c` mix `size_t` words that
wrap around with `int`s that are narrowed from them.  The number of stored bytes is counted here without
any of that arithmetic, from the bytes sent and the bytes read.  `Fits` is what the callers keep to: a
write is not empty and there is room for it, a read is made only of a buffer that is not empty.

`nestedCall_exact` follows `send_data_buffer` through its recursion; `occupancy_exact` is the run: in
every state reached each of the functions gives the exact number, and nothing wraps on the way.
-/

namespace LinkManagement.Occupancy

open LinkManagement.Transition LinkManagement.Queue LinkManagement.MachineInt
open LinkManagement.Buffer LinkManagement.BufferRefinement LinkManagement.WriteBytes

/-- The number of stored bytes: those sent and not yet read. -/
def unread (s : BufRun) : ℕ := s.sent.length - s.got.length

/-- A write of 1 to as many bytes as there is room for, or a guarded read. -/
def Fits (z : SizeT) (max : ℕ) (s : BufRun) : BufOp → Prop
  | .send data => 1 ≤ data.length ∧ data.length ≤ max - unread s
  | .read => bufferIsEmpty z s.buf = false

instance (z : SizeT) (max : ℕ) (s : BufRun) : (o : BufOp) → Decidable (Fits z max s o)
  | .send _ => inferInstanceAs (Decidable (_ ∧ _))
  | .read => inferInstanceAs (Decidable (_ = _))

/-! ### The calls inside a call -/

/-- In the call of `send_data_buffer` with `data` on `buf`, the call with `d` on `b` is made: it is the
call itself, or made by the one for the first or the second part. -/
inductive NestedCall (z : SizeT) : List UInt8 → CircularBuf → List UInt8 → CircularBuf → Prop
  | self (data : List UInt8) (buf : CircularBuf) : NestedCall z data buf data buf
  | first {data d : List UInt8} {buf b : CircularBuf} {parts : List UInt8 × List UInt8}
      (hover : z.add data.length buf.head > buf.max) (hparts : splitParts z data buf = some parts)
      (h : NestedCall z parts.1 buf d b) : NestedCall z data buf d b
  | second {data d : List UInt8} {buf buf₁ b : CircularBuf} {parts : List UInt8 × List UInt8}
      (hover : z.add data.length buf.head > buf.max) (hparts : splitParts z data buf = some parts)
      (hcall : sendDataBuffer z parts.1 buf = some buf₁)
      (h : NestedCall z parts.2 buf₁ d b) : NestedCall z data buf d b

/-- The word arithmetic of one call is exact: both sums of the length and `head`, and the `int` that the
room to the end of the array is converted to. -/
structure CallExact (z : SizeT) (data : List UInt8) (buf : CircularBuf) : Prop where
  test : z.add data.length buf.head = data.length + buf.head
  advance : z.add buf.head data.length = buf.head + data.length
  split : narrow (z.sub buf.max buf.head) = (buf.max : ℤ) - buf.head

theorem callExact {buf : CircularBuf} {data : List UInt8} (z : SizeT) (h : WellFormed buf)
    (hmax : buf.max ≤ intMax) (hlen : data.length ≤ intMax) : CallExact z data buf := by
  have hm : buf.max ≤ 2 ^ 31 - 1 := hmax
  have hl : data.length ≤ 2 ^ 31 - 1 := hlen
  have hhead := h.head_lt
  exact {
    test := z.add_eq (by omega)
    advance := z.add_eq (by omega)
    split := by
      rw [z.sub_eq (by omega) (by omega), narrow_eq (by omega) (by omega)]
      omega }

/-- **Every call inside a call is exact.** -/
theorem nestedCall_exact {z : SizeT} {data d : List UInt8} {buf b : CircularBuf}
    (hcall : NestedCall z data buf d b) (h : WellFormed buf) (hmax : buf.max ≤ intMax)
    (hlen : data.length ≤ intMax) : CallExact z d b := by
  induction hcall with
  | self data buf => exact callExact z h hmax hlen
  | @first data d buf b parts _ hparts _ ih =>
    have hdata := congrArg List.length (splitParts_append hparts)
    rw [List.length_append] at hdata
    exact ih h hmax (by omega)
  | @second data d buf buf₁ b parts _ hparts hfirst _ ih =>
    have hdata := congrArg List.length (splitParts_append hparts)
    rw [List.length_append] at hdata
    rw [sendDataBuffer_eq z h hmax (by omega)] at hfirst
    cases hfirst
    apply ih (h.call _)
    · rw [afterCall_max]
      exact hmax
    · omega

/-! ### One state -/

structure SpaceExact (z : SizeT) (buf : CircularBuf) : Prop where
  sum : z.add buf.head buf.max = buf.head + buf.max
  wrapped : buf.head < buf.tail → z.sub (z.add buf.head buf.max) buf.tail = buf.head + buf.max - buf.tail ∧
    z.sub buf.max (z.sub (z.add buf.head buf.max) buf.tail) = buf.tail - buf.head
  straight : buf.tail ≤ buf.head → z.sub buf.head buf.tail = buf.head - buf.tail ∧
    z.sub buf.max (z.sub buf.head buf.tail) = buf.max - (buf.head - buf.tail)

/-- What is exact in a state of a buffer of capacity `max`. -/
structure OccupancyExact (z : SizeT) (max : ℕ) (s : BufRun) : Prop where
  capacity : s.buf.max = max
  stored : s.sent = s.got ++ storedBytes s.buf
  getSpace_eq : getSpace z s.buf = (max : ℤ) - unread s
  getSpace_range : 0 ≤ getSpace z s.buf ∧ getSpace z s.buf ≤ max
  fillLevel_eq : fillLevel z s.buf = unread s
  isEmpty_iff : bufferIsEmpty z s.buf = true ↔ unread s = 0
  conversion : (z.ofInt (getSpace z s.buf) : ℤ) = getSpace z s.buf
  space : SpaceExact z s.buf
  calls : ∀ data, data.length ≤ max - unread s → ∀ d b, NestedCall z data s.buf d b → CallExact z d b

theorem spaceExact {buf : CircularBuf} (z : SizeT) (h : WellFormed buf) (hmax : buf.max ≤ intMax) :
    SpaceExact z buf := by
  have hm : buf.max ≤ 2 ^ 31 - 1 := hmax
  have hhead := h.head_lt
  have htail := h.tail_lt
  have hsum : z.add buf.head buf.max = buf.head + buf.max := z.add_eq (by omega)
  refine ⟨hsum, fun hlt => ?_, fun hle => ?_⟩
  · have hused : z.sub (buf.head + buf.max) buf.tail = buf.head + buf.max - buf.tail :=
      z.sub_eq (by omega) (by omega)
    rw [hsum, hused, z.sub_eq (by omega) (by omega)]
    omega
  · have hused : z.sub buf.head buf.tail = buf.head - buf.tail := z.sub_eq hle (by omega)
    rw [hused, z.sub_eq (by omega) (by omega)]
    exact ⟨rfl, rfl⟩

theorem fillLevel_eq {buf : CircularBuf} {q : List UInt8} (h : Represents buf q) (z : SizeT)
    (hmax : buf.max ≤ intMax) : fillLevel z buf = q.length := by
  have hm : buf.max ≤ 2 ^ 31 - 1 := hmax
  have hlen := h.length_le
  have hspace : getSpace z buf = ((buf.max - q.length : ℕ) : ℤ) := by
    rw [h.getSpace_eq z hmax]
    omega
  rw [fillLevel, hspace, z.ofInt_natCast (by omega), z.sub_eq (by omega) (by omega),
    narrow_eq (by omega) (by omega)]
  omega

theorem occupancyExact_of_represents {s : BufRun} {q : List UInt8} {max : ℕ} (z : SizeT)
    (h : Represents s.buf q) (hcap : s.buf.max = max) (hmax : max ≤ intMax)
    (hstored : s.sent = s.got ++ q) : OccupancyExact z max s := by
  have hle : s.buf.max ≤ intMax := hcap ▸ hmax
  have hm : max ≤ 2 ^ 31 - 1 := hmax
  have hlen := h.length_le
  have hunread : unread s = q.length := by
    rw [unread, hstored, List.length_append, Nat.add_sub_cancel_left]
  have hspace : getSpace z s.buf = (max : ℤ) - q.length := by
    rw [h.getSpace_eq z hle, hcap]
  rw [hcap] at hlen
  exact {
    capacity := hcap
    stored := by rw [storedBytes_eq h, hstored]
    getSpace_eq := by rw [hspace, hunread]
    getSpace_range := by
      rw [hspace]
      omega
    fillLevel_eq := by rw [fillLevel_eq h z hle, hunread]
    isEmpty_iff := by rw [h.bufferIsEmpty_iff z hle, hunread, List.length_eq_zero_iff]
    conversion := by
      have hnat : getSpace z s.buf = ((max - q.length : ℕ) : ℤ) := by
        rw [hspace]
        omega
      rw [hnat, z.ofInt_natCast (by omega)]
    space := spaceExact z (wellFormed_of_represents h) hle
    calls := fun data hdata d b hcall =>
      nestedCall_exact hcall (wellFormed_of_represents h) hle
        (hdata.trans ((Nat.sub_le _ _).trans hmax)) }

/-! ### Runs -/

/-- **The occupancy arithmetic is exact** in every state that calls which fit reach from `init_buffer`,
with `size_t` of any width from that of `int` on. -/
theorem occupancy_exact (z : SizeT) (max : ℕ) (heap : ℕ → UInt8) (hpos : 1 ≤ max)
    (hmax : max ≤ intMax) (os : List BufOp) (s : BufRun)
    (hfits : Along (bufStep z) (Fits z max) (.start max heap) os)
    (hrun : runFrom (bufStep z) (.start max heap) os = some s) : OccupancyExact z max s := by
  -- the queue the buffer simulates has the law that counts the stored bytes
  have hstep : ∀ (s : BufRun) (r : QueueRun UInt8 max) (o : BufOp),
      (Simulates max s r ∧ r.pushed = r.popped ++ r.queue.items) → Fits z max s o →
      ∃ s' r', bufStep z s o = some s' ∧ queueStep r (toQueueOp o) = some r' ∧
        (Simulates max s' r' ∧ r'.pushed = r'.popped ++ r'.queue.items) := by
    intro s r o ⟨hsim, hlaw⟩ hfit
    have hstored : s.sent = s.got ++ r.queue.items := by
      rw [hsim.sent_eq, hsim.got_eq, hlaw]
    have hexact := occupancyExact_of_represents z hsim.represents hsim.max_eq hmax hstored
    have hallowed : Allowed z s o := by
      cases o with
      | send data =>
        refine ⟨hfit.1, ?_⟩
        have hroom : data.length ≤ max - unread s := hfit.2
        have hpos := hfit.1
        rw [hexact.getSpace_eq]
        omega
      | read => exact hfit
    obtain ⟨s', r', hs', hr', hsim'⟩ := bufStep_simulates z hmax s r o hsim hallowed
    exact ⟨s', r', hs', hr', hsim', queueStep_conserves hlaw hr'⟩
  have hinit : Simulates max (.start max heap) (QueueRun.start UInt8 max) :=
    ⟨initBuffer_represents max heap hpos, rfl, rfl, rfl⟩
  obtain ⟨s', r, hs', -, hsim, hlaw⟩ := hfits.simulated toQueueOp hstep ⟨hinit, rfl⟩
  obtain rfl : s = s' := Option.some.inj (hrun.symm.trans hs')
  exact occupancyExact_of_represents z hsim.represents hsim.max_eq hmax
    (by rw [hsim.sent_eq, hsim.got_eq, hlaw])

/-- A buffer of three cells with 32-bit words: filled to the last cell, read once, and written round the
end of the array. -/
theorem occupancy_exact_wrapped :
    OccupancyExact ⟨32, by decide⟩ 3 ⟨⟨[4, 2, 3], 1, 1, 3, true⟩, [1, 2, 3, 4], [1]⟩ :=
  occupancy_exact ⟨32, by decide⟩ 3 (fun _ => 0) (by decide) (by decide)
    [.send [1, 2, 3], .read, .send [4]] _ (by decide +kernel) (by decide +kernel)

end LinkManagement.Occupancy
