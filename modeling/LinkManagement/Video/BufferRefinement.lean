import LinkManagement.Lib.BoundedQueue
import LinkManagement.Video.Buffer

/-!
# The circular buffer refines a bounded queue

`toQueue` reads the stored bytes off a buffer, from `head`, `tail` and `full` alone.  A run of the
buffer is a list of `send_data_buffer` and `read_data_buffer` calls; `Allowed` is what their callers
have to check: a write is not empty and fits into the free space that `get_space` reports, a read is
made only when `buffer_is_empty` is false.

`bufStep_simulates` is the step: an allowed call has defined behaviour and does to the bytes what the
queue's operation does.  `circularBuf_refines_queue` is the run: any number of calls, wraps and exact
fills.
-/

namespace LinkManagement.BufferRefinement

open LinkManagement.Transition LinkManagement.Queue LinkManagement.CyclicArray
open LinkManagement.MachineInt LinkManagement.Buffer

/-! ### The abstraction function -/

def storedCount (buf : CircularBuf) : ℕ :=
  if buf.full then buf.max else (buf.head + buf.max - buf.tail) % buf.max

/-- The stored bytes, oldest first, as a bounded queue. -/
def toQueue (max : ℕ) (buf : CircularBuf) : BoundedQueue UInt8 max :=
  ⟨(window buf.buffer buf.tail (storedCount buf)).take max, by simp⟩

theorem storedCount_eq {buf : CircularBuf} {q : List UInt8} (h : Represents buf q) :
    storedCount buf = q.length := by
  have hhead := h.head_lt
  have htail := h.tail_lt
  have hlen := h.length_le
  have hmod := h.head_eq
  rw [mod_of_lt_two_mul (show buf.tail + q.length < 2 * buf.max by omega)] at hmod
  unfold storedCount
  by_cases hfull : buf.full = true
  · rw [if_pos hfull, h.full_iff.mp hfull]
  · have hnot : q.length ≠ buf.max := fun he => hfull (h.full_iff.mpr he)
    rw [if_neg hfull, mod_of_lt_two_mul (show buf.head + buf.max - buf.tail < 2 * buf.max by omega)]
    split at hmod <;> split <;> omega

theorem toQueue_items {buf : CircularBuf} {q : List UInt8} {max : ℕ} (h : Represents buf q)
    (hmax : buf.max = max) : (toQueue max buf).items = q := by
  show (window buf.buffer buf.tail (storedCount buf)).take max = q
  rw [storedCount_eq h, h.stored, List.take_of_length_le (hmax ▸ h.length_le)]

/-! ### Runs of the buffer -/

inductive BufOp where
  | send (data : List UInt8)
  | read

structure BufRun where
  buf : CircularBuf
  sent : List UInt8
  got : List UInt8
  deriving DecidableEq

def BufRun.start (max : ℕ) (heap : ℕ → UInt8) : BufRun := ⟨initBuffer max heap, [], []⟩

def bufStep (z : SizeT) (s : BufRun) : BufOp → Option BufRun
  | .send data =>
      (sendDataBuffer z data s.buf).map fun b => { s with buf := b, sent := s.sent ++ data }
  | .read =>
      (readDataBuffer z s.buf).map fun p => { s with buf := p.2, got := s.got ++ [p.1] }

/-- What the callers check before a call. -/
def Allowed (z : SizeT) (s : BufRun) : BufOp → Prop
  | .send data => 1 ≤ data.length ∧ (data.length : ℤ) ≤ getSpace z s.buf
  | .read => bufferIsEmpty z s.buf = false

instance (z : SizeT) (s : BufRun) : (op : BufOp) → Decidable (Allowed z s op)
  | .send _ => inferInstanceAs (Decidable (_ ∧ _))
  | .read => inferInstanceAs (Decidable (_ = _))

def toQueueOp : BufOp → QueueOp UInt8
  | .send data => .push data
  | .read => .pop

/-- The buffer stores the bytes of the queue, and the two have the same history. -/
structure Simulates (max : ℕ) (s : BufRun) (r : QueueRun UInt8 max) : Prop where
  represents : Represents s.buf r.queue.items
  max_eq : s.buf.max = max
  sent_eq : s.sent = r.pushed
  got_eq : s.got = r.popped

/-- **Step.**  An allowed call has defined behaviour, and the queue takes the matching step. -/
theorem bufStep_simulates (z : SizeT) {max : ℕ} (hmax : max ≤ intMax) (s : BufRun)
    (r : QueueRun UInt8 max) (o : BufOp) (h : Simulates max s r) (ha : Allowed z s o) :
    ∃ s' r', bufStep z s o = some s' ∧ queueStep r (toQueueOp o) = some r' ∧ Simulates max s' r' := by
  have hle : s.buf.max ≤ intMax := h.max_eq ▸ hmax
  cases o with
  | send data =>
    obtain ⟨hpos, hspace⟩ := ha
    rw [h.represents.getSpace_eq z hle] at hspace
    have hfit : r.queue.items.length + data.length ≤ s.buf.max := by omega
    obtain ⟨b, hcall, hrep, hbmax⟩ := h.represents.sendDataBuffer z hle hpos hfit
    have hcap : (r.queue.items ++ data).length ≤ max := by
      rw [List.length_append]
      exact hfit.trans_eq h.max_eq
    refine ⟨{ s with buf := b, sent := s.sent ++ data },
      { r with queue := ⟨r.queue.items ++ data, hcap⟩, pushed := r.pushed ++ data }, ?_, ?_, ?_⟩
    · simp only [bufStep, hcall, Option.map_some]
    · simp only [toQueueOp, queueStep, BoundedQueue.push, dif_pos hcap, Option.map_some]
    · exact ⟨hrep, hbmax.trans h.max_eq, by simp only [h.sent_eq], h.got_eq⟩
  | read =>
    obtain ⟨⟨items, hitems⟩, pushed, popped⟩ := r
    have hne : items ≠ [] := fun he => by
      have hempty := (h.represents.bufferIsEmpty_iff z hle).mpr he
      rw [show bufferIsEmpty z s.buf = false from ha] at hempty
      cases hempty
    cases items with
    | nil => exact absurd rfl hne
    | cons c q =>
      refine ⟨{ s with buf := s.buf.afterRead, got := s.got ++ [c] },
        ⟨⟨q, Nat.le_of_succ_le hitems⟩, pushed, popped ++ [c]⟩, ?_, ?_, ?_⟩
      · simp only [bufStep, h.represents.readDataBuffer_eq z hle, Option.map_some]
      · rfl
      · exact ⟨h.represents.afterRead.2, h.max_eq, h.sent_eq, by simp only [h.got_eq]⟩

/-- **Run.**  A run of allowed calls has defined behaviour and is a run of the queue. -/
theorem bufRun_simulates (z : SizeT) {max : ℕ} (hpos : 1 ≤ max) (hmax : max ≤ intMax)
    (heap : ℕ → UInt8) {os : List BufOp} (ha : Along (bufStep z) (Allowed z) (.start max heap) os) :
    ∃ s r, runFrom (bufStep z) (.start max heap) os = some s ∧
      runFrom queueStep (QueueRun.start UInt8 max) (os.map toQueueOp) = some r ∧
      Simulates max s r :=
  ha.simulated toQueueOp (bufStep_simulates z hmax)
    ⟨initBuffer_represents max heap hpos, rfl, rfl, rfl⟩

/-- What an abstraction function has to tell of a buffer of capacity `max`: the bounds that keep every
access inside the array, the meaning of `full` and of `get_space`, the history, and the effect of the
two calls where they are allowed.  `send` includes that the recursion ends. -/
structure RefinesAt (z : SizeT) (max : ℕ) (abs : CircularBuf → BoundedQueue UInt8 max)
    (s : BufRun) : Prop where
  cells : s.buf.buffer.length = max
  head_lt : s.buf.head < max
  tail_lt : s.buf.tail < max
  full_iff : s.buf.full = true ↔ (abs s.buf).items.length = max
  space : getSpace z s.buf = (max : ℤ) - (abs s.buf).items.length
  history : s.sent = s.got ++ (abs s.buf).items
  got_prefix : s.got <+: s.sent
  send : ∀ data, Allowed z s (.send data) →
    ∃ buf', (∀ fuel, data.length < fuel → sendDataBufferFuel z fuel data s.buf = some buf') ∧
      (abs buf').items = (abs s.buf).items ++ data
  read : Allowed z s .read →
    ∃ c buf', readDataBuffer z s.buf = some (c, buf') ∧ (abs s.buf).items = c :: (abs buf').items

theorem Simulates.refinesAt (z : SizeT) {max : ℕ} (hmax : max ≤ intMax) {s : BufRun}
    {r : QueueRun UInt8 max} (h : Simulates max s r)
    (hlaw : r.pushed = r.popped ++ r.queue.items) : RefinesAt z max (toQueue max) s := by
  have hle : s.buf.max ≤ intMax := h.max_eq ▸ hmax
  have hitems := toQueue_items h.represents h.max_eq
  have hhist : s.sent = s.got ++ r.queue.items := by rw [h.sent_eq, h.got_eq, hlaw]
  refine {
    cells := h.represents.cells.trans h.max_eq
    head_lt := h.max_eq ▸ h.represents.head_lt
    tail_lt := h.max_eq ▸ h.represents.tail_lt
    full_iff := by rw [hitems, h.represents.full_iff, h.max_eq]
    space := by rw [hitems, h.represents.getSpace_eq z hle, h.max_eq]
    history := by rw [hitems, hhist]
    got_prefix := ⟨_, hhist.symm⟩
    send := ?_
    read := ?_ }
  · intro data ⟨hdata, hspace⟩
    rw [h.represents.getSpace_eq z hle] at hspace
    obtain ⟨b, hb, hrep, hbmax⟩ :=
      h.represents.sendDataBufferFuel z hle hdata (show _ ≤ _ by omega)
    refine ⟨b, fun fuel hf => ?_, by rw [toQueue_items hrep (hbmax.trans h.max_eq), hitems]⟩
    obtain ⟨k, rfl⟩ := Nat.exists_eq_add_of_le' (show 2 ≤ fuel by omega)
    exact hb k
  · intro hread
    cases hq : r.queue.items with
    | nil =>
      have hempty := (h.represents.bufferIsEmpty_iff z hle).mpr hq
      rw [show bufferIsEmpty z s.buf = false from hread] at hempty
      cases hempty
    | cons c q =>
      have hrep : Represents s.buf (c :: q) := hq ▸ h.represents
      exact ⟨c, s.buf.afterRead, hrep.readDataBuffer_eq z hle,
        by rw [hitems, hq, toQueue_items hrep.afterRead.2 h.max_eq]⟩

/-- **The circular buffer refines a bounded queue of bytes.**  Every run of allowed calls from
`init_buffer`, of any length, has defined behaviour (an access outside the array would give `none`), and
in the state it reaches one abstraction function satisfies `RefinesAt`. -/
theorem circularBuf_refines_queue (z : SizeT) (max : ℕ) (heap : ℕ → UInt8) (hpos : 1 ≤ max)
    (hmax : max ≤ intMax) :
    ∃ abs : CircularBuf → BoundedQueue UInt8 max,
      (abs (initBuffer max heap)).items = [] ∧
      ∀ os, Along (bufStep z) (Allowed z) (.start max heap) os →
        ∃ s, runFrom (bufStep z) (.start max heap) os = some s ∧ RefinesAt z max abs s := by
  refine ⟨toQueue max, toQueue_items (initBuffer_represents max heap hpos) rfl, fun os ha => ?_⟩
  obtain ⟨s, r, hs, hr, h⟩ := bufRun_simulates z hpos hmax heap ha
  exact ⟨s, hs, h.refinesAt z hmax (queueRun_conserves hr)⟩

/-- Four bytes of room: the second write wraps around the end of the array and fills it. -/
theorem circularBuf_refines_queue_wraps :
    ∃ (abs : CircularBuf → BoundedQueue UInt8 4) (s : BufRun),
      (s.buf.buffer, s.buf.head, s.buf.tail, s.buf.full, s.got) = ([5, 6, 3, 4], 2, 2, true, [1, 2]) ∧
      RefinesAt ⟨64, by decide⟩ 4 abs s := by
  let calls : List BufOp := [.send [1, 2, 3], .read, .read, .send [4, 5, 6]]
  have hstate : (runFrom (bufStep ⟨64, by decide⟩) (.start 4 fun _ => 0) calls).map
      (fun s => (s.buf.buffer, s.buf.head, s.buf.tail, s.buf.full, s.got)) =
      some ([5, 6, 3, 4], 2, 2, true, [1, 2]) := by decide +kernel
  obtain ⟨abs, -, hruns⟩ :=
    circularBuf_refines_queue ⟨64, by decide⟩ 4 (fun _ => 0) (by decide) (by decide)
  obtain ⟨s, hrun, href⟩ := hruns calls (by decide +kernel)
  rw [hrun, Option.map_some, Option.some.injEq] at hstate
  exact ⟨abs, s, hstate, href⟩

end LinkManagement.BufferRefinement
