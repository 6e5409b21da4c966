import LinkManagement.Lib.Transition
import LinkManagement.Video.Buffer
import LinkManagement.Video.Connection

/-!
# The buffer between the two threads of the server

The main thread of `VideoServer/src/server.c` stores packets with `send_packet_buffer`, and
`fifo_write_thread` takes bytes out, with no lock between them.  Here each load and each store of
`head`, `tail`, `full` and the cells is a step of its own, and a step of either thread may come next;
the memory is sequentially consistent.  `max` never changes, so its loads are not steps.

`published` records the bytes that a store of `head` has made readable, `popped` the bytes whose store
of `tail` is done, `handed` the bytes given to `write_fifo_blocking`.

* `late_flag_pops_garbage` — the writer drains the buffer after the main thread has stored `head` and
  before it loads `tail` for `full`: the empty buffer is marked full, and the writer pops on;
* `SharedInv`, `mainStep_inv`, `writerStep_inv` — the invariant of the runs in which that load never
  finds the buffer drained, and that each step of each thread keeps it;
* `writer_safe_unless_drained` — in those runs the writer never pops more than was published.
-/

namespace LinkManagement.SharedBuffer

open LinkManagement.Transition LinkManagement.MachineInt LinkManagement.CyclicArray
open LinkManagement.Buffer LinkManagement.Connection

/-! ### The threads -/

/-- Where a thread is inside `get_space`, with what it has loaded: `wrapped` is the outcome of the test
`buf->head < buf->tail`, after which the returned expression loads both once more. -/
inductive SpacePc where
  | loadFull
  | loadHead
  | loadTail (h : ℕ)
  | reloadHead (wrapped : Bool)
  | reloadTail (wrapped : Bool) (h : ℕ)
  deriving DecidableEq

/-- One load of `get_space`: the next place in it, or the returned `int`. -/
def spaceNext (z : SizeT) (mem : CircularBuf) : SpacePc → SpacePc ⊕ ℤ
  | .loadFull => if mem.full then .inr 0 else .inl .loadHead
  | .loadHead => .inl (.loadTail mem.head)
  | .loadTail h => .inl (.reloadHead (decide (h < mem.tail)))
  | .reloadHead wrapped => .inl (.reloadTail wrapped mem.head)
  | .reloadTail wrapped h => .inr (spaceExpr z mem.max wrapped h mem.tail)

/-- Where the main thread is: waiting for a packet, in the room check of `send_packet_buffer`, or in a
call of `send_data_buffer` with the data it was given.  The three last places compute `full`. -/
inductive MainPc where
  | idle
  | checking (data : List UInt8) (p : SpacePc)
  | test (data : List UInt8)
  | split (data : List UInt8)
  | copyAt (data : List UInt8)
  | copy (data : List UInt8) (h : ℕ)
  | advanceAt (data : List UInt8)
  | advance (data : List UInt8) (h : ℕ)
  | fullHead
  | fullTail (h : ℕ)
  | fullStore (full : Bool)
  deriving DecidableEq

/-- Where `fifo_write_thread` is: in `buffer_is_empty`, in `read_data_buffer` up to its store of `tail`,
at its store of `full`, or before `write_fifo_blocking`. -/
inductive WriterPc where
  | checking (p : SpacePc)
  | cellAt
  | cell (t : ℕ)
  | tailAt (c : UInt8)
  | tailStore (c : UInt8) (t : ℕ)
  | fullStore (c : UInt8)
  | hand (c : UInt8)
  deriving DecidableEq

/-- The shared buffer, the places of the two threads, and the calls of `send_data_buffer` that the main
thread has still to make. -/
structure Shared where
  mem : CircularBuf
  main : MainPc
  calls : List (List UInt8)
  writer : WriterPc
  published : List UInt8
  popped : List UInt8
  handed : List UInt8
  deriving DecidableEq

def Shared.start (max : ℕ) (heap : ℕ → UInt8) : Shared :=
  ⟨initBuffer max heap, .idle, [], .checking .loadFull, [], [], []⟩

/-- One load or store of the main thread inside `send_packet_buffer`. -/
def mainStep (z : SizeT) (o : ByteOrder) (s : Shared) : Option Shared :=
  match s.main with
  | .idle => none
  | .checking data p =>
      match spaceNext z s.mem p with
      | .inl p' => some { s with main := .checking data p' }
      | .inr bufferSpace =>
          if bufferSpace > data.length + 2 then
            some { s with main := .test (shortBytes o data.length), calls := [data] }
          else some { s with main := .idle }
  | .test data =>
      if z.add data.length s.mem.head > s.mem.max then some { s with main := .split data }
      else some { s with main := .copyAt data }
  | .split data =>
      (splitParts z data s.mem).map fun parts =>
        { s with main := .test parts.1, calls := parts.2 :: s.calls }
  | .copyAt data => some { s with main := .copy data s.mem.head }
  | .copy data h =>
      (memcpy s.mem.buffer h data).map fun cells =>
        { s with mem := { s.mem with buffer := cells }, main := .advanceAt data }
  | .advanceAt data => some { s with main := .advance data s.mem.head }
  | .advance data h =>
      some { s with
        mem := { s.mem with head := z.add h data.length % s.mem.max }
        main := .fullHead
        published := s.published ++ data }
  | .fullHead => some { s with main := .fullTail s.mem.head }
  | .fullTail h => some { s with main := .fullStore (h == s.mem.tail) }
  | .fullStore full =>
      let s := { s with mem := { s.mem with full := full } }
      match s.calls with
      | [] => some { s with main := .idle }
      | data :: rest => some { s with main := .test data, calls := rest }

/-- One load or store of `fifo_write_thread`; the FIFO takes the byte whenever the thread gets there. -/
def writerStep (z : SizeT) (s : Shared) : Option Shared :=
  match s.writer with
  | .checking p =>
      match spaceNext z s.mem p with
      | .inl p' => some { s with writer := .checking p' }
      | .inr space =>
          if z.ofInt space = s.mem.max then some { s with writer := .checking .loadFull }
          else some { s with writer := .cellAt }
  | .cellAt => some { s with writer := .cell s.mem.tail }
  | .cell t => s.mem.buffer[t]?.map fun c => { s with writer := .tailAt c }
  | .tailAt c => some { s with writer := .tailStore c s.mem.tail }
  | .tailStore c t =>
      some { s with
        mem := { s.mem with tail := z.add t 1 % s.mem.max }
        writer := .fullStore c
        popped := s.popped ++ [c] }
  | .fullStore c => some { s with mem := { s.mem with full := false }, writer := .hand c }
  | .hand c => some { s with writer := .checking .loadFull, handed := s.handed ++ [c] }

/-- What happens next: `recv_video` has received a packet, or a thread takes a step. -/
inductive Act where
  | packet (data : List UInt8)
  | main
  | writer
  deriving DecidableEq

/-- One step of the two threads.  `recv_video` skips a length of 0, and its array holds
`MAX_PACKET_SIZE` bytes. -/
def sharedStep (z : SizeT) (o : ByteOrder) (s : Shared) : Act → Option Shared
  | .packet data =>
      if s.main = .idle ∧ 1 ≤ data.length ∧ data.length ≤ maxPacketSize then
        some { s with main := .checking data .loadFull }
      else none
  | .main => mainStep z o s
  | .writer => writerStep z s

/-! ### What the sharing should guarantee -/

def WriterPc.popping : WriterPc → Bool
  | .cellAt | .cell _ | .tailAt _ | .tailStore _ _ => true
  | .checking _ | .fullStore _ | .hand _ => false

def Shared.AtRest (s : Shared) : Prop := s.main = .idle ∧ s.writer = .checking .loadFull

/-- The writer pops only published bytes, `full` at rest means a full buffer, and what was handed to
the FIFO is a prefix of what was stored. -/
structure Safe (s : Shared) : Prop where
  pops : s.writer.popping = true → s.popped.length < s.published.length
  full : s.AtRest → s.mem.full = true → s.popped.length + s.mem.max = s.published.length
  handed : s.handed <+: s.published

def MainPc.loadsTailForFull : MainPc → Bool
  | .fullTail _ => true
  | _ => false

/-- The main thread's load of `tail` for `full` does not find the buffer drained: `tail` has not caught
up with `head`. -/
def NotDrained (s : Shared) (a : Act) : Prop :=
  a = .main → s.main.loadsTailForFull = true → s.mem.tail ≠ s.mem.head

instance (s : Shared) (a : Act) : Decidable (NotDrained s a) :=
  inferInstanceAs (Decidable (_ → _))

/-! ### The window in which the flag goes wrong -/

/-- One byte of payload is stored behind its header; before `full` is computed for it, the writer takes
all three bytes. -/
def lateFlag : List Act :=
  .packet [1] :: List.replicate 18 .main ++ List.replicate 33 .writer ++ List.replicate 3 .main

/-- The next pass of the writer: one load in `get_space`, then a read and the hand-over. -/
def onePass : List Act := List.replicate 7 .writer

/-- **A drained buffer is marked full.**  At rest `full` is 1 with nothing unread, so `get_space` is 0
and `buffer_is_empty` false; the writer then hands the FIFO a byte that was never stored. -/
theorem late_flag_pops_garbage :
    ∃ s s', runFrom (sharedStep ⟨64, by decide⟩ .little) (.start 8 fun _ => 0) lateFlag = some s ∧
      s.AtRest ∧ s.mem.full = true ∧ s.popped.length = s.published.length ∧
      runFrom (sharedStep ⟨64, by decide⟩ .little) s onePass = some s' ∧
      s'.published.length < s'.popped.length ∧ ¬ s'.handed <+: s'.published := by
  refine ⟨⟨⟨[1, 0, 1, 0, 0, 0, 0, 0], 3, 3, 8, true⟩, .idle, [], .checking .loadFull, [1, 0, 1],
      [1, 0, 1], [1, 0, 1]⟩,
    ⟨⟨[1, 0, 1, 0, 0, 0, 0, 0], 3, 4, 8, false⟩, .idle, [], .checking .loadFull, [1, 0, 1],
      [1, 0, 1, 0], [1, 0, 1, 0]⟩,
    by decide +kernel, ⟨rfl, rfl⟩, rfl, rfl, by decide +kernel, by decide, by decide⟩

/-! ### The invariant -/

/-- In the main thread's room check `head` is still; `tail` can pass the end of the array, and the
check only relies on a `tail` that was behind `head` staying there. -/
def MainSpaceOk (mem : CircularBuf) : SpacePc → Prop
  | .loadFull | .loadHead => True
  | .loadTail h => h = mem.head
  | .reloadHead wrapped => wrapped = false → mem.tail ≤ mem.head
  | .reloadTail wrapped h => h = mem.head ∧ (wrapped = false → mem.tail ≤ mem.head)

/-- In the writer's check `tail` is still, and what it has seen of `head` shows unread bytes whenever it
will find the buffer not empty. -/
def WriterSpaceOk (mem : CircularBuf) (q : List UInt8) : SpacePc → Prop
  | .loadFull | .loadHead => True
  | .loadTail h => h < mem.tail → q ≠ []
  | .reloadHead wrapped => wrapped = true → q ≠ []
  | .reloadTail wrapped h => (wrapped = true → q ≠ []) ∧ (h ≠ mem.tail → q ≠ [])

/-- The bytes of the call of `send_data_buffer` under way that `head` does not cover yet. -/
def MainPc.holding : MainPc → List UInt8
  | .test data | .split data | .copyAt data | .copy data _ | .advanceAt data | .advance data _ => data
  | .idle | .checking _ _ | .fullHead | .fullTail _ | .fullStore _ => []

/-- The byte in `readData` whose pop is done and whose hand-over is not. -/
def WriterPc.holding : WriterPc → List UInt8
  | .fullStore c | .hand c => [c]
  | .checking _ | .cellAt | .cell _ | .tailAt _ | .tailStore _ _ => []

/-- What the main thread's registers and its last test say of the buffer. -/
def MainOk (mem : CircularBuf) : MainPc → Prop
  | .idle | .test _ | .fullHead => True
  | .checking _ p => MainSpaceOk mem p
  | .split data => mem.max < data.length + mem.head
  | .copyAt data => mem.head + data.length ≤ mem.max
  | .copy data h => h = mem.head ∧ mem.head + data.length ≤ mem.max
  | .advanceAt data => window mem.buffer mem.head data.length = data
  | .advance data h => h = mem.head ∧ window mem.buffer mem.head data.length = data
  | .fullTail h => h = mem.head
  | .fullStore full => full = false

/-- What the writer's registers and its last test say of the buffer. -/
def WriterOk (mem : CircularBuf) (q : List UInt8) : WriterPc → Prop
  | .checking p => WriterSpaceOk mem q p
  | .cellAt => q ≠ []
  | .cell t => t = mem.tail ∧ q ≠ []
  | .tailAt c => q.head? = some c
  | .tailStore c t => t = mem.tail ∧ q.head? = some c
  | .fullStore _ | .hand _ => True

/-- The invariant: the buffer stores the published bytes that are not popped, and there is room below
`max` for everything the main thread has still to publish. -/
structure SharedInv (s : Shared) (q : List UInt8) : Prop where
  size : s.mem.max ≤ intMax
  represents : Represents s.mem q
  published : s.published = s.popped ++ q
  popped : s.popped = s.handed ++ s.writer.holding
  room : q.length + (s.main.holding ++ s.calls.flatten).length < s.mem.max
  main : MainOk s.mem s.main
  writer : WriterOk s.mem q s.writer

theorem SharedInv.length_lt {s : Shared} {q : List UInt8} (h : SharedInv s q) :
    q.length < s.mem.max := by
  have hroom := h.room
  omega

theorem start_sharedInv {max : ℕ} (heap : ℕ → UInt8) (hpos : 1 ≤ max) (hmax : max ≤ intMax) :
    SharedInv (.start max heap) [] where
  size := hmax
  represents := initBuffer_represents max heap hpos
  published := rfl
  popped := rfl
  room := hpos
  main := trivial
  writer := trivial

/-- What the writer knows survives a step of the main thread, which adds bytes and leaves `tail`. -/
theorem WriterOk.append {mem mem' : CircularBuf} {q : List UInt8} {w : WriterPc}
    (h : WriterOk mem q w) (htail : mem'.tail = mem.tail) (d : List UInt8) :
    WriterOk mem' (q ++ d) w := by
  have hne : q ≠ [] → q ++ d ≠ [] := fun hq hnil => hq (List.append_eq_nil_iff.mp hnil).1
  have hhead : ∀ c, q.head? = some c → (q ++ d).head? = some c := fun c hc => by
    rw [List.head?_append, hc]
    rfl
  cases w with
  | checking p =>
    cases p with
    | loadFull => trivial
    | loadHead => trivial
    | loadTail h' => exact fun hlt => hne (h (htail ▸ hlt))
    | reloadHead wrapped => exact fun hw => hne (h hw)
    | reloadTail wrapped h' => exact ⟨fun hw => hne (h.1 hw), fun hh => hne (h.2 (htail ▸ hh))⟩
  | cellAt => exact hne h
  | cell t => exact ⟨h.1.trans htail.symm, hne h.2⟩
  | tailAt c => exact hhead c h
  | tailStore c t => exact ⟨h.1.trans htail.symm, hhead c h.2⟩
  | fullStore c => trivial
  | hand c => trivial

/-- What the main thread knows survives a pop: `tail` does not pass `head`. -/
theorem MainOk.pop {mem : CircularBuf} {c : UInt8} {q : List UInt8} {m : MainPc}
    (hm : MainOk mem m) (h : Represents mem (c :: q)) (hlt : (c :: q).length < mem.max) :
    MainOk { mem with tail := (mem.tail + 1) % mem.max } m := by
  have hbehind : mem.tail ≤ mem.head → (mem.tail + 1) % mem.max ≤ mem.head := fun hle => by
    have hmod := h.head_eq
    have htail := h.tail_lt
    rw [List.length_cons] at hlt hmod
    rw [mod_of_lt_two_mul (by omega)] at hmod ⊢
    split_ifs at hmod ⊢ <;> omega
  cases m with
  | checking data p =>
    cases p with
    | reloadHead wrapped => exact fun hw => hbehind (hm hw)
    | reloadTail wrapped h' => exact ⟨hm.1, fun hw => hbehind (hm.2 hw)⟩
    | _ => exact hm
  | _ => exact hm

/-! ### The room check and the emptiness check under interference -/

theorem mainSpace_next {z : SizeT} {mem : CircularBuf} {p p' : SpacePc} (hp : MainSpaceOk mem p)
    (h : spaceNext z mem p = .inl p') : MainSpaceOk mem p' := by
  cases p with
  | loadFull =>
    rw [spaceNext] at h
    split at h
    · cases h
    · cases h
      trivial
  | loadHead =>
    cases h
    rfl
  | loadTail h' =>
    cases h
    intro hw
    have hnot := of_decide_eq_false hw
    rw [show h' = mem.head from hp] at hnot
    omega
  | reloadHead wrapped =>
    cases h
    exact ⟨rfl, hp⟩
  | reloadTail wrapped h' => cases h

/-- **The main thread never overestimates the room**, however far the writer moved `tail` meanwhile. -/
theorem mainSpace_result {z : SizeT} {mem : CircularBuf} {q : List UInt8} {p : SpacePc} {r : ℤ}
    (hmax : mem.max ≤ intMax) (hr : Represents mem q) (hlt : q.length < mem.max)
    (hp : MainSpaceOk mem p) (h : spaceNext z mem p = .inr r) : r + q.length ≤ mem.max := by
  have hm : mem.max ≤ 2 ^ 31 - 1 := hmax
  have hhead := hr.head_lt
  have htail := hr.tail_lt
  have hmod := hr.head_eq
  rw [mod_of_lt_two_mul (by omega)] at hmod
  cases p with
  | loadFull =>
    rw [spaceNext] at h
    split at h
    · cases h
      omega
    · cases h
  | loadHead => cases h
  | loadTail h' => cases h
  | reloadHead wrapped => cases h
  | reloadTail wrapped h' =>
    obtain ⟨rfl, hbehind⟩ := hp
    cases h
    cases wrapped with
    | false =>
      have hle := hbehind rfl
      rw [spaceExpr_straight, narrow_eq (by omega) (by omega)]
      split_ifs at hmod <;> omega
    | true =>
      rw [spaceExpr_wrapped, narrow_eq (by omega) (by omega)]
      split_ifs at hmod <;> omega

theorem writerSpace_next {z : SizeT} {mem : CircularBuf} {q : List UInt8} {p p' : SpacePc}
    (hr : Represents mem q) (hlt : q.length < mem.max) (hp : WriterSpaceOk mem q p)
    (h : spaceNext z mem p = .inl p') : WriterSpaceOk mem q p' := by
  have hnil := hr.head_eq_tail_iff_nil hlt
  cases p with
  | loadFull =>
    rw [spaceNext] at h
    split at h
    · cases h
    · cases h
      trivial
  | loadHead =>
    cases h
    intro hlt' hq
    have heq := hnil.mpr hq
    omega
  | loadTail h' =>
    cases h
    exact fun hw => hp (of_decide_eq_true hw)
  | reloadHead wrapped =>
    cases h
    exact ⟨hp, fun hne hq => hne (hnil.mpr hq)⟩
  | reloadTail wrapped h' => cases h

/-- **The writer never finds an empty buffer not empty**, however far the main thread moved `head`
meanwhile. -/
theorem writerSpace_result {z : SizeT} {mem : CircularBuf} {q : List UInt8} {p : SpacePc} {r : ℤ}
    (hmax : mem.max ≤ intMax) (hr : Represents mem q) (hlt : q.length < mem.max)
    (hp : WriterSpaceOk mem q p) (h : spaceNext z mem p = .inr r) (hne : z.ofInt r ≠ mem.max) :
    q ≠ [] := by
  have hm : mem.max ≤ 2 ^ 31 - 1 := hmax
  cases p with
  | loadFull =>
    rw [spaceNext, hr.full_eq_false hlt] at h
    cases h
  | loadHead => cases h
  | loadTail h' => cases h
  | reloadHead wrapped => cases h
  | reloadTail wrapped h' =>
    obtain ⟨hwrapped, hhead⟩ := hp
    cases h
    cases wrapped with
    | true => exact hwrapped rfl
    | false =>
      apply hhead
      rintro rfl
      apply hne
      rw [spaceExpr_straight, narrow_eq (by omega) (by omega),
        z.ofInt_eq_iff (by omega) (by omega) (by omega)]
      omega

/-! ### Steps of the main thread -/

/-- A step of the main thread that publishes `d` (no bytes, for most steps) keeps the invariant if it
leaves room and the thread's new place fits the buffer. -/
theorem SharedInv.mainMoves {s : Shared} {q : List UInt8} (h : SharedInv s q) (mem : CircularBuf)
    {main : MainPc} {published : List UInt8} (d : List UInt8)
    (hpub : published = s.published ++ d) (htail : mem.tail = s.mem.tail)
    (hsize : mem.max = s.mem.max) (hrep : Represents mem (q ++ d))
    (hroom : (q ++ d).length + (main.holding ++ s.calls.flatten).length < mem.max)
    (hok : MainOk mem main) :
    SharedInv { s with mem := mem, main := main, published := published } (q ++ d) where
  size := hsize.trans_le h.size
  represents := hrep
  published := by
    show published = s.popped ++ (q ++ d)
    rw [hpub, h.published, List.append_assoc]
  popped := h.popped
  room := hroom
  main := hok
  writer := h.writer.append htail d

theorem SharedInv.mainLoads {s : Shared} {q : List UInt8} (h : SharedInv s q) {main : MainPc}
    {calls : List (List UInt8)}
    (hroom : q.length + (main.holding ++ calls.flatten).length < s.mem.max)
    (hok : MainOk s.mem main) : SharedInv { s with main := main, calls := calls } q where
  size := h.size
  represents := h.represents
  published := h.published
  popped := h.popped
  room := hroom
  main := hok
  writer := h.writer

/-- **The main thread keeps the invariant**, if its load of `tail` for `full` does not find the buffer
drained. -/
theorem mainStep_inv {z : SizeT} {o : ByteOrder} {s s' : Shared} {q : List UInt8}
    (h : SharedInv s q) (hC : NotDrained s .main) (hstep : mainStep z o s = some s') :
    ∃ q', SharedInv s' q' := by
  have hm : s.mem.max ≤ 2 ^ 31 - 1 := h.size
  have hrep := h.represents
  have hlt := h.length_lt
  have hhead := hrep.head_lt
  have hroom := h.room
  have hok := h.main
  unfold mainStep at hstep
  cases hpc : s.main with
  | idle =>
    rw [hpc] at hstep
    cases hstep
  | checking data p =>
    rw [hpc] at hstep hok hroom
    dsimp only at hstep
    cases hnext : spaceNext z s.mem p with
    | inl p' =>
      rw [hnext] at hstep
      cases hstep
      exact ⟨q, h.mainLoads hroom (mainSpace_next hok hnext)⟩
    | inr r =>
      rw [hnext] at hstep
      have hr := mainSpace_result h.size hrep hlt hok hnext
      dsimp only at hstep
      split at hstep
      · cases hstep
        refine ⟨q, h.mainLoads ?_ trivial⟩
        simp only [MainPc.holding, List.flatten_cons, List.flatten_nil, List.append_nil,
          List.length_append, length_shortBytes]
        omega
      · cases hstep
        exact ⟨q, h.mainLoads hroom trivial⟩
  | test data =>
    rw [hpc] at hstep hroom
    simp only [MainPc.holding, List.length_append] at hroom
    dsimp only at hstep
    rw [z.add_eq (by omega)] at hstep
    split at hstep
    · cases hstep
      exact ⟨q, h.mainLoads (by simpa [MainPc.holding] using hroom) ‹_›⟩
    · cases hstep
      refine ⟨q, h.mainLoads (by simpa [MainPc.holding] using hroom) ?_⟩
      show s.mem.head + data.length ≤ s.mem.max
      omega
  | split data =>
    rw [hpc] at hstep hok hroom
    obtain ⟨parts, hparts, rfl⟩ := Option.map_eq_some_iff.mp hstep
    refine ⟨q, h.mainLoads ?_ trivial⟩
    have hdata := congrArg List.length (splitParts_append hparts)
    simp only [MainPc.holding, List.flatten_cons, List.length_append] at hroom hdata ⊢
    omega
  | copyAt data =>
    rw [hpc] at hstep hok hroom
    cases hstep
    exact ⟨q, h.mainLoads hroom ⟨rfl, hok⟩⟩
  | copy data h' =>
    rw [hpc] at hstep hok hroom
    obtain ⟨rfl, hend⟩ := hok
    obtain ⟨cells, hcells, rfl⟩ := Option.map_eq_some_iff.mp hstep
    rw [memcpy, if_pos (by rw [hrep.cells]; exact hend)] at hcells
    cases hcells
    simp only [MainPc.holding, List.length_append] at hroom
    exact ⟨q ++ [], h.mainMoves { s.mem with buffer := overwrite s.mem.buffer s.mem.head data } []
      (List.append_nil _).symm rfl rfl
      (by rw [List.append_nil]; exact hrep.copyBehind (by omega) hend)
      (by simpa [MainPc.holding] using hroom)
      (window_overwrite_self (by rw [hrep.cells]; exact hend))⟩
  | advanceAt data =>
    rw [hpc] at hstep hok hroom
    cases hstep
    exact ⟨q, h.mainLoads hroom ⟨rfl, hok⟩⟩
  | advance data h' =>
    rw [hpc] at hstep hok hroom
    obtain ⟨rfl, hcopied⟩ := hok
    simp only [MainPc.holding, List.length_append] at hroom
    dsimp only at hstep
    rw [z.add_eq (by omega)] at hstep
    cases hstep
    exact ⟨q ++ data, h.mainMoves _ data rfl rfl rfl (hrep.publish hcopied (by omega))
      (by simp only [MainPc.holding, List.length_append, List.length_nil]; omega) trivial⟩
  | fullHead =>
    rw [hpc] at hstep hroom
    cases hstep
    exact ⟨q, h.mainLoads hroom rfl⟩
  | fullTail h' =>
    rw [hpc] at hstep hok hroom
    obtain rfl : h' = s.mem.head := hok
    cases hstep
    refine ⟨q, h.mainLoads hroom ?_⟩
    have hne := hC rfl (by rw [hpc]; rfl)
    simpa [MainOk] using hne.symm
  | fullStore full =>
    rw [hpc] at hstep hok hroom
    obtain rfl : full = false := hok
    have hmem : { s.mem with full := false } = s.mem := by
      rw [← hrep.full_eq_false hlt]
    dsimp only at hstep
    rw [hmem] at hstep
    cases hcalls : s.calls with
    | nil =>
      rw [hcalls] at hstep hroom
      cases hstep
      exact ⟨q, h.mainLoads hroom trivial⟩
    | cons data rest =>
      rw [hcalls] at hstep hroom
      cases hstep
      exact ⟨q, h.mainLoads hroom trivial⟩

/-! ### Steps of the writer -/

theorem SharedInv.writerLoads {s : Shared} {q : List UInt8} (h : SharedInv s q) {w : WriterPc}
    (hhold : w.holding = s.writer.holding) (hok : WriterOk s.mem q w) :
    SharedInv { s with writer := w } q where
  size := h.size
  represents := h.represents
  published := h.published
  popped := by
    show s.popped = s.handed ++ w.holding
    rw [hhold]
    exact h.popped
  room := h.room
  main := h.main
  writer := hok

/-- **The writer keeps the invariant.** -/
theorem writerStep_inv {z : SizeT} {s s' : Shared} {q : List UInt8} (h : SharedInv s q)
    (hstep : writerStep z s = some s') : ∃ q', SharedInv s' q' := by
  have hm : s.mem.max ≤ 2 ^ 31 - 1 := h.size
  have hrep := h.represents
  have hlt := h.length_lt
  have htail := hrep.tail_lt
  have hok := h.writer
  have hpop := h.popped
  unfold writerStep at hstep
  cases hpc : s.writer with
  | checking p =>
    rw [hpc] at hstep hok
    dsimp only at hstep
    cases hnext : spaceNext z s.mem p with
    | inl p' =>
      rw [hnext] at hstep
      cases hstep
      exact ⟨q, h.writerLoads (by rw [hpc]; rfl) (writerSpace_next hrep hlt hok hnext)⟩
    | inr r =>
      rw [hnext] at hstep
      dsimp only at hstep
      split at hstep
      · cases hstep
        exact ⟨q, h.writerLoads (by rw [hpc]; rfl) trivial⟩
      · cases hstep
        exact ⟨q, h.writerLoads (by rw [hpc]; rfl) (writerSpace_result h.size hrep hlt hok hnext ‹_›)⟩
  | cellAt =>
    rw [hpc] at hstep hok
    cases hstep
    exact ⟨q, h.writerLoads (by rw [hpc]; rfl) ⟨rfl, hok⟩⟩
  | cell t =>
    rw [hpc] at hstep hok
    obtain ⟨rfl, hne⟩ := hok
    obtain ⟨d, hd, rfl⟩ := Option.map_eq_some_iff.mp hstep
    refine ⟨q, h.writerLoads (by rw [hpc]; rfl) ?_⟩
    -- the loaded cell is the oldest unread byte
    cases q with
    | nil => exact absurd rfl hne
    | cons c q =>
      rw [hrep.afterRead.1, Option.some.injEq] at hd
      rw [WriterOk, List.head?_cons, hd]
  | tailAt c =>
    rw [hpc] at hstep hok
    cases hstep
    exact ⟨q, h.writerLoads (by rw [hpc]; rfl) ⟨rfl, hok⟩⟩
  | tailStore c t =>
    rw [hpc] at hstep hok hpop
    obtain ⟨rfl, hc⟩ := hok
    dsimp only at hstep
    rw [z.add_eq (by omega)] at hstep
    cases hstep
    obtain ⟨q', rfl⟩ := List.head?_eq_some_iff.mp hc
    refine ⟨q', ?_⟩
    exact {
      size := h.size
      represents := hrep.pop hlt
      published := by
        show s.published = (s.popped ++ [c]) ++ q'
        rw [h.published, List.append_assoc]
        rfl
      popped := by
        show s.popped ++ [c] = s.handed ++ [c]
        rw [hpop]
        simp [WriterPc.holding]
      room := by
        have hroom := h.room
        rw [List.length_cons] at hroom
        exact Nat.lt_of_le_of_lt (Nat.add_le_add_right (Nat.le_succ _) _) hroom
      main := h.main.pop hrep hlt
      writer := trivial }
  | fullStore c =>
    rw [hpc] at hstep
    cases hstep
    have hmem : { s.mem with full := false } = s.mem := by
      rw [← hrep.full_eq_false hlt]
    rw [hmem]
    exact ⟨q, h.writerLoads (by rw [hpc]; rfl) trivial⟩
  | hand c =>
    rw [hpc] at hstep hpop
    cases hstep
    refine ⟨q, ?_⟩
    exact {
      size := h.size
      represents := hrep
      published := h.published
      popped := by
        show s.popped = (s.handed ++ [c]) ++ []
        rw [List.append_nil]
        exact hpop
      room := h.room
      main := h.main
      writer := trivial }

/-! ### Runs -/

/-- Under the invariant no access leaves the array: a thread that is not waiting for a packet can
always take its next step. -/
theorem SharedInv.step_defined {s : Shared} {q : List UInt8} (h : SharedInv s q) (z : SizeT)
    (o : ByteOrder) : (s.main ≠ .idle → mainStep z o s ≠ none) ∧ writerStep z s ≠ none := by
  have hrep := h.represents
  constructor
  · intro hbusy
    have hok := h.main
    unfold mainStep
    cases hpc : s.main with
    | idle => exact absurd hpc hbusy
    | checking data p =>
      dsimp only
      cases spaceNext z s.mem p with
      | inl p' => exact Option.some_ne_none _
      | inr r =>
        dsimp only
        split <;> exact Option.some_ne_none _
    | test data =>
      dsimp only
      split <;> exact Option.some_ne_none _
    | split data =>
      rw [hpc] at hok
      dsimp only
      rw [hrep.splitParts_eq z h.size hok]
      exact Option.some_ne_none _
    | copy data h' =>
      rw [hpc] at hok
      obtain ⟨rfl, hend⟩ := hok
      dsimp only
      rw [memcpy, if_pos (by rw [hrep.cells]; exact hend)]
      exact Option.some_ne_none _
    | fullStore full =>
      dsimp only
      split <;> exact Option.some_ne_none _
    | _ => exact Option.some_ne_none _
  · have hok := h.writer
    unfold writerStep
    cases hpc : s.writer with
    | checking p =>
      dsimp only
      cases spaceNext z s.mem p with
      | inl p' => exact Option.some_ne_none _
      | inr r =>
        dsimp only
        split <;> exact Option.some_ne_none _
    | cell t =>
      rw [hpc] at hok
      obtain ⟨rfl, -⟩ := hok
      dsimp only
      rw [List.getElem?_eq_getElem (by rw [hrep.cells]; exact hrep.tail_lt)]
      exact Option.some_ne_none _
    | _ => exact Option.some_ne_none _

theorem sharedStep_inv {z : SizeT} {o : ByteOrder} {s s' : Shared} {a : Act} {q : List UInt8}
    (h : SharedInv s q) (hC : NotDrained s a) (hstep : sharedStep z o s a = some s') :
    ∃ q', SharedInv s' q' := by
  cases a with
  | packet data =>
    rw [sharedStep] at hstep
    split at hstep
    · cases hstep
      have hroom := h.room
      have hidle : s.main = .idle := ‹s.main = .idle ∧ _›.1
      rw [hidle] at hroom
      exact ⟨q, h.mainLoads hroom trivial⟩
    · cases hstep
  | main => exact mainStep_inv h hC hstep
  | writer => exact writerStep_inv h hstep

theorem WriterOk.ne_nil {mem : CircularBuf} {q : List UInt8} {w : WriterPc} (h : WriterOk mem q w)
    (hpop : w.popping = true) : q ≠ [] := by
  have hhead : ∀ c, q.head? = some c → q ≠ [] := fun c hc hq => by
    rw [hq] at hc
    cases hc
  cases w with
  | cellAt => exact h
  | cell t => exact h.2
  | tailAt c => exact hhead c h
  | tailStore c t => exact hhead c h.2
  | _ => cases hpop

theorem SharedInv.safe {s : Shared} {q : List UInt8} (h : SharedInv s q) : Safe s where
  pops := fun hpop => by
    have hpos := List.length_pos_iff.mpr (h.writer.ne_nil hpop)
    rw [h.published, List.length_append]
    omega
  full := fun _ hfull => by
    rw [h.represents.full_eq_false h.length_lt] at hfull
    cases hfull
  handed := by
    rw [h.published, h.popped, List.append_assoc]
    exact List.prefix_append _ _

/-- **The writer pops only what was published** in every run in which no load of `tail` for `full` in
`send_data_buffer` finds the buffer drained: then `full` at rest is right, and the FIFO is handed a
prefix of the bytes stored. -/
theorem writer_safe_unless_drained (z : SizeT) (o : ByteOrder) (max : ℕ) (heap : ℕ → UInt8)
    (hpos : 1 ≤ max) (hmax : max ≤ intMax) (as : List Act) (s : Shared)
    (hrun : runFrom (sharedStep z o) (.start max heap) as = some s)
    (hC : Along (sharedStep z o) NotDrained (.start max heap) as) : Safe s := by
  obtain ⟨q, h⟩ : ∃ q, SharedInv s q :=
    hC.invariant (I := fun s => ∃ q, SharedInv s q)
      (fun _ _ _ ⟨_, hI⟩ hCa hstep => sharedStep_inv hI hCa hstep)
      ⟨[], start_sharedInv heap hpos hmax⟩ hrun
  exact h.safe

/-- One packet stored while the writer reads: its header is taken between the two writes, and the
payload is still there when `full` is computed. -/
theorem writer_safe_unless_drained_one_packet :
    Safe ⟨⟨[1, 0, 7, 0, 0, 0, 0, 0], 3, 2, 8, false⟩, .idle, [], .checking .loadFull, [1, 0, 7],
      [1, 0], [1, 0]⟩ :=
  writer_safe_unless_drained ⟨64, by decide⟩ .little 8 (fun _ => 0) (by decide) (by decide)
    (.packet [7] :: List.replicate 13 .main ++ List.replicate 22 .writer ++ List.replicate 8 .main)
    _ (by decide +kernel) (by decide +kernel)

end LinkManagement.SharedBuffer
