import LinkManagement.Video.VideoSendLoop

/-!
# The test client's FIFO command

Choice 3 of `run_test_client` in `VideoServer/src/client.c`: `read_data_fifo` is called `amount` times,
with the next byte of a fresh array each time, and the array is sent.  A call that finds the FIFO empty
is only reported; it leaves its byte of the array as `malloc` gave it.

* `readRun` — what the array holds after any number of calls;
* `sendsPopped_iff` — the datagram is what was popped exactly if every call found a byte and the length
  fits in a `short`.
-/

namespace LinkManagement.TestClient

open LinkManagement.Transition LinkManagement.MachineInt LinkManagement.VideoSendLoop

/-- The loop of choice 3.  `rx` is what the FIFO holds, `popped` records the bytes taken from it. -/
structure ReadLoop where
  fifoData : List UInt8
  i : ℕ
  rx : List UInt8
  popped : List UInt8
  deriving DecidableEq

def ReadLoop.start (mem : ℕ → UInt8) (amount : ℕ) : ReadLoop :=
  ⟨(List.range amount).map mem, 0, [], []⟩

/-- One iteration; `new` has the bytes that arrived in the FIFO since the call before. -/
def readStep (s : ReadLoop) (new : List UInt8) : Option ReadLoop :=
  if s.i < s.fifoData.length then
    match readDataFifo (s.rx ++ new) with
    -- the value 1 is printed, and the loop goes on
    | none => some { s with rx := s.rx ++ new, i := s.i + 1 }
    | some (c, rx) =>
        some ⟨s.fifoData.set s.i c, s.i + 1, rx, s.popped ++ [c]⟩
  else none

/-- `amount` calls, then one datagram with exactly the bytes popped, in order. -/
def SendsPopped (mem : ℕ → UInt8) (amount : ℕ) (arrivals : List (List UInt8)) : Prop :=
  ∃ s, runFrom readStep (.start mem amount) arrivals = some s ∧
    sendVideoPacket s.fifoData amount = some s.popped

/-- Before each call more bytes have arrived than there were calls. -/
def EveryCallFinds (arrivals : List (List UInt8)) : Prop :=
  ∀ i < arrivals.length, i < (arrivals.take (i + 1)).flatten.length

theorem everyCallFinds_concat {arrivals : List (List UInt8)} {new : List UInt8} :
    EveryCallFinds (arrivals ++ [new]) ↔
      EveryCallFinds arrivals ∧ arrivals.length < (arrivals ++ [new]).flatten.length := by
  have hwhole : (arrivals ++ [new]).take (arrivals.length + 1) = arrivals ++ [new] :=
    List.take_of_length_le (by rw [List.length_append, List.length_singleton])
  have hpart : ∀ i < arrivals.length,
      (arrivals ++ [new]).take (i + 1) = arrivals.take (i + 1) := fun i hi =>
    List.take_append_of_le_length hi
  constructor
  · intro h
    refine ⟨fun i hi => ?_, ?_⟩
    · rw [← hpart i hi]
      exact h i (by rw [List.length_append]; omega)
    · have hlast := h arrivals.length (by rw [List.length_append, List.length_singleton]; omega)
      rw [hwhole] at hlast
      exact hlast
  · intro ⟨h, hlast⟩ i hi
    rw [List.length_append, List.length_singleton] at hi
    rcases Nat.lt_or_ge i arrivals.length with hlt | hge
    · rw [hpart i hlt]
      exact h i hlt
    · rw [show i = arrivals.length by omega, hwhole]
      exact hlast

/-! ### The calls -/

/-- After calls with these arrivals: nothing is lost between the FIFO and `popped`; if no call was in
vain, the array begins with what was popped. -/
structure ReadInv (amount : ℕ) (arrivals : List (List UInt8)) (s : ReadLoop) : Prop where
  size : s.fifoData.length = amount
  index : s.i = arrivals.length
  conserved : s.popped ++ s.rx = arrivals.flatten
  le : s.popped.length ≤ s.i
  found : s.popped.length = s.i ↔ EveryCallFinds arrivals
  stored : s.popped.length = s.i → s.fifoData.take s.i = s.popped

theorem readStep_inv {amount : ℕ} {arrivals : List (List UInt8)} {s : ReadLoop}
    (h : ReadInv amount arrivals s) (hlt : arrivals.length < amount) (new : List UInt8) :
    ∃ s', readStep s new = some s' ∧ ReadInv amount (arrivals ++ [new]) s' := by
  have hindex : s.i + 1 = (arrivals ++ [new]).length := by
    rw [List.length_append, List.length_singleton, h.index]
  have hflat : (arrivals ++ [new]).flatten = s.popped ++ (s.rx ++ new) := by
    rw [List.flatten_append, List.flatten_singleton, ← h.conserved, List.append_assoc]
  have hle := h.le
  have hi : s.i < s.fifoData.length := by rw [h.index, h.size]; exact hlt
  rw [readStep, if_pos hi]
  cases hrx : s.rx ++ new with
  | nil =>
    rw [hrx, List.append_nil] at hflat
    refine ⟨_, rfl, h.size, hindex, ?_, Nat.le_succ_of_le hle, ?_, ?_⟩
    · rw [hflat, List.append_nil]
    · rw [everyCallFinds_concat, hflat, ← h.index]
      constructor
      · intro heq
        exact absurd heq (Nat.ne_of_lt (Nat.lt_succ_of_le hle))
      · rintro ⟨-, hgt⟩
        exact absurd hgt (Nat.not_lt_of_le hle)
    · intro heq
      exact absurd heq (Nat.ne_of_lt (Nat.lt_succ_of_le hle))
  | cons c rx =>
    rw [hrx] at hflat
    have hlen : (s.popped ++ [c]).length = s.i + 1 ↔ s.popped.length = s.i := by
      rw [List.length_append, List.length_singleton, Nat.add_right_cancel_iff]
    refine ⟨_, rfl, ?_, hindex, ?_, ?_, ?_, ?_⟩
    · rw [List.length_set, h.size]
    · rw [hflat, List.append_assoc, List.singleton_append]
    · rw [List.length_append, List.length_singleton]
      exact Nat.succ_le_succ hle
    · rw [hlen, everyCallFinds_concat, h.found, hflat, ← h.index]
      refine ⟨fun hfinds => ⟨hfinds, ?_⟩, And.left⟩
      rw [← h.found] at hfinds
      rw [List.length_append, List.length_cons]
      omega
    · intro heq
      dsimp only
      rw [List.take_add_one, List.take_set_of_le (Nat.le_refl _), List.getElem?_set_self hi,
        h.stored (hlen.mp heq), Option.toList_some]

theorem readRun (mem : ℕ → UInt8) {amount : ℕ} {arrivals : List (List UInt8)}
    (hle : arrivals.length ≤ amount) :
    ∃ s, runFrom readStep (.start mem amount) arrivals = some s ∧ ReadInv amount arrivals s := by
  induction arrivals using List.reverseRecOn with
  | nil =>
    refine ⟨_, rfl, ?_, rfl, rfl, Nat.le_refl _, ?_, fun _ => List.take_zero⟩
    · rw [ReadLoop.start, List.length_map, List.length_range]
    · exact iff_of_true rfl fun i hi => absurd hi (Nat.not_lt_zero i)
  | append_singleton arrivals new ih =>
    rw [List.length_append, List.length_singleton] at hle
    obtain ⟨s, hrun, hinv⟩ := ih (by omega)
    obtain ⟨s', hstep, hinv'⟩ := readStep_inv hinv (by omega) new
    refine ⟨s', ?_, hinv'⟩
    rw [runFrom_append, hrun, Option.bind_some, runFrom, hstep]
    rfl

/-! ### The datagram -/

theorem sendVideoPacket_eq_none (data : List UInt8) {n : ℕ} (hlo : 2 ^ 15 ≤ n) (hhi : n < 2 ^ 16) :
    sendVideoPacket data n = none := by
  rw [sendVideoPacket, narrowShort_eq_sub (by omega) (by omega)]
  exact if_neg fun h => by omega

/-- **The test client sends what it read**, for all amounts that a datagram can carry and all times at
which bytes arrive, exactly if every call finds a byte and the amount fits in a `short`. -/
theorem sendsPopped_iff (mem : ℕ → UInt8) {amount : ℕ} (hamount : amount ≤ 65507)
    {arrivals : List (List UInt8)} (hcalls : arrivals.length = amount) :
    SendsPopped mem amount arrivals ↔ EveryCallFinds arrivals ∧ amount < 2 ^ 15 := by
  obtain ⟨s, hrun, hinv⟩ := readRun mem hcalls.le
  have hindex : s.i = amount := hinv.index.trans hcalls
  have hsize := hinv.size
  have hsends : SendsPopped mem amount arrivals ↔
      sendVideoPacket s.fifoData amount = some s.popped := by
    constructor
    · rintro ⟨s', hrun', hsent⟩
      cases hrun.symm.trans hrun'
      exact hsent
    · intro hsent
      exact ⟨s, hrun, hsent⟩
  rw [hsends, ← hinv.found]
  rcases Nat.lt_or_ge amount (2 ^ 15) with hshort | hlong
  · rw [sendVideoPacket_eq hsize.ge hshort, Option.some.injEq]
    constructor
    · intro hdata
      refine ⟨?_, hshort⟩
      rw [← hdata, List.length_take, hsize, Nat.min_self, hindex]
    · rintro ⟨hfound, -⟩
      rw [← hinv.stored hfound, hindex]
  · rw [sendVideoPacket_eq_none _ hlong (by omega)]
    constructor
    · intro h
      cases h
    · rintro ⟨-, hshort⟩
      omega

/-- Two bytes that arrive before the first of two calls. -/
theorem sendsPopped_iff_two :
    SendsPopped (fun _ => 0) 2 [[7, 8], []] ↔ EveryCallFinds [[7, 8], []] ∧ 2 < 2 ^ 15 :=
  sendsPopped_iff (fun _ => 0) (by decide) rfl

/-- **An empty FIFO sends a byte of the heap.** -/
theorem empty_fifo_sends_heap_byte :
    runFrom readStep (.start (fun _ => 9) 1) [[]] = some ⟨[9], 1, [], []⟩ ∧
      sendVideoPacket [9] 1 = some [9] ∧ ¬ SendsPopped (fun _ => 9) 1 [[]] := by
  have hrun : runFrom readStep (.start (fun _ => 9) 1) [[]] = some ⟨[9], 1, [], []⟩ := by
    decide +kernel
  refine ⟨hrun, by decide +kernel, ?_⟩
  rintro ⟨s, hs, hsent⟩
  cases hrun.symm.trans hs
  rw [sendVideoPacket_eq (by decide) (by decide)] at hsent
  cases hsent

end LinkManagement.TestClient
