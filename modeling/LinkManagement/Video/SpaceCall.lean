import LinkManagement.Video.SharedBuffer
import LinkManagement.Video.WriteBytes

/-!
# One call of `get_space` while the buffer is being read

The main thread calls `get_space` of `VideoServer/src/buffer.c` in `send_packet_buffer`, and
`fifo_write_thread` goes on reading between its loads, as in `SharedBuffer`.  `tail` is loaded twice: the
first value selects the return expression, the second goes into it.  The writer only frees space, so a
returned value is right when it was the free space at some moment of the call.

* `linearizable_iff` — it was, exactly when the writer did not take `tail` round the end of the array
  between the two loads;
* `tail_wraps_between_loads` — it did: the returned value is negative, and the packet is dropped.
-/

namespace LinkManagement.SpaceCall

open LinkManagement.Transition LinkManagement.MachineInt LinkManagement.CyclicArray
open LinkManagement.Buffer LinkManagement.BufferRefinement LinkManagement.WriteBytes
open LinkManagement.SharedBuffer

/-- The main thread enters the room check of a packet, and `fifo_write_thread` is at the head of its
loop. -/
def enterCheck (buf : CircularBuf) (data : List UInt8) : Shared :=
  ⟨buf, .checking data .loadFull, [], .checking .loadFull, storedBytes buf, [], []⟩

inductive CallAct where
  | load
  | writer
  deriving DecidableEq

/-- A load of `get_space` that is not its last, or any step of the writer. -/
def callStep (z : SizeT) (s : Shared) : CallAct → Option Shared
  | .load =>
      match s.main with
      | .checking data p =>
          match spaceNext z s.mem p with
          | .inl p' => some { s with main := .checking data p' }
          | .inr _ => none
      | _ => none
  | .writer => writerStep z s

/-- The next load of the main thread is the last of its call, which then returns `r`. -/
def Returns (z : SizeT) (s : Shared) (r : ℤ) : Prop :=
  ∃ data p, s.main = .checking data p ∧ spaceNext z s.mem p = .inr r

/-- The capacity less the number of stored bytes. -/
def freeSpace (s : Shared) : ℤ := (s.mem.max : ℤ) - storedCount s.mem

/-- What the value returned after the steps `as` tells of the call that began in `s₀`: it was the free
space at some moment, it is not below that at the start and not above that at the end, and a packet that
fitted with room to spare at the start is stored. -/
structure Linearizable (z : SizeT) (o : ByteOrder) (data : List UInt8) (s₀ : Shared)
    (as : List CallAct) (s : Shared) (r : ℤ) : Prop where
  moment : ∃ before after m, as = before ++ after ∧ runFrom (callStep z) s₀ before = some m ∧
    r = freeSpace m
  start_le : freeSpace s₀ ≤ r
  le_end : r ≤ freeSpace s
  stores : freeSpace s₀ > (data.length : ℤ) + 2 →
    ∃ s', mainStep z o s = some s' ∧ s'.main = .test (shortBytes o data.length)

/-- The outcome of the test `buf->head < buf->tail`, from the first load of `tail` to the second. -/
def selected : MainPc → Option Bool
  | .checking _ (.reloadHead wrapped) | .checking _ (.reloadTail wrapped _) => some wrapped
  | _ => none

/-- The step does not take `tail` from the last cell to the first between the two loads. -/
def KeepsLap (s : Shared) : CallAct → Prop
  | .load => True
  | .writer => (selected s.main).isSome = true →
      ∀ c t, s.writer = .tailStore c t → t + 1 ≠ s.mem.max

/-! ### The steps of a call -/

theorem callStep_load {z : SizeT} {s s' : Shared} (h : callStep z s .load = some s') :
    ∃ data p p', s.main = .checking data p ∧ spaceNext z s.mem p = .inl p' ∧
      s' = { s with main := .checking data p' } := by
  unfold callStep at h
  cases hpc : s.main with
  | checking data p =>
    rw [hpc] at h
    dsimp only at h
    cases hnext : spaceNext z s.mem p with
    | inl p' =>
      rw [hnext] at h
      cases h
      exact ⟨data, p, p', rfl, hnext, rfl⟩
    | inr r =>
      rw [hnext] at h
      cases h
  | _ =>
    rw [hpc] at h
    cases h

/-- What a step of the writer can change: it moves `tail`, and pops a byte, in one place only. -/
theorem writerStep_frame {z : SizeT} {s s' : Shared} (h : writerStep z s = some s') :
    s'.main = s.main ∧ s'.published = s.published ∧ s'.mem.head = s.mem.head ∧
      s'.mem.max = s.mem.max ∧ s.popped.length ≤ s'.popped.length ∧
      ((s'.mem.tail = s.mem.tail ∧ ∀ c t, s.writer ≠ .tailStore c t) ∨
        ∃ c t, s.writer = .tailStore c t ∧ s'.mem.tail = z.add t 1 % s.mem.max) := by
  unfold writerStep at h
  cases hpc : s.writer with
  | checking p =>
    rw [hpc] at h
    dsimp only at h
    cases hnext : spaceNext z s.mem p with
    | inl p' =>
      rw [hnext] at h
      cases h
      exact ⟨rfl, rfl, rfl, rfl, Nat.le_refl _, .inl ⟨rfl, fun _ _ he => nomatch he⟩⟩
    | inr r =>
      rw [hnext] at h
      dsimp only at h
      split at h
      · cases h
        exact ⟨rfl, rfl, rfl, rfl, Nat.le_refl _, .inl ⟨rfl, fun _ _ he => nomatch he⟩⟩
      · cases h
        exact ⟨rfl, rfl, rfl, rfl, Nat.le_refl _, .inl ⟨rfl, fun _ _ he => nomatch he⟩⟩
  | cell t =>
    rw [hpc] at h
    obtain ⟨c, -, rfl⟩ := Option.map_eq_some_iff.mp h
    exact ⟨rfl, rfl, rfl, rfl, Nat.le_refl _, .inl ⟨rfl, fun _ _ he => nomatch he⟩⟩
  | tailStore c t =>
    rw [hpc] at h
    cases h
    refine ⟨rfl, rfl, rfl, rfl, ?_, .inr ⟨c, t, rfl, rfl⟩⟩
    rw [List.length_append]
    exact Nat.le_add_right _ _
  | _ =>
    rw [hpc] at h
    cases h
    exact ⟨rfl, rfl, rfl, rfl, Nat.le_refl _, .inl ⟨rfl, fun _ _ he => nomatch he⟩⟩

/-! ### The invariant of a call -/

/-- The main thread is in the call for `data`, on a buffer that began as `buf` and has only been read
since. -/
structure CallInv (buf : CircularBuf) (data : List UInt8) (s : Shared) (q : List UInt8) : Prop where
  shared : SharedInv s q
  capacity : s.mem.max = buf.max
  shrinks : q.length ≤ storedCount buf
  inCall : ∃ p, s.main = .checking data p

theorem CallInv.freeSpace_eq {buf : CircularBuf} {data q : List UInt8} {s : Shared}
    (h : CallInv buf data s q) : freeSpace s = (buf.max : ℤ) - q.length := by
  rw [freeSpace, storedCount_eq h.shared.represents, h.capacity]

theorem enterCheck_callInv {buf : CircularBuf} (data : List UInt8) (h : WellFormed buf)
    (hmax : buf.max ≤ intMax) (hnot : buf.full = false) :
    CallInv buf data (enterCheck buf data) (storedBytes buf) := by
  have hrep := h.represents
  have hlt : (storedBytes buf).length < buf.max := by
    have hle := hrep.length_le
    have hne : (storedBytes buf).length ≠ buf.max := fun he => by
      rw [hrep.full_iff.mpr he] at hnot
      cases hnot
    omega
  exact {
    shared := {
      size := hmax
      represents := hrep
      published := rfl
      popped := rfl
      room := hlt
      main := trivial
      writer := trivial }
    capacity := rfl
    shrinks := h.length_storedBytes.le
    inCall := ⟨_, rfl⟩ }

theorem callStep_inv {z : SizeT} {buf : CircularBuf} {data : List UInt8} (s : Shared) (a : CallAct)
    (s' : Shared) (h : ∃ q, CallInv buf data s q) (hstep : callStep z s a = some s') :
    ∃ q, CallInv buf data s' q := by
  obtain ⟨q, h⟩ := h
  obtain ⟨p₀, hp₀⟩ := h.inCall
  cases a with
  | load =>
    obtain ⟨data', p, p', hpc, hnext, rfl⟩ := callStep_load hstep
    rw [hp₀] at hpc
    cases hpc
    have hroom := h.shared.room
    have hok := h.shared.main
    rw [hp₀] at hroom hok
    exact ⟨q, h.shared.mainLoads hroom (mainSpace_next hok hnext), h.capacity, h.shrinks, _, rfl⟩
  | writer =>
    obtain ⟨q', h'⟩ := writerStep_inv h.shared hstep
    obtain ⟨hmain, hpub, -, hmax, hpop, -⟩ := writerStep_frame hstep
    have hbefore := congrArg List.length h.shared.published
    have hafter := congrArg List.length h'.published
    rw [List.length_append] at hbefore hafter
    rw [hpub] at hafter
    have hle := h.shrinks
    exact ⟨q', h', hmax.trans h.capacity, by omega, p₀, hmain.trans hp₀⟩

/-! ### The selected expression -/

/-- The expression for a wrapped buffer, if it is selected, still fits. -/
def StillFits (s : Shared) : Prop := selected s.main = some true → s.mem.head < s.mem.tail

theorem tail_le_head {s : Shared} {q : List UInt8} (h : SharedInv s q)
    (hsel : selected s.main = some false) : s.mem.tail ≤ s.mem.head := by
  have hok := h.main
  unfold selected at hsel
  split at hsel
  · rename_i hpc
    rw [hpc] at hok
    exact hok (Option.some.inj hsel)
  · rename_i hpc
    rw [hpc] at hok
    exact hok.2 (Option.some.inj hsel)
  · cases hsel

theorem stillFits_load {z : SizeT} {s s' : Shared} {q : List UInt8} (h : SharedInv s q)
    (hstep : callStep z s .load = some s') : StillFits s' ↔ StillFits s := by
  obtain ⟨data, p, p', hpc, hnext, rfl⟩ := callStep_load hstep
  have hok := h.main
  rw [hpc] at hok
  unfold StillFits
  rw [hpc]
  cases p with
  | loadFull =>
    rw [spaceNext] at hnext
    split at hnext
    · cases hnext
    · cases hnext
      exact Iff.rfl
  | loadHead =>
    cases hnext
    exact Iff.rfl
  | loadTail h' =>
    cases hnext
    obtain rfl : h' = s.mem.head := hok
    constructor
    · intro _ hsel
      cases hsel
    · intro _ hsel
      exact of_decide_eq_true (Option.some.inj hsel)
  | reloadHead wrapped =>
    cases hnext
    exact Iff.rfl
  | reloadTail wrapped h' => cases hnext

/-- **A pop keeps the selected expression fitting** unless it takes `tail` round the end. -/
theorem stillFits_writer {z : SizeT} {s s' : Shared} {q : List UInt8} (h : SharedInv s q)
    (hstep : callStep z s .writer = some s') :
    StillFits s' ↔ StillFits s ∧ KeepsLap s .writer := by
  obtain ⟨hmain, -, hhead, -, -, ⟨htail, hno⟩ | ⟨c, t, hpc, htail⟩⟩ := writerStep_frame hstep
  · unfold StillFits
    rw [hmain, hhead, htail]
    exact (and_iff_left fun _ c t hpc => absurd hpc (hno c t)).symm
  · have hm : s.mem.max ≤ 2 ^ 31 - 1 := h.size
    have hlt := h.represents.tail_lt
    have hheadlt := h.represents.head_lt
    have hok := h.writer
    rw [hpc] at hok
    obtain ⟨rfl, hc⟩ := hok
    -- there is a byte to pop, so `tail` is not at `head`
    have hne : s.mem.head ≠ s.mem.tail := fun he => by
      rw [(h.represents.head_eq_tail_iff_nil h.length_lt).mp he] at hc
      cases hc
    rw [z.add_eq (by omega)] at htail
    have hkeeps : KeepsLap s .writer ↔
        ((selected s.main).isSome = true → s.mem.tail + 1 ≠ s.mem.max) := by
      constructor
      · intro hk hsel
        exact hk hsel c _ hpc
      · intro hk hsel c' t' hpc'
        rw [hpc] at hpc'
        cases hpc'
        exact hk hsel
    rw [hkeeps]
    unfold StillFits
    rw [hmain, hhead, htail]
    cases hsel : selected s.main with
    | none => simp
    | some wrapped =>
      cases wrapped with
      | false =>
        have hle := tail_le_head h hsel
        simp only [Option.some.injEq, Bool.false_eq_true, false_imp_iff, true_and, Option.isSome_some,
          true_imp_iff, true_iff]
        omega
      | true =>
        simp only [Option.isSome_some, true_imp_iff]
        rcases Nat.lt_or_ge (s.mem.tail + 1) s.mem.max with hin | hout
        · rw [Nat.mod_eq_of_lt hin]
          omega
        · obtain hend : s.mem.tail + 1 = s.mem.max := by omega
          rw [hend, Nat.mod_self]
          omega

/-- **What the call returns**: the free space at its last load if the selected expression still fits,
and nothing positive if it does not. -/
theorem returns_spec {z : SizeT} {s : Shared} {q : List UInt8} {r : ℤ} (h : SharedInv s q)
    (hret : Returns z s r) :
    (StillFits s → r = freeSpace s) ∧ (¬ StillFits s → r ≤ 0) := by
  obtain ⟨data, p, hpc, hlast⟩ := hret
  have hm : s.mem.max ≤ 2 ^ 31 - 1 := h.size
  have hrep := h.represents
  have hhead := hrep.head_lt
  have htail := hrep.tail_lt
  have hlt := h.length_lt
  have hok := h.main
  rw [hpc] at hok
  unfold StillFits
  rw [hpc]
  cases p with
  | loadFull =>
    rw [spaceNext, hrep.full_eq_false hlt] at hlast
    cases hlast
  | loadHead => cases hlast
  | loadTail h' => cases hlast
  | reloadHead wrapped => cases hlast
  | reloadTail wrapped h' =>
    obtain ⟨rfl, hbehind⟩ := hok
    cases hlast
    have hmod := hrep.head_eq
    rw [mod_of_lt_two_mul (by omega)] at hmod
    rw [freeSpace, storedCount_eq hrep]
    cases wrapped with
    | false =>
      have hle := hbehind rfl
      rw [spaceExpr_straight, narrow_eq (by omega) (by omega)]
      constructor
      · intro _
        split_ifs at hmod <;> omega
      · intro hnot
        exfalso
        apply hnot
        intro hsel
        cases hsel
    | true =>
      rw [spaceExpr_wrapped, narrow_eq (by omega) (by omega)]
      constructor
      · intro hfits
        have hw := hfits rfl
        split_ifs at hmod <;> omega
      · intro hnot
        have hge : ¬ s.mem.head < s.mem.tail := fun hw => hnot fun _ => hw
        omega

/-! ### The whole call -/

theorem stores_of_returns {z : SizeT} (o : ByteOrder) {s : Shared} {data : List UInt8} {p : SpacePc}
    {r : ℤ} (hpc : s.main = .checking data p) (hlast : spaceNext z s.mem p = .inr r)
    (hroom : r > (data.length : ℤ) + 2) :
    ∃ s', mainStep z o s = some s' ∧ s'.main = .test (shortBytes o data.length) := by
  refine ⟨{ s with main := .test (shortBytes o data.length), calls := [data] }, ?_, rfl⟩
  rw [mainStep, hpc]
  dsimp only
  rw [hlast]
  exact if_pos hroom

/-- **`get_space` is linearizable for the main thread exactly in the calls in which the writer does not
take `tail` from the last cell to the first between the two loads of `tail`.**  The buffer is any that is
well formed and not full, and the writer takes any number of steps between any two loads. -/
theorem linearizable_iff (z : SizeT) (o : ByteOrder) (buf : CircularBuf) (h : WellFormed buf)
    (hmax : buf.max ≤ intMax) (hnot : buf.full = false) (data : List UInt8) (as : List CallAct)
    (s : Shared) (r : ℤ) (hrun : runFrom (callStep z) (enterCheck buf data) as = some s)
    (hret : Returns z s r) :
    Linearizable z o data (enterCheck buf data) as s r ↔
      Along (callStep z) KeepsLap (enterCheck buf data) as := by
  have hstart := enterCheck_callInv data h hmax hnot
  have hstep : ∀ s a s', (∃ q, CallInv buf data s q) → callStep z s a = some s' →
      (StillFits s' ↔ StillFits s ∧ KeepsLap s a) := by
    intro s a s' ⟨q, hs⟩ hstep
    cases a with
    | load => exact (stillFits_load hs.shared hstep).trans (and_iff_left trivial).symm
    | writer => exact stillFits_writer hs.shared hstep
  have hfits := runFrom_iff_along callStep_inv hstep ⟨_, hstart⟩ hrun
  have hfits₀ : StillFits (enterCheck buf data) := fun hsel => nomatch hsel
  obtain ⟨q, hs⟩ : ∃ q, CallInv buf data s q := runFrom_invariant callStep_inv ⟨_, hstart⟩ hrun
  -- reading only frees space
  have hfree : freeSpace (enterCheck buf data) ≤ freeSpace s := by
    have hle := hs.shrinks
    rw [hs.freeSpace_eq, hstart.freeSpace_eq, h.length_storedBytes]
    omega
  obtain ⟨hexact, hwrong⟩ := returns_spec hs.shared hret
  rw [← and_iff_right hfits₀ (b := Along _ _ _ _), ← hfits]
  constructor
  · intro hlin
    by_contra hbroken
    have hle := hwrong hbroken
    have hge := hlin.start_le
    have hpos := hstart.shared.length_lt
    have hmem : (enterCheck buf data).mem.max = buf.max := rfl
    rw [hstart.freeSpace_eq] at hge
    omega
  · intro hs'
    have hr := hexact hs'
    exact {
      moment := ⟨as, [], s, (List.append_nil as).symm, hrun, hr⟩
      start_le := hr ▸ hfree
      le_end := hr.le
      stores := fun hroom => by
        obtain ⟨data', p, hpc, hlast⟩ := hret
        obtain ⟨p₀, hp₀⟩ := hs.inCall
        rw [hp₀] at hpc
        cases hpc
        have hge : freeSpace (enterCheck buf data) ≤ r := hr ▸ hfree
        exact stores_of_returns o hp₀ hlast (by omega) }

/-- The buffer of eight cells, with the bytes in its last cell and its first one stored. -/
def wrappedPair : CircularBuf := ⟨[2, 0, 0, 0, 0, 0, 0, 1], 1, 7, 8, false⟩

theorem wrappedPair_wellFormed : WellFormed wrappedPair :=
  ⟨rfl, by decide, by decide, fun h => nomatch h⟩

/-- The read falls before the first load of `tail`. -/
theorem linearizable_iff_early_read :
    Linearizable ⟨64, by decide⟩ .little [9] (enterCheck wrappedPair [9])
        (List.replicate 2 .load ++ List.replicate 11 .writer ++ List.replicate 2 .load)
        ⟨⟨[2, 0, 0, 0, 0, 0, 0, 1], 1, 0, 8, false⟩, .checking [9] (.reloadTail false 1), [],
          .checking .loadFull, [1, 2], [1], [1]⟩ 7 ↔
      Along (callStep ⟨64, by decide⟩) KeepsLap (enterCheck wrappedPair [9])
        (List.replicate 2 .load ++ List.replicate 11 .writer ++ List.replicate 2 .load) :=
  linearizable_iff ⟨64, by decide⟩ .little wrappedPair wrappedPair_wellFormed (by decide) rfl [9] _ _ 7
    (by decide +kernel) ⟨[9], _, rfl, by decide +kernel⟩

def lateRead : List CallAct := List.replicate 3 .load ++ List.replicate 11 .writer ++ [.load]

def afterLateRead : Shared :=
  ⟨⟨[2, 0, 0, 0, 0, 0, 0, 1], 1, 0, 8, false⟩, .checking [9] (.reloadTail true 1), [],
    .checking .loadFull, [1, 2], [1], [1]⟩

/-- **`tail` passes the end of the array between its two loads.**  The call returns -1, though six of the
eight cells were free all the time, and the packet of one byte is dropped. -/
theorem tail_wraps_between_loads :
    WellFormed wrappedPair ∧ wrappedPair.full = false ∧ freeSpace (enterCheck wrappedPair [9]) = 6 ∧
      ∃ s, runFrom (callStep ⟨64, by decide⟩) (enterCheck wrappedPair [9]) lateRead = some s ∧
        Returns ⟨64, by decide⟩ s (-1) ∧
        (∃ s', mainStep ⟨64, by decide⟩ .little s = some s' ∧ s'.main = .idle ∧ s'.mem = s.mem) ∧
        ¬ Linearizable ⟨64, by decide⟩ .little [9] (enterCheck wrappedPair [9]) lateRead s (-1) := by
  have hspace : freeSpace (enterCheck wrappedPair [9]) = 6 := by decide +kernel
  refine ⟨wrappedPair_wellFormed, rfl, hspace, afterLateRead, by decide +kernel,
    ⟨[9], _, rfl, by decide +kernel⟩, ⟨{ afterLateRead with main := .idle }, by decide +kernel, rfl, rfl⟩,
    fun hlin => ?_⟩
  have hge := hlin.start_le
  rw [hspace] at hge
  omega

end LinkManagement.SpaceCall
