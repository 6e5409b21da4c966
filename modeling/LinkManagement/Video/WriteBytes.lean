import LinkManagement.Lib.Chunks
import LinkManagement.Video.BufferRefinement

/-!
# Writing to the buffer byte by byte

`send_data_buffer` of `VideoServer/src/buffer.c` from any well-formed buffer, with data of any length:
none at all, more than there is room for, or more than the array holds.  `writeByte` is what a call with
one byte does; a call does it for each of its bytes and then computes `full` once more
(`sendDataBufferFuel_eq`), which only shows when there are no bytes.

* `chunks_as_bytes_iff` — data cut into calls leaves the buffer that its single bytes leave, unless all
  calls are empty and so is the buffer;
* `empty_chunk_sets_full` — then the empty buffer is marked full.
-/

namespace LinkManagement.WriteBytes

open LinkManagement.CyclicArray LinkManagement.MachineInt LinkManagement.Chunks
open LinkManagement.Buffer LinkManagement.BufferRefinement

/-! ### Well-formed buffers -/

/-- The array has `max` cells, both pointers point to cells, and `full` is set only where they meet. -/
structure WellFormed (buf : CircularBuf) : Prop where
  cells : buf.buffer.length = buf.max
  head_lt : buf.head < buf.max
  tail_lt : buf.tail < buf.max
  full_imp : buf.full = true → buf.head = buf.tail

/-- The bytes between `tail` and `head`, oldest first. -/
def storedBytes (buf : CircularBuf) : List UInt8 := window buf.buffer buf.tail (storedCount buf)

theorem WellFormed.storedCount_le {buf : CircularBuf} (h : WellFormed buf) :
    storedCount buf ≤ buf.max := by
  have hhead := h.head_lt
  unfold storedCount
  split
  · exact Nat.le_refl _
  · exact (Nat.mod_lt _ (by omega)).le

theorem WellFormed.length_storedBytes {buf : CircularBuf} (h : WellFormed buf) :
    (storedBytes buf).length = storedCount buf :=
  length_window (h.storedCount_le.trans_eq h.cells.symm)

/-- **A well-formed buffer stores the bytes between its pointers.** -/
theorem WellFormed.represents {buf : CircularBuf} (h : WellFormed buf) :
    Represents buf (storedBytes buf) := by
  have hhead := h.head_lt
  have htail := h.tail_lt
  have hlen := h.length_storedBytes
  exact {
    cells := h.cells
    head_lt := hhead
    tail_lt := htail
    length_le := hlen.trans_le h.storedCount_le
    head_eq := by
      rw [hlen, storedCount]
      split
      · rw [Nat.add_mod_right, Nat.mod_eq_of_lt htail]
        exact h.full_imp ‹_›
      · rw [Nat.add_mod_mod, show buf.tail + (buf.head + buf.max - buf.tail) = buf.head + buf.max by omega,
          Nat.add_mod_right, Nat.mod_eq_of_lt hhead]
    stored := by
      rw [hlen]
      rfl
    full_iff := by
      rw [hlen, storedCount]
      split
      · exact iff_of_true ‹_› rfl
      · have hlt := Nat.mod_lt (buf.head + buf.max - buf.tail) (show 0 < buf.max by omega)
        exact iff_of_false ‹_› (by omega) }

theorem wellFormed_of_represents {buf : CircularBuf} {q : List UInt8} (h : Represents buf q) :
    WellFormed buf where
  cells := h.cells
  head_lt := h.head_lt
  tail_lt := h.tail_lt
  full_imp := fun hfull => h.head_eq_tail_iff.mpr (.inr (h.full_iff.mp hfull))

theorem storedBytes_eq {buf : CircularBuf} {q : List UInt8} (h : Represents buf q) :
    storedBytes buf = q := by
  rw [storedBytes, storedCount_eq h, h.stored]

/-! ### One byte -/

/-- The buffer after a call of `send_data_buffer` with one byte, with exact arithmetic. -/
def writeByte (buf : CircularBuf) (c : UInt8) : CircularBuf := buf.afterCopy [c]

/-- `buf->full = buf->head == buf->tail`. -/
def updateFull (buf : CircularBuf) : CircularBuf := { buf with full := buf.head == buf.tail }

@[simp] theorem writeByte_tail (buf : CircularBuf) (c : UInt8) : (writeByte buf c).tail = buf.tail := rfl

@[simp] theorem writeByte_max (buf : CircularBuf) (c : UInt8) : (writeByte buf c).max = buf.max := rfl

@[simp] theorem writeByte_head (buf : CircularBuf) (c : UInt8) :
    (writeByte buf c).head = (buf.head + 1) % buf.max := rfl

/-- A write computes `full` anew, so it takes no notice of what it was. -/
theorem writeByte_absorbs : Absorbs writeByte updateFull where
  before := fun _ _ => rfl
  after := fun _ _ => rfl
  idem := fun _ => rfl

theorem WellFormed.update {buf : CircularBuf} (h : WellFormed buf) : WellFormed (updateFull buf) where
  cells := h.cells
  head_lt := h.head_lt
  tail_lt := h.tail_lt
  full_imp := fun hfull => beq_iff_eq.mp hfull

theorem WellFormed.write {buf : CircularBuf} (h : WellFormed buf) (c : UInt8) :
    WellFormed (writeByte buf c) where
  cells := (length_overwrite (by rw [h.cells]; exact h.head_lt)).trans h.cells
  head_lt := Nat.mod_lt _ (Nat.zero_lt_of_lt h.head_lt)
  tail_lt := h.tail_lt
  full_imp := fun hfull => beq_iff_eq.mp hfull

/-! ### The bytes of one call -/

section Fold

variable {buf : CircularBuf} (data : List UInt8)

@[simp] theorem foldl_writeByte_tail (buf : CircularBuf) :
    (data.foldl writeByte buf).tail = buf.tail := by
  induction data generalizing buf with
  | nil => rfl
  | cons c cs ih => exact ih (writeByte buf c)

@[simp] theorem foldl_writeByte_max (buf : CircularBuf) :
    (data.foldl writeByte buf).max = buf.max := by
  induction data generalizing buf with
  | nil => rfl
  | cons c cs ih => exact ih (writeByte buf c)

theorem foldl_writeByte_head (hhead : buf.head < buf.max) :
    (data.foldl writeByte buf).head = (buf.head + data.length) % buf.max := by
  induction data generalizing buf with
  | nil => exact (Nat.mod_eq_of_lt hhead).symm
  | cons c cs ih =>
    rw [List.foldl_cons, ih (Nat.mod_lt _ (Nat.zero_lt_of_lt hhead)), writeByte_head, writeByte_max,
      Nat.mod_add_mod, List.length_cons]
    congr 1
    omega

theorem WellFormed.writeAll (h : WellFormed buf) : WellFormed (data.foldl writeByte buf) := by
  induction data generalizing buf with
  | nil => exact h
  | cons c cs ih => exact ih (h.write c)

theorem getElem?_foldl_writeByte {i : ℕ} (h : WellFormed buf)
    (hi : ∀ k < data.length, i ≠ (buf.head + k) % buf.max) :
    (data.foldl writeByte buf).buffer[i]? = buf.buffer[i]? := by
  induction data generalizing buf with
  | nil => rfl
  | cons c cs ih =>
    have hhead := h.head_lt
    have hcells := h.cells
    rw [List.foldl_cons, ih (h.write c) ?_]
    · have hne : i ≠ buf.head := by
        have hfirst := hi 0 (by simp)
        rw [Nat.add_zero, Nat.mod_eq_of_lt hhead] at hfirst
        exact hfirst
      show (overwrite buf.buffer buf.head [c])[i]? = buf.buffer[i]?
      rcases Nat.lt_or_gt_of_ne hne with hlt | hgt
      · exact getElem?_overwrite_of_lt (by omega) hlt
      · exact getElem?_overwrite_of_ge (by omega) hgt
    · intro k hk
      rw [writeByte_head, writeByte_max, Nat.mod_add_mod, Nat.add_assoc, Nat.add_comm 1 k]
      exact hi (k + 1) (by simpa using hk)

theorem represents_foldl_writeByte {q : List UInt8} (h : Represents buf q)
    (hfit : q.length + data.length ≤ buf.max) : Represents (data.foldl writeByte buf) (q ++ data) := by
  induction data generalizing buf q with
  | nil =>
    rw [List.append_nil]
    exact h
  | cons c cs ih =>
    rw [List.length_cons] at hfit
    have hbyte : Represents (writeByte buf c) (q ++ [c]) :=
      h.afterCopy [c] (Nat.le_refl 1) (show q.length + 1 ≤ _ by omega) (show buf.head + 1 ≤ _ from h.head_lt)
    have hroom : (q ++ [c]).length + cs.length ≤ (writeByte buf c).max := by
      rw [List.length_append, writeByte_max]
      show q.length + 1 + cs.length ≤ buf.max
      omega
    have hrest := ih hbyte hroom
    rw [List.append_assoc] at hrest
    exact hrest

end Fold

/-! ### One call -/

def afterCall (buf : CircularBuf) (data : List UInt8) : CircularBuf :=
  foldChunk writeByte updateFull buf data

theorem afterCall_append (buf : CircularBuf) (as bs : List UInt8) :
    afterCall (afterCall buf as) bs = afterCall buf (as ++ bs) :=
  writeByte_absorbs.foldChunk_append buf as bs

theorem WellFormed.afterCopy_nil {buf : CircularBuf} (h : WellFormed buf) :
    buf.afterCopy [] = updateFull buf := by
  have hhead : (buf.head + 0) % buf.max = buf.head := Nat.mod_eq_of_lt h.head_lt
  rw [CircularBuf.afterCopy, overwrite_nil, List.length_nil, hhead]
  rfl

/-- A copy of bytes is the copy of the first and the copy of the others behind it. -/
theorem WellFormed.afterCopy_cons {buf : CircularBuf} (h : WellFormed buf) {c : UInt8}
    {cs : List UInt8} (hend : buf.head + (cs.length + 1) ≤ buf.max) :
    buf.afterCopy (c :: cs) = (writeByte buf c).afterCopy cs := by
  have hnext : ((buf.head + 1) % buf.max + cs.length) % buf.max =
      (buf.head + (cs.length + 1)) % buf.max := by
    rw [Nat.mod_add_mod, Nat.add_assoc, Nat.add_comm 1]
  have hcells : overwrite (overwrite buf.buffer buf.head [c]) ((buf.head + 1) % buf.max) cs =
      overwrite buf.buffer buf.head (c :: cs) := by
    cases cs with
    | nil => exact overwrite_nil _ _
    | cons d ds =>
      rw [List.length_cons] at hend
      rw [Nat.mod_eq_of_lt (by omega), overwrite_cons (by rw [h.cells]; exact h.head_lt)]
  rw [CircularBuf.afterCopy, CircularBuf.afterCopy, writeByte_head, writeByte_max, writeByte_tail,
    hnext, ← hcells]
  rfl

/-- **A copy up to the end of the array** writes its bytes one by one. -/
theorem WellFormed.afterCopy_eq {buf : CircularBuf} (h : WellFormed buf) {data : List UInt8}
    (hend : buf.head + data.length ≤ buf.max) :
    buf.afterCopy data = afterCall buf data := by
  induction data generalizing buf with
  | nil => exact h.afterCopy_nil
  | cons c cs ih =>
    rw [List.length_cons] at hend
    rw [h.afterCopy_cons hend]
    apply ih (h.write c)
    rw [writeByte_head, writeByte_max]
    rcases Nat.eq_zero_or_pos cs.length with hzero | hpos
    · rw [hzero]
      exact (h.write c).head_lt.le
    · rw [Nat.mod_eq_of_lt (by omega)]
      omega

theorem WellFormed.call {buf : CircularBuf} (h : WellFormed buf) (data : List UInt8) :
    WellFormed (afterCall buf data) := (h.writeAll data).update

@[simp] theorem afterCall_max (buf : CircularBuf) (data : List UInt8) :
    (afterCall buf data).max = buf.max := foldl_writeByte_max data buf

/-- **`send_data_buffer` writes its bytes one by one**, through all its splits; one level of recursion
for each byte is enough. -/
theorem sendDataBufferFuel_eq (z : SizeT) (fuel : ℕ) :
    ∀ {data : List UInt8} {buf : CircularBuf}, WellFormed buf → buf.max ≤ intMax →
      data.length ≤ intMax → data.length < fuel →
      sendDataBufferFuel z fuel data buf = some (afterCall buf data) := by
  induction fuel with
  | zero =>
    intro data buf _ _ _ hfuel
    omega
  | succ fuel ih =>
    intro data buf h hmax hlen hfuel
    have hm : buf.max ≤ 2 ^ 31 - 1 := hmax
    have hl : data.length ≤ 2 ^ 31 - 1 := hlen
    have hhead := h.head_lt
    rw [sendDataBufferFuel, z.add_eq (by omega)]
    by_cases hover : data.length + buf.head > buf.max
    · -- both parts are shorter: the first ends at the end of the array, and it is not empty
      have hfirst : (data.take (buf.max - buf.head)).length = buf.max - buf.head := by
        rw [List.length_take]
        omega
      have hsecond : (data.drop (buf.max - buf.head)).length = data.length - (buf.max - buf.head) :=
        List.length_drop
      have hrest : sendDataBufferFuel z fuel (data.drop (buf.max - buf.head))
          (afterCall buf (data.take (buf.max - buf.head))) =
          some (afterCall (afterCall buf (data.take (buf.max - buf.head)))
            (data.drop (buf.max - buf.head))) :=
        ih (h.call _) (by rw [afterCall_max]; exact hmax) (by omega) (by omega)
      have hpart : sendDataBufferFuel z fuel (data.take (buf.max - buf.head)) buf =
          some (afterCall buf (data.take (buf.max - buf.head))) :=
        ih h hmax (by omega) (by omega)
      rw [if_pos hover, h.represents.splitParts_eq z hmax hover, Option.bind_some, hpart,
        Option.bind_some, hrest, afterCall_append, List.take_append_drop]
    · rw [if_neg hover, h.represents.copyAndAdvance_eq z hmax (by omega), h.afterCopy_eq (by omega)]

theorem sendDataBuffer_eq (z : SizeT) {data : List UInt8} {buf : CircularBuf} (h : WellFormed buf)
    (hmax : buf.max ≤ intMax) (hlen : data.length ≤ intMax) :
    sendDataBuffer z data buf = some (afterCall buf data) :=
  sendDataBufferFuel_eq z _ h hmax hlen (Nat.lt_succ_self _)

/-! ### Data cut into calls -/

/-- The calls of `send_data_buffer` for the chunks, one after the other, each with `fuel` levels of
recursion. -/
def sendChunks (z : SizeT) (fuel : ℕ) (chunks : List (List UInt8)) (buf : CircularBuf) :
    Option CircularBuf :=
  chunks.foldlM (fun buf chunk => sendDataBufferFuel z fuel chunk buf) buf

/-- A call of `send_data_buffer` for each byte. -/
def sendBytes (z : SizeT) (bytes : List UInt8) (buf : CircularBuf) : Option CircularBuf :=
  bytes.foldlM (fun buf c => sendDataBuffer z [c] buf) buf

/-- The calls for the chunks return, with no access outside the array, and leave the buffer that the
single bytes leave. -/
def ChunksAsBytes (z : SizeT) (buf : CircularBuf) (chunks : List (List UInt8)) : Prop :=
  ∃ buf', (∀ fuel, (∀ c ∈ chunks, c.length < fuel) → sendChunks z fuel chunks buf = some buf') ∧
    sendBytes z chunks.flatten buf = some buf'

theorem sendChunks_eq (z : SizeT) {chunks : List (List UInt8)} {buf : CircularBuf} {fuel : ℕ}
    (h : WellFormed buf) (hmax : buf.max ≤ intMax) (hlen : ∀ c ∈ chunks, c.length ≤ intMax)
    (hfuel : ∀ c ∈ chunks, c.length < fuel) :
    sendChunks z fuel chunks buf =
      some (chunks.foldl afterCall buf) := by
  have hcall : ∀ (b : CircularBuf) (c : List UInt8), (WellFormed b ∧ b.max ≤ intMax) →
      (c.length ≤ intMax ∧ c.length < fuel) →
      sendDataBufferFuel z fuel c b = some (afterCall b c) ∧
        WellFormed (afterCall b c) ∧
        (afterCall b c).max ≤ intMax := by
    intro b c hb hc
    refine ⟨sendDataBufferFuel_eq z fuel hb.1 hb.2 hc.1 hc.2, hb.1.call c, ?_⟩
    rw [afterCall_max]
    exact hb.2
  exact (foldlM_eq_some hcall (fun c hc => ⟨hlen c hc, hfuel c hc⟩) ⟨h, hmax⟩).1

theorem sendBytes_eq (z : SizeT) {bytes : List UInt8} {buf : CircularBuf} (h : WellFormed buf)
    (hmax : buf.max ≤ intMax) : sendBytes z bytes buf = some (bytes.foldl writeByte buf) := by
  have hcall : ∀ (b : CircularBuf) (c : UInt8), (WellFormed b ∧ b.max ≤ intMax) → True →
      sendDataBuffer z [c] b = some (writeByte b c) ∧
        WellFormed (writeByte b c) ∧ (writeByte b c).max ≤ intMax := by
    intro b c hb _
    refine ⟨?_, hb.1.write c, hb.2⟩
    have hone : ([c] : List UInt8).length ≤ intMax := show 1 ≤ intMax by decide
    rw [sendDataBuffer_eq z hb.1 hb.2 hone]
    rfl
  exact (foldlM_eq_some hcall (fun _ _ => trivial) ⟨h, hmax⟩).1

theorem WellFormed.updateFull_eq_iff {buf : CircularBuf} (h : WellFormed buf) :
    updateFull buf = buf ↔ ¬ (buf.head = buf.tail ∧ buf.full = false) := by
  have hiff : updateFull buf = buf ↔ (buf.head == buf.tail) = buf.full := by
    constructor
    · intro heq
      exact congrArg CircularBuf.full heq
    · intro hfull
      rw [updateFull, hfull]
  rw [hiff]
  cases hf : buf.full with
  | true => simp [h.full_imp hf]
  | false => simp

/-- **How data is cut into calls does not matter**, unless there are calls, all of them are empty, and
so is the buffer. -/
theorem chunks_as_bytes_iff (z : SizeT) (buf : CircularBuf) (h : WellFormed buf)
    (hmax : buf.max ≤ intMax) (chunks : List (List UInt8)) (htotal : chunks.flatten.length < 2 ^ 31) :
    ChunksAsBytes z buf chunks ↔
      ¬ (chunks ≠ [] ∧ (∀ c ∈ chunks, c = []) ∧ buf.head = buf.tail ∧ buf.full = false) := by
  have hlen : ∀ c ∈ chunks, c.length ≤ intMax := by
    intro c hc
    have hle := (List.sublist_flatten_of_mem hc).length_le
    show c.length ≤ 2 ^ 31 - 1
    omega
  have hfuel : ∀ c ∈ chunks, c.length < 2 ^ 31 := fun c hc =>
    Nat.lt_of_le_of_lt (hlen c hc) (by decide)
  have hiff : ChunksAsBytes z buf chunks ↔
      chunks.foldl afterCall buf = chunks.flatten.foldl writeByte buf := by
    constructor
    · intro ⟨buf', hchunks, hbytes⟩
      have hc := hchunks _ hfuel
      rw [sendChunks_eq z h hmax hlen hfuel] at hc
      rw [sendBytes_eq z h hmax] at hbytes
      exact (Option.some.inj hc).trans (Option.some.inj hbytes).symm
    · intro heq
      refine ⟨chunks.flatten.foldl writeByte buf, fun fuel hf => ?_, sendBytes_eq z h hmax⟩
      rw [sendChunks_eq z h hmax hlen hf, heq]
  have hcuts : chunks.foldl afterCall buf = chunks.flatten.foldl writeByte buf ↔
      chunks = [] ∨ chunks.flatten ≠ [] ∨ updateFull buf = buf :=
    writeByte_absorbs.foldl_chunks_eq_iff buf chunks
  rw [hiff, hcuts, h.updateFull_eq_iff, ne_eq, List.flatten_eq_nil_iff]
  tauto

/-- **A call without bytes marks an empty buffer full**: no room is left in a buffer that stores
nothing. -/
theorem empty_chunk_sets_full :
    WellFormed (initBuffer 4 fun _ => 0) ∧
      ¬ ChunksAsBytes ⟨64, by decide⟩ (initBuffer 4 fun _ => 0) [[]] ∧
      ∃ buf, sendDataBuffer ⟨64, by decide⟩ [] (initBuffer 4 fun _ => 0) = some buf ∧
        buf.full = true ∧ getSpace ⟨64, by decide⟩ buf = 0 := by
  refine ⟨⟨rfl, by decide, by decide, fun h => nomatch h⟩, ?_, ⟨[0, 0, 0, 0], 0, 0, 4, true⟩,
    by decide +kernel, rfl, rfl⟩
  intro ⟨buf, hchunks, hbytes⟩
  have hcall : sendChunks ⟨64, by decide⟩ 1 [[]] (initBuffer 4 fun _ => 0) =
      some ⟨[0, 0, 0, 0], 0, 0, 4, true⟩ := by decide +kernel
  have hnone : sendBytes ⟨64, by decide⟩ [] (initBuffer 4 fun _ => 0) =
      some ⟨[0, 0, 0, 0], 0, 0, 4, false⟩ := by decide +kernel
  have hfull := (hchunks 1 (by simp)).symm.trans hcall
  have hnot := hbytes.symm.trans hnone
  rw [hfull] at hnot
  cases hnot

/-- One call without bytes and one with a byte, on the empty buffer of four cells. -/
theorem chunks_as_bytes_iff_one_byte :
    ChunksAsBytes ⟨64, by decide⟩ (initBuffer 4 fun _ => 0) [[], [7]] ↔
      ¬ (([[], [7]] : List (List UInt8)) ≠ [] ∧ (∀ c ∈ ([[], [7]] : List (List UInt8)), c = []) ∧
        (initBuffer 4 fun _ => 0).head = (initBuffer 4 fun _ => 0).tail ∧
        (initBuffer 4 fun _ => 0).full = false) :=
  chunks_as_bytes_iff ⟨64, by decide⟩ (initBuffer 4 fun _ => 0)
    ⟨rfl, by decide, by decide, fun h => nomatch h⟩ (by decide) [[], [7]] (by decide)

end LinkManagement.WriteBytes
