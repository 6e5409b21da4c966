import LinkManagement.Lib.CyclicArray
import LinkManagement.Lib.MachineInt

/-!
# The circular buffer of the video server

`VideoServer/src/buffer.c`, function by function.  `head` points to the cell the next byte goes to,
`tail` to the cell the next byte is read from, and `full` tells the two apart when they meet.  `head`,
`tail` and `max` are `size_t` words; lengths and the results of `get_space` and `fill_level` are `int`.
The word size is a parameter `z`, and every sum, difference and conversion is the machine's.

An access outside the array, a remainder by `max = 0` and a negative length of a part have no defined
behaviour in the source; the functions then give `none`.

`Represents buf q` says that the buffer stores the bytes `q`; each function has one lemma about it.
-/

namespace LinkManagement.Buffer

open LinkManagement.CyclicArray LinkManagement.MachineInt

/-- `struct circular_buf_t`. -/
structure CircularBuf where
  buffer : List UInt8
  head : ℕ
  tail : ℕ
  max : ℕ
  full : Bool
  deriving DecidableEq

/-- `init_buffer`: the cells hold whatever the allocated memory held. -/
def initBuffer (size : ℕ) (heap : ℕ → UInt8) : CircularBuf :=
  ⟨(List.range size).map heap, 0, 0, size, false⟩

/-- `memcpy(&(buf->buffer[i]), data, dataLen)`. -/
def memcpy (cells : List UInt8) (i : ℕ) (data : List UInt8) : Option (List UInt8) :=
  if i + data.length ≤ cells.length then some (overwrite cells i data) else none

/-- The `else` branch of `send_data_buffer`: copy the data, advance `head`, compute `full`. -/
def copyAndAdvance (z : SizeT) (data : List UInt8) (buf : CircularBuf) : Option CircularBuf :=
  if buf.max = 0 then none
  else
    (memcpy buf.buffer buf.head data).map fun cells =>
      let head := z.add buf.head data.length % buf.max
      { buf with buffer := cells, head := head, full := head == buf.tail }

/-- The two parts that `send_data_buffer` cuts the data into: up to the end of the array, and the
rest.  A first length outside `0 .. dataLen` would read past the data. -/
def splitParts (z : SizeT) (data : List UInt8) (buf : CircularBuf) :
    Option (List UInt8 × List UInt8) :=
  let split := narrow (z.sub buf.max buf.head)
  if 0 ≤ split ∧ split ≤ data.length then some (data.take split.toNat, data.drop split.toNat)
  else none

/-- `send_data_buffer`, with a bound on the depth of its recursion; `dataLen` is the length of
`data`. -/
def sendDataBufferFuel (z : SizeT) : ℕ → List UInt8 → CircularBuf → Option CircularBuf
  | 0, _, _ => none
  | fuel + 1, data, buf =>
      if z.add data.length buf.head > buf.max then
        (splitParts z data buf).bind fun parts =>
          (sendDataBufferFuel z fuel parts.1 buf).bind fun buf =>
            sendDataBufferFuel z fuel parts.2 buf
      else copyAndAdvance z data buf

def sendDataBuffer (z : SizeT) (data : List UInt8) (buf : CircularBuf) : Option CircularBuf :=
  sendDataBufferFuel z (data.length + 1) data buf

/-- `read_data_buffer`: the byte it stores through `data`, and the buffer after it. -/
def readDataBuffer (z : SizeT) (buf : CircularBuf) : Option (UInt8 × CircularBuf) :=
  if buf.max = 0 then none
  else
    buf.buffer[buf.tail]?.map fun c =>
      (c, { buf with tail := z.add buf.tail 1 % buf.max, full := false })

/-- The two return expressions of `get_space` for a buffer that is not full; `wrapped` is the outcome
of the test `buf->head < buf->tail`. -/
def spaceExpr (z : SizeT) (max : ℕ) (wrapped : Bool) (head tail : ℕ) : ℤ :=
  if wrapped then narrow (z.sub max (z.sub (z.add head max) tail))
  else narrow (z.sub max (z.sub head tail))

def getSpace (z : SizeT) (buf : CircularBuf) : ℤ :=
  if buf.full then 0
  else spaceExpr z buf.max (decide (buf.head < buf.tail)) buf.head buf.tail

/-- `fill_level`: the subtraction is one of `size_t` words. -/
def fillLevel (z : SizeT) (buf : CircularBuf) : ℤ := narrow (z.sub buf.max (z.ofInt (getSpace z buf)))

/-- `buffer_is_empty`: the `int` is converted to `size_t` for the comparison. -/
def bufferIsEmpty (z : SizeT) (buf : CircularBuf) : Bool := z.ofInt (getSpace z buf) == buf.max

/-! ### What a buffer stores -/

/-- The buffer stores the bytes `q`, oldest first. -/
structure Represents (buf : CircularBuf) (q : List UInt8) : Prop where
  cells : buf.buffer.length = buf.max
  head_lt : buf.head < buf.max
  tail_lt : buf.tail < buf.max
  length_le : q.length ≤ buf.max
  head_eq : buf.head = (buf.tail + q.length) % buf.max
  stored : window buf.buffer buf.tail q.length = q
  full_iff : buf.full = true ↔ q.length = buf.max

theorem initBuffer_represents (size : ℕ) (heap : ℕ → UInt8) (h : 1 ≤ size) :
    Represents (initBuffer size heap) [] where
  cells := by simp [initBuffer]
  head_lt := h
  tail_lt := h
  length_le := Nat.zero_le _
  head_eq := by simp [initBuffer]
  stored := rfl
  full_iff := by
    show false = true ↔ 0 = size
    constructor
    · intro h'
      cases h'
    · intro h'
      omega

theorem eq_of_add_mod_iff {t k m : ℕ} (ht : t < m) (hk : k ≤ m) :
    (t + k) % m = t ↔ k = 0 ∨ k = m := by
  rw [mod_of_lt_two_mul (show t + k < 2 * m by omega)]
  split <;> omega

theorem Represents.head_eq_tail_iff {buf : CircularBuf} {q : List UInt8} (h : Represents buf q) :
    buf.head = buf.tail ↔ q.length = 0 ∨ q.length = buf.max := by
  rw [h.head_eq]
  exact eq_of_add_mod_iff h.tail_lt h.length_le

/-! ### Space and fill level -/

theorem spaceExpr_wrapped (z : SizeT) (max head tail : ℕ) :
    spaceExpr z max true head tail = narrow ((tail : ℤ) - head) := by
  rw [spaceExpr, if_pos rfl, z.narrow_sub_add_sub]
  congr 1
  ring

theorem spaceExpr_straight (z : SizeT) (max head tail : ℕ) :
    spaceExpr z max false head tail = narrow ((max : ℤ) - (head - tail)) := by
  rw [spaceExpr, if_neg Bool.false_ne_true, z.narrow_sub_sub]

/-- **`get_space` is exact**: the capacity less the number of stored bytes. -/
theorem Represents.getSpace_eq {buf : CircularBuf} {q : List UInt8} (h : Represents buf q)
    (z : SizeT) (hmax : buf.max ≤ intMax) : getSpace z buf = (buf.max : ℤ) - q.length := by
  have hm : buf.max ≤ 2 ^ 31 - 1 := hmax
  have hhead := h.head_lt
  have htail := h.tail_lt
  have hlen := h.length_le
  have hmod := h.head_eq
  rw [mod_of_lt_two_mul (show buf.tail + q.length < 2 * buf.max by omega)] at hmod
  unfold getSpace
  by_cases hfull : buf.full = true
  · rw [if_pos hfull, h.full_iff.mp hfull]
    omega
  · have hnot : q.length ≠ buf.max := fun he => hfull (h.full_iff.mpr he)
    rw [if_neg hfull]
    by_cases hw : buf.head < buf.tail
    · rw [decide_eq_true hw, spaceExpr_wrapped, narrow_eq (by omega) (by omega)]
      split at hmod <;> omega
    · rw [decide_eq_false hw, spaceExpr_straight, narrow_eq (by omega) (by omega)]
      split at hmod <;> omega

theorem Represents.bufferIsEmpty_iff {buf : CircularBuf} {q : List UInt8} (h : Represents buf q)
    (z : SizeT) (hmax : buf.max ≤ intMax) : bufferIsEmpty z buf = true ↔ q = [] := by
  have hm : buf.max ≤ 2 ^ 31 - 1 := hmax
  have hlen := h.length_le
  rw [bufferIsEmpty, beq_iff_eq, h.getSpace_eq z hmax,
    z.ofInt_eq_iff (by omega) (by omega) (by omega), ← List.length_eq_zero_iff]
  omega

/-! ### Reading -/

def CircularBuf.afterRead (buf : CircularBuf) : CircularBuf :=
  { buf with tail := (buf.tail + 1) % buf.max, full := false }

theorem Represents.afterRead {buf : CircularBuf} {c : UInt8} {q : List UInt8}
    (h : Represents buf (c :: q)) : buf.buffer[buf.tail]? = some c ∧ Represents buf.afterRead q := by
  have htail := h.tail_lt
  have hcells := h.cells
  have hlen := h.length_le
  have hmod := h.head_eq
  have hst := h.stored
  rw [List.length_cons] at hlen hmod hst
  obtain ⟨d, hd⟩ : ∃ d, buf.buffer[buf.tail]? = some d :=
    ⟨_, List.getElem?_eq_getElem (by omega)⟩
  rw [window_eq_cons (by omega) (by omega) hd, hcells] at hst
  obtain ⟨rfl, hq⟩ := List.cons.inj hst
  refine ⟨hd, ?_⟩
  exact {
    cells := hcells
    head_lt := h.head_lt
    tail_lt := Nat.mod_lt _ (by omega)
    length_le := Nat.le_of_succ_le hlen
    head_eq := by
      show buf.head = ((buf.tail + 1) % buf.max + q.length) % buf.max
      rw [hmod, Nat.mod_add_mod]
      congr 1
      omega
    stored := hq
    full_iff := by
      show false = true ↔ q.length = buf.max
      constructor
      · intro h'
        cases h'
      · intro h'
        omega }

/-- **Reading takes the oldest byte.** -/
theorem Represents.readDataBuffer_eq {buf : CircularBuf} {c : UInt8} {q : List UInt8}
    (h : Represents buf (c :: q)) (z : SizeT) (hmax : buf.max ≤ intMax) :
    readDataBuffer z buf = some (c, buf.afterRead) := by
  have hm : buf.max ≤ 2 ^ 31 - 1 := hmax
  have htail := h.tail_lt
  rw [readDataBuffer, if_neg (by omega), h.afterRead.1, z.add_eq (by omega)]
  rfl

/-! ### Writing -/

/-- The buffer after the `else` branch of `send_data_buffer`, with exact arithmetic. -/
def CircularBuf.afterCopy (buf : CircularBuf) (data : List UInt8) : CircularBuf :=
  { buf with
    buffer := overwrite buf.buffer buf.head data
    head := (buf.head + data.length) % buf.max
    full := (buf.head + data.length) % buf.max == buf.tail }

/-- **A copy that does not reach past the end of the array appends its bytes.**  The data is not
empty: `full` is computed as `head == tail`, which after an empty copy also holds of an empty buffer. -/
theorem Represents.afterCopy {buf : CircularBuf} {q : List UInt8} (h : Represents buf q)
    (data : List UInt8) (hpos : 1 ≤ data.length) (hfit : q.length + data.length ≤ buf.max)
    (hend : buf.head + data.length ≤ buf.max) : Represents (buf.afterCopy data) (q ++ data) := by
  have htail := h.tail_lt
  have hcells := h.cells
  have hnew : (buf.head + data.length) % buf.max = (buf.tail + (q ++ data).length) % buf.max := by
    rw [h.head_eq, Nat.mod_add_mod, List.length_append, Nat.add_assoc]
  exact {
    cells := (length_overwrite (by omega)).trans hcells
    head_lt := Nat.mod_lt _ (by omega)
    tail_lt := htail
    length_le := by
      rw [List.length_append]
      exact hfit
    head_eq := hnew
    stored := by
      rw [List.length_append]
      show window (overwrite buf.buffer buf.head data) buf.tail (q.length + data.length) = q ++ data
      rw [window_overwrite_append (by omega) (by rw [hcells]; exact h.head_eq) (by omega) (by omega),
        h.stored]
    full_iff := by
      show ((buf.head + data.length) % buf.max == buf.tail) = true ↔ _
      rw [beq_iff_eq, hnew, eq_of_add_mod_iff htail (by simpa using hfit), List.length_append]
      show _ ↔ q.length + data.length = buf.max
      omega }

theorem Represents.copyAndAdvance_eq {buf : CircularBuf} {q data : List UInt8}
    (h : Represents buf q) (z : SizeT) (hmax : buf.max ≤ intMax)
    (hend : buf.head + data.length ≤ buf.max) :
    copyAndAdvance z data buf = some (buf.afterCopy data) := by
  have hm : buf.max ≤ 2 ^ 31 - 1 := hmax
  have hcells := h.cells
  have htail := h.tail_lt
  rw [copyAndAdvance, if_neg (by omega), memcpy, if_pos (by omega), z.add_eq (by omega)]
  rfl

theorem splitParts_append {z : SizeT} {data : List UInt8} {buf : CircularBuf}
    {p : List UInt8 × List UInt8} (h : splitParts z data buf = some p) : p.1 ++ p.2 = data := by
  simp only [splitParts] at h
  generalize narrow _ = split at h
  split at h
  · cases h
    exact List.take_append_drop _ _
  · cases h

theorem Represents.splitParts_eq {buf : CircularBuf} {q data : List UInt8} (h : Represents buf q)
    (z : SizeT) (hmax : buf.max ≤ intMax) (hover : buf.max < data.length + buf.head) :
    splitParts z data buf = some (data.take (buf.max - buf.head), data.drop (buf.max - buf.head)) := by
  have hm : buf.max ≤ 2 ^ 31 - 1 := hmax
  have hhead := h.head_lt
  have hs : narrow (z.sub buf.max buf.head) = ((buf.max - buf.head : ℕ) : ℤ) := by
    rw [z.sub_eq (by omega) (by omega), narrow_eq (by omega) (by omega)]
  rw [splitParts, hs, if_pos (by omega), Int.toNat_natCast]

theorem sendDataBufferFuel_straight (z : SizeT) (data : List UInt8) (buf : CircularBuf) (fuel : ℕ)
    (h : data.length + buf.head ≤ buf.max) (hmax : buf.max ≤ intMax) :
    sendDataBufferFuel z (fuel + 1) data buf = copyAndAdvance z data buf := by
  have hm : buf.max ≤ 2 ^ 31 - 1 := hmax
  rw [sendDataBufferFuel, z.add_eq (by omega), if_neg (by omega)]

/-- **`send_data_buffer` appends**, whether or not it has to split, and two levels of recursion are
enough. -/
theorem Represents.sendDataBufferFuel {buf : CircularBuf} {q data : List UInt8}
    (h : Represents buf q) (z : SizeT) (hmax : buf.max ≤ intMax) (hpos : 1 ≤ data.length)
    (hfit : q.length + data.length ≤ buf.max) :
    ∃ buf', (∀ fuel, sendDataBufferFuel z (fuel + 2) data buf = some buf') ∧
      Represents buf' (q ++ data) ∧ buf'.max = buf.max := by
  have hm : buf.max ≤ 2 ^ 31 - 1 := hmax
  have hhead := h.head_lt
  by_cases hover : data.length + buf.head > buf.max
  · obtain ⟨d₁, d₂, hd₁, hd₂⟩ : ∃ d₁ d₂, d₁ = data.take (buf.max - buf.head) ∧
        d₂ = data.drop (buf.max - buf.head) := ⟨_, _, rfl, rfl⟩
    have hl₁ : d₁.length = buf.max - buf.head := by
      rw [hd₁, List.length_take]
      omega
    have hl₂ : d₂.length = data.length - (buf.max - buf.head) := by rw [hd₂, List.length_drop]
    have hdata : d₁ ++ d₂ = data := by rw [hd₁, hd₂, List.take_append_drop]
    -- the first part ends exactly at the end of the array, the second starts at cell 0
    have hr₁ := h.afterCopy d₁ (by omega) (by omega) (by omega)
    have hzero : (buf.afterCopy d₁).head = 0 := by
      show (buf.head + d₁.length) % buf.max = 0
      rw [show buf.head + d₁.length = buf.max by omega, Nat.mod_self]
    have hmax₁ : (buf.afterCopy d₁).max = buf.max := rfl
    have hr₂ := hr₁.afterCopy d₂ (by omega) (by rw [List.length_append]; omega) (by omega)
    refine ⟨(buf.afterCopy d₁).afterCopy d₂, fun fuel => ?_,
      by rw [← hdata, ← List.append_assoc]; exact hr₂, rfl⟩
    rw [Buffer.sendDataBufferFuel, z.add_eq (by omega), if_pos hover, h.splitParts_eq z hmax hover,
      ← hd₁, ← hd₂, Option.bind_some]
    dsimp only
    rw [sendDataBufferFuel_straight z d₁ buf fuel (by omega) hmax, h.copyAndAdvance_eq z hmax (by omega),
      Option.bind_some, sendDataBufferFuel_straight z d₂ (buf.afterCopy d₁) fuel (by omega) hmax,
      hr₁.copyAndAdvance_eq z hmax (by omega)]
  · refine ⟨buf.afterCopy data, fun fuel => ?_, h.afterCopy data hpos hfit (by omega), rfl⟩
    rw [sendDataBufferFuel_straight z data buf _ (by omega) hmax, h.copyAndAdvance_eq z hmax (by omega)]

theorem Represents.sendDataBuffer {buf : CircularBuf} {q data : List UInt8} (h : Represents buf q)
    (z : SizeT) (hmax : buf.max ≤ intMax) (hpos : 1 ≤ data.length)
    (hfit : q.length + data.length ≤ buf.max) :
    ∃ buf', sendDataBuffer z data buf = some buf' ∧ Represents buf' (q ++ data) ∧
      buf'.max = buf.max := by
  obtain ⟨buf', hcall, hrep, hsize⟩ := h.sendDataBufferFuel z hmax hpos hfit
  obtain ⟨fuel, hfuel⟩ := Nat.exists_eq_add_of_le' hpos
  refine ⟨buf', ?_, hrep, hsize⟩
  rw [Buffer.sendDataBuffer, hfuel]
  exact hcall fuel

/-! ### The stores of a call one by one -/

theorem Represents.full_eq_false {buf : CircularBuf} {q : List UInt8} (h : Represents buf q)
    (hlt : q.length < buf.max) : buf.full = false := by
  rw [← Bool.not_eq_true, h.full_iff]
  omega

theorem Represents.head_eq_tail_iff_nil {buf : CircularBuf} {q : List UInt8} (h : Represents buf q)
    (hlt : q.length < buf.max) : buf.head = buf.tail ↔ q = [] := by
  rw [h.head_eq_tail_iff, ← List.length_eq_zero_iff]
  omega

theorem Represents.copyBehind {buf : CircularBuf} {q data : List UInt8} (h : Represents buf q)
    (hfit : q.length + data.length ≤ buf.max) (hend : buf.head + data.length ≤ buf.max) :
    Represents { buf with buffer := overwrite buf.buffer buf.head data } q where
  cells := (length_overwrite (by rw [h.cells]; exact hend)).trans h.cells
  head_lt := h.head_lt
  tail_lt := h.tail_lt
  length_le := h.length_le
  head_eq := h.head_eq
  stored := by
    have hcells := h.cells
    refine (window_overwrite ?_ ?_ ?_ ?_).trans h.stored
    · rw [hcells]
      exact h.tail_lt
    · rw [hcells]
      exact h.head_eq
    · omega
    · omega
  full_iff := h.full_iff

/-- The store of `head` publishes what was copied to the cells from it on. -/
theorem Represents.publish {buf : CircularBuf} {q data : List UInt8} (h : Represents buf q)
    (hcopied : window buf.buffer buf.head data.length = data)
    (hfit : q.length + data.length < buf.max) :
    Represents { buf with head := (buf.head + data.length) % buf.max } (q ++ data) where
  cells := h.cells
  head_lt := Nat.mod_lt _ (by omega)
  tail_lt := h.tail_lt
  length_le := by
    rw [List.length_append]
    exact hfit.le
  head_eq := by
    show (buf.head + data.length) % buf.max = _
    rw [h.head_eq, Nat.mod_add_mod, List.length_append, Nat.add_assoc]
  stored := by
    have hcells := h.cells
    rw [List.length_append]
    show window buf.buffer buf.tail (q.length + data.length) = q ++ data
    rw [window_append (by omega), hcells, ← h.head_eq, h.stored, hcopied]
  full_iff := by
    rw [h.full_iff, List.length_append]
    show q.length = buf.max ↔ q.length + data.length = buf.max
    omega

/-- The store of `tail` takes the oldest byte; `full` is not set, so its store changes nothing. -/
theorem Represents.pop {buf : CircularBuf} {c : UInt8} {q : List UInt8}
    (h : Represents buf (c :: q)) (hlt : (c :: q).length < buf.max) :
    Represents { buf with tail := (buf.tail + 1) % buf.max } q := by
  have hread := h.afterRead.2
  rw [CircularBuf.afterRead, ← h.full_eq_false hlt] at hread
  exact hread

end LinkManagement.Buffer
