import LinkManagement.Video.SendPacket
import LinkManagement.Video.WriteBytes

/-!
# Storing one packet

`send_packet_buffer` of `VideoServer/src/server.c` as a whole, from any well-formed buffer and with a
packet of any length that an `unsigned short` can hold.  Its room check is made once, before the two
calls of `send_data_buffer`, each of which may split.  `sendPacketBuffer_eq` says what it computes;
`packet_all_or_nothing` that it stores the whole frame behind the unread bytes, or changes nothing.
-/

namespace LinkManagement.StorePacket

open LinkManagement.CyclicArray LinkManagement.MachineInt LinkManagement.Buffer
open LinkManagement.BufferRefinement LinkManagement.SendPacket LinkManagement.WriteBytes

/-- The bytes are appended to those stored: `head` moves behind them, no unread byte is overwritten, and
`tail` and every cell that is not one of theirs stay as they were. -/
structure Appends (buf : CircularBuf) (bytes : List UInt8) (buf' : CircularBuf) : Prop where
  wellFormed : WellFormed buf'
  stored : storedBytes buf' = storedBytes buf ++ bytes
  head : buf'.head = (buf.head + bytes.length) % buf.max
  tail : buf'.tail = buf.tail
  max : buf'.max = buf.max
  unread : ∀ j < storedCount buf,
    buf'.buffer[(buf.tail + j) % buf.max]? = buf.buffer[(buf.tail + j) % buf.max]?
  outside : ∀ i, (∀ k < bytes.length, i ≠ (buf.head + k) % buf.max) →
    buf'.buffer[i]? = buf.buffer[i]?

/-- **Bytes for which there is room are appended**, however their write is split. -/
theorem appends_foldl_writeByte {buf : CircularBuf} (h : WellFormed buf) {bytes : List UInt8}
    (hfit : storedCount buf + bytes.length ≤ buf.max) :
    Appends buf bytes (bytes.foldl writeByte buf) := by
  have htail := h.tail_lt
  have hlen := h.length_storedBytes
  have houtside : ∀ i, (∀ k < bytes.length, i ≠ (buf.head + k) % buf.max) →
      (bytes.foldl writeByte buf).buffer[i]? = buf.buffer[i]? :=
    fun i hi => getElem?_foldl_writeByte bytes h hi
  exact {
    wellFormed := h.writeAll bytes
    stored := storedBytes_eq (represents_foldl_writeByte bytes h.represents (by omega))
    head := foldl_writeByte_head bytes h.head_lt
    tail := foldl_writeByte_tail bytes buf
    max := foldl_writeByte_max bytes buf
    unread := by
      intro j hj
      apply houtside
      intro k hk heq
      rw [h.represents.head_eq, hlen, Nat.mod_add_mod, Nat.add_assoc,
        add_mod_eq_iff htail (by omega) (by omega)] at heq
      omega
    outside := houtside }

theorem sendPacketBuffer_eq (z : SizeT) (o : ByteOrder) {buf : CircularBuf} (h : WellFormed buf)
    (hmax : buf.max ≤ intMax) {data : List UInt8} (hdata : data.length ≤ 65535) :
    sendPacketBuffer z o data buf =
      some (if storedCount buf + data.length + 2 < buf.max then
        (frameBytes o data).foldl writeByte buf else buf) := by
  have hspace := h.represents.getSpace_eq z hmax
  rw [h.length_storedBytes] at hspace
  rw [sendPacketBuffer]
  by_cases hroom : storedCount buf + data.length + 2 < buf.max
  · have hheader : (shortBytes o data.length).length ≤ intMax := by
      rw [length_shortBytes]
      decide
    have hpayload : data.length ≤ intMax := hdata.trans (by decide)
    have hne : frameBytes o data ≠ [] := by
      intro hnil
      have hlen := congrArg List.length hnil
      rw [frameBytes, List.length_append, length_shortBytes, List.length_nil] at hlen
      omega
    rw [if_pos (by omega), if_pos hroom, sendDataBuffer_eq z h hmax hheader, Option.bind_some,
      sendDataBuffer_eq z (h.call _) (by rw [afterCall_max]; exact hmax) hpayload, afterCall_append]
    exact congrArg some (writeByte_absorbs.norm_foldl buf hne)
  · rw [if_neg (by omega), if_neg hroom]

/-- **A packet is stored whole or not at all.**  Nothing changes exactly when the stored bytes, the
packet and its two length bytes would reach `max`; otherwise the two bytes and the packet are appended. -/
theorem packet_all_or_nothing (z : SizeT) (o : ByteOrder) (buf : CircularBuf) (h : WellFormed buf)
    (hmax : buf.max ≤ intMax) (data : List UInt8) (hdata : data.length ≤ 65535) :
    ∃ buf', sendPacketBuffer z o data buf = some buf' ∧
      (buf' = buf ↔ buf.max ≤ storedCount buf + data.length + 2) ∧
      (buf' ≠ buf → ∃ a b, shortBytes o data.length = [a, b] ∧ shortOfBytes o a b = data.length ∧
        Appends buf (a :: b :: data) buf') := by
  refine ⟨_, sendPacketBuffer_eq z o h hmax hdata, ?_⟩
  by_cases hroom : storedCount buf + data.length + 2 < buf.max
  · obtain ⟨a, b, hab, hval⟩ := shortBytes_eq o (show data.length < 65536 by omega)
    have hframe : frameBytes o data = a :: b :: data := by
      rw [frameBytes, hab]
      rfl
    have happ : Appends buf (a :: b :: data) ((a :: b :: data).foldl writeByte buf) := by
      apply appends_foldl_writeByte h
      show storedCount buf + (data.length + 1 + 1) ≤ buf.max
      omega
    rw [if_pos hroom, hframe]
    refine ⟨iff_of_false ?_ (by omega), fun _ => ⟨a, b, hab, hval, happ⟩⟩
    -- `head` has moved by less than a whole lap
    intro heq
    have hhead := happ.head
    rw [heq] at hhead
    have hlap := (eq_of_add_mod_iff h.head_lt
      (show (a :: b :: data).length ≤ buf.max by show data.length + 1 + 1 ≤ _; omega)).mp hhead.symm
    rw [List.length_cons, List.length_cons] at hlap
    omega
  · rw [if_neg hroom]
    exact ⟨iff_of_true rfl (by omega), fun hne => absurd rfl hne⟩

/-- A packet of two bytes whose length bytes and first byte go to the end of the array of eight cells,
and whose last byte goes to its start. -/
theorem packet_all_or_nothing_wrapped :
    ∃ buf', sendPacketBuffer ⟨32, by decide⟩ .little [7, 8] ⟨[1, 2, 3, 4, 5, 6, 7, 8], 5, 3, 8, false⟩
        = some buf' ∧
      (buf' = ⟨[1, 2, 3, 4, 5, 6, 7, 8], 5, 3, 8, false⟩ ↔
        8 ≤ storedCount ⟨[1, 2, 3, 4, 5, 6, 7, 8], 5, 3, 8, false⟩ + 2 + 2) ∧
      (buf' ≠ ⟨[1, 2, 3, 4, 5, 6, 7, 8], 5, 3, 8, false⟩ → ∃ a b,
        shortBytes .little 2 = [a, b] ∧ shortOfBytes .little a b = 2 ∧
          Appends ⟨[1, 2, 3, 4, 5, 6, 7, 8], 5, 3, 8, false⟩ [a, b, 7, 8] buf') :=
  packet_all_or_nothing ⟨32, by decide⟩ .little ⟨[1, 2, 3, 4, 5, 6, 7, 8], 5, 3, 8, false⟩
    ⟨rfl, by decide, by decide, fun h => nomatch h⟩ (by decide) [7, 8] (by decide)

end LinkManagement.StorePacket
