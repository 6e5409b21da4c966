import LinkManagement.Lib.BoundedQueue
import LinkManagement.Lib.Refinement
import LinkManagement.Video.SharedBuffer

/-!
# The shared buffer refines a bounded queue

In the interleavings of `SharedBuffer` a write and a read of the buffer are many loads and stores each.
Seen from outside each is one step of a queue: a call of `send_data_buffer` pushes its data with the
store of `head`, `read_data_buffer` pops a byte with the store of `tail`, and every other load and store
of either thread is invisible.  The queue holds one byte less than the array: the room check is strict.

`mainStep_flow` and `writerStep_flow` say what a step does to the records, `shared_refines_queue` is the
refinement.
-/

namespace LinkManagement.SharedRefinement

open LinkManagement.Transition LinkManagement.MachineInt LinkManagement.Queue LinkManagement.Buffer
open LinkManagement.SharedBuffer

/-! ### What a step does to the records -/

/-- The bytes that the next step of the main thread makes readable. -/
def publishes : MainPc → List UInt8
  | .advance data _ => data
  | _ => []

def pops : WriterPc → List UInt8
  | .tailStore c _ => [c]
  | _ => []

/-- The byte that the next step of the writer has given to the FIFO. -/
def hands : WriterPc → List UInt8
  | .hand c => [c]
  | _ => []

structure MainFlow (s s' : Shared) : Prop where
  writer : s'.writer = s.writer
  tail : s'.mem.tail = s.mem.tail
  max : s'.mem.max = s.mem.max
  popped : s'.popped = s.popped
  handed : s'.handed = s.handed
  published : s'.published = s.published ++ publishes s.main

theorem mainStep_flow {z : SizeT} {o : ByteOrder} {s s' : Shared} (h : mainStep z o s = some s') :
    MainFlow s s' := by
  have hnil : s.published = s.published ++ [] := (List.append_nil _).symm
  unfold mainStep at h
  cases hpc : s.main with
  | idle =>
    rw [hpc] at h
    cases h
  | checking data p =>
    rw [hpc] at h
    dsimp only at h
    split at h
    · cases h
      exact ⟨rfl, rfl, rfl, rfl, rfl, by rw [hpc]; exact hnil⟩
    · split at h
      · cases h
        exact ⟨rfl, rfl, rfl, rfl, rfl, by rw [hpc]; exact hnil⟩
      · cases h
        exact ⟨rfl, rfl, rfl, rfl, rfl, by rw [hpc]; exact hnil⟩
  | test data =>
    rw [hpc] at h
    dsimp only at h
    split at h
    · cases h
      exact ⟨rfl, rfl, rfl, rfl, rfl, by rw [hpc]; exact hnil⟩
    · cases h
      exact ⟨rfl, rfl, rfl, rfl, rfl, by rw [hpc]; exact hnil⟩
  | split data =>
    rw [hpc] at h
    obtain ⟨parts, -, rfl⟩ := Option.map_eq_some_iff.mp h
    exact ⟨rfl, rfl, rfl, rfl, rfl, by rw [hpc]; exact hnil⟩
  | copy data h' =>
    rw [hpc] at h
    obtain ⟨cells, -, rfl⟩ := Option.map_eq_some_iff.mp h
    exact ⟨rfl, rfl, rfl, rfl, rfl, by rw [hpc]; exact hnil⟩
  | advance data h' =>
    rw [hpc] at h
    cases h
    exact ⟨rfl, rfl, rfl, rfl, rfl, by rw [hpc]; rfl⟩
  | fullStore full =>
    rw [hpc] at h
    dsimp only at h
    split at h
    · cases h
      exact ⟨rfl, rfl, rfl, rfl, rfl, by rw [hpc]; exact hnil⟩
    · cases h
      exact ⟨rfl, rfl, rfl, rfl, rfl, by rw [hpc]; exact hnil⟩
  | _ =>
    rw [hpc] at h
    cases h
    exact ⟨rfl, rfl, rfl, rfl, rfl, by rw [hpc]; exact hnil⟩

structure WriterFlow (s s' : Shared) : Prop where
  main : s'.main = s.main
  calls : s'.calls = s.calls
  max : s'.mem.max = s.mem.max
  published : s'.published = s.published
  popped : s'.popped = s.popped ++ pops s.writer
  handed : s'.handed = s.handed ++ hands s.writer

theorem writerStep_flow {z : SizeT} {s s' : Shared} (h : writerStep z s = some s') :
    WriterFlow s s' := by
  have hpop : s.popped = s.popped ++ [] := (List.append_nil _).symm
  have hhand : s.handed = s.handed ++ [] := (List.append_nil _).symm
  unfold writerStep at h
  cases hpc : s.writer with
  | checking p =>
    rw [hpc] at h
    dsimp only at h
    split at h
    · cases h
      exact ⟨rfl, rfl, rfl, rfl, by rw [hpc]; exact hpop, by rw [hpc]; exact hhand⟩
    · split at h
      · cases h
        exact ⟨rfl, rfl, rfl, rfl, by rw [hpc]; exact hpop, by rw [hpc]; exact hhand⟩
      · cases h
        exact ⟨rfl, rfl, rfl, rfl, by rw [hpc]; exact hpop, by rw [hpc]; exact hhand⟩
  | cell t =>
    rw [hpc] at h
    obtain ⟨c, -, rfl⟩ := Option.map_eq_some_iff.mp h
    exact ⟨rfl, rfl, rfl, rfl, by rw [hpc]; exact hpop, by rw [hpc]; exact hhand⟩
  | tailStore c t =>
    rw [hpc] at h
    cases h
    exact ⟨rfl, rfl, rfl, rfl, by rw [hpc]; rfl, by rw [hpc]; exact hhand⟩
  | hand c =>
    rw [hpc] at h
    cases h
    exact ⟨rfl, rfl, rfl, rfl, by rw [hpc]; exact hpop, by rw [hpc]; rfl⟩
  | _ =>
    rw [hpc] at h
    cases h
    exact ⟨rfl, rfl, rfl, rfl, by rw [hpc]; exact hpop, by rw [hpc]; exact hhand⟩

theorem MainFlow.queue_eq {s s' : Shared} (h : MainFlow s s') {q q' : List UInt8}
    (hinv : SharedInv s q) (hinv' : SharedInv s' q') : q' = q ++ publishes s.main := by
  have hall := hinv'.published
  rw [h.published, h.popped, hinv.published, List.append_assoc] at hall
  exact (List.append_cancel_left hall).symm

theorem WriterFlow.queue_eq {s s' : Shared} (h : WriterFlow s s') {q q' : List UInt8}
    (hinv : SharedInv s q) (hinv' : SharedInv s' q') : q = pops s.writer ++ q' := by
  have hall := hinv'.published
  rw [h.published, h.popped, hinv.published, List.append_assoc] at hall
  exact List.append_cancel_left hall

/-- The byte in the writer's variable and the stored bytes: a step of the writer takes what it has handed
over. -/
theorem WriterFlow.holding_eq {s s' : Shared} (h : WriterFlow s s') {q q' : List UInt8}
    (hinv : SharedInv s q) (hinv' : SharedInv s' q') :
    s.writer.holding ++ q = hands s.writer ++ (s'.writer.holding ++ q') := by
  have hall := hinv'.published
  rw [h.published, hinv.published, hinv.popped, hinv'.popped, h.handed] at hall
  simp only [List.append_assoc] at hall
  exact List.append_cancel_left hall

/-! ### The refinement -/

/-- The queue operations that a step stands for. -/
def queueOps (s : Shared) : Act → List (QueueOp UInt8)
  | .packet _ => []
  | .main =>
      match s.main with
      | .advance data _ => [.push data]
      | _ => []
  | .writer =>
      match s.writer with
      | .tailStore _ _ => [.pop]
      | _ => []

/-- The buffer stores the bytes of the queue, and the records are its history. -/
structure Refines (max : ℕ) (s : Shared) (r : QueueRun UInt8 (max - 1)) : Prop where
  inv : SharedInv s r.queue.items
  max_eq : s.mem.max = max
  pushed : r.pushed = s.published
  popped : r.popped = s.popped

theorem Refines.stutter {max : ℕ} {s s' : Shared} {r : QueueRun UInt8 (max - 1)} (h : Refines max s r)
    {q : List UInt8} (hinv : SharedInv s' q) (hmax : s'.mem.max = s.mem.max)
    (hpub : s'.published = s.published) (hpop : s'.popped = s.popped) : Refines max s' r := by
  have hq : s.popped ++ q = s.popped ++ r.queue.items :=
    calc s.popped ++ q = s'.published := by rw [hinv.published, hpop]
      _ = s.popped ++ r.queue.items := by rw [hpub, h.inv.published]
  obtain rfl := List.append_cancel_left hq
  exact ⟨hinv, hmax.trans h.max_eq, h.pushed.trans hpub.symm, h.popped.trans hpop.symm⟩

/-- **Step.**  The store of `head` pushes, the store of `tail` pops, and nothing else shows. -/
theorem sharedStep_refines (z : SizeT) (o : ByteOrder) (max : ℕ) :
    Matches (sharedStep z o) queueStep NotDrained queueOps (Refines max) := by
  intro s r a s' h hC hstep
  obtain ⟨q, hinv⟩ := sharedStep_inv h.inv hC hstep
  cases a with
  | packet data =>
    rw [sharedStep] at hstep
    split at hstep
    · cases hstep
      exact ⟨r, rfl, h.stutter hinv rfl rfl rfl⟩
    · cases hstep
  | main =>
    have hflow := mainStep_flow hstep
    cases hpc : s.main with
    | advance data h' =>
      have hpub := hflow.published
      rw [hpc] at hpub
      have hq : q = r.queue.items ++ data := by
        rw [hflow.queue_eq h.inv hinv, hpc, publishes]
      have hfit : (r.queue.items ++ data).length ≤ max - 1 := by
        have hlt := hinv.length_lt
        rw [hflow.max, h.max_eq, hq] at hlt
        omega
      refine ⟨{ r with queue := ⟨r.queue.items ++ data, hfit⟩, pushed := r.pushed ++ data }, ?_, ?_⟩
      · simp only [queueOps, hpc, runFrom, queueStep, BoundedQueue.push, dif_pos hfit, Option.map_some,
          Option.bind_some]
      · exact {
          inv := hq ▸ hinv
          max_eq := hflow.max.trans h.max_eq
          pushed := by
            rw [hpub, ← h.pushed]
            rfl
          popped := h.popped.trans hflow.popped.symm }
    | _ =>
      have hpub := hflow.published
      rw [hpc] at hpub
      refine ⟨r, ?_, h.stutter hinv hflow.max (hpub.trans (List.append_nil _)) hflow.popped⟩
      simp only [queueOps, hpc, runFrom_nil]
  | writer =>
    have hflow := writerStep_flow hstep
    cases hpc : s.writer with
    | tailStore c t =>
      have hpop := hflow.popped
      rw [hpc, pops] at hpop
      have hq : r.queue.items = c :: q := by
        rw [hflow.queue_eq h.inv hinv, hpc]
        rfl
      obtain ⟨⟨items, hle⟩, pushed, popped⟩ := r
      obtain rfl : items = c :: q := hq
      refine ⟨⟨⟨q, Nat.le_of_succ_le hle⟩, pushed, popped ++ [c]⟩, ?_, ?_⟩
      · simp only [queueOps, hpc, runFrom, queueStep, BoundedQueue.pop, Option.map_some,
          Option.bind_some]
      · exact {
          inv := hinv
          max_eq := hflow.max.trans h.max_eq
          pushed := h.pushed.trans hflow.published.symm
          popped := by
            rw [hpop, ← h.popped] }
    | _ =>
      have hpop := hflow.popped
      rw [hpc] at hpop
      refine ⟨r, ?_, h.stutter hinv hflow.max hflow.published (hpop.trans (List.append_nil _))⟩
      simp only [queueOps, hpc, runFrom_nil]

/-- What the refinement says of a state: the buffer stores the bytes of the queue, the queue's history is
that of the threads, and the FIFO has been handed what was popped, up to the byte in the writer's
variable. -/
structure QueueView (max : ℕ) (s : Shared) (r : QueueRun UInt8 (max - 1)) : Prop where
  represents : Represents s.mem r.queue.items
  pushed : r.pushed = s.published
  popped : r.popped = s.popped
  handed : r.popped = s.handed ++ s.writer.holding

/-- **The shared buffer refines a bounded queue** of `max - 1` bytes, in every interleaving in which no
load of `tail` for `full` finds the buffer drained. -/
theorem shared_refines_queue (z : SizeT) (o : ByteOrder) (max : ℕ) (heap : ℕ → UInt8) (hpos : 1 ≤ max)
    (hmax : max ≤ intMax) (as : List Act) (s : Shared)
    (hrun : runFrom (sharedStep z o) (.start max heap) as = some s)
    (hC : Along (sharedStep z o) NotDrained (.start max heap) as) :
    ∃ r, runFrom queueStep (QueueRun.start UInt8 (max - 1))
        (trace (sharedStep z o) queueOps (.start max heap) as) = some r ∧ QueueView max s r := by
  have hstart : Refines max (.start max heap) (QueueRun.start UInt8 (max - 1)) :=
    ⟨start_sharedInv heap hpos hmax, rfl, rfl, rfl⟩
  obtain ⟨r, hr, h⟩ := hC.refines (sharedStep_refines z o max) hstart hrun
  exact ⟨r, hr, h.inv.represents, h.pushed, h.popped, h.popped.trans h.inv.popped⟩

/-- One packet behind its header, of which two bytes are read before the payload is stored. -/
def headerRead : List Act :=
  .packet [7] :: List.replicate 13 .main ++ List.replicate 22 .writer ++ List.replicate 8 .main

theorem shared_refines_queue_header_read :
    ∃ r, runFrom queueStep (QueueRun.start UInt8 7)
        (trace (sharedStep ⟨64, by decide⟩ .little) queueOps (.start 8 fun _ => 0) headerRead) = some r ∧
      QueueView 8 ⟨⟨[1, 0, 7, 0, 0, 0, 0, 0], 3, 2, 8, false⟩, .idle, [], .checking .loadFull,
        [1, 0, 7], [1, 0], [1, 0]⟩ r :=
  shared_refines_queue ⟨64, by decide⟩ .little 8 (fun _ => 0) (by decide) (by decide) headerRead _
    (by decide +kernel) (by decide +kernel)

end LinkManagement.SharedRefinement
