import LinkManagement.Video.BufferRefinement
import LinkManagement.Video.SharedRefinement

/-!
# One call of `buffer_is_empty` while packets are being stored

`fifo_write_thread` calls `buffer_is_empty` of `VideoServer/src/buffer.c`, and the main thread goes on
storing between its loads.  `head` is loaded twice: the first value selects the return expression of
`get_space`, the second goes into it, and both may be old when the call returns.  The main thread only
adds bytes, so the answer is right as long as it lies between the buffer at the start of the call and the
buffer at its end.

`empty_answer` — it does: a buffer that stores something when the call begins is found not empty, and one
that is found not empty stores something when the call returns, and until the writer takes it.
-/

namespace LinkManagement.EmptyCall

open LinkManagement.Transition LinkManagement.MachineInt LinkManagement.Buffer
open LinkManagement.BufferRefinement LinkManagement.SharedBuffer LinkManagement.SharedRefinement

/-- A load of `get_space` that is not its last, or any step of the main thread. -/
def checkStep (z : SizeT) (o : ByteOrder) (s : Shared) : Act → Option Shared
  | .packet data => sharedStep z o s (.packet data)
  | .main => mainStep z o s
  | .writer =>
      match s.writer with
      | .checking p =>
          match spaceNext z s.mem p with
          | .inl p' => some { s with writer := .checking p' }
          | .inr _ => none
      | _ => none

/-- The next load of the writer is the last of its call, in which `get_space` returns `r`. -/
def Returns (z : SizeT) (s : Shared) (r : ℤ) : Prop :=
  ∃ p, s.writer = .checking p ∧ spaceNext z s.mem p = .inr r

/-- What the second load of `head` has found in a buffer that stores something. -/
def SeenNonempty (mem : CircularBuf) : SpacePc → Prop
  | .reloadTail _ h => h ≠ mem.tail ∧ h < mem.max
  | .loadFull | .loadHead | .loadTail _ | .reloadHead _ => True

structure CallInv (s : Shared) (q : List UInt8) : Prop where
  shared : SharedInv s q
  nonempty : q ≠ []
  inCall : ∃ p, s.writer = .checking p ∧ SeenNonempty s.mem p

theorem checkStep_writer {z : SizeT} {o : ByteOrder} {s s' : Shared}
    (h : checkStep z o s .writer = some s') :
    ∃ p p', s.writer = .checking p ∧ spaceNext z s.mem p = .inl p' ∧
      s' = { s with writer := .checking p' } ∧ writerStep z s = some s' := by
  unfold checkStep at h
  cases hpc : s.writer with
  | checking p =>
    rw [hpc] at h
    dsimp only at h
    cases hnext : spaceNext z s.mem p with
    | inl p' =>
      rw [hnext] at h
      cases h
      exact ⟨p, p', rfl, hnext, rfl, by simp only [writerStep, hpc, hnext]⟩
    | inr r =>
      rw [hnext] at h
      cases h
  | _ =>
    rw [hpc] at h
    cases h

theorem sharedStep_of_checkStep {z : SizeT} {o : ByteOrder} {s s' : Shared} {a : Act}
    (h : checkStep z o s a = some s') : sharedStep z o s a = some s' := by
  cases a with
  | packet data => exact h
  | main => exact h
  | writer =>
    obtain ⟨-, -, -, -, -, hw⟩ := checkStep_writer h
    exact hw

theorem checkStep_sharedInv {z : SizeT} {o : ByteOrder} (s : Shared) (a : Act) (s' : Shared)
    (h : ∃ q, SharedInv s q) (hC : NotDrained s a) (hstep : checkStep z o s a = some s') :
    ∃ q, SharedInv s' q := by
  obtain ⟨q, h⟩ := h
  exact sharedStep_inv h hC (sharedStep_of_checkStep hstep)

theorem CallInv.main {s s' : Shared} {q : List UInt8} (h : CallInv s q) (hflow : MainFlow s s')
    {q' : List UInt8} (hinv : SharedInv s' q') : CallInv s' q' := by
  obtain ⟨p, hp, hseen⟩ := h.inCall
  have hgrow : q' = q ++ publishes s.main := hflow.queue_eq h.shared hinv
  refine ⟨hinv, ?_, p, hflow.writer.trans hp, ?_⟩
  · rw [hgrow]
    exact fun hnil => h.nonempty (List.append_eq_nil_iff.mp hnil).1
  · cases p with
    | reloadTail wrapped h' =>
      rw [SeenNonempty, hflow.tail, hflow.max]
      exact hseen
    | _ => trivial

/-- **Step.**  Nothing that happens during the call empties the buffer, and the second load of `head`
finds it away from `tail`. -/
theorem checkStep_inv {z : SizeT} {o : ByteOrder} (s : Shared) (a : Act) (s' : Shared)
    (h : ∃ q, CallInv s q) (hC : NotDrained s a) (hstep : checkStep z o s a = some s') :
    ∃ q, CallInv s' q := by
  obtain ⟨q, h⟩ := h
  obtain ⟨q', hinv⟩ := sharedStep_inv h.shared hC (sharedStep_of_checkStep hstep)
  cases a with
  | packet data =>
    obtain ⟨p, hp, hseen⟩ := h.inCall
    simp only [checkStep, sharedStep] at hstep
    split at hstep
    · cases hstep
      have hq : q' = q := List.append_cancel_left (hinv.published.symm.trans h.shared.published)
      exact ⟨q', hinv, hq ▸ h.nonempty, p, hp, hseen⟩
    · cases hstep
  | main => exact ⟨q', h.main (mainStep_flow hstep) hinv⟩
  | writer =>
    obtain ⟨p, p', hpc, hnext, rfl, -⟩ := checkStep_writer hstep
    have hq : q' = q := List.append_cancel_left (hinv.published.symm.trans h.shared.published)
    subst hq
    have hrep := h.shared.represents
    refine ⟨q', hinv, h.nonempty, p', rfl, ?_⟩
    cases p' with
    | reloadTail wrapped h' =>
      cases p with
      | reloadHead w =>
        cases hnext
        refine ⟨fun he => h.nonempty ?_, hrep.head_lt⟩
        exact (hrep.head_eq_tail_iff_nil h.shared.length_lt).mp he
      | loadFull =>
        rw [spaceNext] at hnext
        split at hnext <;> cases hnext
      | loadHead => cases hnext
      | loadTail h'' => cases hnext
      | reloadTail w h'' => cases hnext
    | _ => trivial

/-- **A buffer that stores something is not found empty**: the space returned is not its size. -/
theorem CallInv.returns_ne {z : SizeT} {s : Shared} {q : List UInt8} (h : CallInv s q) {r : ℤ}
    (hr : Returns z s r) : z.ofInt r ≠ s.mem.max := by
  obtain ⟨p, hpc, hnext⟩ := hr
  obtain ⟨p₁, hpc₁, hseen⟩ := h.inCall
  rw [hpc, WriterPc.checking.injEq] at hpc₁
  subst hpc₁
  have hm : s.mem.max ≤ 2 ^ 31 - 1 := h.shared.size
  have hrep := h.shared.represents
  have htail := hrep.tail_lt
  cases p with
  | loadFull =>
    rw [spaceNext, hrep.full_eq_false h.shared.length_lt] at hnext
    cases hnext
  | loadHead => cases hnext
  | loadTail h' => cases hnext
  | reloadHead wrapped => cases hnext
  | reloadTail wrapped h' =>
    obtain ⟨hne, hlt⟩ := hseen
    cases hnext
    cases wrapped with
    | true =>
      rw [spaceExpr_wrapped, Ne, z.ofInt_narrow_eq_iff (by omega) (by omega) (by omega)]
      omega
    | false =>
      -- `head` may have gone round the end of the array since the test
      rw [spaceExpr_straight, Ne, z.ofInt_narrow_eq_iff (by omega) (by omega) (by omega)]
      omega

/-- What the answer tells, of the buffer at the start of the call and at its end. -/
structure AnswerRight (z : SizeT) (s₀ s : Shared) (r : ℤ) : Prop where
  finds : storedCount s₀.mem ≠ 0 → z.ofInt r ≠ s.mem.max
  found : z.ofInt r ≠ s.mem.max → storedCount s.mem ≠ 0

/-- **`buffer_is_empty` answers right.**  In every run in which no load of `tail` for `full` finds the
buffer drained, for every call that the writer makes in it, however many packets are stored meanwhile. -/
theorem empty_answer (z : SizeT) (o : ByteOrder) (max : ℕ) (heap : ℕ → UInt8) (hpos : 1 ≤ max)
    (hmax : max ≤ intMax) (before during : List Act) (s₀ s : Shared)
    (hbefore : runFrom (sharedStep z o) (.start max heap) before = some s₀)
    (hC : Along (sharedStep z o) NotDrained (.start max heap) before)
    (hcall : s₀.writer = .checking .loadFull)
    (hduring : runFrom (checkStep z o) s₀ during = some s)
    (hC' : Along (checkStep z o) NotDrained s₀ during) (r : ℤ) (hr : Returns z s r) :
    AnswerRight z s₀ s r := by
  obtain ⟨q₀, h₀⟩ : ∃ q, SharedInv s₀ q :=
    hC.invariant (I := fun s => ∃ q, SharedInv s q)
      (fun _ _ _ ⟨_, hI⟩ hCa hstep => sharedStep_inv hI hCa hstep)
      ⟨[], start_sharedInv heap hpos hmax⟩ hbefore
  constructor
  · intro hstored
    have hne : q₀ ≠ [] := fun hnil => hstored (by rw [storedCount_eq h₀.represents, hnil]; rfl)
    obtain ⟨q, h⟩ := hC'.invariant checkStep_inv ⟨q₀, h₀, hne, _, hcall, trivial⟩ hduring
    exact h.returns_ne hr
  · intro hfound
    obtain ⟨q, h⟩ := hC'.invariant checkStep_sharedInv ⟨q₀, h₀⟩ hduring
    obtain ⟨p, hpc, hnext⟩ := hr
    have hok := h.writer
    rw [hpc] at hok
    have hne := writerSpace_result h.size h.represents h.length_lt hok hnext hfound
    rw [storedCount_eq h.represents]
    exact fun hzero => hne (List.length_eq_zero_iff.mp hzero)

/-- The payload of a packet becomes readable between the two loads of `head`. -/
theorem empty_answer_payload_meanwhile :
    AnswerRight ⟨64, by decide⟩
      ⟨⟨[1, 0, 0, 0, 0, 0, 0, 0], 2, 0, 8, false⟩, .test [7], [], .checking .loadFull, [1, 0], [], []⟩
      ⟨⟨[1, 0, 7, 0, 0, 0, 0, 0], 3, 0, 8, false⟩, .fullHead, [], .checking (.reloadTail false 3),
        [1, 0, 7], [], []⟩ 5 :=
  empty_answer ⟨64, by decide⟩ .little 8 (fun _ => 0) (by decide) (by decide)
    (.packet [7] :: List.replicate 13 .main)
    (List.replicate 3 .writer ++ List.replicate 5 .main ++ [.writer]) _ _ (by decide +kernel)
    (by decide +kernel) rfl (by decide +kernel) (by decide +kernel) 5 ⟨_, rfl, by decide +kernel⟩

end LinkManagement.EmptyCall
