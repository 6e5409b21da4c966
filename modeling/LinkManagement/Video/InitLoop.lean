import LinkManagement.Lib.Transition
import LinkManagement.Video.Connection

/-!
# The client's INIT loop

The `do`–`while` loop of `run_client` in `VideoServer/src/client.c` sends INIT, waits with a timeout,
and leaves when the address last received from is the server's and the first byte of `response` is
INIT_ACK.  It prints the returned length and does not otherwise look at it, and neither `srcAddr` nor
`response` is cleared, so a test can combine what different datagrams, or none, left behind.

* `leaves_on_genuine_iff` — the loop leaves exactly on genuine acknowledgements if and only if the run
  of outcomes gives it nothing left over to accept (`NoLeftover`);
* `leaves_on_mixed_datagrams` — a byte from a stranger and an address from the server.
-/

namespace LinkManagement.InitLoop

open LinkManagement.Transition LinkManagement.Connection

structure LoopVars where
  srcAddr : Addr
  response : List UInt8
  running : Bool
  deriving DecidableEq

/-- The loop before its first iteration; `srcAddr` and `response` are not initialised. -/
def LoopVars.start (srcAddr : Addr) (mem : ℕ → UInt8) : LoopVars :=
  ⟨srcAddr, uninitialised mem, true⟩

@[simp] theorem start_response (srcAddr : Addr) (mem : ℕ → UInt8) :
    (LoopVars.start srcAddr mem).response = uninitialised mem := by
  rw [LoopVars.start]

/-- The negation of the loop's condition. -/
def gotInitAck (serverAddr srcAddr : Addr) (response : List UInt8) : Bool :=
  addrMatch srcAddr serverAddr && response.head? == some PacketType.initAck.code

/-- One iteration, from the wait to the loop's test. -/
def initStep (serverAddr : Addr) (s : LoopVars) (r : Received) : Option LoopVars :=
  if s.running then
    let received := recvDataTimeout r s.srcAddr s.response
    some ⟨received.2.1, received.2.2, !gotInitAck serverAddr received.2.1 received.2.2⟩
  else none

/-- An INIT_ACK of the server: a datagram from its address whose own first byte says so. -/
def Genuine (serverAddr : Addr) : Received → Prop
  | .datagram src payload => src = serverAddr ∧ payload.head? = some PacketType.initAck.code
  | .timedOut | .pollFailed | .recvFailed => False

/-- The iteration leaves the loop if and only if what it received is genuine. -/
def LeavesOnGenuine (serverAddr : Addr) (s : LoopVars) (r : Received) : Prop :=
  ∀ s', initStep serverAddr s r = some s' → (s'.running = false ↔ Genuine serverAddr r)

/-! ### What is left over -/

/-- The first byte of `response`, which was `b`, after the iteration. -/
def keepByte (b : UInt8) : Received → UInt8
  | .datagram _ (c :: _) => c
  | .datagram _ [] | .timedOut | .pollFailed | .recvFailed => b

/-- No empty datagram comes from the server while the last datagram with a byte, before any genuine
acknowledgement, has left INIT_ACK in `response`; `b` is the byte left there before all of them. -/
def NoLeftoverByte (serverAddr : Addr) (b : UInt8) (outcomes : List Received) : Prop :=
  ∀ before after, outcomes = before ++ .datagram serverAddr [] :: after →
    (∀ r ∈ before, ¬ Genuine serverAddr r) → before.foldl keepByte b ≠ PacketType.initAck.code

/-- The outcomes give the loop nothing left over to accept: neither the uninitialised variables, if
nothing is received at first, nor the byte of another datagram. -/
structure NoLeftover (serverAddr srcAddr : Addr) (b : UInt8) (outcomes : List Received) : Prop where
  atStart : ∀ r rest, outcomes = r :: rest → r.Silent →
    ¬ (srcAddr = serverAddr ∧ b = PacketType.initAck.code)
  later : NoLeftoverByte serverAddr b outcomes

theorem noLeftoverByte_nil (serverAddr : Addr) (b : UInt8) : NoLeftoverByte serverAddr b [] := by
  intro before after h
  cases before <;> cases h

theorem noLeftoverByte_cons {serverAddr : Addr} {b : UInt8} {r : Received} {rest : List Received} :
    NoLeftoverByte serverAddr b (r :: rest) ↔
      (r = .datagram serverAddr [] → b ≠ PacketType.initAck.code) ∧
      (¬ Genuine serverAddr r → NoLeftoverByte serverAddr (keepByte b r) rest) := by
  constructor
  · intro h
    refine ⟨?_, ?_⟩
    · rintro rfl
      exact h [] rest rfl (by simp)
    · intro hr before after hrest hbefore
      refine h (r :: before) after (by rw [hrest]; rfl) ?_
      intro x hx
      rcases List.mem_cons.mp hx with rfl | hx
      · exact hr
      · exact hbefore x hx
  · intro ⟨hfirst, hrest⟩ before after heq hbefore
    cases before with
    | nil =>
      obtain ⟨rfl, -⟩ := List.cons.inj heq
      exact hfirst rfl
    | cons x before =>
      obtain ⟨rfl, rfl⟩ := List.cons.inj heq
      exact hrest (hbefore r (by simp)) before after rfl fun y hy => hbefore y (by simp [hy])

/-! ### One iteration -/

theorem gotInitAck_iff {serverAddr srcAddr : Addr} {response : List UInt8} {b : UInt8}
    (hb : response.head? = some b) :
    gotInitAck serverAddr srcAddr response = true ↔
      srcAddr = serverAddr ∧ b = PacketType.initAck.code := by
  rw [gotInitAck, Bool.and_eq_true, addrMatch_iff, hb, beq_iff_eq, Option.some.injEq]

theorem along_of_left {serverAddr : Addr} {s : LoopVars} (h : s.running = false)
    (outcomes : List Received) :
    Along (initStep serverAddr) (LeavesOnGenuine serverAddr) s outcomes := by
  have hnone : ∀ r, initStep serverAddr s r = none := fun r => by
    rw [initStep, h, if_neg Bool.false_ne_true]
  cases outcomes with
  | nil => trivial
  | cons r rest =>
    refine ⟨fun s' h' => ?_, fun s' h' => ?_⟩
    · rw [hnone] at h'
      cases h'
    · rw [hnone] at h'
      cases h'

theorem along_cons_silent {serverAddr : Addr} {s : LoopVars} {r : Received} {rest : List Received}
    (hrunning : s.running = true) (hr : r.Silent) :
    Along (initStep serverAddr) (LeavesOnGenuine serverAddr) s (r :: rest) ↔
      gotInitAck serverAddr s.srcAddr s.response = false ∧
        Along (initStep serverAddr) (LeavesOnGenuine serverAddr) s rest := by
  have hstep : initStep serverAddr s r = some
      ⟨s.srcAddr, s.response, !gotInitAck serverAddr s.srcAddr s.response⟩ := by
    cases r with
    | datagram src payload => exact hr.elim
    | _ => rw [initStep, if_pos hrunning]; rfl
  have hgen : ¬ Genuine serverAddr r := by
    cases r with
    | datagram src payload => exact hr.elim
    | _ => exact id
  have hsame : gotInitAck serverAddr s.srcAddr s.response = false →
      (⟨s.srcAddr, s.response, !gotInitAck serverAddr s.srcAddr s.response⟩ : LoopVars) = s := by
    intro hnot
    rw [hnot]
    obtain ⟨srcAddr, response, running⟩ := s
    cases hrunning
    rfl
  constructor
  · intro ⟨hfirst, hrest⟩
    have hnot : gotInitAck serverAddr s.srcAddr s.response = false := by
      have hiff := hfirst _ hstep
      cases hg : gotInitAck serverAddr s.srcAddr s.response with
      | false => rfl
      | true => exact absurd (hiff.mp (by rw [hg]; rfl)) hgen
    exact ⟨hnot, hsame hnot ▸ hrest _ hstep⟩
  · intro ⟨hnot, hrest⟩
    have hstep' := hstep
    rw [hsame hnot] at hstep'
    refine ⟨fun s' h => ?_, fun s' h => ?_⟩
    · obtain rfl : s = s' := Option.some.inj (hstep'.symm.trans h)
      simp [hrunning, hgen]
    · obtain rfl : s = s' := Option.some.inj (hstep'.symm.trans h)
      exact hrest

theorem along_cons_datagram {serverAddr src : Addr} {s : LoopVars} {payload : List UInt8}
    {rest : List Received} (hrunning : s.running = true) :
    Along (initStep serverAddr) (LeavesOnGenuine serverAddr) s (.datagram src payload :: rest) ↔
      (gotInitAck serverAddr src (recvData payload s.response).2 = true ↔
        Genuine serverAddr (.datagram src payload)) ∧
        Along (initStep serverAddr) (LeavesOnGenuine serverAddr)
          ⟨src, (recvData payload s.response).2,
            !gotInitAck serverAddr src (recvData payload s.response).2⟩ rest := by
  have hstep : initStep serverAddr s (.datagram src payload) =
      some ⟨src, (recvData payload s.response).2,
        !gotInitAck serverAddr src (recvData payload s.response).2⟩ := by
    rw [initStep, if_pos hrunning]
    rfl
  rw [Along, LeavesOnGenuine]
  simp only [hstep, Option.some.injEq, forall_eq', Bool.not_eq_eq_eq_not, Bool.not_false]

/-! ### All iterations -/

/-- Once the loop has tested its variables and gone on, only a later byte can be left over. -/
theorem noLeftover_iff_of_not {serverAddr srcAddr : Addr} {b : UInt8} {outcomes : List Received}
    (h : ¬ (srcAddr = serverAddr ∧ b = PacketType.initAck.code)) :
    NoLeftover serverAddr srcAddr b outcomes ↔ NoLeftoverByte serverAddr b outcomes :=
  ⟨NoLeftover.later, fun hlater => ⟨fun _ _ _ _ => h, hlater⟩⟩

/-- **The exact condition**, from a state of the loop in which `response` begins with `b`. -/
theorem along_iff {serverAddr : Addr} (outcomes : List Received) :
    ∀ {s : LoopVars} {b : UInt8}, s.running = true → s.response.head? = some b →
      (Along (initStep serverAddr) (LeavesOnGenuine serverAddr) s outcomes ↔
        NoLeftover serverAddr s.srcAddr b outcomes) := by
  induction outcomes with
  | nil =>
    intro s b _ _
    refine ⟨fun _ => ⟨?_, noLeftoverByte_nil serverAddr b⟩, fun _ => trivial⟩
    intro r rest h
    cases h
  | cons r rest ih =>
    intro s b hrunning hb
    have hgot : gotInitAck serverAddr s.srcAddr s.response = false ↔
        ¬ (s.srcAddr = serverAddr ∧ b = PacketType.initAck.code) := by
      rw [← Bool.not_eq_true, gotInitAck_iff hb]
    -- an outcome without a datagram tests what is there, and changes nothing
    have hsilent : r.Silent → keepByte b r = b → ¬ Genuine serverAddr r →
        (Along (initStep serverAddr) (LeavesOnGenuine serverAddr) s (r :: rest) ↔
          NoLeftover serverAddr s.srcAddr b (r :: rest)) := by
      intro hr hkeep hgen
      have hne : r ≠ .datagram serverAddr [] := fun h => by
        rw [h] at hr
        exact hr
      rw [along_cons_silent hrunning hr, hgot]
      constructor
      · intro ⟨hnot, hrest⟩
        rw [ih hrunning hb, noLeftover_iff_of_not hnot] at hrest
        refine ⟨fun _ _ _ _ => hnot, noLeftoverByte_cons.mpr ⟨fun h => absurd h hne, fun _ => ?_⟩⟩
        rw [hkeep]
        exact hrest
      · intro ⟨hstart, hlater⟩
        have hnot := hstart r rest rfl hr
        have hrest := (noLeftoverByte_cons.mp hlater).2 hgen
        rw [hkeep] at hrest
        exact ⟨hnot, (ih hrunning hb).mpr ((noLeftover_iff_of_not hnot).mpr hrest)⟩
    -- a datagram that the test rejects leaves the rest to the bytes after it
    have hgoOn : ∀ (src : Addr) (response : List UInt8) (c : UInt8), response.head? = some c →
        ¬ (src = serverAddr ∧ c = PacketType.initAck.code) →
        (Along (initStep serverAddr) (LeavesOnGenuine serverAddr)
          ⟨src, response, !gotInitAck serverAddr src response⟩ rest ↔
          NoLeftoverByte serverAddr c rest) := by
      intro src response c hc hnot
      have hfalse : gotInitAck serverAddr src response = false :=
        Bool.eq_false_iff.mpr fun h => hnot ((gotInitAck_iff hc).mp h)
      rw [ih (s := ⟨src, response, !gotInitAck serverAddr src response⟩) (by rw [hfalse]; rfl) hc]
      exact noLeftover_iff_of_not hnot
    cases r with
    | timedOut => exact hsilent trivial rfl id
    | pollFailed => exact hsilent trivial rfl id
    | recvFailed => exact hsilent trivial rfl id
    | datagram src payload =>
      have hstart : NoLeftover serverAddr s.srcAddr b (.datagram src payload :: rest) ↔
          NoLeftoverByte serverAddr b (.datagram src payload :: rest) := by
        refine ⟨NoLeftover.later, fun h => ⟨fun r' rest' heq hr' => ?_, h⟩⟩
        obtain ⟨rfl, -⟩ := List.cons.inj heq
        exact hr'.elim
      rw [along_cons_datagram hrunning, hstart, noLeftoverByte_cons]
      cases payload with
      | nil =>
        -- an empty datagram brings an address only, to be tested with the byte `b`
        have hhead : (recvData [] s.response).2.head? = some b := by
          rw [recvData_head?, hb]
          rfl
        have hgen : ¬ Genuine serverAddr (.datagram src []) := fun h => nomatch h.2
        have htest := @gotInitAck_iff serverAddr src _ _ hhead
        constructor
        · intro ⟨hiff, hrest⟩
          have hnot : ¬ (src = serverAddr ∧ b = PacketType.initAck.code) := fun h =>
            hgen (hiff.mp (htest.mpr h))
          refine ⟨?_, fun _ => (hgoOn src _ b hhead hnot).mp hrest⟩
          rintro heq rfl
          cases heq
          exact hnot ⟨rfl, rfl⟩
        · intro ⟨hfirst, hrest⟩
          have hnot : ¬ (src = serverAddr ∧ b = PacketType.initAck.code) := by
            rintro ⟨rfl, hb'⟩
            exact hfirst rfl hb'
          exact ⟨⟨fun h => absurd (htest.mp h) hnot, fun h => absurd h hgen⟩,
            (hgoOn src _ b hhead hnot).mpr (hrest hgen)⟩
      | cons c cs =>
        -- a datagram with a byte brings both, and nothing of what was there is tested
        have hhead : (recvData (c :: cs) s.response).2.head? = some c := by
          rw [recvData_head?]
          rfl
        have htest := @gotInitAck_iff serverAddr src _ _ hhead
        have hgen : Genuine serverAddr (.datagram src (c :: cs)) ↔
            src = serverAddr ∧ c = PacketType.initAck.code := by
          rw [Genuine, List.head?_cons, Option.some.injEq]
        rw [htest, hgen]
        by_cases hack : src = serverAddr ∧ c = PacketType.initAck.code
        · have hleft := htest.mpr hack
          refine ⟨fun _ => ⟨(nomatch ·), fun h => absurd hack h⟩,
            fun _ => ⟨Iff.rfl, along_of_left (by rw [hleft]; rfl) rest⟩⟩
        · rw [hgoOn src _ c hhead hack]
          exact ⟨fun h => ⟨(nomatch ·), fun _ => h.2⟩, fun h => ⟨Iff.rfl, h.2 hack⟩⟩

/-- **The loop leaves on genuine acknowledgements only, and on each, exactly when nothing is left over
to accept**: for every content of the uninitialised variables and every sequence of outcomes. -/
theorem leaves_on_genuine_iff (serverAddr srcAddr : Addr) (mem : ℕ → UInt8)
    (outcomes : List Received) :
    Along (initStep serverAddr) (LeavesOnGenuine serverAddr) (.start srcAddr mem) outcomes ↔
      NoLeftover serverAddr srcAddr (mem 0) outcomes := by
  have hb : (LoopVars.start srcAddr mem).response.head? = some (mem 0) := by
    rw [start_response]
    exact uninitialised_head? mem
  exact along_iff outcomes rfl hb

/-- **A stranger's byte and the server's address.**  A datagram that begins with INIT_ACK comes from
another address, and then an empty one from the server: the loop leaves on the second, which has no
first byte. -/
theorem leaves_on_mixed_datagrams :
    ¬ Along (initStep ⟨1, 1337⟩) (LeavesOnGenuine ⟨1, 1337⟩) (.start ⟨0, 0⟩ fun _ => 0)
      [.datagram ⟨2, 80⟩ [50], .datagram ⟨1, 1337⟩ []] := by
  rw [leaves_on_genuine_iff]
  intro h
  refine h.later [.datagram ⟨2, 80⟩ [50]] [] rfl ?_ rfl
  simp [Genuine]

end LinkManagement.InitLoop
