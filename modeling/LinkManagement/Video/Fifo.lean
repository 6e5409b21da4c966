import LinkManagement.Lib.Transition

/-!
# The FIFO registers

`VideoServer/src/fifo.c` reads a status word and then accesses the data register; the two are separate
bus accesses, and the hardware moves bytes at any time, also between them.  `SendPc` and `RecvPc` are the
places inside the four access functions, `sendNext` and `recvNext` one access each.  A store into a full
FIFO and a load from an empty one lose or make up a byte; both give `none`.

The status words are parameters: `StatusWord` says that bit 0 is set exactly when the FIFO is full and
bit 1 exactly when it is empty, which is what the macros `FIFO_FRAMING_TX_FULL` and
`FIFO_FRAMING_RX_EMPTY` take them for.

`fifo_calls_account` — one thread sends and one receives, with blocking and other calls in any order, and
the link moves bytes at any time: no access is lost, and the bytes whose calls returned 0 are those
received and those on the way, in order.
-/

namespace LinkManagement.Fifo

open LinkManagement.Transition

/-! ### Status words -/

/-- The status word of a FIFO of `cap` bytes, from what it holds. -/
structure StatusWord (cap : ℕ) where
  word : List UInt8 → UInt32
  full_bit : ∀ q, word q &&& 1 ≠ 0 ↔ q.length = cap
  empty_bit : ∀ q, word q &&& 2 ≠ 0 ↔ q = []

def plainWord (full empty : Bool) : UInt32 := (if full then 1 else 0) ||| if empty then 2 else 0

theorem plainWord_full (full empty : Bool) : plainWord full empty &&& 1 ≠ 0 ↔ full = true := by
  revert full empty
  decide

theorem plainWord_empty (full empty : Bool) : plainWord full empty &&& 2 ≠ 0 ↔ empty = true := by
  revert full empty
  decide

def StatusWord.plain (cap : ℕ) : StatusWord cap where
  word q := plainWord (q.length == cap) (q == [])
  full_bit q := by rw [plainWord_full, beq_iff_eq]
  empty_bit q := by rw [plainWord_empty, beq_iff_eq]

def txFull {cap : ℕ} (st : StatusWord cap) (tx : List UInt8) : Bool := st.word tx &&& 1 ≠ 0

def rxEmpty {cap : ℕ} (st : StatusWord cap) (rx : List UInt8) : Bool := st.word rx &&& 2 ≠ 0

theorem txFull_iff {cap : ℕ} (st : StatusWord cap) (tx : List UInt8) :
    txFull st tx = true ↔ tx.length = cap := by
  rw [txFull, decide_eq_true_iff, st.full_bit]

theorem rxEmpty_iff {cap : ℕ} (st : StatusWord cap) (rx : List UInt8) :
    rxEmpty st rx = true ↔ rx = [] := by
  rw [rxEmpty, decide_eq_true_iff, st.empty_bit]

/-! ### The accesses -/

/-- Where a thread is that sends bytes: in no call, before reading the status word in
`write_fifo_blocking` (`blocking`) or `send_data_fifo`, or before the store. -/
inductive SendPc where
  | idle
  | poll (blocking : Bool) (data : UInt8)
  | store (data : UInt8)
  deriving DecidableEq

/-- Where a thread is that receives bytes: in no call, before reading the status word in
`read_fifo_blocking` (`blocking`) or `read_data_fifo`, or before the load. -/
inductive RecvPc where
  | idle
  | poll (blocking : Bool)
  | load
  deriving DecidableEq

/-- One access of a sending thread: its next place, what the FIFO then holds, and the value with which
the call returns, if it does; `write_fifo_blocking` returns none, which counts as 0. -/
def sendNext {cap : ℕ} (st : StatusWord cap) (tx : List UInt8) :
    SendPc → Option (SendPc × List UInt8 × Option (UInt8 × ℕ))
  | .idle => none
  | .poll blocking data =>
      if txFull st tx then
        if blocking then some (.poll true data, tx, none) else some (.idle, tx, some (data, 1))
      else some (.store data, tx, none)
  | .store data => if tx.length < cap then some (.idle, tx ++ [data], some (data, 0)) else none

/-- One access of a receiving thread: its next place, what the FIFO then holds, and the outcome of the
call, if it returns: the byte stored through `dataPtr`, or none with the value 1. -/
def recvNext {cap : ℕ} (st : StatusWord cap) (rx : List UInt8) :
    RecvPc → Option (RecvPc × List UInt8 × Option (Option UInt8))
  | .idle => none
  | .poll blocking =>
      if rxEmpty st rx then
        if blocking then some (.poll true, rx, none) else some (.idle, rx, some none)
      else some (.load, rx, none)
  | .load =>
      match rx with
      | [] => none
      | c :: rx => some (.idle, rx, some (some c))

/-- A thread about to store has room: only it adds bytes. -/
def SendOk (cap : ℕ) (tx : List UInt8) : SendPc → Prop
  | .store _ => tx.length < cap
  | .idle | .poll _ _ => True

/-- A thread about to load finds a byte: only it takes bytes. -/
def RecvOk (rx : List UInt8) : RecvPc → Prop
  | .load => rx ≠ []
  | .idle | .poll _ => True

theorem SendOk.mono {cap : ℕ} {tx tx' : List UInt8} {pc : SendPc} (h : SendOk cap tx pc)
    (hle : tx'.length ≤ tx.length) : SendOk cap tx' pc := by
  cases pc with
  | store data => exact Nat.lt_of_le_of_lt hle h
  | _ => trivial

theorem RecvOk.append {rx : List UInt8} {pc : RecvPc} (h : RecvOk rx pc) (more : List UInt8) :
    RecvOk (rx ++ more) pc := by
  cases pc with
  | load => exact fun hnil => h (List.append_eq_nil_iff.mp hnil).1
  | _ => trivial

/-- The bytes whose calls returned 0. -/
def sentBytes (returned : List (UInt8 × ℕ)) : List UInt8 :=
  (returned.filter fun r => r.2 = 0).map Prod.fst

/-- **An access of the sending thread** is defined while it is in a call, and adds to the FIFO the byte of
a call that returns 0. -/
theorem sendNext_spec {cap : ℕ} (st : StatusWord cap) {tx : List UInt8} {pc : SendPc}
    (hle : tx.length ≤ cap) (hok : SendOk cap tx pc) (hbusy : pc ≠ .idle) :
    ∃ pc' tx' r, sendNext st tx pc = some (pc', tx', r) ∧ SendOk cap tx' pc' ∧ tx'.length ≤ cap ∧
      tx' = tx ++ sentBytes r.toList := by
  cases pc with
  | idle => exact absurd rfl hbusy
  | poll blocking data =>
    by_cases hfull : txFull st tx = true
    · cases blocking with
      | true =>
        exact ⟨.poll true data, tx, none, by simp only [sendNext, hfull, if_true], trivial, hle,
          by simp [sentBytes]⟩
      | false =>
        exact ⟨.idle, tx, some (data, 1),
          by simp only [sendNext, hfull, if_true, Bool.false_eq_true, if_false], trivial, hle,
          by simp [sentBytes]⟩
    · have hlt : tx.length < cap := by
        rw [txFull_iff] at hfull
        omega
      exact ⟨.store data, tx, none, by simp only [sendNext, hfull, if_false, Bool.false_eq_true], hlt,
        hle, by simp [sentBytes]⟩
  | store data =>
    have hlt : tx.length < cap := hok
    refine ⟨.idle, tx ++ [data], some (data, 0), by simp only [sendNext, if_pos hlt], trivial, ?_,
      by simp [sentBytes]⟩
    rw [List.length_append]
    exact hlt

/-- **An access of the receiving thread** is defined while it is in a call, and takes from the FIFO the
byte with which a call returns. -/
theorem recvNext_spec {cap : ℕ} (st : StatusWord cap) {rx : List UInt8} {pc : RecvPc}
    (hok : RecvOk rx pc) (hbusy : pc ≠ .idle) :
    ∃ pc' rx' r, recvNext st rx pc = some (pc', rx', r) ∧ RecvOk rx' pc' ∧
      rx = (r.bind id).toList ++ rx' := by
  cases pc with
  | idle => exact absurd rfl hbusy
  | poll blocking =>
    by_cases hempty : rxEmpty st rx = true
    · cases blocking with
      | true =>
        exact ⟨.poll true, rx, none, by simp only [recvNext, hempty, if_true], trivial, rfl⟩
      | false =>
        exact ⟨.idle, rx, some none,
          by simp only [recvNext, hempty, if_true, Bool.false_eq_true, if_false], trivial, rfl⟩
    · have hne : rx ≠ [] := fun hnil => hempty ((rxEmpty_iff st rx).mpr hnil)
      exact ⟨.load, rx, none, by simp only [recvNext, hempty, if_false, Bool.false_eq_true], hne, rfl⟩
  | load =>
    cases rx with
    | nil => exact absurd rfl hok
    | cons c rx => exact ⟨.idle, rx, some (some c), rfl, trivial, rfl⟩

/-! ### The two ends of the link -/

/-- Both threads and both FIFOs.  `returned` records the bytes of the sending calls with their return
values, `outcomes` those of the receiving calls. -/
structure Ends where
  send : SendPc
  tx : List UInt8
  rx : List UInt8
  recv : RecvPc
  returned : List (UInt8 × ℕ)
  outcomes : List (Option UInt8)
  deriving DecidableEq

inductive EndsAct where
  /-- a call of `write_fifo_blocking` or `send_data_fifo` -/
  | callSend (blocking : Bool) (data : UInt8)
  | sender
  /-- the hardware moves a byte -/
  | link
  /-- a call of `read_fifo_blocking` or `read_data_fifo` -/
  | callRecv (blocking : Bool)
  | receiver

def Ends.start : Ends := ⟨.idle, [], [], .idle, [], []⟩

def endsStep {txCap rxCap : ℕ} (tst : StatusWord txCap) (rst : StatusWord rxCap) (s : Ends) :
    EndsAct → Option Ends
  | .callSend blocking data => if s.send = .idle then some { s with send := .poll blocking data } else none
  | .sender =>
      (sendNext tst s.tx s.send).map fun p =>
        { s with send := p.1, tx := p.2.1, returned := s.returned ++ p.2.2.toList }
  | .link =>
      match s.tx with
      | [] => none
      | c :: tx => if s.rx.length < rxCap then some { s with tx := tx, rx := s.rx ++ [c] } else none
  | .callRecv blocking => if s.recv = .idle then some { s with recv := .poll blocking } else none
  | .receiver =>
      (recvNext rst s.rx s.recv).map fun p =>
        { s with recv := p.1, rx := p.2.1, outcomes := s.outcomes ++ p.2.2.toList }

def receivedBytes (outcomes : List (Option UInt8)) : List UInt8 := outcomes.filterMap id

/-- The invariant: nobody is about to lose a byte, and the bytes sent are accounted for. -/
structure EndsInv (txCap rxCap : ℕ) (s : Ends) : Prop where
  tx_le : s.tx.length ≤ txCap
  rx_le : s.rx.length ≤ rxCap
  send : SendOk txCap s.tx s.send
  recv : RecvOk s.rx s.recv
  bytes : sentBytes s.returned = receivedBytes s.outcomes ++ s.rx ++ s.tx

theorem sentBytes_append (r r' : List (UInt8 × ℕ)) :
    sentBytes (r ++ r') = sentBytes r ++ sentBytes r' := by
  rw [sentBytes, List.filter_append, List.map_append]
  rfl

theorem endsStep_inv {txCap rxCap : ℕ} (tst : StatusWord txCap) (rst : StatusWord rxCap) (s : Ends)
    (a : EndsAct) (s' : Ends) (h : EndsInv txCap rxCap s) (hstep : endsStep tst rst s a = some s') :
    EndsInv txCap rxCap s' := by
  cases a with
  | callSend blocking data =>
    rw [endsStep] at hstep
    split at hstep
    · cases hstep
      exact { h with send := trivial }
    · cases hstep
  | sender =>
    by_cases hbusy : s.send = .idle
    · rw [endsStep, hbusy] at hstep
      cases hstep
    · obtain ⟨pc, tx, r, hnext, hsend, hle, htx⟩ := sendNext_spec tst h.tx_le h.send hbusy
      rw [endsStep, hnext] at hstep
      cases hstep
      exact { h with
        tx_le := hle
        send := hsend
        bytes := by
          rw [sentBytes_append, h.bytes, htx]
          simp only [List.append_assoc] }
  | link =>
    cases htx : s.tx with
    | nil =>
      simp only [endsStep, htx] at hstep
      cases hstep
    | cons c tx =>
      simp only [endsStep, htx] at hstep
      split at hstep
      · cases hstep
        have hle : tx.length ≤ s.tx.length := by simp [htx]
        exact {
          tx_le := Nat.le_trans hle h.tx_le
          rx_le := by
            rw [List.length_append]
            assumption
          send := h.send.mono hle
          recv := h.recv.append [c]
          bytes := by
            rw [h.bytes, htx]
            simp }
      · cases hstep
  | callRecv blocking =>
    rw [endsStep] at hstep
    split at hstep
    · cases hstep
      exact { h with recv := trivial }
    · cases hstep
  | receiver =>
    by_cases hbusy : s.recv = .idle
    · rw [endsStep, hbusy] at hstep
      cases hstep
    · obtain ⟨pc, rx, r, hnext, hrecv, hrx⟩ := recvNext_spec rst h.recv hbusy
      rw [endsStep, hnext] at hstep
      cases hstep
      have hle := h.rx_le
      rw [hrx, List.length_append] at hle
      exact { h with
        rx_le := Nat.le_trans (Nat.le_add_left _ _) hle
        recv := hrecv
        bytes := by
          rw [h.bytes, hrx, receivedBytes, receivedBytes, List.filterMap_append]
          cases r with
          | none => simp
          | some outcome => cases outcome <;> simp }

/-- What the calls and the FIFOs amount to in a state: a thread inside a call can go on (no store finds
the FIFO full, no load finds it empty), the FIFOs keep to their sizes, and the bytes of the calls that
returned 0 are the bytes that receiving calls returned and those on the way, in order. -/
structure Accounted {txCap rxCap : ℕ} (tst : StatusWord txCap) (rst : StatusWord rxCap) (s : Ends) :
    Prop where
  sender : s.send ≠ .idle → endsStep tst rst s .sender ≠ none
  receiver : s.recv ≠ .idle → endsStep tst rst s .receiver ≠ none
  tx_le : s.tx.length ≤ txCap
  rx_le : s.rx.length ≤ rxCap
  bytes : sentBytes s.returned = receivedBytes s.outcomes ++ s.rx ++ s.tx

/-- **The calls account for every byte**, in every state of every run. -/
theorem fifo_calls_account {txCap rxCap : ℕ} (tst : StatusWord txCap) (rst : StatusWord rxCap)
    (as : List EndsAct) (s : Ends) (hrun : runFrom (endsStep tst rst) .start as = some s) :
    Accounted tst rst s := by
  have hstart : EndsInv txCap rxCap .start :=
    ⟨Nat.zero_le _, Nat.zero_le _, trivial, trivial, rfl⟩
  have h := runFrom_invariant (endsStep_inv tst rst) hstart hrun
  refine ⟨fun hbusy => ?_, fun hbusy => ?_, h.tx_le, h.rx_le, h.bytes⟩
  · obtain ⟨pc, tx, r, hnext, -⟩ := sendNext_spec tst h.tx_le h.send hbusy
    rw [endsStep, hnext]
    exact Option.some_ne_none _
  · obtain ⟨pc, rx, r, hnext, -⟩ := recvNext_spec rst h.recv hbusy
    rw [endsStep, hnext]
    exact Option.some_ne_none _

/-- A FIFO of one byte: the second call finds it full and returns 1, the last one finds nothing. -/
theorem fifo_calls_account_full :
    Accounted (StatusWord.plain 1) (StatusWord.plain 1)
      ⟨.idle, [], [], .idle, [(7, 0), (8, 1)], [some 7, none]⟩ :=
  fifo_calls_account (StatusWord.plain 1) (StatusWord.plain 1)
    [.callSend true 7, .sender, .sender, .callSend false 8, .sender, .callRecv true, .receiver, .link,
      .receiver, .receiver, .callRecv false, .receiver] _ (by decide +kernel)

end LinkManagement.Fifo
