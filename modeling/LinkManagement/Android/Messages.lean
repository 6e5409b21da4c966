import LinkManagement.Lib.CString
import LinkManagement.Lib.CyclicArray
import LinkManagement.Android.AndroidServer

/-!
# The messages of the android server

What `serverSendFunc` and `serverReadFunc` of `androidServer/src/androidServer.c` do with the bytes.
Both use an array `buff` of `MAX` bytes that is cleared first.  The one stores what `getchar` returns,
up to a newline, and writes all of `buff` to the connection; the other calls `read` once and takes what
is in `buff` for a string.  A store or a read past the array is `none`.

* `sendsLine_iff` — a line is sent exactly if its newline is among the first `MAX` bytes;
* `reactsToMessage_iff` — a message is taken for what it is exactly if one `read` returns all of it and
  it leaves a zero byte in `buff`;
* `readMessage_of_piece` — what the read thread does is decided by the first piece.
-/

namespace LinkManagement.Messages

open LinkManagement.CString LinkManagement.CyclicArray LinkManagement.Transition
open LinkManagement.AndroidServer LinkManagement.Descriptors

/-- `MAX`. -/
def maxLen : ℕ := 64

def cleared : List UInt8 := List.replicate maxLen 0

/-! ### Sending a line -/

def newline : UInt8 := 10

/-- `getchar`: `none` for `EOF`, and the input after the call. -/
def getchar : List UInt8 → Option UInt8 × List UInt8
  | [] => (none, [])
  | c :: input => (some c, input)

/-- What `getchar` returns, stored in a `char`; `EOF` is -1. -/
def asChar (c : Option UInt8) : UInt8 := c.getD 255

/-- What `getchar` returns in the first calls. -/
def getchars : ℕ → List UInt8 → List (Option UInt8)
  | 0, _ => []
  | k + 1, input => (getchar input).1 :: getchars k (getchar input).2

/-- The variables of the loop of `serverSendFunc`; `running` until the loop is left. -/
structure LineLoop where
  buff : List UInt8
  n : ℕ
  running : Bool
  deriving DecidableEq

def LineLoop.start : LineLoop := ⟨cleared, 0, true⟩

/-- One evaluation of the loop's condition `(buff[n++] = getchar()) != '\n'`. -/
def lineStep (s : LineLoop) (c : Option UInt8) : Option LineLoop :=
  if s.running then
    if s.n < s.buff.length then
      some ⟨s.buff.set s.n (asChar c), s.n + 1, asChar c != newline⟩
    else none
  else none

/-- What `write(connfd, buff, sizeof(buff))` sends after the loop. -/
def written (s : LineLoop) : List UInt8 := s.buff.take maxLen

/-- The loop ends after some calls of `getchar`, with no store past `buff`, and the `MAX` bytes written
then are those of the line that fit, followed by zero bytes. -/
def SendsLine (input : List UInt8) : Prop :=
  ∃ k s, runFrom lineStep .start (getchars k input) = some s ∧ s.running = false ∧
    (written s).length = maxLen ∧
      ∃ j, written s = (line newline input).take maxLen ++ List.replicate j 0

theorem asChar_getchars {k : ℕ} {input : List UInt8} (h : newline ∉ input.take k) :
    ∀ c ∈ getchars k input, asChar c ≠ newline := by
  induction k generalizing input with
  | zero => exact fun c hc => absurd hc List.not_mem_nil
  | succ k ih =>
    intro c hc
    cases input with
    | nil =>
      rcases List.mem_cons.mp hc with rfl | hc
      · decide
      · exact ih (by rw [getchar, List.take_nil]; exact List.not_mem_nil) c hc
    | cons b input =>
      rw [List.take_succ_cons, List.mem_cons, not_or] at h
      rcases List.mem_cons.mp hc with rfl | hc
      · exact Ne.symm h.1
      · exact ih h.2 c hc

@[simp] theorem length_getchars (k : ℕ) (input : List UInt8) : (getchars k input).length = k := by
  induction k generalizing input with
  | zero => rfl
  | succ k ih => rw [getchars, List.length_cons, ih]

theorem getchars_append (k : ℕ) (before rest : List UInt8) :
    getchars (before.length + k) (before ++ rest) = before.map some ++ getchars k rest := by
  induction before with
  | nil => rw [List.length_nil, Nat.zero_add, List.nil_append, List.map_nil, List.nil_append]
  | cons c before ih =>
    rw [List.length_cons, Nat.add_right_comm, List.cons_append, getchars, getchar, ih, List.map_cons,
      List.cons_append]

theorem getchars_add (j k : ℕ) (input : List UInt8) :
    getchars (j + k) input = getchars j input ++ getchars k (input.drop j) := by
  induction j generalizing input with
  | zero => rw [Nat.zero_add, List.drop_zero, getchars, List.nil_append]
  | succ j ih =>
    rw [Nat.add_right_comm, getchars, getchars, ih, List.cons_append]
    cases input with
    | nil => rw [getchar, List.drop_nil, List.drop_nil]
    | cons c input => rw [getchar, List.drop_succ_cons]

/-- **Run without a newline**: the bytes are stored one behind the other. -/
theorem lineRun {cs : List (Option UInt8)} (hcs : ∀ c ∈ cs, asChar c ≠ newline)
    (stored : List UInt8) (room : ℕ) :
    runFrom lineStep ⟨stored ++ List.replicate (cs.length + room) 0, stored.length, true⟩ cs =
      some ⟨stored ++ cs.map asChar ++ List.replicate room 0, stored.length + cs.length, true⟩ := by
  induction cs generalizing stored with
  | nil => rw [runFrom_nil, List.map_nil, List.append_nil, List.length_nil, Nat.zero_add, Nat.add_zero]
  | cons c cs ih =>
    have hstep : lineStep ⟨stored ++ List.replicate ((c :: cs).length + room) 0, stored.length, true⟩ c =
        some ⟨stored ++ [asChar c] ++ List.replicate (cs.length + room) 0,
          (stored ++ [asChar c]).length, true⟩ := by
      have hne : (asChar c != newline) = true := bne_iff_ne.mpr (hcs c (by simp))
      rw [List.length_cons, Nat.add_right_comm, lineStep, if_pos rfl, if_pos (by simp),
        set_append_replicate, hne, List.length_append, List.length_singleton]
    rw [runFrom, hstep, Option.bind_some, ih fun d hd => hcs d (by simp [hd])]
    simp only [List.map_cons, List.append_assoc, List.singleton_append, List.length_append,
      List.length_cons, List.length_nil, Nat.zero_add, Nat.add_assoc, Nat.add_comm 1]

theorem lineRun_start {cs : List (Option UInt8)} (hcs : ∀ c ∈ cs, asChar c ≠ newline) {room : ℕ}
    (hroom : cs.length + room = maxLen) :
    runFrom lineStep .start cs =
      some ⟨cs.map asChar ++ List.replicate room 0, cs.length, true⟩ := by
  have hrun := lineRun hcs [] room
  rw [hroom, List.nil_append, List.nil_append, List.length_nil, Nat.zero_add] at hrun
  exact hrun

/-- A newline among the first `MAX` bytes ends the loop. -/
theorem lineRun_newline {before : List UInt8} (h : newline ∉ before) (hlen : before.length < maxLen)
    (rest : List UInt8) :
    runFrom lineStep .start (getchars (before.length + 1) (before ++ newline :: rest)) =
      some ⟨before ++ [newline] ++ List.replicate (maxLen - before.length - 1) 0, before.length + 1,
        false⟩ := by
  have hread : ∀ c ∈ before.map some, asChar c ≠ newline := by
    intro c hc
    obtain ⟨b, hb, rfl⟩ := List.mem_map.mp hc
    rintro rfl
    exact h hb
  obtain ⟨room, hroom⟩ := Nat.exists_eq_add_of_lt hlen
  have hmap : (before.map some).map asChar = before := by
    rw [List.map_map]
    exact List.map_id before
  rw [getchars_append, runFrom_append,
    lineRun_start hread (show (before.map some).length + (room + 1) = maxLen by simp; omega),
    Option.bind_some, hmap, List.length_map, show maxLen - before.length - 1 = room by omega]
  show (lineStep ⟨before ++ List.replicate (room + 1) 0, before.length, true⟩ (some newline)).bind _ = _
  rw [lineStep, if_pos rfl, if_pos (by simp), asChar, Option.getD_some, set_append_replicate]
  rfl

/-- **Without one the loop goes past the array.** -/
theorem lineRun_overruns {input : List UInt8} (h : newline ∉ input.take maxLen) (k : ℕ) :
    runFrom lineStep .start (getchars (maxLen + (k + 1)) input) = none := by
  have hlen := length_getchars maxLen input
  rw [getchars_add, runFrom_append, lineRun_start (asChar_getchars h) (show _ + 0 = maxLen from hlen),
    Option.bind_some, hlen, getchars, runFrom, lineStep, if_pos rfl, if_neg (by simp), Option.bind_none]

theorem lineRun_running {input : List UInt8} (h : newline ∉ input.take maxLen) {k : ℕ} (hk : k ≤ maxLen)
    {s : LineLoop} (hrun : runFrom lineStep .start (getchars k input) = some s) : s.running = true := by
  have hnone : newline ∉ input.take k := fun hmem => h (List.take_subset_take_left input hk hmem)
  have heq := lineRun_start (asChar_getchars hnone) (show _ + (maxLen - k) = maxLen by
    rw [length_getchars]
    exact Nat.add_sub_cancel' hk)
  cases hrun.symm.trans heq
  rfl

theorem not_sendsLine {input : List UInt8} (h : newline ∉ input.take maxLen) : ¬ SendsLine input := by
  rintro ⟨k, s, hrun, hend, -⟩
  rcases Nat.lt_or_ge maxLen k with hlt | hle
  · obtain ⟨j, rfl⟩ := Nat.exists_eq_add_of_lt hlt
    rw [Nat.add_assoc, lineRun_overruns h] at hrun
    cases hrun
  · rw [lineRun_running h hle hrun] at hend
    cases hend

/-- **A line is sent as it was entered** exactly if its newline is among the first `MAX` bytes of the
input. -/
theorem sendsLine_iff (input : List UInt8) : SendsLine input ↔ newline ∈ input.take maxLen := by
  constructor
  · intro hsends
    by_contra h
    exact not_sendsLine h hsends
  · intro h
    obtain ⟨before, behind, htake, hbefore⟩ := List.eq_append_cons_of_mem h
    have hlen : before.length < maxLen := by
      have hle := List.length_take_le maxLen input
      rw [htake, List.length_append, List.length_cons] at hle
      omega
    obtain ⟨rest, rfl⟩ : ∃ rest, input = before ++ newline :: rest := by
      refine ⟨behind ++ input.drop maxLen, ?_⟩
      rw [← List.cons_append, ← List.append_assoc, ← htake, List.take_append_drop]
    have hbuff : (before ++ [newline] ++
        List.replicate (maxLen - before.length - 1) (0 : UInt8)).length = maxLen := by
      simp only [List.length_append, List.length_singleton, List.length_replicate]
      omega
    refine ⟨_, _, lineRun_newline hbefore hlen rest, rfl, ?_, maxLen - before.length - 1, ?_⟩
    · rw [written, List.take_of_length_le hbuff.le, hbuff]
    · rw [written, List.take_of_length_le hbuff.le, line_append_cons hbefore, List.take_of_length_le]
      rw [List.length_append, List.length_singleton]
      exact hlen

/-- **A line of `MAX` bytes before its newline goes past the array**, and so does an input that ends
without a newline. -/
theorem long_line_overruns :
    runFrom lineStep .start (getchars 65 (List.replicate 64 65 ++ [newline])) = none ∧
      ¬ SendsLine (List.replicate 64 65 ++ [newline]) ∧ ¬ SendsLine [] :=
  ⟨lineRun_overruns (by decide) 0, not_sendsLine (by decide), not_sendsLine (by decide)⟩

/-! ### Receiving a message -/

def exit : List UInt8 := [69, 88, 73, 84]

/-- `read(connfd2, buff, MAX)`, when the calls of `read` return the pieces one after the other; at the
end of the stream it returns no byte. -/
def readPiece : List (List UInt8) → List UInt8
  | [] => []
  | p :: _ => p.take maxLen

/-- What `serverReadFunc` does: nothing, print the string in `buff`, or print it and restart. -/
inductive Reaction where
  | nothing
  | fromApp (text : List UInt8)
  | appClosed (text : List UInt8)
  deriving DecidableEq

def serverReadFunc (pieces : List (List UInt8)) : Option Reaction :=
  let got := readPiece pieces
  if got.length > 0 then
    let buff := overwrite cleared 0 got
    (compareString 0 exit buff).bind fun equal =>
      if equal then (cString 0 buff).map .appClosed else (cString 0 buff).map .fromApp
  else some .nothing

def Reaction.restarts : Reaction → Bool
  | .appClosed _ => true
  | .nothing | .fromApp _ => false

/-- The message, which arrives in the pieces, restarts the server if and only if it is EXIT, is printed
as it is otherwise, and no read goes past `buff`. -/
def ReactsToMessage (message : List UInt8) (pieces : List (List UInt8)) : Prop :=
  ∃ r, serverReadFunc pieces = some r ∧ (r.restarts = true ↔ message = exit) ∧
    (message ≠ exit → r = .fromApp message)

theorem overwrite_cleared (p : List UInt8) :
    overwrite cleared 0 p = p ++ List.replicate (maxLen - p.length) 0 := by
  rw [overwrite, cleared, List.take_zero, List.nil_append, Nat.zero_add, List.drop_replicate]

def reaction (text : List UInt8) : Reaction := if text = exit then .appClosed text else .fromApp text

/-- **The first piece decides**, and it must leave a zero byte in `buff`. -/
theorem serverReadFunc_cons {p : List UInt8} (hne : p ≠ []) (hzero : 0 ∉ p) (hlen : p.length ≤ maxLen)
    (rest : List (List UInt8)) :
    serverReadFunc (p :: rest) = if p.length < maxLen then some (reaction p) else none := by
  have hpos : p.length > 0 := List.length_pos_iff.mpr hne
  have hexit : exit.length < p.length + (maxLen - p.length) := by
    rw [Nat.add_sub_cancel' hlen]
    decide
  have hcompare := compareString_append_replicate (show (0 : UInt8) ∉ exit by decide) hzero hexit
  have hstring := cString_append_replicate hzero (maxLen - p.length)
  rw [serverReadFunc, readPiece, List.take_of_length_le hlen, if_pos hpos, overwrite_cleared]
  dsimp only
  rw [hcompare, hstring, Option.bind_some]
  by_cases hroom : p.length < maxLen
  · rw [if_pos hroom, if_neg (Nat.sub_ne_zero_of_lt hroom), reaction]
    by_cases heq : p = exit
    · rw [if_pos heq, if_pos (decide_eq_true heq.symm), Option.map_some]
    · rw [if_neg heq, if_neg (by simpa using Ne.symm heq), Option.map_some]
  · rw [if_neg hroom, if_pos (Nat.sub_eq_zero_of_le (Nat.le_of_not_lt hroom))]
    split <;> rfl

/-- The reaction to a text is the one to the message if and only if the text is the message. -/
theorem reaction_iff {text message : List UInt8} :
    (((reaction text).restarts = true ↔ message = exit) ∧
      (message ≠ exit → reaction text = .fromApp message)) ↔ text = message := by
  rw [reaction]
  by_cases htext : text = exit
  · rw [if_pos htext, htext]
    constructor
    · rintro ⟨hrestart, -⟩
      exact (hrestart.mp rfl).symm
    · rintro rfl
      exact ⟨iff_of_true rfl rfl, fun hne => absurd rfl hne⟩
  · rw [if_neg htext]
    constructor
    · rintro ⟨hrestart, hprint⟩
      have hmessage : message ≠ exit := fun h => Bool.false_ne_true (hrestart.mpr h)
      exact Reaction.fromApp.inj (hprint hmessage)
    · rintro rfl
      exact ⟨iff_of_false Bool.false_ne_true htext, fun _ => rfl⟩

/-- A message is its first piece only if there is no other. -/
theorem rest_eq_nil {p : List UInt8} {rest : List (List UInt8)} (hne : ∀ q ∈ rest, q ≠ [])
    (h : p ++ rest.flatten = p) : rest = [] := by
  have hnil : rest.flatten = [] := List.append_right_eq_self.mp h
  exact List.eq_nil_iff_forall_not_mem.mpr fun q hq =>
    hne q hq (List.flatten_eq_nil_iff.mp hnil q hq)

/-- **A message is taken for what it is**, for all messages and all ways to cut them, exactly if the
first `read` returns all of it and it is shorter than `buff`. -/
theorem reactsToMessage_iff {message : List UInt8} (hne : message ≠ []) (hlen : message.length ≤ maxLen)
    (hzero : 0 ∉ message) {pieces : List (List UInt8)} (hpieces : ∀ p ∈ pieces, p ≠ [])
    (hflat : pieces.flatten = message) :
    ReactsToMessage message pieces ↔ pieces = [message] ∧ message.length < maxLen := by
  cases pieces with
  | nil => exact absurd hflat.symm hne
  | cons p rest =>
    have hp : p ≠ [] := hpieces p (by simp)
    rw [List.flatten_cons] at hflat
    have hzero' : 0 ∉ p := fun hmem => hzero (hflat ▸ List.mem_append_left _ hmem)
    have hple : p.length ≤ message.length := by
      rw [← hflat, List.length_append]
      exact Nat.le_add_right _ _
    rw [ReactsToMessage, serverReadFunc_cons hp hzero' (hple.trans hlen) rest]
    constructor
    · rintro ⟨r, hr, hreacts⟩
      by_cases hroom : p.length < maxLen
      · rw [if_pos hroom, Option.some.injEq] at hr
        rw [← hr] at hreacts
        obtain rfl := reaction_iff.mp hreacts
        rw [rest_eq_nil (fun q hq => hpieces q (by simp [hq])) hflat]
        exact ⟨rfl, hroom⟩
      · rw [if_neg hroom] at hr
        cases hr
    · rintro ⟨heq, hroom⟩
      obtain ⟨rfl, rfl⟩ := List.cons.inj heq
      rw [if_pos hroom]
      exact ⟨_, rfl, reaction_iff.mpr rfl⟩

theorem reactsToMessage_iff_whole :
    ReactsToMessage [72, 69, 76, 76, 79] [[72, 69, 76, 76, 79]] ↔
      [[72, 69, 76, 76, 79]] = [([72, 69, 76, 76, 79] : List UInt8)] ∧
        ([72, 69, 76, 76, 79] : List UInt8).length < maxLen :=
  reactsToMessage_iff (by decide) (by decide) (by decide) (by decide) rfl

/-- **EXIT in two pieces is not recognised**, EXIT as the first piece of another message restarts the
server, and a message of `MAX` bytes is read past the end of `buff`. -/
theorem cut_exit_not_recognised :
    serverReadFunc [[69, 88], [73, 84]] = some (.fromApp [69, 88]) ∧
      ¬ ReactsToMessage exit [[69, 88], [73, 84]] ∧
      serverReadFunc [exit, [73, 78, 71]] = some (.appClosed exit) ∧
      ¬ ReactsToMessage (exit ++ [73, 78, 71]) [exit, [73, 78, 71]] ∧
      serverReadFunc [List.replicate 64 65] = none := by
  refine ⟨by decide +kernel, ?_, by decide +kernel, ?_, by decide +kernel⟩
  · rintro ⟨r, hr, hrestart, -⟩
    rw [show serverReadFunc [[69, 88], [73, 84]] = some (.fromApp [69, 88]) by decide +kernel] at hr
    cases hr
    exact absurd (hrestart.mpr rfl) Bool.false_ne_true
  · rintro ⟨r, hr, hrestart, -⟩
    rw [show serverReadFunc [exit, [73, 78, 71]] = some (.appClosed exit) by decide +kernel] at hr
    cases hr
    exact absurd (hrestart.mp rfl) (by decide)

/-! ### The read thread -/

def Reaction.message : Reaction → Message
  | .nothing => .nothing
  | .fromApp _ => .text
  | .appClosed _ => .exit

/-- **The read thread goes on as the first piece says**: to the closing of the session after EXIT, to the
end of the connection after any other text. -/
theorem readMessage_of_piece {s : Process} (hread : s.read = .readFunc)
    (hopen : (lookup s.fds s.connfd2).isSome = true) {p : List UInt8} (hne : p ≠ []) (hzero : 0 ∉ p)
    (hlen : p.length < maxLen) (rest : List (List UInt8)) :
    ∃ r, serverReadFunc (p :: rest) = some r ∧ androidStep s (.readMessage r.message) =
      some { s with read := if p = exit then .closeSockfd else .closeConnfd2 } := by
  rw [serverReadFunc_cons hne hzero hlen.le, if_pos hlen]
  refine ⟨_, rfl, ?_⟩
  rw [androidStep, if_pos hread, reaction]
  by_cases hexit : p = exit
  · rw [if_pos hexit, if_pos hexit, Reaction.message, readMessage, if_pos hopen]
  · rw [if_neg hexit, if_neg hexit, Reaction.message, readMessage, if_pos hopen]

end LinkManagement.Messages
