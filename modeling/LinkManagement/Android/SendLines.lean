import LinkManagement.Android.Messages
import LinkManagement.Lib.Framing

/-!
# The lines of the android server

The loop of `serverSend` in `androidServer/src/androidServer.c`, on an input of many lines: each call of
`serverSendFunc` takes a line from the input and writes `MAX` bytes to the connection, a record.  The
connection is the same for all of them: the server is not restarted in between, and no `write` ends the
process.  `serverSend` is `none` where a call does not return; `overruns_iff` says that it then stores past
`buff`, also at the end of the input inside a line, which `getchar` turns into an endless run of -1.

* `serverSend_iff` — exactly which inputs are sent, and as what;
* `lines_arrive_iff` — that a receiver of those bytes, cut anywhere, can tell the lines, one by one, and
  that every other input makes a call run past `buff`.
-/

namespace LinkManagement.SendLines

open LinkManagement.Transition LinkManagement.Framing LinkManagement.Messages

/-! ### The loops -/

/-- The loop of `serverSendFunc`, with a bound on its iterations: the variables and the input after it. -/
def lineLoop : ℕ → LineLoop → List UInt8 → Option (LineLoop × List UInt8)
  | 0, _, _ => none
  | fuel + 1, s, input =>
      (lineStep s (getchar input).1).bind fun s' =>
        if s'.running then lineLoop fuel s' (getchar input).2 else some (s', (getchar input).2)

/-- `serverSendFunc`: the bytes it writes, and the input after it.  The loop has no more iterations than
`buff` has cells, and one that leaves it. -/
def serverSendFunc (input : List UInt8) : Option (List UInt8 × List UInt8) :=
  (lineLoop (maxLen + 1) .start input).map fun p => (written p.1, p.2)

/-- The first `k` calls that `serverSend` makes while it is connected: the bytes on the connection, and
the input after them. -/
def serverSend : ℕ → List UInt8 → Option (List UInt8 × List UInt8)
  | 0, input => some ([], input)
  | k + 1, input =>
      (serverSendFunc input).bind fun p => (serverSend k p.2).map fun q => (p.1 ++ q.1, q.2)

/-- The loop of the call gets to the end of `buff` and goes on: the next store is past the array. -/
def Overruns (input : List UInt8) : Prop :=
  ∃ k s, runFrom lineStep .start (getchars k input) = some s ∧ s.running = true ∧ s.n = s.buff.length

/-! ### Lines and records -/

/-- A line, without its newline, that has room in `buff`. -/
def ShortLine (l : List UInt8) : Prop := newline ∉ l ∧ l.length < maxLen

instance (l : List UInt8) : Decidable (ShortLine l) := inferInstanceAs (Decidable (_ ∧ _))

def entered (l : List UInt8) : List UInt8 := l ++ [newline]

/-- The line as it is written. -/
def record (l : List UInt8) : List UInt8 := l ++ [newline] ++ List.replicate (maxLen - l.length - 1) 0

theorem length_record {l : List UInt8} (h : l.length < maxLen) : (record l).length = maxLen := by
  simp only [record, List.length_append, List.length_singleton, List.length_replicate]
  omega

/-- What follows the first newline determines what is before it. -/
theorem append_newline_inj {a b x y : List UInt8} (ha : newline ∉ a) (hb : newline ∉ b)
    (h : a ++ newline :: x = b ++ newline :: y) : a = b := by
  induction a generalizing b with
  | nil =>
    cases b with
    | nil => rfl
    | cons c b =>
      simp only [List.nil_append, List.cons_append, List.cons.injEq] at h
      exact absurd (by simp [h.1]) hb
  | cons c a ih =>
    cases b with
    | nil =>
      simp only [List.nil_append, List.cons_append, List.cons.injEq] at h
      exact absurd (by simp [h.1]) ha
    | cons d b =>
      simp only [List.cons_append, List.cons.injEq] at h
      rw [List.mem_cons, not_or] at ha hb
      rw [h.1, ih ha.2 hb.2 h.2]

/-- **Records are a prefix-free code of lines.** -/
theorem records_prefixFree : PrefixFree ShortLine record where
  ne_nil := fun hl hnil => by
    have hlen := length_record hl.2
    rw [hnil] at hlen
    simp [maxLen] at hlen
  cancel := fun {a b x y} ha hb h => by
    have hlen : (record a).length = (record b).length := by
      rw [length_record ha.2, length_record hb.2]
    obtain ⟨hrecord, hrest⟩ := List.append_inj h hlen
    refine ⟨?_, hrest⟩
    rw [record, record, List.append_assoc, List.append_assoc] at hrecord
    exact append_newline_inj ha.1 hb.1 hrecord

/-! ### One call -/

theorem lineLoop_of_run {k : ℕ} : ∀ {fuel : ℕ} {s m : LineLoop} {input : List UInt8}, k < fuel →
    runFrom lineStep s (getchars (k + 1) input) = some m → m.running = false →
    lineLoop fuel s input = some (m, input.drop (k + 1)) := by
  induction k with
  | zero =>
    intro fuel s m input hfuel hrun hend
    obtain ⟨n, rfl⟩ := Nat.exists_eq_succ_of_ne_zero (Nat.ne_zero_of_lt hfuel)
    obtain ⟨m', hstep, hlast⟩ := runFrom_cons_eq_some.mp hrun
    obtain rfl := Option.some.inj hlast
    rw [lineLoop, hstep, Option.bind_some, if_neg (by rw [hend]; exact Bool.false_ne_true)]
    cases input <;> rfl
  | succ k ih =>
    intro fuel s m input hfuel hrun hend
    obtain ⟨n, rfl⟩ := Nat.exists_eq_succ_of_ne_zero (Nat.ne_zero_of_lt hfuel)
    obtain ⟨m', hstep, hrest⟩ := runFrom_cons_eq_some.mp hrun
    -- the step after this one was taken, so the loop goes on
    have hrunning : m'.running = true := by
      obtain ⟨m'', hnext, -⟩ := runFrom_cons_eq_some.mp hrest
      rw [lineStep] at hnext
      split at hnext
      · assumption
      · simp at hnext
    rw [lineLoop, hstep, Option.bind_some, if_pos hrunning, ih (by omega) hrest hend]
    cases input with
    | nil => simp [getchar]
    | cons c input => rfl

theorem run_of_lineLoop {fuel : ℕ} : ∀ {s m : LineLoop} {input rest : List UInt8},
    lineLoop fuel s input = some (m, rest) →
    ∃ k, runFrom lineStep s (getchars k input) = some m ∧ m.running = false := by
  induction fuel with
  | zero =>
    intro s m input rest h
    simp [lineLoop] at h
  | succ fuel ih =>
    intro s m input rest h
    obtain ⟨m', hstep, h⟩ := Option.bind_eq_some_iff.mp h
    split at h
    · obtain ⟨k, hrun, hend⟩ := ih h
      exact ⟨k + 1, runFrom_cons_eq_some.mpr ⟨m', hstep, hrun⟩, hend⟩
    · rename_i hleft
      obtain ⟨rfl, -⟩ := Prod.mk.inj (Option.some.inj h)
      refine ⟨1, runFrom_cons_eq_some.mpr ⟨m', hstep, rfl⟩, ?_⟩
      simpa using hleft

theorem serverSendFunc_short {l : List UInt8} (hl : ShortLine l) (rest : List UInt8) :
    serverSendFunc (l ++ newline :: rest) = some (record l, rest) := by
  have hrun := lineRun_newline hl.1 hl.2 rest
  have hfuel : l.length < maxLen + 1 := Nat.lt_succ_of_lt hl.2
  have hdrop : (l ++ newline :: rest).drop (l.length + 1) = rest := by
    rw [List.drop_append, List.drop_of_length_le (by omega)]
    simp
  have hwritten : (record l).take maxLen = record l :=
    List.take_of_length_le (length_record hl.2).le
  rw [serverSendFunc, lineLoop_of_run hfuel hrun rfl, Option.map_some, hdrop]
  show some ((record l).take maxLen, rest) = _
  rw [hwritten]

theorem shortLine_of_mem {input : List UInt8} (h : newline ∈ input.take maxLen) :
    ∃ l rest, ShortLine l ∧ input = l ++ newline :: rest := by
  obtain ⟨l, behind, htake, hl⟩ := List.eq_append_cons_of_mem h
  have hle := List.length_take_le maxLen input
  rw [htake, List.length_append, List.length_cons] at hle
  refine ⟨l, behind ++ input.drop maxLen, ⟨hl, by omega⟩, ?_⟩
  rw [← List.cons_append, ← List.append_assoc, ← htake, List.take_append_drop]

/-- **A call runs past `buff`** exactly if no newline is among the first `MAX` bytes of its input. -/
theorem overruns_iff {input : List UInt8} : Overruns input ↔ newline ∉ input.take maxLen := by
  constructor
  · rintro ⟨k, s, hrun, hgoes, hn⟩ hmem
    obtain ⟨l, rest, ⟨hl, hlen⟩, hinput⟩ := shortLine_of_mem hmem
    rcases Nat.lt_or_ge l.length k with hlt | hge
    · -- the newline has been read, and the loop is left
      obtain ⟨j, rfl⟩ := Nat.exists_eq_add_of_lt hlt
      rw [Nat.add_right_comm, getchars_add, hinput, runFrom_append, lineRun_newline hl hlen,
        Option.bind_some] at hrun
      cases j with
      | zero =>
        cases hrun
        cases hgoes
      | succ j =>
        rw [getchars, runFrom, lineStep, if_neg Bool.false_ne_true, Option.bind_none] at hrun
        cases hrun
    · have hnone : newline ∉ input.take k := by
        rw [hinput, List.take_append_of_le_length hge]
        exact fun h => hl (List.mem_of_mem_take h)
      have heq := lineRun_start (asChar_getchars hnone) (show _ + (maxLen - k) = maxLen by
        rw [length_getchars]
        omega)
      cases hrun.symm.trans heq
      simp only [length_getchars, List.length_append, List.length_map, List.length_replicate] at hn
      omega
  · intro h
    have hlen := length_getchars maxLen input
    refine ⟨maxLen, _, lineRun_start (asChar_getchars h) (show _ + 0 = maxLen from hlen), rfl, ?_⟩
    simp

theorem serverSendFunc_none {input : List UInt8} (h : newline ∉ input.take maxLen) :
    serverSendFunc input = none := by
  rw [serverSendFunc, Option.map_eq_none_iff]
  by_contra hsome
  obtain ⟨⟨m, rest⟩, hloop⟩ := Option.ne_none_iff_exists'.mp hsome
  obtain ⟨k, hrun, hend⟩ := run_of_lineLoop hloop
  rcases Nat.lt_or_ge maxLen k with hlt | hle
  · obtain ⟨j, rfl⟩ := Nat.exists_eq_add_of_lt hlt
    rw [Nat.add_assoc, lineRun_overruns h] at hrun
    simp at hrun
  · rw [lineRun_running h hle hrun] at hend
    simp at hend

theorem serverSendFunc_iff {input bytes rest : List UInt8} :
    serverSendFunc input = some (bytes, rest) ↔
      ∃ l, ShortLine l ∧ input = l ++ newline :: rest ∧ bytes = record l := by
  constructor
  · intro h
    by_cases hmem : newline ∈ input.take maxLen
    · obtain ⟨l, behind, hl, hinput⟩ := shortLine_of_mem hmem
      rw [hinput, serverSendFunc_short hl, Option.some.injEq, Prod.mk.injEq] at h
      refine ⟨l, hl, ?_, h.1.symm⟩
      rw [← h.2]
      exact hinput
    · rw [serverSendFunc_none hmem] at h
      simp at h
  · rintro ⟨l, hl, rfl, rfl⟩
    exact serverSendFunc_short hl rest

theorem serverSendFunc_eq_none_iff {input : List UInt8} :
    serverSendFunc input = none ↔ Overruns input := by
  rw [overruns_iff]
  refine ⟨fun h hmem => ?_, serverSendFunc_none⟩
  obtain ⟨l, behind, hl, hinput⟩ := shortLine_of_mem hmem
  rw [hinput, serverSendFunc_short hl] at h
  simp at h

/-! ### All calls -/

/-- **Exactly the inputs of short lines are sent**, each line as its record: `k` calls return if and only
if the input begins with `k` lines that have room in `buff`. -/
theorem serverSend_iff {k : ℕ} {input bytes rest : List UInt8} :
    serverSend k input = some (bytes, rest) ↔
      ∃ ls : List (List UInt8), ls.length = k ∧ (∀ l ∈ ls, ShortLine l) ∧
        input = ls.flatMap entered ++ rest ∧ bytes = ls.flatMap record := by
  induction k generalizing input bytes with
  | zero =>
    constructor
    · intro h
      obtain ⟨rfl, rfl⟩ := Prod.mk.inj (Option.some.inj h)
      exact ⟨[], rfl, by simp, by simp, by simp⟩
    · rintro ⟨ls, hlen, -, rfl, rfl⟩
      rw [List.length_eq_zero_iff.mp hlen]
      rfl
  | succ k ih =>
    constructor
    · intro h
      obtain ⟨⟨out, input'⟩, hcall, h⟩ := Option.bind_eq_some_iff.mp h
      obtain ⟨⟨outs, rest'⟩, hcalls, h⟩ := Option.map_eq_some_iff.mp h
      obtain ⟨rfl, rfl⟩ := Prod.mk.inj h
      obtain ⟨l, hl, rfl, rfl⟩ := serverSendFunc_iff.mp hcall
      obtain ⟨ls, hlen, hls, hinput, hbytes⟩ := ih.mp hcalls
      refine ⟨l :: ls, by rw [List.length_cons, hlen], ?_, ?_, ?_⟩
      · intro x hx
        rcases List.mem_cons.mp hx with rfl | hx
        · exact hl
        · exact hls x hx
      · have hrest : input' = ls.flatMap entered ++ rest' := hinput
        rw [hrest]
        simp [entered]
      · rw [List.flatMap_cons, hbytes]
    · rintro ⟨ls, hlen, hls, rfl, rfl⟩
      cases ls with
      | nil => simp at hlen
      | cons l ls =>
        have hl : ShortLine l := hls l (by simp)
        have hrest := ih.mpr
          ⟨ls, by simpa using hlen, fun x hx => hls x (by simp [hx]), rfl, rfl⟩
        have hinput : (l :: ls).flatMap entered ++ rest =
            l ++ newline :: (ls.flatMap entered ++ rest) := by simp [entered]
        rw [serverSend, hinput, serverSendFunc_short hl, Option.bind_some, hrest]
        rfl

theorem serverSend_add (n m : ℕ) (input : List UInt8) :
    serverSend (n + m) input =
      (serverSend n input).bind fun p => (serverSend m p.2).map fun q => (p.1 ++ q.1, q.2) := by
  induction n generalizing input with
  | zero =>
    rw [Nat.zero_add, serverSend, Option.bind_some]
    simp
  | succ n ih =>
    rw [Nat.add_right_comm, serverSend, serverSend]
    cases serverSendFunc input with
    | none => rfl
    | some p =>
      rw [Option.bind_some, Option.bind_some, ih]
      cases serverSend n p.2 with
      | none => rfl
      | some q => cases hm : serverSend m q.2 <;> simp [hm]

/-- **If the calls do not all return**, one of them runs past `buff`, after those before it have returned. -/
theorem serverSend_eq_none_iff {k : ℕ} {input : List UInt8} :
    serverSend k input = none ↔
      ∃ n < k, ∃ bytes rest, serverSend n input = some (bytes, rest) ∧ Overruns rest := by
  constructor
  · intro h
    induction k with
    | zero => cases h
    | succ k ih =>
      cases hk : serverSend k input with
      | none =>
        obtain ⟨n, hn, hcall⟩ := ih hk
        exact ⟨n, by omega, hcall⟩
      | some p =>
        refine ⟨k, by omega, p.1, p.2, hk, serverSendFunc_eq_none_iff.mp ?_⟩
        rw [serverSend_add, hk, Option.bind_some, Option.map_eq_none_iff, serverSend,
          Option.bind_eq_none_iff] at h
        cases hcall : serverSendFunc p.2 with
        | none => rfl
        | some q => exact absurd (h q hcall) (by simp [serverSend])
  · rintro ⟨n, hn, bytes, rest, hcalls, hover⟩
    obtain ⟨j, rfl⟩ := Nat.exists_eq_add_of_lt hn
    rw [Nat.add_assoc, serverSend_add, hcalls, Option.bind_some, serverSend,
      serverSendFunc_eq_none_iff.mpr hover]
    rfl

theorem length_records {ls : List (List UInt8)} (hls : ∀ l ∈ ls, ShortLine l) :
    (ls.flatMap record).length = maxLen * ls.length := by
  induction ls with
  | nil => rfl
  | cons l ls ih =>
    have hl := length_record (hls l (by simp)).2
    rw [List.flatMap_cons, List.length_append, hl, ih fun x hx => hls x (by simp [hx]),
      List.length_cons, Nat.mul_succ, Nat.add_comm]

/-- What the bytes written for the first `k` lines of the input tell a receiver, wherever the stream is
cut: the first of the lines, in order and in one way only, and less than a record of the next. -/
structure LinesArrive (k : ℕ) (input bytes rest : List UInt8) : Prop where
  length_eq : bytes.length = maxLen * k
  received : ∀ got missing, got ++ missing = bytes → ∃ ls later tail,
    input = (ls ++ later).flatMap entered ++ rest ∧ (ls ++ later).length = k ∧
      Splits ShortLine record got ls tail ∧ tail.length < maxLen ∧
      ∀ ls' tail', Splits ShortLine record got ls' tail' → ls' = ls ∧ tail' = tail

theorem linesArrive {k : ℕ} {input bytes rest : List UInt8}
    (hsend : serverSend k input = some (bytes, rest)) : LinesArrive k input bytes rest := by
  obtain ⟨all, rfl, hall, hinput, hbytes⟩ := serverSend_iff.mp hsend
  refine ⟨by rw [hbytes, length_records hall], fun got missing hcut => ?_⟩
  obtain ⟨ls, later, tail, rfl, hsplit, hnext⟩ :=
    splits_of_append records_prefixFree hall (hcut.trans hbytes)
  refine ⟨ls, later, tail, hinput, rfl, hsplit, ?_, fun ls' tail' h => h.unique records_prefixFree hsplit⟩
  cases later with
  | nil =>
    -- all lines are there, and nothing is missing
    rw [hbytes, hsplit.eq, List.append_nil, List.append_assoc] at hcut
    have hnil := List.append_right_eq_self.mp hcut
    rw [(List.append_eq_nil_iff.mp hnil).1]
    decide
  | cons l later =>
    have hlt := hnext l rfl
    rwa [length_record (hall l (by simp)).2] at hlt

/-- The input begins with `k` lines that have room in `buff` and end with a newline. -/
def BeginsWithLines (k : ℕ) (input : List UInt8) : Prop :=
  ∃ ls : List (List UInt8), ls.length = k ∧ (∀ l ∈ ls, ShortLine l) ∧ ls.flatMap entered <+: input

/-- **The lines arrive**, one record each, exactly if the input begins with so many that have room in
`buff`; and otherwise, after some calls have returned, one runs past `buff`. -/
theorem lines_arrive_iff (k : ℕ) (input : List UInt8) :
    ((∃ bytes rest, serverSend k input = some (bytes, rest) ∧ LinesArrive k input bytes rest) ↔
      BeginsWithLines k input) ∧
    ((∃ n < k, ∃ bytes rest, serverSend n input = some (bytes, rest) ∧ Overruns rest) ↔
      ¬ BeginsWithLines k input) := by
  have hlines : (∃ bytes rest, serverSend k input = some (bytes, rest)) ↔ BeginsWithLines k input := by
    constructor
    · rintro ⟨bytes, rest, hsend⟩
      obtain ⟨ls, hlen, hls, rfl, -⟩ := serverSend_iff.mp hsend
      exact ⟨ls, hlen, hls, List.prefix_append _ _⟩
    · rintro ⟨ls, hlen, hls, rest, rfl⟩
      exact ⟨ls.flatMap record, rest, serverSend_iff.mpr ⟨ls, hlen, hls, rfl, rfl⟩⟩
  rw [← hlines]
  constructor
  · exact ⟨fun ⟨bytes, rest, hsend, _⟩ => ⟨bytes, rest, hsend⟩,
      fun ⟨bytes, rest, hsend⟩ => ⟨bytes, rest, hsend, linesArrive hsend⟩⟩
  · rw [← serverSend_eq_none_iff]
    constructor
    · rintro hnone ⟨bytes, rest, hsend⟩
      rw [hnone] at hsend
      cases hsend
    · intro h
      cases hsend : serverSend k input with
      | none => rfl
      | some p => exact absurd ⟨p.1, p.2, hsend⟩ h

/-- Two lines, of which the second fills `buff`, and a third that has no newline. -/
example : (serverSend 2 (entered [72, 73] ++ entered (List.replicate 63 65) ++ [66])).map Prod.snd =
    some [66] ∧ serverSend 3 (entered [72, 73] ++ entered (List.replicate 63 65) ++ [66]) = none := by
  decide +kernel

end LinkManagement.SendLines
