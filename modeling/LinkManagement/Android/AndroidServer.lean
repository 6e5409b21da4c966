import LinkManagement.Lib.Descriptors
import LinkManagement.Lib.Transition

/-!
# The connections of the android server

`androidServer/src/androidServer.c`: after `startServer`, one thread accepts a connection for every
message it reads (`serverRead`), another sends input lines over `connfd` (`serverSend`).  On EXIT the
first closes `sockfd` and `connfd` and runs `startServer` again.  The threads share the variables and
the table of open descriptors, with no lock; each access to a shared variable and each system call, with
the store of its result, is a step.  Where `socket`, `bind` or `listen` fails the program exits, so these
succeed here.  The table is that of the program's own calls: nothing else in the process opens a
descriptor, and no `write` ends it by a SIGPIPE.

A *session* is the time from an `accept` of `startServer` to the `close` of the connection it returned.
`session` is the connection of the current one; `none` while there is none.

* `undisciplined` — a failed `accept` leaves `connected = 1`, and a line entered after an EXIT goes to a
  later client's connection;
* `AndroidInv`, `androidStep_inv` — the invariant of the runs that avoid both, and its step;
* `connections_disciplined` — what holds in those runs.
-/

namespace LinkManagement.AndroidServer

open LinkManagement.Transition LinkManagement.Descriptors

/-- What a descriptor stands for; accepted connections are numbered in the order they are accepted. -/
inductive File where
  | std
  | listening
  | accepted (n : ℕ)
  deriving DecidableEq

/-! ### The program -/

/-- The steps of `startServer`: `socket` up to `listen`, `accept`, and the store of `connected`. -/
inductive StartPc where
  | socket
  | accept
  | setConnected
  deriving DecidableEq

inductive MainPc where
  | starting (p : StartPc)
  | createRead
  | createSend
  | done
  deriving DecidableEq

inductive ReadPc where
  | notCreated
  | loopHead
  | accept
  | readFunc
  | closeSockfd
  | closeConnfd
  | clearConnected
  | restarting (p : StartPc)
  | closeConnfd2
  deriving DecidableEq

/-- `serverSend` and `serverSendFunc`, with its parameter `connfd` and the session its prompt was issued
in. -/
inductive SendPc where
  | notCreated
  | loopHead
  | loadConnfd
  | prompt (connfd : ℤ)
  | input (connfd : ℤ) (session : Option ℕ)
  | write (connfd : ℤ) (session : Option ℕ)
  deriving DecidableEq

/-- A `write` of `serverSendFunc`: the descriptor, what it stood for, and the session of its prompt. -/
structure Write where
  connfd : ℤ
  target : Option File
  session : Option ℕ
  deriving DecidableEq

/-- The process.  `accepted` counts the accepted connections; `fresh` says that the session in which
`serverSend` has loaded `connfd` is still on; `writes` records the writes. -/
structure Process where
  sockfd : ℤ
  connfd : ℤ
  connfd2 : ℤ
  connected : Bool
  fds : List (Option File)
  main : MainPc
  read : ReadPc
  send : SendPc
  accepted : ℕ
  session : Option ℕ
  fresh : Bool
  writes : List Write
  deriving DecidableEq

def Process.start : Process where
  sockfd := 0
  connfd := 0
  connfd2 := 0
  connected := false
  fds := [some .std, some .std, some .std]
  main := .starting .socket
  read := .notCreated
  send := .notCreated
  accepted := 0
  session := none
  fresh := false
  writes := []

/-- `sockfd = socket(...)`, then `bind` and `listen`. -/
def openSocket (s : Process) : Process :=
  { s with sockfd := free s.fds, fds := alloc s.fds .listening }

/-- `accept(sockfd, ...)`: the descriptor it returns, the lowest that the program has free, and the process
after it.  It can only succeed on a listening socket. -/
def acceptOn (ok : Bool) (s : Process) : Option (ℤ × Process) :=
  if ok then
    if lookup s.fds s.sockfd = some .listening then
      some (free s.fds,
        { s with fds := alloc s.fds (.accepted s.accepted), accepted := s.accepted + 1 })
    else none
  else some (-1, s)

def startAccept (ok : Bool) (s : Process) : Option Process :=
  (acceptOn ok s).map fun p =>
    { p.2 with connfd := p.1, session := if ok then some s.accepted else none }

/-- What `read` on `connfd2` returns: nothing, "EXIT", or another message. -/
inductive Message where
  | nothing
  | exit
  | text
  deriving DecidableEq

/-- The next step: of the main thread, of the read thread, or of the send thread.  The label says
whether an `accept` succeeds and what is read. -/
inductive Act where
  | main
  | mainAccept (ok : Bool)
  | read
  | readAccept (ok : Bool)
  | readMessage (m : Message)
  | send
  deriving DecidableEq

def mainStep (s : Process) : Option Process :=
  match s.main with
  | .starting .socket => some { openSocket s with main := .starting .accept }
  | .starting .accept => none
  | .starting .setConnected => some { s with connected := true, main := .createRead }
  | .createRead => some { s with read := .loopHead, main := .createSend }
  | .createSend => some { s with send := .loopHead, main := .done }
  | .done => none

def readStep (s : Process) : Option Process :=
  match s.read with
  | .loopHead => some { s with read := if s.connected then .accept else .loopHead }
  | .closeSockfd => some { s with fds := close s.fds s.sockfd, read := .closeConnfd }
  | .closeConnfd =>
      some { s with
        fds := close s.fds s.connfd, session := none, fresh := false, read := .clearConnected }
  | .clearConnected => some { s with connected := false, read := .restarting .socket }
  | .restarting .socket => some { openSocket s with read := .restarting .accept }
  | .restarting .setConnected => some { s with connected := true, read := .closeConnfd2 }
  | .closeConnfd2 => some { s with fds := close s.fds s.connfd2, read := .loopHead }
  | .notCreated | .accept | .readFunc | .restarting .accept => none

def readMessage (m : Message) (s : Process) : Option Process :=
  match m with
  | .nothing => some { s with read := .closeConnfd2 }
  | .exit => if (lookup s.fds s.connfd2).isSome then some { s with read := .closeSockfd } else none
  | .text => if (lookup s.fds s.connfd2).isSome then some { s with read := .closeConnfd2 } else none

def sendStep (s : Process) : Option Process :=
  match s.send with
  | .notCreated => none
  | .loopHead => some { s with send := if s.connected then .loadConnfd else .loopHead }
  | .loadConnfd => some { s with send := .prompt s.connfd, fresh := s.session.isSome }
  | .prompt connfd => some { s with send := .input connfd s.session }
  -- `getchar` returns up to a newline
  | .input connfd session => some { s with send := .write connfd session }
  | .write connfd session =>
      some { s with
        send := .loopHead, writes := s.writes ++ [⟨connfd, lookup s.fds connfd, session⟩] }

def androidStep (s : Process) : Act → Option Process
  | .main => mainStep s
  | .mainAccept ok =>
      if s.main = .starting .accept then
        (startAccept ok s).map fun s => { s with main := .starting .setConnected }
      else none
  | .read => readStep s
  | .readAccept ok =>
      match s.read with
      | .accept => (acceptOn ok s).map fun p => { p.2 with connfd2 := p.1, read := .readFunc }
      | .restarting .accept =>
          (startAccept ok s).map fun s => { s with read := .restarting .setConnected }
      | _ => none
  | .readMessage m => if s.read = .readFunc then readMessage m s else none
  | .send => sendStep s

/-! ### The discipline -/

/-- `connected = 1` at a loop head means that `connfd` is an open accepted connection, and every write
goes to the connection of the session of its prompt. -/
structure Disciplined (s : Process) : Prop where
  heads : s.connected = true → s.read = .loopHead ∨ s.send = .loopHead →
    ∃ n, lookup s.fds s.connfd = some (.accepted n)
  writes : ∀ w ∈ s.writes, ∃ n, w.session = some n ∧ w.target = some (.accepted n)

def SendPc.writing : SendPc → Bool
  | .write _ _ => true
  | _ => false

/-- The step is none of those that break the discipline: a failed `accept` in `startServer`, the `close`
of `connfd` while the send thread is at its loop head (or the creation of that thread before `connected`
is cleared), and a write after the session in which `connfd` was loaded is over. -/
def InTime (s : Process) : Act → Prop
  | .main => s.main = .createSend → s.read ≠ .clearConnected
  | .mainAccept ok => ok = true
  | .read => s.read = .closeConnfd → s.send ≠ .loopHead
  | .readAccept ok => s.read = .restarting .accept → ok = true
  | .readMessage _ => True
  | .send => s.send.writing = true → s.fresh = true

instance (s : Process) : (a : Act) → Decidable (InTime s a)
  | .main | .read | .readAccept _ | .send => inferInstanceAs (Decidable (_ → _))
  | .mainAccept ok => inferInstanceAs (Decidable (ok = true))
  | .readMessage _ => isTrue trivial

/-! ### The invariant -/

/-- The read thread is between its `close(connfd)` and the next `accept` of `startServer`. -/
def ReadPc.ended : ReadPc → Bool
  | .clearConnected | .restarting .socket | .restarting .accept => true
  | _ => false

/-- The read thread is between its `close(sockfd)` and the next `socket`. -/
def ReadPc.deaf : ReadPc → Bool
  | .closeConnfd | .clearConnected | .restarting .socket => true
  | _ => false

/-- The read thread holds the descriptor of its own `accept`. -/
def ReadPc.holding : ReadPc → Bool
  | .notCreated | .loopHead | .accept => false
  | _ => true

/-- There is no session: the first has not begun, or the next has not. -/
def Process.ended (s : Process) : Bool :=
  match s.main with
  | .starting .socket | .starting .accept => true
  | .starting .setConnected | .createRead => false
  | .createSend | .done => s.read.ended

def Process.deaf (s : Process) : Bool :=
  match s.main with
  | .starting .socket => true
  | .starting .accept | .starting .setConnected | .createRead => false
  | .createSend | .done => s.read.deaf

def CreatedOk (s : Process) : Prop :=
  match s.main with
  | .starting _ | .createRead => s.read = .notCreated ∧ s.send = .notCreated
  | .createSend => s.send = .notCreated
  | .done => True

/-- What the send thread holds of a session that is still on. -/
def FreshOk (s : Process) : Prop :=
  match s.send with
  | .prompt connfd => connfd = s.connfd
  | .input connfd session | .write connfd session => connfd = s.connfd ∧ session = s.session
  | .notCreated | .loopHead | .loadConnfd => True

/-- The invariant of the runs in time. -/
structure AndroidInv (s : Process) : Prop where
  ended : s.session = none ↔ s.ended = true
  session : ∀ n, s.session = some n → lookup s.fds s.connfd = some (.accepted n)
  listening : s.deaf = false → lookup s.fds s.sockfd = some .listening
  connfd2 : s.read.holding = true → s.connfd2 < 0 ∨
    ∃ m, lookup s.fds s.connfd2 = some (.accepted m) ∧ s.session ≠ some m
  numbered : ∀ fd n, lookup s.fds fd = some (.accepted n) → n < s.accepted
  connected : s.connected = true → s.session = none → s.read = .clearConnected
  clearing : s.read = .clearConnected → s.send ≠ .loopHead
  fresh : s.fresh = true → s.session ≠ none ∧ FreshOk s
  created : CreatedOk s
  writes : ∀ w ∈ s.writes, ∃ n, w.session = some n ∧ w.target = some (.accepted n)

theorem start_androidInv : AndroidInv .start where
  ended := by decide
  session := fun n h => nomatch h
  listening := fun h => nomatch h
  connfd2 := fun h => nomatch h
  numbered := fun fd n h => by
    have hmem := mem_of_lookup h
    simp [Process.start] at hmem
  connected := fun h => nomatch h
  clearing := fun h => nomatch h
  fresh := fun h => nomatch h
  created := ⟨rfl, rfl⟩
  writes := List.forall_mem_nil _

theorem AndroidInv.disciplined {s : Process} (h : AndroidInv s) : Disciplined s where
  heads := fun hconn hhead => by
    cases hs : s.session with
    | some n => exact ⟨n, h.session n hs⟩
    | none =>
      have hclear := h.connected hconn hs
      rcases hhead with hread | hsend
      · rw [hclear] at hread
        cases hread
      · exact absurd hsend (h.clearing hclear)
  writes := h.writes

/-! ### Opening and closing -/

theorem lookup_alloc_of_some {fds : List (Option File)} {f x : File} {fd : ℤ}
    (h : lookup fds fd = some x) : lookup (alloc fds f) fd = some x := by
  rw [lookup_alloc, if_neg ?_, h]
  rintro rfl
  rw [lookup_free] at h
  cases h

theorem lookup_alloc_free (fds : List (Option File)) (f : File) :
    lookup (alloc fds f) (free fds : ℤ) = some f := by
  rw [lookup_alloc, if_pos rfl]

theorem lookup_close_of_ne {fds : List (Option File)} {x : File} {fd i : ℤ}
    (h : lookup fds fd = some x) (hne : fd ≠ i) : lookup (close fds i) fd = some x := by
  rw [lookup_close, if_neg hne, h]

/-- Only a new connection gets a number, the next one. -/
theorem numbered_alloc_listening {fds : List (Option File)} {k : ℕ}
    (h : ∀ fd n, lookup fds fd = some (.accepted n) → n < k) :
    ∀ fd n, lookup (alloc fds .listening) fd = some (.accepted n) → n < k := by
  intro fd n hfd
  rw [lookup_alloc] at hfd
  split at hfd
  · cases hfd
  · exact h fd n hfd

theorem numbered_alloc_accepted {fds : List (Option File)} {k : ℕ}
    (h : ∀ fd n, lookup fds fd = some (.accepted n) → n < k) :
    ∀ fd n, lookup (alloc fds (.accepted k)) fd = some (.accepted n) → n < k + 1 := by
  intro fd n hfd
  rw [lookup_alloc] at hfd
  split at hfd
  · cases hfd
    omega
  · exact Nat.lt_succ_of_lt (h fd n hfd)

theorem numbered_close {fds : List (Option File)} {k : ℕ} (i : ℤ)
    (h : ∀ fd n, lookup fds fd = some (.accepted n) → n < k) :
    ∀ fd n, lookup (close fds i) fd = some (.accepted n) → n < k := by
  intro fd n hfd
  rw [lookup_close] at hfd
  split at hfd
  · cases hfd
  · exact h fd n hfd

/-! ### Which threads run -/

theorem main_of_send_created {s : Process} (h : CreatedOk s) (hsend : s.send ≠ .notCreated) :
    s.main = .done := by
  unfold CreatedOk at h
  cases hmain : s.main with
  | starting p =>
    rw [hmain] at h
    exact absurd h.2 hsend
  | createRead =>
    rw [hmain] at h
    exact absurd h.2 hsend
  | createSend =>
    rw [hmain] at h
    exact absurd h hsend
  | done => rfl

theorem main_of_read_created {s : Process} (h : CreatedOk s) (hread : s.read ≠ .notCreated) :
    s.main = .createSend ∨ s.main = .done := by
  unfold CreatedOk at h
  cases hmain : s.main with
  | starting p =>
    rw [hmain] at h
    exact absurd h.1 hread
  | createRead =>
    rw [hmain] at h
    exact absurd h.1 hread
  | createSend => exact .inl rfl
  | done => exact .inr rfl

theorem createdOk_of_done {s : Process} (h : s.main = .done) : CreatedOk s := by
  rw [CreatedOk, h]
  trivial

/-- Once the read thread runs, its place tells whether there is a session and a listening socket. -/
theorem ended_eq {s : Process} (h : s.main = .createSend ∨ s.main = .done) : s.ended = s.read.ended := by
  rcases h with h | h <;> rw [Process.ended, h]

theorem deaf_eq {s : Process} (h : s.main = .createSend ∨ s.main = .done) : s.deaf = s.read.deaf := by
  rcases h with h | h <;> rw [Process.deaf, h]

theorem AndroidInv.session_ne_none {s : Process} (h : AndroidInv s) (hended : s.ended = false) :
    s.session ≠ none := by
  intro hnone
  rw [h.ended.mp hnone] at hended
  cases hended

theorem not_deaf {s : Process} (hd : s.deaf = false) (hm : s.main = .createSend ∨ s.main = .done)
    (hread : s.read.deaf = true) : False := by
  rw [deaf_eq hm, hread] at hd
  cases hd

/-! ### The steps of the send thread -/

theorem sendStep_inv {s s' : Process} (h : AndroidInv s) (hin : InTime s .send)
    (hstep : sendStep s = some s') : AndroidInv s' := by
  by_cases hnot : s.send = .notCreated
  · rw [sendStep, hnot] at hstep
    cases hstep
  have hdone := main_of_send_created h.created hnot
  unfold sendStep at hstep
  cases hsend : s.send with
  | notCreated => exact absurd hsend hnot
  | loopHead =>
    rw [hsend] at hstep
    cases hstep
    exact { h with
      clearing := fun hread => absurd hsend (h.clearing hread)
      fresh := fun hfresh => ⟨(h.fresh hfresh).1, by
        rw [FreshOk]
        cases s.connected <;> trivial⟩
      created := createdOk_of_done hdone }
  | loadConnfd =>
    rw [hsend] at hstep
    cases hstep
    exact { h with
      clearing := fun _ => by simp
      fresh := fun hsome => ⟨Option.isSome_iff_ne_none.mp hsome, rfl⟩
      created := createdOk_of_done hdone }
  | prompt connfd =>
    rw [hsend] at hstep
    cases hstep
    exact { h with
      clearing := fun _ => by simp
      fresh := fun hfresh => by
        obtain ⟨hon, hok⟩ := h.fresh hfresh
        rw [FreshOk, hsend] at hok
        exact ⟨hon, hok, rfl⟩
      created := createdOk_of_done hdone }
  | input connfd session =>
    rw [hsend] at hstep
    cases hstep
    exact { h with
      clearing := fun _ => by simp
      fresh := fun hfresh => by
        obtain ⟨hon, hok⟩ := h.fresh hfresh
        rw [FreshOk, hsend] at hok
        exact ⟨hon, hok⟩
      created := createdOk_of_done hdone }
  | write connfd session =>
    rw [hsend] at hstep
    cases hstep
    obtain ⟨hon, hok⟩ := h.fresh (hin (by rw [hsend]; rfl))
    rw [FreshOk, hsend] at hok
    obtain ⟨hfd, hsession⟩ := hok
    exact { h with
      clearing := fun hread => by
        -- the session is still on, so the read thread has not closed its connection
        have hended : s.ended = true := by
          rw [ended_eq (.inr hdone), show s.read = .clearConnected from hread]
          rfl
        exact absurd (h.ended.mpr hended) hon
      fresh := fun _ => ⟨hon, trivial⟩
      created := createdOk_of_done hdone
      writes := fun w hw => by
        rcases List.mem_append.mp hw with hw | hw
        · exact h.writes w hw
        · obtain rfl := List.mem_singleton.mp hw
          obtain ⟨n, hn⟩ := Option.ne_none_iff_exists'.mp hon
          exact ⟨n, hsession.trans hn, by rw [hfd, h.session n hn]⟩ }

/-! ### The steps of the main thread -/

theorem openSocket_session {s : Process} (h : AndroidInv s) (n : ℕ) (hn : s.session = some n) :
    lookup (openSocket s).fds (openSocket s).connfd = some (.accepted n) :=
  lookup_alloc_of_some (h.session n hn)

/-- `accept` of `startServer`, in time: the first connection of a new session. -/
theorem startAccept_eq {ok : Bool} {s s' : Process} (hok : ok = true)
    (hstep : startAccept ok s = some s') :
    s' = { s with
      fds := alloc s.fds (.accepted s.accepted), accepted := s.accepted + 1
      connfd := free s.fds, session := some s.accepted } := by
  subst hok
  obtain ⟨p, hp, rfl⟩ := Option.map_eq_some_iff.mp hstep
  rw [acceptOn, if_pos rfl] at hp
  split at hp
  · cases hp
    rfl
  · cases hp

theorem mainStep_inv {s s' : Process} (h : AndroidInv s) (hin : InTime s .main)
    (hstep : mainStep s = some s') : AndroidInv s' := by
  unfold mainStep at hstep
  have hended := h.ended
  have hcreated := h.created
  unfold CreatedOk at hcreated
  cases hmain : s.main with
  | starting p =>
    rw [hmain] at hcreated
    cases p with
    | socket =>
      rw [hmain] at hstep
      cases hstep
      have hnone : s.session = none := hended.mpr (by rw [Process.ended, hmain])
      have hidle : s.read.holding = false := by
        rw [hcreated.1]
        rfl
      exact { h with
        ended := ⟨fun _ => rfl, fun _ => hnone⟩
        session := openSocket_session h
        listening := fun _ => lookup_alloc_free _ _
        connfd2 := fun hhold => (nomatch hidle.symm.trans hhold)
        numbered := numbered_alloc_listening h.numbered
        created := hcreated }
    | accept =>
      rw [hmain] at hstep
      cases hstep
    | setConnected =>
      rw [hmain] at hstep
      cases hstep
      have hon := h.session_ne_none (by rw [Process.ended, hmain])
      exact { h with
        ended := ⟨fun hnone => absurd hnone hon, fun hc => nomatch hc⟩
        listening := fun _ => h.listening (by rw [Process.deaf, hmain])
        connected := fun _ hnone => absurd hnone hon
        created := hcreated }
  | createRead =>
    rw [hmain] at hstep hcreated
    cases hstep
    have hon := h.session_ne_none (by rw [Process.ended, hmain])
    exact { h with
      ended := ⟨fun hnone => absurd hnone hon, fun hc => nomatch hc⟩
      listening := fun _ => h.listening (by rw [Process.deaf, hmain])
      connfd2 := fun hhold => nomatch hhold
      connected := fun _ hnone => absurd hnone hon
      clearing := fun hread => nomatch hread
      created := hcreated.2 }
  | createSend =>
    rw [hmain] at hstep hcreated
    cases hstep
    have hsame : s.ended = s.read.ended := ended_eq (.inl hmain)
    have hdeaf : s.deaf = s.read.deaf := deaf_eq (.inl hmain)
    exact { h with
      ended := hended.trans (by rw [hsame]; rfl)
      listening := fun hd => h.listening (hdeaf.trans hd)
      clearing := fun hread => absurd hread (hin hmain)
      fresh := fun hfresh => ⟨(h.fresh hfresh).1, trivial⟩
      created := trivial }
  | done =>
    rw [hmain] at hstep
    cases hstep

theorem mainAccept_inv {ok : Bool} {s s' : Process} (h : AndroidInv s) (hok : ok = true)
    (hmain : s.main = .starting .accept) (hstep : startAccept ok s = some s') :
    AndroidInv { s' with main := .starting .setConnected } := by
  obtain rfl := startAccept_eq hok hstep
  have hcreated := h.created
  rw [CreatedOk, hmain] at hcreated
  have hnone : s.session = none := h.ended.mpr (by rw [Process.ended, hmain])
  have hidle : s.read.holding = false := by
    rw [hcreated.1]
    rfl
  exact { h with
    ended := ⟨fun hc => (nomatch hc), fun hc => (nomatch hc)⟩
    session := fun n hn => by
      cases hn
      exact lookup_alloc_free _ _
    listening := fun _ => lookup_alloc_of_some (h.listening (by rw [Process.deaf, hmain]))
    connfd2 := fun hhold => (nomatch hidle.symm.trans hhold)
    numbered := numbered_alloc_accepted h.numbered
    connected := fun _ hc => (nomatch hc)
    fresh := fun hfresh => absurd hnone (h.fresh hfresh).1
    created := hcreated }

/-! ### The steps of the read thread -/

theorem createdOk_of_read {s s' : Process} (hm : s.main = .createSend ∨ s.main = .done)
    (h : CreatedOk s) (hmain : s'.main = s.main) (hsend : s'.send = s.send) : CreatedOk s' := by
  unfold CreatedOk at h ⊢
  rcases hm with hm | hm
  · rw [hm] at h
    rw [hmain, hm, hsend]
    exact h
  · rw [hmain, hm]
    trivial

theorem ended_of_on {s : Process} (hm : s.main = .createSend ∨ s.main = .done)
    (hread : s.read.ended = false) (hon : s.session ≠ none) : s.session = none ↔ s.ended = true := by
  rw [ended_eq hm, hread]
  exact ⟨fun h => absurd h hon, fun h => (nomatch h)⟩

theorem ended_of_none {s : Process} (hm : s.main = .createSend ∨ s.main = .done)
    (hread : s.read.ended = true) (hnone : s.session = none) : s.session = none ↔ s.ended = true := by
  rw [ended_eq hm, hread]
  exact ⟨fun _ => rfl, fun _ => hnone⟩

theorem session_eq_none_iff {s : Process} (h : AndroidInv s)
    (hm : s.main = .createSend ∨ s.main = .done) : s.session = none ↔ s.read.ended = true := by
  rw [h.ended, ended_eq hm]

/-- The connection the read thread holds is not the session's, and not the listening socket. -/
theorem AndroidInv.connfd2_ne {s : Process} (h : AndroidInv s) (hhold : s.read.holding = true) :
    (∀ n, s.session = some n → lookup s.fds s.connfd2 ≠ some (.accepted n)) ∧
      lookup s.fds s.connfd2 ≠ some .listening := by
  rcases h.connfd2 hhold with hneg | ⟨m, hm, hne⟩
  · rw [lookup_of_neg _ hneg]
    exact ⟨fun n _ hc => (nomatch hc), fun hc => (nomatch hc)⟩
  · rw [hm]
    refine ⟨fun n hn hc => ?_, fun hc => (nomatch hc)⟩
    cases hc
    exact hne hn

/-- During a session the read thread goes on to another place in it. -/
theorem AndroidInv.moveRead {s : Process} {pc : ReadPc} (h : AndroidInv s)
    (hm : s.main = .createSend ∨ s.main = .done) (hon : s.session ≠ none) (hended : pc.ended = false)
    (hlisten : lookup s.fds s.sockfd = some .listening)
    (hhold : pc.holding = true → s.read.holding = true) : AndroidInv { s with read := pc } :=
  { h with
    ended := ended_of_on hm hended hon
    listening := fun _ => hlisten
    connfd2 := fun hpc => h.connfd2 (hhold hpc)
    connected := fun _ hnone => absurd hnone hon
    clearing := fun hpc => by
      rw [show pc = .clearConnected from hpc] at hended
      cases hended
    created := createdOk_of_read hm h.created rfl rfl }

theorem ne_of_lookup {fds : List (Option File)} {a b : ℤ} {x : File} (ha : lookup fds a = some x)
    (hb : lookup fds b ≠ some x) : a ≠ b := by
  rintro rfl
  exact hb ha

theorem readStep_inv {s s' : Process} (h : AndroidInv s) (hin : InTime s .read)
    (hstep : readStep s = some s') : AndroidInv s' := by
  by_cases hnot : s.read = .notCreated
  · rw [readStep, hnot] at hstep
    cases hstep
  have hm := main_of_read_created h.created hnot
  have hcreated : ∀ {s' : Process}, s'.main = s.main → s'.send = s.send → CreatedOk s' :=
    createdOk_of_read hm h.created
  have hsession := session_eq_none_iff h hm
  have hdeaf : s.deaf = s.read.deaf := deaf_eq hm
  unfold readStep at hstep
  cases hread : s.read with
  | notCreated => exact absurd hread hnot
  | accept => rw [hread] at hstep; cases hstep
  | readFunc => rw [hread] at hstep; cases hstep
  | loopHead =>
    rw [hread] at hstep hdeaf
    cases hstep
    have hon := h.session_ne_none (by rw [ended_eq hm, hread]; rfl)
    refine h.moveRead hm hon (by cases s.connected <;> rfl) (h.listening hdeaf) fun hhold => ?_
    cases hc : s.connected <;> rw [hc] at hhold <;> cases hhold
  | closeSockfd =>
    rw [hread] at hstep hdeaf
    cases hstep
    have hon := h.session_ne_none (by rw [ended_eq hm, hread]; rfl)
    have hlisten := h.listening hdeaf
    have hhold : s.read.holding = true := by rw [hread]; rfl
    exact { h with
      ended := ended_of_on hm rfl hon
      session := fun n hn => lookup_close_of_ne (h.session n hn)
        (ne_of_lookup (h.session n hn) (by rw [hlisten]; simp))
      listening := fun hd => (not_deaf hd hm rfl).elim
      connfd2 := fun _ => by
        rcases h.connfd2 hhold with hneg | ⟨m, hmm, hne⟩
        · exact .inl hneg
        · exact .inr ⟨m, lookup_close_of_ne hmm (ne_of_lookup hmm (by rw [hlisten]; simp)), hne⟩
      numbered := numbered_close _ h.numbered
      connected := fun _ hnone => absurd hnone hon
      clearing := fun hclear => (nomatch hclear)
      created := hcreated rfl rfl }
  | closeConnfd =>
    rw [hread] at hstep
    cases hstep
    have hon := h.session_ne_none (by rw [ended_eq hm, hread]; rfl)
    obtain ⟨n, hn⟩ := Option.ne_none_iff_exists'.mp hon
    have hhold : s.read.holding = true := by rw [hread]; rfl
    exact { h with
      ended := ended_of_none hm rfl rfl
      session := fun n hn => (nomatch hn)
      listening := fun hd => (not_deaf hd hm rfl).elim
      connfd2 := fun _ => by
        rcases h.connfd2 hhold with hneg | ⟨m, hmm, hne⟩
        · exact .inl hneg
        · refine .inr ⟨m, lookup_close_of_ne hmm (ne_of_lookup hmm ?_), by simp⟩
          rw [h.session n hn]
          rintro ⟨rfl⟩
          exact hne hn
      numbered := numbered_close _ h.numbered
      connected := fun _ _ => rfl
      clearing := fun _ => hin hread
      fresh := fun hfresh => (nomatch hfresh)
      created := hcreated rfl rfl }
  | clearConnected =>
    rw [hread] at hstep hsession
    cases hstep
    exact { h with
      ended := ended_of_none hm rfl (hsession.mpr rfl)
      listening := fun hd => (not_deaf hd hm rfl).elim
      connfd2 := fun _ => h.connfd2 (by rw [hread]; rfl)
      connected := fun hc => (nomatch hc)
      clearing := fun hclear => (nomatch hclear)
      created := hcreated rfl rfl }
  | restarting p =>
    cases p with
    | accept => rw [hread] at hstep; cases hstep
    | socket =>
      rw [hread] at hstep hsession
      cases hstep
      have hnone := hsession.mpr rfl
      exact { h with
        ended := ended_of_none hm rfl hnone
        session := openSocket_session h
        listening := fun _ => lookup_alloc_free _ _
        connfd2 := fun _ => by
          rcases h.connfd2 (by rw [hread]; rfl) with hneg | ⟨m, hmm, hne⟩
          · exact .inl hneg
          · exact .inr ⟨m, lookup_alloc_of_some hmm, hne⟩
        numbered := numbered_alloc_listening h.numbered
        connected := fun hc hn => by
          have hclear := h.connected hc hn
          rw [hread] at hclear
          cases hclear
        clearing := fun hclear => (nomatch hclear)
        created := hcreated rfl rfl }
    | setConnected =>
      rw [hread] at hstep hdeaf
      cases hstep
      have hon := h.session_ne_none (by rw [ended_eq hm, hread]; rfl)
      exact { h with
        ended := ended_of_on hm rfl hon
        listening := fun _ => h.listening hdeaf
        connfd2 := fun _ => h.connfd2 (by rw [hread]; rfl)
        connected := fun _ hnone => absurd hnone hon
        clearing := fun hclear => (nomatch hclear)
        created := hcreated rfl rfl }
  | closeConnfd2 =>
    rw [hread] at hstep hdeaf
    cases hstep
    have hon := h.session_ne_none (by rw [ended_eq hm, hread]; rfl)
    obtain ⟨hne, hnot⟩ := h.connfd2_ne (by rw [hread]; rfl)
    have hlisten := h.listening hdeaf
    exact { h with
      ended := ended_of_on hm rfl hon
      session := fun n hn => lookup_close_of_ne (h.session n hn) (ne_of_lookup (h.session n hn) (hne n hn))
      listening := fun _ => lookup_close_of_ne hlisten (ne_of_lookup hlisten hnot)
      connfd2 := fun hhold => (nomatch hhold)
      numbered := numbered_close _ h.numbered
      connected := fun _ hnone => absurd hnone hon
      clearing := fun hclear => (nomatch hclear)
      created := hcreated rfl rfl }

theorem readAccept_inv {ok : Bool} {s s' : Process} (h : AndroidInv s)
    (hin : InTime s (.readAccept ok)) (hstep : androidStep s (.readAccept ok) = some s') :
    AndroidInv s' := by
  by_cases hnot : s.read = .notCreated
  · rw [androidStep, hnot] at hstep
    cases hstep
  have hm := main_of_read_created h.created hnot
  have hcreated : ∀ {s' : Process}, s'.main = s.main → s'.send = s.send → CreatedOk s' :=
    createdOk_of_read hm h.created
  have hsession := session_eq_none_iff h hm
  have hdeaf : s.deaf = s.read.deaf := deaf_eq hm
  unfold androidStep at hstep
  dsimp only at hstep
  split at hstep
  · rename_i hread
    rw [hread] at hdeaf
    have hon := h.session_ne_none (by rw [ended_eq hm, hread]; rfl)
    obtain ⟨p, hp, rfl⟩ := Option.map_eq_some_iff.mp hstep
    unfold acceptOn at hp
    split at hp
    · split at hp
      · cases hp
        exact { h with
          ended := ended_of_on hm rfl hon
          session := fun n hn => lookup_alloc_of_some (h.session n hn)
          listening := fun _ => lookup_alloc_of_some (h.listening hdeaf)
          connfd2 := fun _ => .inr ⟨s.accepted, lookup_alloc_free _ _, fun hc =>
            Nat.lt_irrefl _ (h.numbered _ _ (h.session _ hc))⟩
          numbered := numbered_alloc_accepted h.numbered
          connected := fun _ hnone => absurd hnone hon
          clearing := fun hclear => (nomatch hclear)
          created := hcreated rfl rfl }
      · cases hp
    · cases hp
      exact { h with
        ended := ended_of_on hm rfl hon
        listening := fun _ => h.listening hdeaf
        connfd2 := fun _ => .inl (show (-1 : ℤ) < 0 by decide)
        connected := fun _ hnone => absurd hnone hon
        clearing := fun hclear => (nomatch hclear)
        created := hcreated rfl rfl }
  · rename_i hread
    rw [hread] at hsession hdeaf
    have hnone : s.session = none := hsession.mpr rfl
    obtain ⟨s₁, hs₁, rfl⟩ := Option.map_eq_some_iff.mp hstep
    obtain rfl := startAccept_eq (hin hread) hs₁
    exact { h with
      ended := ended_of_on hm rfl (by simp)
      session := fun n hn => by
        cases hn
        exact lookup_alloc_free _ _
      listening := fun _ => lookup_alloc_of_some (h.listening hdeaf)
      connfd2 := fun _ => by
        rcases h.connfd2 (by rw [hread]; rfl) with hneg | ⟨m, hmm, -⟩
        · exact .inl hneg
        · refine .inr ⟨m, lookup_alloc_of_some hmm, fun hc => ?_⟩
          cases hc
          exact Nat.lt_irrefl _ (h.numbered _ _ hmm)
      numbered := numbered_alloc_accepted h.numbered
      connected := fun _ hc => (nomatch hc)
      clearing := fun hclear => (nomatch hclear)
      fresh := fun hfresh => absurd hnone (h.fresh hfresh).1
      created := hcreated rfl rfl }
  · cases hstep

theorem readMessage_inv {m : Message} {s s' : Process} (h : AndroidInv s)
    (hread : s.read = .readFunc) (hstep : readMessage m s = some s') : AndroidInv s' := by
  have hm := main_of_read_created h.created (by rw [hread]; simp)
  have hdeaf : s.deaf = s.read.deaf := deaf_eq hm
  rw [hread] at hdeaf
  have hon := h.session_ne_none (by rw [ended_eq hm, hread]; rfl)
  have hlisten := h.listening hdeaf
  have hhold : s.read.holding = true := by rw [hread]; rfl
  cases m with
  | nothing =>
    cases hstep
    exact h.moveRead hm hon rfl hlisten fun _ => hhold
  | exit =>
    rw [readMessage] at hstep
    split at hstep
    · cases hstep
      exact h.moveRead hm hon rfl hlisten fun _ => hhold
    · cases hstep
  | text =>
    rw [readMessage] at hstep
    split at hstep
    · cases hstep
      exact h.moveRead hm hon rfl hlisten fun _ => hhold
    · cases hstep

/-! ### Runs -/

/-- **A step in time keeps the invariant.** -/
theorem androidStep_inv (s : Process) (a : Act) (s' : Process) (h : AndroidInv s)
    (hin : InTime s a) (hstep : androidStep s a = some s') : AndroidInv s' := by
  cases a with
  | main => exact mainStep_inv h hin hstep
  | mainAccept ok =>
    rw [androidStep] at hstep
    split at hstep
    · obtain ⟨s₁, hs₁, rfl⟩ := Option.map_eq_some_iff.mp hstep
      exact mainAccept_inv h hin ‹_› hs₁
    · cases hstep
  | read => exact readStep_inv h hin hstep
  | readAccept ok => exact readAccept_inv h hin hstep
  | readMessage m =>
    rw [androidStep] at hstep
    split at hstep
    · exact readMessage_inv h ‹_› hstep
    · cases hstep
  | send => exact sendStep_inv h hin hstep

/-- **The connections are disciplined** in every run whose steps are in time: no `accept` of
`startServer` fails, the read thread closes `connfd` only while the send thread is inside
`serverSendFunc`, and no line is written after the session in which its `connfd` was loaded. -/
theorem connections_disciplined (as : List Act) (s : Process)
    (hrun : runFrom androidStep .start as = some s) (hin : Along androidStep InTime .start as) :
    Disciplined s := by
  have hinv : AndroidInv s := hin.invariant androidStep_inv start_androidInv hrun
  exact hinv.disciplined

/-- One session with a line sent, an EXIT while the send thread is about to load `connfd`, and a second
session with a line sent. -/
def twoSessions : List Act :=
  [.main, .mainAccept true, .main, .main, .main] ++ List.replicate 6 .send ++
    [.read, .readAccept true, .readMessage .exit] ++ List.replicate 4 .read ++ [.readAccept true, .read] ++
    List.replicate 4 .send

theorem connections_disciplined_two_sessions :
    Disciplined {
      sockfd := 3, connfd := 4, connfd2 := 5, connected := true
      fds := [some .std, some .std, some .std, some .listening, some (.accepted 2), some (.accepted 1)]
      main := .done, read := .closeConnfd2, send := .loopHead
      accepted := 3, session := some 2, fresh := true
      writes := [⟨4, some (.accepted 0), some 0⟩, ⟨4, some (.accepted 2), some 2⟩] } :=
  connections_disciplined twoSessions _ (by decide +kernel) (by decide +kernel)

/-- The `accept` of the first `startServer` fails; the threads are created. -/
def failedAccept : List Act := [.main, .mainAccept false, .main, .main, .main]

/-- The send thread waits for a line; the other reads EXIT and restarts, with a new client; the line is
entered and written. -/
def lateLine : List Act :=
  [.main, .mainAccept true, .main, .main, .main, .send, .send, .send,
    .read, .readAccept true, .readMessage .exit, .read, .read, .read, .read, .readAccept true,
    .send, .send]

/-- **Both disciplines fail.**  After a failed `accept` both threads are at their loop heads with
`connected = 1` and `connfd` -1; and a line whose prompt belongs to the first connection is written to a
later client's, which has got the number of the first. -/
theorem undisciplined :
    (∃ s, runFrom androidStep .start failedAccept = some s ∧ s.read = .loopHead ∧ s.send = .loopHead ∧
      s.connected = true ∧ s.connfd = -1) ∧
    ∃ s, runFrom androidStep .start lateLine = some s ∧
      s.writes = [⟨4, some (.accepted 2), some 0⟩] := by
  constructor
  · refine ⟨{
      sockfd := 3, connfd := -1, connfd2 := 0, connected := true
      fds := [some .std, some .std, some .std, some .listening]
      main := .done, read := .loopHead, send := .loopHead
      accepted := 0, session := none, fresh := false, writes := [] },
      by decide +kernel, rfl, rfl, rfl, rfl⟩
  · refine ⟨{
      sockfd := 3, connfd := 4, connfd2 := 5, connected := false
      fds := [some .std, some .std, some .std, some .listening, some (.accepted 2), some (.accepted 1)]
      main := .done, read := .restarting .setConnected, send := .loopHead
      accepted := 3, session := some 2, fresh := false
      writes := [⟨4, some (.accepted 2), some 0⟩] }, by decide +kernel, rfl⟩

end LinkManagement.AndroidServer
