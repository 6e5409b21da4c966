import LinkManagement.Android.AndroidServer

/-!
# The open descriptors of the android server

Which descriptors `androidServer/src/androidServer.c` has open, in every interleaving of its threads and
whatever `accept` and `read` return.  `startServer` and `serverReadFunc` open and close `sockfd`, `connfd`
and `connfd2` by hand, and nothing checks what they hold.  Nothing else in the process is taken to open a
descriptor: a library that does so, as `pthread_exit` may when it loads another, shifts the numbers.

* `Owned` — each open descriptor above the standard streams is the one of a variable that is in use;
* `open_files` — at most six are open, none is leaked, a standard stream is never closed, and a listening
  socket is there whenever `accept` is called.
-/

namespace LinkManagement.OpenFiles

open LinkManagement.Transition LinkManagement.Descriptors LinkManagement.AndroidServer

/-- The descriptor is -1 or one of the two numbers connections get, and open. -/
def Connection (fds : List (Option File)) (fd : ℤ) : Prop :=
  fd = -1 ∨ (fd = 4 ∨ fd = 5) ∧ ∃ n, lookup fds fd = some (.accepted n)

/-- Who owns the open descriptors: 0 to 2 are the standard streams, 3 is the listening socket unless the
server is `deaf`, and the others are `connfd`, while there is a session, and `connfd2`, while the read
thread holds it. -/
structure Owned (fds : List (Option File)) (sockfd connfd connfd2 : ℤ) (deaf session holding : Bool) :
    Prop where
  std : ∀ fd, 0 ≤ fd → fd ≤ 2 → lookup fds fd = some .std
  socket : lookup fds 3 = if deaf then none else some .listening
  sockfd_eq : deaf = false → sockfd = 3
  connfd_open : session = true → Connection fds connfd
  connfd2_open : holding = true → Connection fds connfd2
  apart : session = true → holding = true → connfd = connfd2 → connfd = -1
  owner : ∀ fd, 4 ≤ fd → lookup fds fd ≠ none →
    session = true ∧ fd = connfd ∨ holding = true ∧ fd = connfd2

theorem start_owned : Owned Process.start.fds 0 0 0 true false false where
  std := fun fd hlo hhi => by
    obtain rfl | rfl | rfl : fd = 0 ∨ fd = 1 ∨ fd = 2 := by omega
    all_goals rfl
  socket := rfl
  sockfd_eq := by simp
  connfd_open := by simp
  connfd2_open := by simp
  apart := by simp
  owner := fun fd hfd hopen => by
    obtain ⟨n, rfl⟩ := Int.eq_ofNat_of_zero_le (show 0 ≤ fd by omega)
    rw [lookup_natCast, List.getElem?_eq_none (by simp [Process.start]; omega)] at hopen
    exact absurd rfl hopen

theorem connection_alloc {fds : List (Option File)} {fd : ℤ} (h : Connection fds fd) (x : File) :
    Connection (alloc fds x) fd := by
  rcases h with h | ⟨h, n, hn⟩
  · exact .inl h
  · exact .inr ⟨h, n, lookup_alloc_of_some hn⟩

theorem connection_close {fds : List (Option File)} {fd i : ℤ} (h : Connection fds fd)
    (hne : fd = i → fd = -1) : Connection (close fds i) fd := by
  rcases h with h | ⟨h, n, hn⟩
  · exact .inl h
  · refine .inr ⟨h, n, lookup_close_of_ne hn fun heq => ?_⟩
    have hneg := hne heq
    omega

section Owned

variable {fds : List (Option File)} {sockfd connfd connfd2 : ℤ} {deaf session holding : Bool}

/-- The two connections play the same part. -/
theorem Owned.swap (h : Owned fds sockfd connfd connfd2 deaf session holding) :
    Owned fds sockfd connfd2 connfd deaf holding session where
  std := h.std
  socket := h.socket
  sockfd_eq := h.sockfd_eq
  connfd_open := h.connfd2_open
  connfd2_open := h.connfd_open
  apart := fun hholding hsession heq => heq.trans (h.apart hsession hholding heq.symm)
  owner := fun fd hfd hopen => (h.owner fd hfd hopen).symm

/-! ### Which numbers are given out -/

theorem Owned.free_ge (h : Owned fds sockfd connfd connfd2 deaf session holding) : 3 ≤ free fds := by
  by_contra hlt
  have hstd := h.std (free fds : ℤ) (by omega) (by omega)
  rw [lookup_free] at hstd
  cases hstd

theorem Owned.free_socket (h : Owned fds sockfd connfd connfd2 true session holding) : free fds = 3 :=
  Nat.le_antisymm (free_le (n := 3) h.socket) h.free_ge

/-- `accept` gets 4 or 5, if there is at most one other connection. -/
theorem Owned.free_accept (h : Owned fds sockfd connfd connfd2 false false holding) :
    free fds = 4 ∨ free fds = 5 := by
  have hge := h.free_ge
  have hne : free fds ≠ 3 := by
    intro heq
    have hfree := lookup_free fds
    rw [heq] at hfree
    have hsocket := h.socket
    rw [show (3 : ℤ) = ((3 : ℕ) : ℤ) from rfl, hfree] at hsocket
    cases hsocket
  have hle : free fds ≤ 5 := by
    by_contra hgt
    -- 4 and 5 would both be open, and both be the other connection
    have hopen : ∀ n : ℕ, n < free fds → lookup fds (n : ℤ) ≠ none := by
      intro n hn hnone
      have hfree := free_le hnone
      omega
    have h4 := h.owner 4 (by omega) (hopen 4 (by omega))
    have h5 := h.owner 5 (by omega) (hopen 5 (by omega))
    simp only [Bool.false_eq_true, false_and, false_or] at h4 h5
    omega
  omega

/-! ### Opening and closing -/

theorem Owned.openSocket (h : Owned fds sockfd connfd connfd2 true session holding) :
    Owned (alloc fds .listening) (free fds) connfd connfd2 false session holding where
  std := fun fd hlo hhi => lookup_alloc_of_some (h.std fd hlo hhi)
  socket := by
    rw [lookup_alloc, h.free_socket]
    rfl
  sockfd_eq := fun _ => by rw [h.free_socket]; rfl
  connfd_open := fun hsession => connection_alloc (h.connfd_open hsession) _
  connfd2_open := fun hholding => connection_alloc (h.connfd2_open hholding) _
  apart := h.apart
  owner := fun fd hfd hopen => by
    rw [lookup_alloc, h.free_socket, if_neg (by omega)] at hopen
    exact h.owner fd hfd hopen

/-- `accept`, when there is no session or none is held. -/
theorem Owned.accept (h : Owned fds sockfd connfd connfd2 false false holding) (k : ℕ) :
    Owned (alloc fds (.accepted k)) sockfd (free fds) connfd2 false true holding where
  std := fun fd hlo hhi => lookup_alloc_of_some (h.std fd hlo hhi)
  socket := lookup_alloc_of_some h.socket
  sockfd_eq := h.sockfd_eq
  connfd_open := fun _ => by
    have hfree := h.free_accept
    exact .inr ⟨by omega, k, lookup_alloc_free fds _⟩
  connfd2_open := fun hholding => connection_alloc (h.connfd2_open hholding) _
  apart := fun _ hholding heq => by
    rcases h.connfd2_open hholding with hneg | ⟨-, n, hn⟩
    · exact heq.trans hneg
    · rw [← heq, lookup_free] at hn
      cases hn
  owner := fun fd hfd hopen => by
    rw [lookup_alloc] at hopen
    split at hopen
    · exact .inl ⟨rfl, ‹_›⟩
    · rcases h.owner fd hfd hopen with hsession | hholding
      · simp at hsession
      · exact .inr hholding

theorem Owned.acceptFails (h : Owned fds sockfd connfd connfd2 deaf false holding) :
    Owned fds sockfd (-1) connfd2 deaf true holding where
  std := h.std
  socket := h.socket
  sockfd_eq := h.sockfd_eq
  connfd_open := fun _ => .inl rfl
  connfd2_open := h.connfd2_open
  apart := fun _ _ _ => rfl
  owner := fun fd hfd hopen => by
    rcases h.owner fd hfd hopen with hsession | hholding
    · simp at hsession
    · exact .inr hholding

theorem Owned.closeSocket (h : Owned fds sockfd connfd connfd2 false session holding) :
    Owned (close fds sockfd) sockfd connfd connfd2 true session holding := by
  have hsockfd := h.sockfd_eq rfl
  subst hsockfd
  exact {
    std := fun fd hlo hhi => lookup_close_of_ne (h.std fd hlo hhi) (by omega)
    socket := by
      rw [lookup_close]
      rfl
    sockfd_eq := by simp
    connfd_open := fun hsession => connection_close (h.connfd_open hsession) fun heq => by
      rcases h.connfd_open hsession with hneg | ⟨hnum, -⟩ <;> omega
    connfd2_open := fun hholding => connection_close (h.connfd2_open hholding) fun heq => by
      rcases h.connfd2_open hholding with hneg | ⟨hnum, -⟩ <;> omega
    apart := h.apart
    owner := fun fd hfd hopen => by
      rw [lookup_close, if_neg (by omega)] at hopen
      exact h.owner fd hfd hopen }

theorem Owned.closeConnection (h : Owned fds sockfd connfd connfd2 deaf true holding) :
    Owned (close fds connfd) sockfd connfd connfd2 deaf false holding := by
  have hconn := h.connfd_open rfl
  have hnum : connfd = -1 ∨ connfd = 4 ∨ connfd = 5 := by
    rcases hconn with hneg | ⟨hnum, -⟩
    · exact .inl hneg
    · exact .inr hnum
  exact {
    std := fun fd hlo hhi => lookup_close_of_ne (h.std fd hlo hhi) (by omega)
    socket := by
      rw [lookup_close, if_neg (by omega)]
      exact h.socket
    sockfd_eq := h.sockfd_eq
    connfd_open := by simp
    connfd2_open := fun hholding => connection_close (h.connfd2_open hholding) fun heq =>
      heq.trans (h.apart rfl hholding heq.symm)
    apart := by simp
    owner := fun fd hfd hopen => by
      rw [lookup_close] at hopen
      split at hopen
      · exact absurd rfl hopen
      · rename_i hne
        rcases h.owner fd hfd hopen with ⟨-, heq⟩ | hholding
        · exact absurd heq hne
        · exact .inr hholding }

end Owned

/-! ### The steps -/

/-- The invariant of all runs. -/
structure FilesInv (s : Process) : Prop where
  created : CreatedOk s
  owned : Owned s.fds s.sockfd s.connfd s.connfd2 s.deaf (!s.ended) s.read.holding

/-- Once the read thread runs, its place says what is in use. -/
theorem FilesInv.ofRead {s : Process} (hm : s.main = .createSend ∨ s.main = .done)
    (hcreated : CreatedOk s)
    (howned : Owned s.fds s.sockfd s.connfd s.connfd2 s.read.deaf (!s.read.ended) s.read.holding) :
    FilesInv s := by
  rw [← ended_eq hm, ← deaf_eq hm] at howned
  exact ⟨hcreated, howned⟩

theorem FilesInv.read_owned {s : Process} (h : FilesInv s)
    (hm : s.main = .createSend ∨ s.main = .done) :
    Owned s.fds s.sockfd s.connfd s.connfd2 s.read.deaf (!s.read.ended) s.read.holding := by
  rw [← ended_eq hm, ← deaf_eq hm]
  exact h.owned

theorem start_filesInv : FilesInv .start := ⟨⟨rfl, rfl⟩, start_owned⟩

theorem mainStep_filesInv {s s' : Process} (h : FilesInv s) (hstep : mainStep s = some s') :
    FilesInv s' := by
  obtain ⟨hcreated, howned⟩ := h
  unfold mainStep at hstep
  unfold CreatedOk at hcreated
  cases hmain : s.main with
  | starting p =>
    rw [hmain] at hcreated hstep
    rw [Process.deaf, Process.ended, hmain] at howned
    cases p with
    | socket =>
      rw [← Option.some.inj hstep]
      exact ⟨hcreated, howned.openSocket⟩
    | accept => simp at hstep
    | setConnected =>
      rw [← Option.some.inj hstep]
      exact ⟨hcreated, howned⟩
  | createRead =>
    rw [hmain] at hcreated hstep
    rw [Process.deaf, Process.ended, hmain, hcreated.1] at howned
    rw [← Option.some.inj hstep]
    exact ⟨hcreated.2, howned⟩
  | createSend =>
    rw [hmain] at hcreated hstep
    rw [Process.deaf, Process.ended, hmain] at howned
    rw [← Option.some.inj hstep]
    exact ⟨trivial, howned⟩
  | done => simp [hmain] at hstep

theorem startAccept_owned {ok : Bool} {s s' : Process} {holding : Bool}
    (h : Owned s.fds s.sockfd s.connfd s.connfd2 false false holding)
    (hstep : startAccept ok s = some s') :
    Owned s'.fds s'.sockfd s'.connfd s'.connfd2 false true holding ∧ s'.main = s.main ∧
      s'.send = s.send ∧ s'.read = s.read := by
  obtain ⟨p, hp, rfl⟩ := Option.map_eq_some_iff.mp hstep
  cases ok with
  | true =>
    rw [acceptOn, if_pos rfl] at hp
    split at hp
    · rw [← Option.some.inj hp]
      exact ⟨h.accept s.accepted, rfl, rfl, rfl⟩
    · simp at hp
  | false =>
    rw [acceptOn, if_neg Bool.false_ne_true] at hp
    rw [← Option.some.inj hp]
    exact ⟨h.acceptFails, rfl, rfl, rfl⟩

theorem mainAccept_filesInv {ok : Bool} {s s' : Process} (h : FilesInv s)
    (hmain : s.main = .starting .accept) (hstep : startAccept ok s = some s') :
    FilesInv { s' with main := .starting .setConnected } := by
  obtain ⟨hcreated, howned⟩ := h
  rw [CreatedOk, hmain] at hcreated
  rw [Process.deaf, Process.ended, hmain] at howned
  obtain ⟨howned', -, hsend, hread⟩ := startAccept_owned howned hstep
  refine ⟨⟨hread.trans hcreated.1, hsend.trans hcreated.2⟩, ?_⟩
  rw [← hread] at howned'
  exact howned'

theorem readStep_filesInv {s s' : Process} (h : FilesInv s) (hstep : readStep s = some s') :
    FilesInv s' := by
  by_cases hnot : s.read = .notCreated
  · simp [readStep, hnot] at hstep
  have hm := main_of_read_created h.created hnot
  have hcreated := h.created
  have howned := h.read_owned hm
  have hcreated' {s' : Process} (hmain : s'.main = s.main) (hsend : s'.send = s.send) :
      CreatedOk s' := createdOk_of_read hm hcreated hmain hsend
  unfold readStep at hstep
  cases hread : s.read with
  | notCreated => exact absurd hread hnot
  | accept => simp [hread] at hstep
  | readFunc => simp [hread] at hstep
  | loopHead =>
    rw [hread] at hstep howned
    rw [← Option.some.inj hstep]
    refine .ofRead hm (hcreated' rfl rfl) ?_
    cases s.connected <;> exact howned
  | closeSockfd =>
    rw [hread] at hstep howned
    rw [← Option.some.inj hstep]
    exact .ofRead hm (hcreated' rfl rfl) howned.closeSocket
  | closeConnfd =>
    rw [hread] at hstep howned
    rw [← Option.some.inj hstep]
    exact .ofRead hm (hcreated' rfl rfl) howned.closeConnection
  | clearConnected =>
    rw [hread] at hstep howned
    rw [← Option.some.inj hstep]
    exact .ofRead hm (hcreated' rfl rfl) howned
  | restarting p =>
    rw [hread] at hstep howned
    cases p with
    | socket =>
      rw [← Option.some.inj hstep]
      exact .ofRead hm (hcreated' rfl rfl) howned.openSocket
    | accept => simp at hstep
    | setConnected =>
      rw [← Option.some.inj hstep]
      exact .ofRead hm (hcreated' rfl rfl) howned
  | closeConnfd2 =>
    rw [hread] at hstep howned
    rw [← Option.some.inj hstep]
    exact .ofRead hm (hcreated' rfl rfl) howned.swap.closeConnection.swap

theorem readAccept_filesInv {ok : Bool} {s s' : Process} (h : FilesInv s)
    (hstep : androidStep s (.readAccept ok) = some s') : FilesInv s' := by
  by_cases hnot : s.read = .notCreated
  · simp [androidStep, hnot] at hstep
  have hm := main_of_read_created h.created hnot
  have hcreated := h.created
  have howned := h.read_owned hm
  unfold androidStep at hstep
  dsimp only at hstep
  split at hstep
  · rename_i hread
    rw [hread] at howned
    obtain ⟨p, hp, rfl⟩ := Option.map_eq_some_iff.mp hstep
    cases ok with
    | true =>
      rw [acceptOn, if_pos rfl] at hp
      split at hp
      · rw [← Option.some.inj hp]
        exact .ofRead hm (createdOk_of_read hm hcreated rfl rfl) (howned.swap.accept s.accepted).swap
      · simp at hp
    | false =>
      rw [acceptOn, if_neg Bool.false_ne_true] at hp
      rw [← Option.some.inj hp]
      exact .ofRead hm (createdOk_of_read hm hcreated rfl rfl) howned.swap.acceptFails.swap
  · rename_i hread
    rw [hread] at howned
    obtain ⟨s₁, hs₁, rfl⟩ := Option.map_eq_some_iff.mp hstep
    obtain ⟨howned', hmain, hsend, -⟩ := startAccept_owned howned hs₁
    exact .ofRead (by rwa [hmain]) (createdOk_of_read hm hcreated hmain hsend) howned'
  · simp at hstep

/-- `serverReadFunc` opens and closes nothing before it knows the message. -/
theorem readMessage_filesInv {m : Message} {s s' : Process} (h : FilesInv s)
    (hread : s.read = .readFunc) (hstep : readMessage m s = some s') : FilesInv s' := by
  have hm := main_of_read_created h.created (by rw [hread]; simp)
  have hcreated := h.created
  have howned := h.read_owned hm
  rw [hread] at howned
  have hmove (pc : ReadPc) (hpc : pc = .closeConnfd2 ∨ pc = .closeSockfd) :
      FilesInv { s with read := pc } := by
    refine .ofRead hm (createdOk_of_read hm hcreated rfl rfl) ?_
    rcases hpc with rfl | rfl <;> exact howned
  cases m with
  | nothing =>
    rw [← Option.some.inj hstep]
    exact hmove _ (.inl rfl)
  | exit =>
    rw [readMessage] at hstep
    split at hstep
    · rw [← Option.some.inj hstep]
      exact hmove _ (.inr rfl)
    · simp at hstep
  | text =>
    rw [readMessage] at hstep
    split at hstep
    · rw [← Option.some.inj hstep]
      exact hmove _ (.inl rfl)
    · simp at hstep

theorem sendStep_filesInv {s s' : Process} (h : FilesInv s) (hstep : sendStep s = some s') :
    FilesInv s' := by
  by_cases hnot : s.send = .notCreated
  · simp [sendStep, hnot] at hstep
  have hdone := main_of_send_created h.created hnot
  have howned := h.read_owned (.inr hdone)
  unfold sendStep at hstep
  cases hsend : s.send with
  | notCreated => exact absurd hsend hnot
  | loopHead | loadConnfd | prompt connfd | input connfd session | write connfd session =>
    rw [hsend] at hstep
    rw [← Option.some.inj hstep]
    exact .ofRead (.inr hdone) (createdOk_of_done hdone) howned

/-- **Every step keeps the invariant.** -/
theorem androidStep_filesInv (s : Process) (a : Act) (s' : Process) (h : FilesInv s)
    (hstep : androidStep s a = some s') : FilesInv s' := by
  cases a with
  | main => exact mainStep_filesInv h hstep
  | mainAccept ok =>
    rw [androidStep] at hstep
    split at hstep
    · obtain ⟨s₁, hs₁, rfl⟩ := Option.map_eq_some_iff.mp hstep
      exact mainAccept_filesInv h ‹_› hs₁
    · simp at hstep
  | read => exact readStep_filesInv h hstep
  | readAccept ok => exact readAccept_filesInv h hstep
  | readMessage m =>
    rw [androidStep] at hstep
    split at hstep
    · exact readMessage_filesInv h ‹_› hstep
    · simp at hstep
  | send => exact sendStep_filesInv h hstep

/-! ### Runs -/

/-- The open descriptors of the process.  The standard streams are 0 to 2; the listening socket is
`sockfd`, from `socket` to `close`; a connection is `connfd`, during a session, or `connfd2`, while the
read thread holds it, and never both; a variable in use is open, unless its `accept` has failed; and an
`accept` that is due can succeed. -/
structure FilesOk (s : Process) : Prop where
  std : ∀ fd, lookup s.fds fd = some .std ↔ 0 ≤ fd ∧ fd ≤ 2
  listening : ∀ fd, lookup s.fds fd = some .listening ↔ s.deaf = false ∧ fd = s.sockfd
  accepted : ∀ fd n, lookup s.fds fd = some (.accepted n) →
    s.ended = false ∧ fd = s.connfd ∨ s.read.holding = true ∧ fd = s.connfd2
  connfd : s.ended = false → s.connfd = -1 ∨ ∃ n, lookup s.fds s.connfd = some (.accepted n)
  connfd2 : s.read.holding = true →
    s.connfd2 = -1 ∨ ∃ n, lookup s.fds s.connfd2 = some (.accepted n)
  apart : s.ended = false → s.read.holding = true → s.connfd = s.connfd2 → s.connfd = -1
  bounded : ∀ fd, lookup s.fds fd ≠ none → fd ≤ 5
  mainAccepts : s.main = .starting .accept → androidStep s (.mainAccept true) ≠ none
  readAccepts : s.read = .accept ∨ s.read = .restarting .accept →
    androidStep s (.readAccept true) ≠ none

/-- What the numbers above the listening socket stand for. -/
theorem Owned.connection {fds : List (Option File)} {sockfd connfd connfd2 : ℤ}
    {deaf session holding : Bool} (h : Owned fds sockfd connfd connfd2 deaf session holding) {fd : ℤ}
    (hfd : 4 ≤ fd) (hopen : lookup fds fd ≠ none) :
    fd ≤ 5 ∧ ∃ n, lookup fds fd = some (.accepted n) := by
  have hconn : Connection fds fd := by
    rcases h.owner fd hfd hopen with ⟨hsession, rfl⟩ | ⟨hholding, rfl⟩
    · exact h.connfd_open hsession
    · exact h.connfd2_open hholding
  rcases hconn with hneg | ⟨hnum, hn⟩
  · omega
  · exact ⟨by omega, hn⟩

theorem Owned.cases {fds : List (Option File)} {sockfd connfd connfd2 : ℤ}
    {deaf session holding : Bool} (h : Owned fds sockfd connfd connfd2 deaf session holding) {fd : ℤ}
    (hopen : lookup fds fd ≠ none) :
    (0 ≤ fd ∧ fd ≤ 2 ∧ lookup fds fd = some .std) ∨
      (fd = 3 ∧ deaf = false ∧ lookup fds fd = some .listening) ∨
      (4 ≤ fd ∧ fd ≤ 5 ∧ ∃ n, lookup fds fd = some (.accepted n)) := by
  rcases lt_or_ge fd 0 with hneg | hpos
  · exact absurd (lookup_of_neg fds hneg) hopen
  rcases lt_or_ge fd 3 with hstd | hge
  · exact .inl ⟨hpos, by omega, h.std fd hpos (by omega)⟩
  by_cases h3 : fd = 3
  · subst h3
    have hsocket := h.socket
    cases deaf with
    | true => exact absurd hsocket hopen
    | false => exact .inr (.inl ⟨rfl, rfl, hsocket⟩)
  · have h4 : 4 ≤ fd := by omega
    have hconn := h.connection h4 hopen
    exact .inr (.inr ⟨h4, hconn.1, hconn.2⟩)

theorem FilesInv.listening {s : Process} (h : FilesInv s) (hdeaf : s.deaf = false) :
    lookup s.fds s.sockfd = some .listening := by
  rw [h.owned.sockfd_eq hdeaf, h.owned.socket, hdeaf]
  rfl

theorem acceptOn_listening {s : Process} (h : lookup s.fds s.sockfd = some .listening) :
    acceptOn true s = some ((free s.fds : ℤ),
      { s with fds := alloc s.fds (.accepted s.accepted), accepted := s.accepted + 1 }) := by
  rw [acceptOn, if_pos rfl, if_pos h]

/-- **The invariant says what is open.** -/
theorem FilesInv.filesOk {s : Process} (h : FilesInv s) : FilesOk s where
  std := fun fd => by
    refine ⟨fun hstd => ?_, fun hfd => h.owned.std fd hfd.1 hfd.2⟩
    rcases h.owned.cases (by rw [hstd]; simp) with hcase | ⟨-, -, hcase⟩ | ⟨-, -, n, hcase⟩
    · exact ⟨hcase.1, hcase.2.1⟩
    · simp [hstd] at hcase
    · simp [hstd] at hcase
  listening := fun fd => by
    refine ⟨fun hlisten => ?_, fun hfd => hfd.2 ▸ h.listening hfd.1⟩
    rcases h.owned.cases (by rw [hlisten]; simp) with ⟨-, -, hcase⟩ | hcase | ⟨-, -, n, hcase⟩
    · simp [hlisten] at hcase
    · exact ⟨hcase.2.1, hcase.1.trans (h.owned.sockfd_eq hcase.2.1).symm⟩
    · simp [hlisten] at hcase
  accepted := fun fd n hn => by
    have hopen : lookup s.fds fd ≠ none := by
      rw [hn]
      simp
    rcases h.owned.cases hopen with ⟨-, -, hcase⟩ | ⟨-, -, hcase⟩ | ⟨h4, -⟩
    · simp [hn] at hcase
    · simp [hn] at hcase
    · simpa using h.owned.owner fd h4 hopen
  connfd := fun hended => by
    rcases h.owned.connfd_open (by rw [hended]; rfl) with hneg | ⟨-, hn⟩
    · exact .inl hneg
    · exact .inr hn
  connfd2 := fun hholding => by
    rcases h.owned.connfd2_open hholding with hneg | ⟨-, hn⟩
    · exact .inl hneg
    · exact .inr hn
  apart := fun hended hholding => h.owned.apart (by rw [hended]; rfl) hholding
  bounded := fun fd hopen => by
    rcases h.owned.cases hopen with hcase | hcase | hcase <;> omega
  mainAccepts := fun hmain => by
    have hlisten := h.listening (by rw [Process.deaf, hmain])
    rw [androidStep, if_pos hmain, startAccept, acceptOn_listening hlisten]
    simp
  readAccepts := fun hread => by
    have hm := main_of_read_created h.created (by rcases hread with hr | hr <;> simp [hr])
    have hlisten := h.listening (by rw [deaf_eq hm]; rcases hread with hr | hr <;> rw [hr] <;> rfl)
    rcases hread with hr | hr
    · rw [androidStep, hr]
      dsimp only
      rw [acceptOn_listening hlisten]
      simp
    · rw [androidStep, hr]
      dsimp only
      rw [startAccept, acceptOn_listening hlisten]
      simp

/-- **The descriptors are in order in every run**: with any interleaving of the threads, `accept`s that
fail, and any messages. -/
theorem open_files (as : List Act) (s : Process) (hrun : runFrom androidStep .start as = some s) :
    FilesOk s := by
  have h : FilesInv s := runFrom_invariant androidStep_filesInv start_filesInv hrun
  exact h.filesOk

/-- The first `accept` fails; the read thread reads EXIT from a connection that has got 4, and the next
session's gets 5. -/
theorem open_files_failed_accept :
    ∃ s, s.fds = [some .std, some .std, some .std, some .listening, some (.accepted 0),
      some (.accepted 1)] ∧ s.connfd = 5 ∧ FilesOk s := by
  have h : (runFrom androidStep .start
      [.main, .mainAccept false, .main, .main, .read, .readAccept true, .readMessage .exit, .read, .read,
        .main, .read, .read, .readAccept true]).map (fun s => (s.fds, s.connfd)) =
      some ([some .std, some .std, some .std, some .listening, some (.accepted 0),
        some (.accepted 1)], 5) := by decide +kernel
  obtain ⟨s, hrun, hs⟩ := Option.map_eq_some_iff.mp h
  obtain ⟨hfds, hconnfd⟩ := Prod.mk.inj hs
  exact ⟨s, hfds, hconnfd, open_files _ s hrun⟩

end LinkManagement.OpenFiles
