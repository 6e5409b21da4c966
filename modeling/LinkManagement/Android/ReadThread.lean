import LinkManagement.Android.OpenFiles
import LinkManagement.Lib.Progress

/-!
# The read thread of the android server goes on

`serverRead` of `androidServer/src/androidServer.c` spins at its loop head while `connected` is 0, and
restarts the server itself when it reads EXIT.  In no interleaving does it get stuck: as long as `accept`
and `read` return, it is back at the `accept` of its loop within a fixed number of its own steps, with
`connected` set and a listening socket, whatever the other threads do in between.

A run lasts as long as the process: the `exit` of `startServer`, where `socket`, `bind` or `listen` fails,
and a SIGPIPE at a `write` end both.
-/

namespace LinkManagement.ReadThread

open LinkManagement.Transition LinkManagement.Descriptors LinkManagement.AndroidServer
open LinkManagement.OpenFiles

def ofRead : Act → Bool
  | .read | .readAccept _ | .readMessage _ => true
  | .main | .mainAccept _ | .send => false

/-- The most steps the read thread takes to the `accept` of its loop. -/
def toGo : ReadPc → ℕ
  | .notCreated | .accept => 0
  | .loopHead => 1
  | .closeConnfd2 => 2
  | .restarting .setConnected => 3
  | .restarting .accept => 4
  | .restarting .socket => 5
  | .clearConnected => 6
  | .closeConnfd => 7
  | .closeSockfd => 8
  | .readFunc => 9

theorem toGo_le (pc : ReadPc) : toGo pc ≤ 9 := by
  rcases pc with _ | _ | _ | _ | _ | _ | _ | p | _
  case restarting => cases p <;> simp [toGo]
  all_goals simp [toGo]

/-- `connected` is set, unless the read thread has cleared it and is restarting the server. -/
def ConnectedOk (s : Process) : Prop := s.connected = true ∨ ∃ p, s.read = .restarting p

structure RunningInv (s : Process) : Prop where
  files : FilesInv s
  created : s.read ≠ .notCreated
  connected : ConnectedOk s

theorem otherStep_frame {s s' : Process} {a : Act} (h : RunningInv s) (ha : ofRead a = false)
    (hstep : androidStep s a = some s') : s'.read = s.read ∧ s'.connected = s.connected := by
  have hm := main_of_read_created h.files.created h.created
  cases a with
  | read => simp [ofRead] at ha
  | readAccept ok => simp [ofRead] at ha
  | readMessage m => simp [ofRead] at ha
  | mainAccept ok =>
    rw [androidStep, if_neg (by rcases hm with hm | hm <;> simp [hm])] at hstep
    simp at hstep
  | main =>
    rw [androidStep, mainStep] at hstep
    rcases hm with hm | hm
    · rw [hm] at hstep
      rw [← Option.some.inj hstep]
      exact ⟨rfl, rfl⟩
    · rw [hm] at hstep
      simp at hstep
  | send =>
    rw [androidStep, sendStep] at hstep
    cases hsend : s.send with
    | notCreated => simp [hsend] at hstep
    | loopHead | loadConnfd | prompt connfd | input connfd session | write connfd session =>
      rw [hsend] at hstep
      rw [← Option.some.inj hstep]
      exact ⟨rfl, rfl⟩

def Advances (s s' : Process) : Prop :=
  s'.read ≠ .notCreated ∧ ConnectedOk s' ∧ toGo s'.read + 1 ≤ toGo s.read

/-- **Each step of the read thread brings it nearer to its `accept`.** -/
theorem readStep_advances {s s' : Process} {a : Act} (h : RunningInv s) (hnot : s.read ≠ .accept)
    (ha : ofRead a = true) (hstep : androidStep s a = some s') : Advances s s' := by
  obtain ⟨-, hcreated, hconnected⟩ := h
  cases a with
  | main => simp [ofRead] at ha
  | mainAccept ok => simp [ofRead] at ha
  | send => simp [ofRead] at ha
  | readMessage m =>
    rw [androidStep] at hstep
    split at hstep
    · rename_i hread
      have hset : s.connected = true := by
        rcases hconnected with hset | ⟨p, hp⟩
        · exact hset
        · simp [hread] at hp
      rw [Advances, hread]
      cases m with
      | nothing =>
        rw [← Option.some.inj hstep]
        exact ⟨by simp, .inl hset, by simp [toGo]⟩
      | exit =>
        rw [readMessage] at hstep
        split at hstep
        · rw [← Option.some.inj hstep]
          exact ⟨by simp, .inl hset, by simp [toGo]⟩
        · simp at hstep
      | text =>
        rw [readMessage] at hstep
        split at hstep
        · rw [← Option.some.inj hstep]
          exact ⟨by simp, .inl hset, by simp [toGo]⟩
        · simp at hstep
    · simp at hstep
  | readAccept ok =>
    rw [androidStep] at hstep
    dsimp only at hstep
    split at hstep
    · exact absurd ‹s.read = .accept› hnot
    · rename_i hread
      obtain ⟨s₁, hs₁, rfl⟩ := Option.map_eq_some_iff.mp hstep
      rw [Advances, hread]
      exact ⟨by simp, .inr ⟨_, rfl⟩, by simp [toGo]⟩
    · simp at hstep
  | read =>
    rw [androidStep, readStep] at hstep
    rw [Advances]
    have hset : (∀ p, s.read ≠ .restarting p) → s.connected = true := by
      intro hp
      rcases hconnected with hset | ⟨p, hread⟩
      · exact hset
      · exact absurd hread (hp p)
    cases hread : s.read with
    | notCreated => exact absurd hread hcreated
    | accept => exact absurd hread hnot
    | readFunc => simp [hread] at hstep
    | loopHead =>
      have hset := hset (by simp [hread])
      rw [hread, hset] at hstep
      rw [← Option.some.inj hstep]
      exact ⟨by simp, .inl rfl, by simp [toGo]⟩
    | closeSockfd | closeConnfd | closeConnfd2 =>
      have hset := hset (by simp [hread])
      rw [hread] at hstep
      rw [← Option.some.inj hstep]
      exact ⟨by simp, .inl hset, by simp [toGo]⟩
    | clearConnected =>
      rw [hread] at hstep
      rw [← Option.some.inj hstep]
      exact ⟨by simp, .inr ⟨_, rfl⟩, by simp [toGo]⟩
    | restarting p =>
      rw [hread] at hstep
      cases p with
      | socket =>
        rw [← Option.some.inj hstep]
        exact ⟨by simp, .inr ⟨_, rfl⟩, by simp [toGo]⟩
      | accept => simp at hstep
      | setConnected =>
        rw [← Option.some.inj hstep]
        exact ⟨by simp, .inl rfl, by simp [toGo]⟩

theorem acceptStep_frame {s s' : Process} {a : Act} (hread : s.read = .accept) (ha : ofRead a = true)
    (hstep : androidStep s a = some s') : s'.read = .readFunc ∧ s'.connected = s.connected := by
  cases a with
  | main => simp [ofRead] at ha
  | mainAccept ok => simp [ofRead] at ha
  | send => simp [ofRead] at ha
  | read => simp [androidStep, readStep, hread] at hstep
  | readMessage m => simp [androidStep, hread] at hstep
  | readAccept ok =>
    rw [androidStep, hread] at hstep
    obtain ⟨p, hp, rfl⟩ := Option.map_eq_some_iff.mp hstep
    refine ⟨rfl, ?_⟩
    rw [acceptOn] at hp
    split at hp
    · split at hp
      · rw [← Option.some.inj hp]
      · simp at hp
    · rw [← Option.some.inj hp]

/-- **Once it is created, the read thread stays so, and `connected` is in order.** -/
theorem androidStep_runningInv (s : Process) (a : Act) (s' : Process) (h : RunningInv s)
    (hstep : androidStep s a = some s') : RunningInv s' := by
  have hfiles := androidStep_filesInv s a s' h.files hstep
  cases ha : ofRead a with
  | false =>
    obtain ⟨hread, hconnected⟩ := otherStep_frame h ha hstep
    refine ⟨hfiles, by rw [hread]; exact h.created, ?_⟩
    rw [ConnectedOk, hread, hconnected]
    exact h.connected
  | true =>
    by_cases haccept : s.read = .accept
    · obtain ⟨hread, hconnected⟩ := acceptStep_frame haccept ha hstep
      refine ⟨hfiles, by simp [hread], .inl ?_⟩
      rcases h.connected with hset | ⟨p, hp⟩
      · rw [hconnected, hset]
      · simp [haccept] at hp
    · obtain ⟨hcreated, hconnected, -⟩ := readStep_advances h haccept ha hstep
      exact ⟨hfiles, hcreated, hconnected⟩

/-- The main thread sets `connected` before it creates the read thread. -/
structure StartInv (s : Process) : Prop where
  files : FilesInv s
  begun : s.main = .createRead → s.connected = true
  running : s.main = .createSend ∨ s.main = .done → RunningInv s

theorem start_startInv : StartInv .start :=
  ⟨start_filesInv, by simp [Process.start], by simp [Process.start]⟩

theorem only_main {s s' : Process} {a : Act} (hread : s.read = .notCreated)
    (hsend : s.send = .notCreated) (hstep : androidStep s a = some s') :
    mainStep s = some s' ∨ (s.main = .starting .accept ∧ s'.main = .starting .setConnected) := by
  cases a with
  | main => exact .inl hstep
  | mainAccept ok =>
    rw [androidStep] at hstep
    split at hstep
    · obtain ⟨s₁, -, rfl⟩ := Option.map_eq_some_iff.mp hstep
      exact .inr ⟨‹_›, rfl⟩
    · simp at hstep
  | read => simp [androidStep, readStep, hread] at hstep
  | readAccept ok => simp [androidStep, hread] at hstep
  | readMessage m => simp [androidStep, hread] at hstep
  | send => simp [androidStep, sendStep, hsend] at hstep

theorem androidStep_startInv (s : Process) (a : Act) (s' : Process) (h : StartInv s)
    (hstep : androidStep s a = some s') : StartInv s' := by
  have hfiles := androidStep_filesInv s a s' h.files hstep
  have hcreated := h.files.created
  rw [CreatedOk] at hcreated
  by_cases hm : s.main = .createSend ∨ s.main = .done
  · have hrunning := androidStep_runningInv s a s' (h.running hm) hstep
    refine ⟨hfiles, fun hmain => ?_, fun _ => hrunning⟩
    have hcreated' := hfiles.created
    rw [CreatedOk, hmain] at hcreated'
    exact absurd hcreated'.1 hrunning.created
  · cases hmain : s.main with
    | starting p =>
      rw [hmain] at hcreated
      rcases only_main hcreated.1 hcreated.2 hstep with hmove | ⟨-, hmain'⟩
      · rw [mainStep, hmain] at hmove
        cases p with
        | socket =>
          rw [← Option.some.inj hmove] at hfiles ⊢
          exact ⟨hfiles, by simp, by simp⟩
        | accept => simp at hmove
        | setConnected =>
          rw [← Option.some.inj hmove] at hfiles ⊢
          exact ⟨hfiles, by simp, by simp⟩
      · exact ⟨hfiles, by simp [hmain'], by simp [hmain']⟩
    | createRead =>
      rw [hmain] at hcreated
      have hset := h.begun hmain
      rcases only_main hcreated.1 hcreated.2 hstep with hmove | ⟨hne, -⟩
      · rw [mainStep, hmain] at hmove
        rw [← Option.some.inj hmove] at hfiles ⊢
        exact ⟨hfiles, by simp, fun _ => ⟨hfiles, by simp, .inl hset⟩⟩
      · simp [hmain] at hne
    | createSend => exact absurd (.inl hmain) hm
    | done => exact absurd (.inr hmain) hm

/-! ### Runs -/

theorem RunningInv.enabled {s : Process} (h : RunningInv s) :
    ∃ a, ofRead a = true ∧ androidStep s a ≠ none := by
  have hok := h.files.filesOk
  cases hread : s.read with
  | notCreated => exact absurd hread h.created
  | accept => exact ⟨.readAccept true, rfl, hok.readAccepts (.inl hread)⟩
  | readFunc => exact ⟨.readMessage .nothing, rfl, by simp [androidStep, hread, readMessage]⟩
  | loopHead | closeSockfd | closeConnfd | clearConnected | closeConnfd2 =>
    exact ⟨.read, rfl, by simp [androidStep, readStep, hread]⟩
  | restarting p =>
    cases p with
    | accept => exact ⟨.readAccept true, rfl, hok.readAccepts (.inr hread)⟩
    | socket | setConnected => exact ⟨.read, rfl, by simp [androidStep, readStep, hread]⟩

/-- **In every continuation that does not pass its `accept`** the read thread takes at most nine steps. -/
theorem RunningInv.bounded {s s' : Process} {as : List Act} (h : RunningInv s)
    (halong : Along androidStep (fun s _ => s.read ≠ .accept) s as)
    (hrun : runFrom androidStep s as = some s') : as.countP ofRead ≤ 9 := by
  have hle : as.countP ofRead + toGo s'.read ≤ toGo s.read := by
    refine Along.countP_add_le (I := RunningInv) (μ := fun s => toGo s.read)
      (fun s a s' hI _ => androidStep_runningInv s a s' hI) (fun s a s' hI hnot hstep => ?_) halong h hrun
    cases ha : ofRead a with
    | false =>
      rw [(otherStep_frame hI ha hstep).1]
      simp
    | true => exact (readStep_advances hI hnot ha hstep).2.2
  have hbound := toGo_le s.read
  omega

/-- The read thread comes back: while the process lives it can go on (`enabled` holds wherever the thread
exists), it takes at most nine steps until it is at the `accept` of its loop again, and there `connected`
is set and `sockfd` listens. -/
structure ComesBack (s : Process) : Prop where
  enabled : ∃ a, ofRead a = true ∧ androidStep s a ≠ none
  bounded : ∀ as s', Along androidStep (fun s _ => s.read ≠ .accept) s as →
    runFrom androidStep s as = some s' → as.countP ofRead ≤ 9
  ready : s.read = .accept → s.connected = true ∧ lookup s.fds s.sockfd = some .listening

/-- **The read thread comes back from everywhere**, in every run that has created it: with any messages,
EXIT included, any failed `accept`s, and any steps of the send thread in between. -/
theorem read_thread_comes_back (as : List Act) (s : Process)
    (hrun : runFrom androidStep .start as = some s) (hmain : s.main = .createSend ∨ s.main = .done) :
    ComesBack s := by
  have hstart : StartInv s := runFrom_invariant androidStep_startInv start_startInv hrun
  have h := hstart.running hmain
  refine ⟨h.enabled, fun as s' halong hrun => h.bounded halong hrun, fun hread => ⟨?_, ?_⟩⟩
  · rcases h.connected with hset | ⟨p, hp⟩
    · exact hset
    · simp [hread] at hp
  · apply h.files.listening
    rw [deaf_eq hmain, hread]
    rfl

/-- In the middle of a restart after EXIT, with the send thread waiting for a line. -/
theorem read_thread_comes_back_restarting :
    ∃ s, s.read = .clearConnected ∧ s.send = .prompt 4 ∧ ComesBack s := by
  have h : (runFrom androidStep .start
      [.main, .mainAccept true, .main, .main, .main, .send, .send, .read, .readAccept true,
        .readMessage .exit, .read, .read]).map (fun s => (s.main, s.read, s.send)) =
      some (.done, .clearConnected, .prompt 4) := by decide +kernel
  obtain ⟨s, hrun, hs⟩ := Option.map_eq_some_iff.mp h
  simp only [Prod.mk.injEq] at hs
  exact ⟨s, hs.2.1, hs.2.2, read_thread_comes_back _ s hrun (.inr hs.1)⟩

end LinkManagement.ReadThread
