import LinkManagement.Video.Sessions

/-!
# Waiting for an INIT

The loop of `wait_init` in `VideoServer/src/server.c`.  Each iteration receives a datagram into an array
that is neither cleared nor initialised, and tests the first byte of the array; the length that
`recv_data` returns is not looked at.  An empty datagram is therefore tested by a byte that is not its
own.

* `startsOnInit_of_stale` — as long as that byte is not INIT, the loop goes by the datagrams themselves;
* `startsOnInit_iff` — it can only be INIT before any datagram with a byte has arrived;
* `empty_datagram_starts_session` — then an empty datagram starts a session.
-/

namespace LinkManagement.WaitInit

open LinkManagement.Connection LinkManagement.Sessions

/-- Where `wait_init` is after some datagrams: the server, what it has sent, and the datagrams that were
not received because the loop was left before. -/
structure WaitResult where
  server : Server
  sent : List Datagram
  unreceived : List Datagram
  deriving DecidableEq

/-- The loop of `wait_init`, on the datagrams as they arrive. -/
def waitInitLoop (serverAddr : Addr) (srv : Server) : List Datagram → WaitResult
  | [] => ⟨srv, [], []⟩
  | d :: ds =>
      if srv.connectionStatus = .waitingInit then
        let r := waitInit serverAddr srv d
        let rest := waitInitLoop serverAddr r.1 ds
        { rest with sent := r.2 ++ rest.sent }
      else ⟨srv, [], d :: ds⟩

/-- The datagram has a byte, and its own first byte is INIT. -/
def OwnInit (d : Datagram) : Prop := d.data.head? = some PacketType.init.code

instance (d : Datagram) : Decidable (OwnInit d) := inferInstanceAs (Decidable (_ = _))

/-- The session starts with the first datagram that is an INIT: the loop is left when it is received,
with one INIT_ACK to its sender; without one the server waits on and has sent nothing. -/
structure StartsOnInit (serverAddr : Addr) (srv : Server) (ds : List Datagram) : Prop where
  waits : (∀ d ∈ ds, ¬ OwnInit d) →
    (waitInitLoop serverAddr srv ds).server.connectionStatus = .waitingInit ∧
      (waitInitLoop serverAddr srv ds).sent = [] ∧ (waitInitLoop serverAddr srv ds).unreceived = []
  starts : ∀ before d after, ds = before ++ d :: after → (∀ e ∈ before, ¬ OwnInit e) → OwnInit d →
    (waitInitLoop serverAddr srv ds).server.connectionStatus = .recvVideo ∧
      (waitInitLoop serverAddr srv ds).server.clientAddr = d.src ∧
      (waitInitLoop serverAddr srv ds).sent = [sendPacketType serverAddr d.src .initAck] ∧
      (waitInitLoop serverAddr srv ds).unreceived = after

/-! ### One iteration -/

theorem waitInitLoop_left {serverAddr : Addr} {srv : Server}
    (h : srv.connectionStatus = .recvVideo) (ds : List Datagram) :
    waitInitLoop serverAddr srv ds = ⟨srv, [], ds⟩ := by
  cases ds with
  | nil => rfl
  | cons d ds =>
    rw [waitInitLoop, if_neg]
    rw [h]
    exact ConnectionStatus.noConfusion

theorem waitInitLoop_accepts (serverAddr : Addr) {srv : Server} {d : Datagram} (ds : List Datagram)
    (hwait : srv.connectionStatus = .waitingInit)
    (htest : testedByte srv d = some PacketType.init.code) :
    waitInitLoop serverAddr srv (d :: ds) =
      ⟨⟨.recvVideo, d.src, (recvData d.data srv.data).2, srv.videoBuffer⟩,
        [sendPacketType serverAddr d.src .initAck], ds⟩ := by
  rw [waitInitLoop, if_pos hwait, waitInit_eq, if_pos htest]
  dsimp only
  rw [waitInitLoop_left rfl]
  rfl

theorem waitInitLoop_rejects (serverAddr : Addr) {srv : Server} {d : Datagram} (ds : List Datagram)
    (hwait : srv.connectionStatus = .waitingInit)
    (htest : testedByte srv d ≠ some PacketType.init.code) :
    waitInitLoop serverAddr srv (d :: ds) =
      waitInitLoop serverAddr
        ⟨.waitingInit, d.src, (recvData d.data srv.data).2, srv.videoBuffer⟩ ds := by
  rw [waitInitLoop, if_pos hwait, waitInit_eq, if_neg htest, hwait]
  rfl

/-! ### All iterations -/

theorem startsOnInit_cons {serverAddr : Addr} {srv : Server} {d : Datagram} {ds : List Datagram}
    (hwait : srv.connectionStatus = .waitingInit)
    (hfirst : testedByte srv d = some PacketType.init.code ↔ OwnInit d)
    (hrest : ¬ OwnInit d → StartsOnInit serverAddr
      ⟨.waitingInit, d.src, (recvData d.data srv.data).2, srv.videoBuffer⟩ ds) :
    StartsOnInit serverAddr srv (d :: ds) := by
  by_cases hown : OwnInit d
  · have hloop := waitInitLoop_accepts serverAddr ds hwait (hfirst.mpr hown)
    refine ⟨fun hnone => absurd hown (hnone d (by simp)), ?_⟩
    intro before e after heq hbefore he
    cases before with
    | nil =>
      obtain ⟨rfl, rfl⟩ := List.cons.inj heq
      rw [hloop]
      exact ⟨rfl, rfl, rfl, rfl⟩
    | cons f before =>
      obtain ⟨rfl, -⟩ := List.cons.inj heq
      exact absurd hown (hbefore d (by simp))
  · have hloop := waitInitLoop_rejects serverAddr ds hwait
      (fun htest => hown (hfirst.mp htest))
    obtain ⟨hwaits, hstarts⟩ := hrest hown
    constructor
    · intro hnone
      rw [hloop]
      exact hwaits fun e he => hnone e (by simp [he])
    · intro before e after heq hbefore he
      cases before with
      | nil =>
        obtain ⟨rfl, -⟩ := List.cons.inj heq
        exact absurd he hown
      | cons f before =>
        obtain ⟨-, hds⟩ := List.cons.inj heq
        rw [hloop]
        exact hstarts before e after hds (fun g hg => hbefore g (by simp [hg])) he

theorem startsOnInit_nil {serverAddr : Addr} {srv : Server}
    (hwait : srv.connectionStatus = .waitingInit) : StartsOnInit serverAddr srv [] := by
  refine ⟨fun _ => ⟨hwait, rfl, rfl⟩, ?_⟩
  intro before d after heq
  cases before <;> cases heq

theorem testedByte_iff_ownInit {srv : Server} {d : Datagram}
    (h : d.data = [] → srv.data.head? ≠ some PacketType.init.code) :
    testedByte srv d = some PacketType.init.code ↔ OwnInit d := by
  unfold testedByte OwnInit
  cases hdata : d.data with
  | nil => simpa using h hdata
  | cons c cs => exact Iff.rfl

/-- **While the byte left in the array is not INIT, the loop goes by the datagrams themselves.** -/
theorem startsOnInit_of_stale {serverAddr : Addr} {srv : Server} (ds : List Datagram)
    (hwait : srv.connectionStatus = .waitingInit)
    (hstale : srv.data.head? ≠ some PacketType.init.code) : StartsOnInit serverAddr srv ds := by
  induction ds generalizing srv with
  | nil => exact startsOnInit_nil hwait
  | cons d ds ih =>
    have hfirst := testedByte_iff_ownInit (d := d) fun _ => hstale
    apply startsOnInit_cons hwait hfirst
    intro hown
    -- what is left in the array is the byte that was tested
    apply ih rfl
    rw [recvData_head?]
    exact fun htest => hown (hfirst.mp htest)

theorem exists_first_init {ds : List Datagram} (h : ¬ ∀ d ∈ ds, ¬ OwnInit d) :
    ∃ before d after, ds = before ++ d :: after ∧ (∀ e ∈ before, ¬ OwnInit e) ∧ OwnInit d := by
  push Not at h
  obtain ⟨e, hmem, hown⟩ := h
  have hsome : (ds.find? fun d => decide (OwnInit d)).isSome = true :=
    List.find?_isSome.mpr ⟨e, hmem, decide_eq_true hown⟩
  obtain ⟨d, hd⟩ := Option.isSome_iff_exists.mp hsome
  obtain ⟨hinit, before, after, heq, hbefore⟩ := List.find?_eq_some_iff_append.mp hd
  refine ⟨before, d, after, heq, fun f hf hown => ?_, of_decide_eq_true hinit⟩
  have hnot := hbefore f hf
  rw [decide_eq_true hown] at hnot
  cases hnot

/-- **The session starts exactly on an INIT**, for all contents of the array and all datagrams, unless
the first byte of the array happens to be INIT and the first datagram is empty. -/
theorem startsOnInit_iff (serverAddr : Addr) (srv : Server)
    (hwait : srv.connectionStatus = .waitingInit) (ds : List Datagram) :
    StartsOnInit serverAddr srv ds ↔
      ¬ (srv.data.head? = some PacketType.init.code ∧ ∃ d, ds.head? = some d ∧ d.data = []) := by
  constructor
  · intro hspec ⟨hstale, d, hd, hempty⟩
    obtain ⟨rest, rfl⟩ := List.head?_eq_some_iff.mp hd
    have htest : testedByte srv d = some PacketType.init.code := by
      rw [testedByte, hempty]
      exact hstale
    have hnot : ¬ OwnInit d := by
      rw [OwnInit, hempty]
      intro h
      cases h
    have hloop := waitInitLoop_accepts serverAddr rest hwait htest
    by_cases hnone : ∀ e ∈ d :: rest, ¬ OwnInit e
    · have hsent := (hspec.waits hnone).2.1
      rw [hloop] at hsent
      cases hsent
    · -- the loop was left on the empty datagram, before the first INIT
      obtain ⟨before, e, after, heq, hbefore, hown⟩ := exists_first_init hnone
      have hleft := (hspec.starts before e after heq hbefore hown).2.2.2
      rw [hloop] at hleft
      cases before with
      | nil =>
        obtain ⟨rfl, -⟩ := List.cons.inj heq
        exact hnot hown
      | cons f before =>
        rw [List.cons_append] at heq
        obtain ⟨-, hrest⟩ := List.cons.inj heq
        have hlen := congrArg List.length (hrest.symm.trans hleft)
        rw [List.length_append, List.length_cons] at hlen
        omega
  · intro hclean
    cases ds with
    | nil => exact startsOnInit_nil hwait
    | cons d ds =>
      have hfirst := testedByte_iff_ownInit fun hempty hstale => hclean ⟨hstale, d, rfl, hempty⟩
      apply startsOnInit_cons hwait hfirst
      intro hown
      apply startsOnInit_of_stale ds rfl
      rw [recvData_head?]
      exact fun htest => hown (hfirst.mp htest)

/-- A stranger's byte first, then an INIT; the array began with the code of INIT. -/
theorem startsOnInit_iff_overwritten :
    StartsOnInit ⟨1, 1337⟩ (.start 16 (fun _ => 0) fun _ => 49)
        [⟨⟨3, 99⟩, ⟨1, 1337⟩, [7], .sendVideoPacket⟩, sendPacketType ⟨2, 80⟩ ⟨1, 1337⟩ .init] ↔
      ¬ ((Server.start 16 (fun _ => 0) fun _ => 49).data.head? = some PacketType.init.code ∧
        ∃ d, [(⟨⟨3, 99⟩, ⟨1, 1337⟩, [7], .sendVideoPacket⟩ : Datagram),
          sendPacketType ⟨2, 80⟩ ⟨1, 1337⟩ .init].head? = some d ∧ d.data = []) :=
  startsOnInit_iff ⟨1, 1337⟩ (.start 16 (fun _ => 0) fun _ => 49) rfl
    [⟨⟨3, 99⟩, ⟨1, 1337⟩, [7], .sendVideoPacket⟩, sendPacketType ⟨2, 80⟩ ⟨1, 1337⟩ .init]

/-- **An empty datagram starts a session** when the array happens to begin with the code of INIT: the
server answers its sender and goes to RECV_VIDEO. -/
theorem empty_datagram_starts_session :
    (waitInitLoop ⟨1, 1337⟩ (.start 16 (fun _ => 0) fun _ => 49)
        [⟨⟨3, 99⟩, ⟨1, 1337⟩, [], .sendVideoPacket⟩]).server.connectionStatus = .recvVideo ∧
      (waitInitLoop ⟨1, 1337⟩ (.start 16 (fun _ => 0) fun _ => 49)
        [⟨⟨3, 99⟩, ⟨1, 1337⟩, [], .sendVideoPacket⟩]).sent =
          [sendPacketType ⟨1, 1337⟩ ⟨3, 99⟩ .initAck] ∧
      ¬ StartsOnInit ⟨1, 1337⟩ (.start 16 (fun _ => 0) fun _ => 49)
        [⟨⟨3, 99⟩, ⟨1, 1337⟩, [], .sendVideoPacket⟩] := by
  have htest : testedByte (.start 16 (fun _ => 0) fun _ => 49)
      ⟨⟨3, 99⟩, ⟨1, 1337⟩, [], .sendVideoPacket⟩ = some PacketType.init.code := by
    rw [testedByte, Server.start, uninitialised_head?]
    rfl
  have hloop := waitInitLoop_accepts ⟨1, 1337⟩ [] rfl htest
  rw [hloop]
  refine ⟨rfl, rfl, fun hspec => ?_⟩
  have hnone : ∀ d ∈ [(⟨⟨3, 99⟩, ⟨1, 1337⟩, [], .sendVideoPacket⟩ : Datagram)], ¬ OwnInit d := by decide
  have hsent := (hspec.waits hnone).2.1
  rw [hloop] at hsent
  cases hsent

end LinkManagement.WaitInit
