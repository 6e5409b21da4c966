import LinkManagement.Video.Transfer

/-!
# Video over a network that keeps the order

UDP may do anything to the datagrams; a single link at most loses some.  What is then left of the
transfer is order: the datagrams of a client, stored or in flight, are INITs and then a sublist of the
frames of its FIFO.  Without losses and with room for every frame in the buffer, nothing is left out.  As
in `Transfer`, no client is in debug mode or has the server's address in its uninitialised `srcAddr`, and
each call that fills or reads the buffer is one step.

* `transfer_in_order` — the frames of a client are stored in order, each at most once;
* `transfer_complete` — all of them are stored or in flight.
-/

namespace LinkManagement.TransferOrder

open LinkManagement.Transition LinkManagement.Framing LinkManagement.MachineInt LinkManagement.Buffer
open LinkManagement.Connection LinkManagement.SendPacket LinkManagement.VideoSendLoop
open LinkManagement.Sessions LinkManagement.Handshake LinkManagement.SessionSafety
open LinkManagement.Transfer

/-! ### Taking a datagram out of the network -/

section Lists

variable {α : Type*} {P : α → Bool} {l kept : List α} {i : ℕ} {x : α}

theorem eq_take_append_drop (hx : l[i]? = some x) : l = l.take i ++ x :: l.drop (i + 1) := by
  obtain ⟨hi, hget⟩ := List.getElem?_eq_some_iff.mp hx
  rw [← hget, List.getElem_cons_drop, List.take_append_drop]

theorem filter_eraseIdx_of_not (hx : l[i]? = some x) (hP : P x = false) :
    (l.eraseIdx i).filter P = l.filter P := by
  conv_rhs => rw [eq_take_append_drop hx]
  rw [List.eraseIdx_eq_take_drop_succ, List.filter_append, List.filter_append,
    List.filter_cons_of_neg (by rw [hP]; exact Bool.false_ne_true)]

theorem filter_keep_first (hx : l[i]? = some x) (hfirst : ∀ k < i, ∀ y ∈ l[k]?, P y = false) :
    (kept ++ [x] ++ l.eraseIdx i).filter P = (kept ++ l).filter P := by
  have hnone : (l.take i).filter P = [] := by
    rw [List.filter_eq_nil_iff]
    intro y hy
    obtain ⟨k, hk⟩ := List.getElem?_of_mem hy
    rw [List.getElem?_take] at hk
    split at hk
    · rw [hfirst k ‹_› y hk]
      exact Bool.false_ne_true
    · cases hk
  conv_rhs => rw [eq_take_append_drop hx]
  rw [List.eraseIdx_eq_take_drop_succ]
  simp only [List.filter_append, hnone, List.nil_append, List.append_assoc]
  rw [← List.filter_append, List.singleton_append]

end Lists

/-! ### The datagrams of one client -/

/-- What is left of everything sent: what the server has stored, and what is in flight. -/
def flow (s : Session) : List Datagram := s.stored ++ s.net

/-- The server receives a datagram of a sender only when none that was sent before it is in flight. -/
def FirstOfSender (s : Session) (i : ℕ) : Prop :=
  ∀ d ∈ s.net[i]?, ∀ k < i, ∀ e ∈ s.net[k]?, e.src ≠ d.src

instance (s : Session) (i : ℕ) : Decidable (FirstOfSender s i) :=
  inferInstanceAs (Decidable (∀ d ∈ s.net[i]?, ∀ k < i, ∀ e ∈ s.net[k]?, e.src ≠ d.src))

/-- The network keeps the order: it duplicates nothing, and the datagrams of a sender arrive in order. -/
def KeepsOrder (s : VideoLink) : TransferAct → Prop
  | .inside (.duplicate _) => False
  | .inside (.serverRecv i) => FirstOfSender s.session i
  | _ => True

instance (s : VideoLink) : (a : TransferAct) → Decidable (KeepsOrder s a)
  | .inside (.duplicate _) => isFalse id
  | .inside (.serverRecv i) => inferInstanceAs (Decidable (FirstOfSender s.session i))
  | .inside (.lose _) | .inside .fifoRead | .inside (.serverRestart _ _)
  | .inside (.clientStart _ _ _ _) | .inside (.clientStop _) | .inside (.clientSend _ _)
  | .inside (.clientTimeout _) | .inside (.clientRecv _ _) | .clientStart _ _ _ _ _ _
  | .serverRestart _ _ | .readFifo _ _ | .fifoWrite => isTrue trivial

/-- What a step inside can send is an INIT of a client at the head of its INIT loop. -/
def Asked (serverAddr : Addr) (s : Session) (d : Datagram) : Prop :=
  ∃ (j : ℕ) (c : Client), s.clients[j]? = some c ∧ c.phase = .sendInit ∧
    d = sendPacketType c.addr serverAddr .init

/-- **A step inside keeps the order**: the datagrams of a sender that are left were there before, in this
order, before any that it sends. -/
theorem moves_flow_sublist {z : SizeT} {serverAddr addr : Addr} {s s' : VideoLink} {a : Act}
    {P : Datagram → Bool} (hP : ∀ d, P d = true → d.src = addr) (haddr : addr ≠ serverAddr)
    (hkeeps : KeepsOrder s (.inside a)) (hmoves : Moves z serverAddr s.session s'.session a) :
    ∃ asked, (∀ d ∈ asked, Asked serverAddr s.session d) ∧
      ((flow s'.session).filter P).Sublist ((flow s.session ++ asked).filter P) := by
  have hout : ∀ {d : Datagram}, d.src ≠ addr → P d = false := fun hne => by
    rw [Bool.eq_false_iff]
    exact fun h => hne (hP _ h)
  have herase : ∀ i, ((s.session.stored ++ s.session.net.eraseIdx i).filter P).Sublist
      ((flow s.session).filter P) := fun i =>
    ((List.Sublist.refl _).append (List.eraseIdx_sublist _ i)).filter P
  have hnone : ∀ {l : List Datagram}, l.Sublist ((flow s.session).filter P) →
      ∃ asked, (∀ d ∈ asked, Asked serverAddr s.session d) ∧
        l.Sublist ((flow s.session ++ asked).filter P) := fun h =>
    ⟨[], List.forall_mem_nil _, by rwa [List.append_nil]⟩
  unfold flow at *
  cases hmoves with
  | idle hnet hstored htaken =>
    rw [hnet, hstored]
    exact hnone (List.Sublist.refl _)
  | lost i hnet hstored htaken =>
    rw [hnet, hstored]
    exact hnone (herase i)
  | repeated i d hd hnet hstored htaken => exact hkeeps.elim
  | waited i d answers hd hdst hstatus hanswers hnet hstored htaken =>
    rw [hnet, hstored]
    have hno : answers.filter P = [] := by
      rw [List.filter_eq_nil_iff]
      intro e he
      rw [hout (hanswers e he ▸ haddr.symm)]
      exact Bool.false_ne_true
    refine hnone ?_
    rw [← List.append_assoc, List.filter_append, hno, List.append_nil]
    exact herase i
  | handled i d hd hdst hstatus hnet hstored htaken =>
    rw [hnet, hstored]
    refine hnone ?_
    by_cases hstores : Stores z s.session.server.videoBuffer d
    · rw [if_pos hstores]
      by_cases hd' : P d = true
      · rw [filter_keep_first hd fun k hk e he =>
          hout fun heq => hkeeps d hd k hk e he (heq.trans (hP d hd').symm)]
      · rw [List.append_assoc, List.filter_append, List.singleton_append, List.filter_cons_of_neg hd',
          ← List.filter_append]
        exact herase i
    · rw [if_neg hstores]
      exact herase i
  | answered j i c d hc hd hdst hnet hstored htaken =>
    rw [hnet, hstored]
    exact hnone (herase i)
  | asked j c hc hphase hnet hstored htaken =>
    rw [hnet, hstored]
    refine ⟨[sendPacketType c.addr serverAddr .init], fun d hd => ?_, ?_⟩
    · exact ⟨j, c, hc, hphase, List.mem_singleton.mp hd⟩
    · rw [List.append_assoc]

/-! ### Following one client -/

/-- No other client, before or after, has the address of this end. -/
def Alone (ends : List ClientEnd) (j : ℕ) (e : ClientEnd) : Prop :=
  ∀ k f, ends[k]? = some f → f.addr = e.addr → k = j

/-- `R` relates what is left of the datagrams of a client, those that `P` selects, to what its loop has
sent. -/
def Tracks (P : Addr → Datagram → Bool) (R : Addr → List Datagram → List (List UInt8) → Prop)
    (s : VideoLink) : Prop :=
  ∀ j e, s.ends[j]? = some e → Alone s.ends j e →
    R e.addr ((flow s.session).filter (P e.addr)) e.loop.sent

section Tracks

variable {z : SizeT} {oc : ByteOrder} {serverAddr : Addr} {s s' : VideoLink} {a : TransferAct}
  {P : Addr → Datagram → Bool} {R : Addr → List Datagram → List (List UInt8) → Prop}

theorem filter_flow_eq_nil (h : OriginInv oc serverAddr s) (hP : ∀ addr d, P addr d = true → d.src = addr)
    {addr : Addr} (haddr : addr ≠ serverAddr) (hnew : ∀ e ∈ s.ends, e.addr ≠ addr) :
    (flow s.session).filter (P addr) = [] := by
  rw [List.filter_eq_nil_iff]
  intro d hd hPd
  have hsrc := hP addr d hPd
  have hknown : Known serverAddr s.ends d := by
    rcases List.mem_append.mp hd with hd | hd
    · exact h.stored d hd
    · exact h.net d hd (hsrc.trans_ne haddr)
  obtain ⟨e, he, hsent⟩ := hknown
  exact hnew e he (hsent.src_eq.symm.trans hsrc)

/-- **Following a client over a step.**  The steps inside are the only ones to look at: a client begins with
nothing, and the frames its loop sends are put behind everything else. -/
theorem tracks_step (h : OriginInv oc serverAddr s) (hP : ∀ addr d, P addr d = true → d.src = addr)
    (hnil : ∀ addr, R addr [] [])
    (happend : ∀ addr ds sent frames, R addr ds sent →
      R addr (ds ++ (frames.map (videoDatagram addr serverAddr)).filter (P addr)) (sent ++ frames))
    (hinside : ∀ b, a = .inside b → Moves z serverAddr s.session s'.session b → ∀ j e,
      s.ends[j]? = some e → Alone s.ends j e →
        R e.addr ((flow s.session).filter (P e.addr)) e.loop.sent →
        R e.addr ((flow s'.session).filter (P e.addr)) e.loop.sent)
    (htracks : Tracks P R s) (hcases : StepCases z oc serverAddr s s' a) : Tracks P R s' := by
  intro j e he halone
  cases hcases with
  | inside hmoves hstays hends hwritten =>
    rw [hends] at he halone
    exact hinside _ rfl hmoves j e he halone (htracks j e he halone)
  | started addr srcAddr mem loopMem emptied debug hfree hs' =>
    subst hs'
    have hold : ∀ {k : ℕ} {f : ClientEnd}, s.ends[k]? = some f → k < s.ends.length ∧
        (s.ends ++ [.start addr loopMem emptied debug])[k]? = some f := fun hf =>
      have hk := (List.getElem?_eq_some_iff.mp hf).1
      ⟨hk, (List.getElem?_append_left hk).trans hf⟩
    rcases getElem?_concat_cases he with he | ⟨hj, rfl⟩
    · exact htracks j e he fun k f hf hsame => halone k f (hold hf).2 hsame
    · have hnone : (flow s.session).filter (P addr) = [] := by
        refine filter_flow_eq_nil h hP hfree fun f hf hsame => ?_
        obtain ⟨k, hk⟩ := List.getElem?_of_mem hf
        have hkj := halone k f (hold hk).2 hsame
        have hlt := (hold hk).1
        omega
      show R addr ((flow s.session).filter (P addr)) []
      rw [hnone]
      exact hnil addr
  | restarted heap mem max hs' =>
    subst hs'
    exact htracks j e he halone
  | read k c f byte loop frames hc hf hphase haddr hsent hok hs' =>
    subst hs'
    have hk : k < s.ends.length := (List.getElem?_eq_some_iff.mp hf).1
    have hset : ∀ {i : ℕ} {g : ClientEnd}, s.ends[i]? = some g →
        ∃ g', (s.ends.set k { f with loop := loop, consumed := f.consumed ++ [byte] })[i]? = some g' ∧
          g'.addr = g.addr := by
      intro i g hg
      by_cases hik : i = k
      · subst hik
        rw [hf, Option.some.injEq] at hg
        subst hg
        exact ⟨_, List.getElem?_set_self hk, rfl⟩
      · exact ⟨g, (List.getElem?_set_ne (Ne.symm hik)).trans hg, rfl⟩
    have hflow : flow { s.session with
        net := s.session.net ++ frames.map (videoDatagram f.addr serverAddr) } =
          flow s.session ++ frames.map (videoDatagram f.addr serverAddr) := (List.append_assoc _ _ _).symm
    dsimp only at he halone ⊢
    rw [hflow, List.filter_append]
    by_cases hjk : j = k
    · subst hjk
      rw [List.getElem?_set_self hk, Option.some.injEq] at he
      subst he
      dsimp only
      rw [hsent]
      refine happend f.addr _ _ frames (htracks j f hf fun i g hg hsame => ?_)
      obtain ⟨g', hg', haddr'⟩ := hset hg
      exact halone i g' hg' (haddr'.trans hsame)
    · rw [List.getElem?_set_ne (Ne.symm hjk)] at he
      have hother : f.addr ≠ e.addr := fun hsame =>
        hjk (halone k _ (List.getElem?_set_self hk) hsame).symm
      have hnone : (frames.map (videoDatagram f.addr serverAddr)).filter (P e.addr) = [] := by
        rw [List.filter_eq_nil_iff]
        intro d hd hPd
        obtain ⟨data, -, rfl⟩ := List.mem_map.mp hd
        exact hother (hP e.addr _ hPd)
      rw [hnone, List.append_nil]
      refine htracks j e he fun i g hg hsame => ?_
      obtain ⟨g', hg', haddr'⟩ := hset hg
      exact halone i g' hg' (haddr'.trans hsame)
  | wrote buf byte hempty hread hs' =>
    subst hs'
    exact htracks j e he halone

/-- A client in its INIT loop has read no frame. -/
def Fresh (s : VideoLink) : Prop :=
  ∀ (j : ℕ) (c : Client) (e : ClientEnd), s.session.clients[j]? = some c → s.ends[j]? = some e →
    c.InInitLoop → e.loop.sent = []

theorem fresh_step (h : OriginInv oc serverAddr s) (hfresh : Fresh s)
    (hcases : StepCases z oc serverAddr s s' a) : Fresh s' := by
  intro j c e hc he hloop
  cases hcases with
  | inside hmoves hstays hends hwritten =>
    obtain ⟨c₀, hc₀, hloop₀⟩ := hstays.initLoop hc hloop
    exact hfresh j c₀ e hc₀ (hends ▸ he) hloop₀
  | started addr srcAddr mem loopMem emptied debug hfree hs' =>
    subst hs'
    have hlen : s.ends.length = s.session.clients.length := by
      have hmap := congrArg List.length h.addrs
      rwa [List.length_map, List.length_map] at hmap
    rcases getElem?_concat_cases he with he | ⟨-, rfl⟩
    · have hj := (List.getElem?_eq_some_iff.mp he).1
      exact hfresh j c e ((List.getElem?_append_left (hlen ▸ hj)).symm.trans hc) he hloop
    · rfl
  | restarted heap mem max hs' =>
    subst hs'
    exact hfresh j c e hc he hloop
  | read k c' f byte loop frames hc' hf hphase haddr hsent hok hs' =>
    subst hs'
    by_cases hjk : j = k
    · subst hjk
      have hsame : c = c' := Option.some.inj (hc.symm.trans hc')
      subst hsame
      rcases hloop with hloop | hloop
      · rw [hphase] at hloop
        cases hloop
      · rw [hphase] at hloop
        cases hloop
    · exact hfresh j c e hc ((List.getElem?_set_ne (Ne.symm hjk)).symm.trans he) hloop
  | wrote buf byte hempty hread hs' =>
    subst hs'
    exact hfresh j c e hc he hloop

end Tracks

/-! ### In order -/

/-- The datagrams are INITs, and then what the loop has sent, some of it left out. -/
def InOrder (serverAddr addr : Addr) (ds : List Datagram) (sent : List (List UInt8)) : Prop :=
  ∃ (n : ℕ) (kept : List (List UInt8)), kept.Sublist sent ∧
    ds = List.replicate n (sendPacketType addr serverAddr .init) ++ kept.map (videoDatagram addr serverAddr)

theorem InOrder.sublist {serverAddr addr : Addr} {ds ds' : List Datagram} {sent : List (List UInt8)}
    (h : InOrder serverAddr addr ds sent) (hsub : ds'.Sublist ds) : InOrder serverAddr addr ds' sent := by
  obtain ⟨n, kept, hkept, rfl⟩ := h
  obtain ⟨inits, frames, rfl, hinits, hframes⟩ := List.sublist_append_iff.mp hsub
  obtain ⟨m, -, rfl⟩ := List.sublist_replicate_iff.mp hinits
  obtain ⟨kept', hkept', rfl⟩ := List.sublist_map_iff.mp hframes
  exact ⟨m, kept', hkept'.trans hkept, rfl⟩

def fromAddr (addr : Addr) (d : Datagram) : Bool := d.src = addr

theorem fromAddr_iff {addr : Addr} {d : Datagram} : fromAddr addr d = true ↔ d.src = addr :=
  decide_eq_true_iff

theorem inOrder_step {z : SizeT} {oc : ByteOrder} {serverAddr : Addr} {s s' : VideoLink}
    {a : TransferAct} (h : OriginInv oc serverAddr s) (hfresh : Fresh s) (hkeeps : KeepsOrder s a)
    (htracks : Tracks fromAddr (InOrder serverAddr) s) (hcases : StepCases z oc serverAddr s s' a) :
    Tracks fromAddr (InOrder serverAddr) s' := by
  refine tracks_step h (fun _ _ => fromAddr_iff.mp) (fun _ => ⟨0, [], List.Sublist.refl _, rfl⟩) ?_ ?_
    htracks hcases
  · rintro addr ds sent frames ⟨n, kept, hkept, rfl⟩
    have hall : (frames.map (videoDatagram addr serverAddr)).filter (fromAddr addr) =
        frames.map (videoDatagram addr serverAddr) := by
      rw [List.filter_eq_self]
      intro d hd
      obtain ⟨data, -, rfl⟩ := List.mem_map.mp hd
      exact fromAddr_iff.mpr rfl
    refine ⟨n, kept ++ frames, hkept.append (List.Sublist.refl frames), ?_⟩
    rw [hall, List.map_append, List.append_assoc]
  · rintro b rfl hmoves j e he halone horder
    have haddr : e.addr ≠ serverAddr := h.addr_ne (List.mem_of_getElem? he)
    obtain ⟨asked, hasked, hflow⟩ := moves_flow_sublist (P := fromAddr e.addr)
      (fun d => fromAddr_iff.mp) haddr hkeeps hmoves
    refine InOrder.sublist ?_ hflow
    rw [List.filter_append]
    cases hown : asked.filter (fromAddr e.addr) with
    | nil =>
      rw [List.append_nil]
      exact horder
    | cons d own =>
      -- the client itself asks, so its loop has sent nothing
      have hmem : ∀ d' ∈ d :: own, d' ∈ asked ∧ d'.src = e.addr := by
        intro d' hd'
        rw [← hown] at hd'
        exact ⟨List.mem_of_mem_filter hd', fromAddr_iff.mp (List.mem_filter.mp hd').2⟩
      obtain ⟨hd, hsrc⟩ := hmem d List.mem_cons_self
      obtain ⟨k, c, hc, hphase, rfl⟩ := hasked d hd
      obtain ⟨f, hf, hfaddr⟩ := h.endOf hc
      obtain rfl : k = j := halone k f hf (hfaddr.trans hsrc)
      have hsent : e.loop.sent = [] := hfresh k c e hc he (.inl hphase)
      obtain ⟨n, kept, hkept, hds⟩ := horder
      rw [hsent, List.sublist_nil] at hkept
      have hinits : sendPacketType c.addr serverAddr .init :: own =
          List.replicate (own.length + 1) (sendPacketType e.addr serverAddr .init) := by
        rw [List.eq_replicate_iff]
        refine ⟨rfl, fun d' hd' => ?_⟩
        obtain ⟨hd', hsrc'⟩ := hmem d' hd'
        obtain ⟨-, c', -, -, rfl⟩ := hasked d' hd'
        rw [← hsrc']
        rfl
      refine ⟨n + (own.length + 1), [], List.nil_sublist _, ?_⟩
      rw [hds, hkept, hinits, List.map_nil, List.append_nil, List.append_nil, ← List.replicate_add]

/-- What a network that keeps the order leaves of the video: the server's FIFO is written the frames of
stored datagrams; those of a client whose address nobody else has are INITs and then frames of its FIFO, in
the order in which it has read them, each at most once. -/
structure Ordered (o oc : ByteOrder) (serverAddr : Addr) (max : ℕ) (s : VideoLink) : Prop where
  output : ∃ earlier, OutputOk o max earlier s
  order : ∀ j e, s.ends[j]? = some e → Alone s.ends j e →
    ∃ (n : ℕ) (frames : List (List UInt8)) (items : List Item) (tail : List UInt8),
      Splits (Item.Valid oc) (Item.bytes oc) e.consumed items tail ∧ frames.Sublist (datagrams items) ∧
      s.session.stored.filter (fromAddr e.addr) =
        List.replicate n (sendPacketType e.addr serverAddr .init) ++
          frames.map (videoDatagram e.addr serverAddr)

theorem keepsOrder_run {z : SizeT} {o oc : ByteOrder} {serverAddr : Addr} {max : ℕ} {heap mem : ℕ → UInt8}
    (hpos : 1 ≤ max) (hmax : max ≤ intMax) {as : List TransferAct} {s : VideoLink}
    (hproper : ∀ a ∈ as, ProperStart serverAddr a)
    (hkeeps : Along (transferStep z o oc serverAddr max) KeepsOrder (.start max heap mem) as)
    (hrun : runFrom (transferStep z o oc serverAddr max) (.start max heap mem) as = some s) :
    OriginInv oc serverAddr s ∧ Ordered o oc serverAddr max s := by
  have hsteps := hkeeps.and (Along.of_forall (C := fun _ a => ProperStart serverAddr a) _ as
    fun a ha _ => hproper a ha)
  obtain ⟨h, houtput, -, htracks⟩ := hsteps.invariant
    (I := fun s => OriginInv oc serverAddr s ∧ (∃ earlier, OutputOk o max earlier s) ∧ Fresh s ∧
      Tracks fromAddr (InOrder serverAddr) s) (by
      intro s a s' ⟨h, ⟨earlier, houtput⟩, hfresh, htracks⟩ ⟨ha, hstart⟩ hstep
      have hcases := transferStep_cases h hstep
      obtain ⟨earlier', houtput', -⟩ := transferStep_output hpos hmax h houtput hstep
      exact ⟨transferStep_origin h hstart hstep, ⟨earlier', houtput'⟩, fresh_step h hfresh hcases,
        inOrder_step h hfresh ha htracks hcases⟩)
    ⟨start_origin oc serverAddr max heap mem, ⟨[], start_output o heap mem hpos⟩,
      by simp [Fresh, VideoLink.start], by simp [Tracks, VideoLink.start]⟩ hrun
  refine ⟨h, houtput, fun j e he halone => ?_⟩
  have hstored : (s.session.stored.filter (fromAddr e.addr)).Sublist
      ((flow s.session).filter (fromAddr e.addr)) :=
    (List.sublist_append_left _ _).filter _
  obtain ⟨n, frames, hframes, heq⟩ := (htracks j e he halone).sublist hstored
  obtain ⟨items, tail, -, -, hsplit, hsent⟩ := h.ends e (List.mem_of_getElem? he)
  exact ⟨n, frames, items, tail, hsplit, hsent ▸ hframes, heq⟩

/-- **The order of the frames is kept**, with any number of clients, losses, full buffers and restarts, as
long as the network duplicates nothing and lets no datagram overtake another of the same sender. -/
theorem transfer_in_order (z : SizeT) (o oc : ByteOrder) (serverAddr : Addr) (max : ℕ)
    (heap mem : ℕ → UInt8) (hpos : 1 ≤ max) (hmax : max ≤ intMax) (as : List TransferAct)
    (hproper : ∀ a ∈ as, ProperStart serverAddr a)
    (hkeeps : Along (transferStep z o oc serverAddr max) KeepsOrder (.start max heap mem) as)
    (s : VideoLink)
    (hrun : runFrom (transferStep z o oc serverAddr max) (.start max heap mem) as = some s) :
    Ordered o oc serverAddr max s := (keepsOrder_run hpos hmax hproper hkeeps hrun).2

/-- The second INIT of a client becomes a frame, its first frame is lost, and the second is written. -/
theorem transfer_in_order_lost_frame :
    ∃ s : VideoLink, s.written = [1, 0, 49, 1, 0, 8] ∧ Ordered .little .little ⟨1, 1337⟩ 16 s := by
  let acts : List TransferAct :=
    [.clientStart ⟨2, 80⟩ ⟨0, 0⟩ (fun _ => 0) (fun _ => 0) [] false, .inside (.clientSend 0 .init),
      .inside (.clientTimeout 0), .inside (.clientSend 0 .init), .inside (.serverRecv 0),
      .inside (.clientRecv 0 1), .readFifo 0 1, .readFifo 0 0, .readFifo 0 7, .readFifo 0 1,
      .readFifo 0 0, .readFifo 0 8, .inside (.lose 1), .inside (.serverRecv 0),
      .inside (.serverRecv 0), .fifoWrite, .fifoWrite, .fifoWrite, .fifoWrite, .fifoWrite, .fifoWrite]
  have hwritten : (runFrom (transferStep ⟨64, by decide⟩ .little .little ⟨1, 1337⟩ 16)
      (.start 16 (fun _ => 0) fun _ => 0) acts).map VideoLink.written =
      some [1, 0, 49, 1, 0, 8] := by decide +kernel
  obtain ⟨s, hrun, hs⟩ := Option.map_eq_some_iff.mp hwritten
  exact ⟨s, hs, transfer_in_order ⟨64, by decide⟩ .little .little ⟨1, 1337⟩ 16 (fun _ => 0) (fun _ => 0)
    (by decide) (by decide) acts (by decide +kernel) (by decide +kernel) s hrun⟩

/-! ### Nothing lost -/

/-- Besides, nothing is lost, the server is not restarted, and it has room for each frame it receives. -/
def KeepsAll (z : SizeT) (s : VideoLink) : TransferAct → Prop
  | .inside (.lose _) | .serverRestart _ _ => False
  | .inside (.serverRecv i) => FirstOfSender s.session i ∧ ∀ d ∈ s.session.net[i]?,
      d.sentBy = .sendVideoPacket → d.data ≠ [] → Stores z s.session.server.videoBuffer d
  | a => KeepsOrder s a

instance (z : SizeT) (s : VideoLink) : (a : TransferAct) → Decidable (KeepsAll z s a)
  | .inside (.lose _) | .inside (.duplicate _) | .serverRestart _ _ => isFalse id
  | .inside (.serverRecv i) => inferInstanceAs (Decidable (FirstOfSender s.session i ∧
      ∀ d ∈ s.session.net[i]?, d.sentBy = .sendVideoPacket → d.data ≠ [] →
        Stores z s.session.server.videoBuffer d))
  | .inside .fifoRead | .inside (.serverRestart _ _) | .inside (.clientStart _ _ _ _)
  | .inside (.clientStop _) | .inside (.clientSend _ _) | .inside (.clientTimeout _)
  | .inside (.clientRecv _ _) | .clientStart _ _ _ _ _ _ | .readFifo _ _ | .fifoWrite => isTrue trivial

/-- The datagram is a frame of this sender, and not empty. -/
def videoFrom (addr : Addr) (d : Datagram) : Bool :=
  d.src = addr ∧ d.sentBy = .sendVideoPacket ∧ d.data ≠ []

theorem videoFrom_iff {addr : Addr} {d : Datagram} :
    videoFrom addr d = true ↔ d.src = addr ∧ d.sentBy = .sendVideoPacket ∧ d.data ≠ [] :=
  decide_eq_true_iff

/-- **A step inside keeps all frames.** -/
theorem moves_flow_eq {z : SizeT} {serverAddr addr : Addr} {s s' : VideoLink} {a : Act}
    (hsession : SessionInv serverAddr s.session) (haddr : addr ≠ serverAddr)
    (hwait : s.session.server.connectionStatus = .waitingInit →
      ∀ d ∈ s.session.net, videoFrom addr d = false)
    (hkeeps : KeepsAll z s (.inside a)) (hmoves : Moves z serverAddr s.session s'.session a) :
    (flow s'.session).filter (videoFrom addr) = (flow s.session).filter (videoFrom addr) := by
  have hout : ∀ {d : Datagram}, d.src ≠ addr → videoFrom addr d = false := fun hne => by
    rw [Bool.eq_false_iff]
    exact fun h => hne (videoFrom_iff.mp h).1
  unfold flow
  cases hmoves with
  | idle hnet hstored htaken => rw [hnet, hstored]
  | lost i hnet hstored htaken => exact hkeeps.elim
  | repeated i d hd hnet hstored htaken => exact hkeeps.elim
  | waited i d answers hd hdst hstatus hanswers hnet hstored htaken =>
    have hno : answers.filter (videoFrom addr) = [] := by
      rw [List.filter_eq_nil_iff]
      intro e he
      rw [hout (hanswers e he ▸ haddr.symm)]
      exact Bool.false_ne_true
    rw [hnet, hstored, ← List.append_assoc, List.filter_append, hno, List.append_nil, List.filter_append,
      filter_eraseIdx_of_not hd (hwait hstatus d (List.mem_of_getElem? hd)), List.filter_append]
  | handled i d hd hdst hstatus hnet hstored htaken =>
    rw [hnet, hstored]
    by_cases hvideo : videoFrom addr d = true
    · obtain ⟨hsrc, hby, hne⟩ := videoFrom_iff.mp hvideo
      rw [if_pos (hkeeps.2 d hd hby hne), filter_keep_first hd fun k hk e he =>
        hout fun heq => hkeeps.1 d hd k hk e he (heq.trans hsrc.symm)]
    · have herase := filter_eraseIdx_of_not hd (Bool.eq_false_iff.mpr hvideo)
      split
      · rw [List.filter_append, List.filter_append, List.filter_cons_of_neg hvideo,
          List.filter_nil, List.append_nil, herase, List.filter_append]
      · rw [List.filter_append, herase, List.filter_append]
  | answered j i c d hc hd hdst hnet hstored htaken =>
    have hsrc : d.src = serverAddr := by
      by_contra hne
      exact hsession.addrs.ne hc (hdst.symm.trans (hsession.requests d (List.mem_of_getElem? hd) hne))
    rw [hnet, hstored, List.filter_append, filter_eraseIdx_of_not hd (hout (hsrc.trans_ne haddr.symm)),
      List.filter_append]
  | asked j c hc hphase hnet hstored htaken =>
    have hinit : ¬ videoFrom addr (sendPacketType c.addr serverAddr .init) = true := fun h => by
      obtain ⟨-, hby, -⟩ := videoFrom_iff.mp h
      cases hby
    rw [hnet, hstored, ← List.append_assoc, List.filter_append, List.filter_cons_of_neg hinit,
      List.filter_nil, List.append_nil]

/-- While the server waits it has taken nothing, and no client has read a frame. -/
def Idle (s : VideoLink) : Prop :=
  s.session.server.connectionStatus = .waitingInit →
    s.session.taken = [] ∧ ∀ e ∈ s.ends, e.loop.sent = []

theorem idle_step {z : SizeT} {oc : ByteOrder} {serverAddr : Addr} {s s' : VideoLink} {a : TransferAct}
    (h : OriginInv oc serverAddr s) (hidle : Idle s) (hkeeps : KeepsAll z s a)
    (hcases : StepCases z oc serverAddr s s' a) : Idle s' := by
  intro hwait
  cases hcases with
  | inside hmoves hstays hends hwritten =>
    obtain ⟨hwait₀, htaken⟩ := hstays.waits hwait
    rw [htaken, hends]
    exact hidle hwait₀
  | started addr srcAddr mem loopMem emptied debug hfree hs' =>
    subst hs'
    obtain ⟨htaken, hsent⟩ := hidle hwait
    refine ⟨htaken, fun e he => ?_⟩
    rcases List.mem_append.mp he with he | he
    · exact hsent e he
    · rw [List.mem_singleton.mp he]
      rfl
  | restarted heap mem max hs' => exact hkeeps.elim
  | read k c f byte loop frames hc hf hphase haddr hsent hok hs' =>
    -- the client has been answered, so an INIT has been taken
    subst hs'
    obtain ⟨htaken, -⟩ := hidle hwait
    obtain ⟨d, hd, -⟩ := (h.session.client hc).answered hphase
    rw [htaken] at hd
    cases hd
  | wrote buf byte hempty hread hs' =>
    subst hs'
    exact hidle hwait

/-- The datagrams are what the loop has sent, but for empty frames. -/
def AllOf (serverAddr addr : Addr) (ds : List Datagram) (sent : List (List UInt8)) : Prop :=
  ds = (sent.filter fun p => p ≠ []).map (videoDatagram addr serverAddr)

theorem allOf_step {z : SizeT} {oc : ByteOrder} {serverAddr : Addr} {s s' : VideoLink} {a : TransferAct}
    (h : OriginInv oc serverAddr s) (hidle : Idle s) (hkeeps : KeepsAll z s a)
    (htracks : Tracks videoFrom (AllOf serverAddr) s) (hcases : StepCases z oc serverAddr s s' a) :
    Tracks videoFrom (AllOf serverAddr) s' := by
  refine tracks_step h (fun _ _ hP => (videoFrom_iff.mp hP).1) (fun _ => rfl) ?_ ?_ htracks hcases
  · rintro addr ds sent frames rfl
    have hframes : (frames.map (videoDatagram addr serverAddr)).filter (videoFrom addr) =
        (frames.filter fun p => p ≠ []).map (videoDatagram addr serverAddr) := by
      have hcond : videoFrom addr ∘ videoDatagram addr serverAddr = fun p => decide (p ≠ []) := by
        funext p
        simp [videoFrom, videoDatagram]
      rw [List.filter_map, hcond]
    rw [AllOf, hframes, List.filter_append, List.map_append]
  · rintro b rfl hmoves j e he halone hall
    have haddr : e.addr ≠ serverAddr := h.addr_ne (List.mem_of_getElem? he)
    rw [moves_flow_eq h.session haddr (fun hwait d hd => ?_) hkeeps hmoves]
    · exact hall
    · rw [Bool.eq_false_iff]
      intro hvideo
      obtain ⟨hsrc, hby, -⟩ := videoFrom_iff.mp hvideo
      obtain ⟨f, hf, hsent⟩ := h.net d hd (hsrc.trans_ne haddr)
      rcases hsent with rfl | ⟨data, hdata, rfl⟩
      · cases hby
      · rw [(hidle hwait).2 f hf] at hdata
        cases hdata

/-- Everything arrives: the server's FIFO is written the frames of all stored datagrams, and of a client
whose address nobody else has every frame is stored or in flight, in order, but for empty ones. -/
structure Complete (o oc : ByteOrder) (serverAddr : Addr) (s : VideoLink) : Prop where
  output : ∃ unread, Represents s.session.server.videoBuffer unread ∧
    s.written ++ unread = storedStream o s.session.stored
  frames : ∀ j e, s.ends[j]? = some e → Alone s.ends j e → ∃ items tail,
    Splits (Item.Valid oc) (Item.bytes oc) e.consumed items tail ∧
      (s.session.stored ++ s.session.net).filter (videoFrom e.addr) =
        ((datagrams items).filter fun p => p ≠ []).map (videoDatagram e.addr serverAddr)

/-- **No frame is left out** when the network keeps the order and loses nothing, the server is not
restarted, and its thread keeps up with the datagrams. -/
theorem transfer_complete (z : SizeT) (o oc : ByteOrder) (serverAddr : Addr) (max : ℕ)
    (heap mem : ℕ → UInt8) (hpos : 1 ≤ max) (hmax : max ≤ intMax) (as : List TransferAct)
    (hproper : ∀ a ∈ as, ProperStart serverAddr a)
    (hkeeps : Along (transferStep z o oc serverAddr max) (KeepsAll z) (.start max heap mem) as)
    (s : VideoLink)
    (hrun : runFrom (transferStep z o oc serverAddr max) (.start max heap mem) as = some s) :
    Complete o oc serverAddr s := by
  have hsteps := hkeeps.and (Along.of_forall (C := fun _ a => ProperStart serverAddr a) _ as
    fun a ha _ => hproper a ha)
  obtain ⟨h, houtput, -, htracks⟩ := hsteps.invariant
    (I := fun s => OriginInv oc serverAddr s ∧ OutputOk o max [] s ∧ Idle s ∧
      Tracks videoFrom (AllOf serverAddr) s) (by
      intro s a s' ⟨h, houtput, hidle, htracks⟩ ⟨ha, hstart⟩ hstep
      have hcases := transferStep_cases h hstep
      obtain ⟨earlier', houtput', hsame⟩ := transferStep_output hpos hmax h houtput hstep
      have hno : a.isRestart = false := by
        cases a with
        | serverRestart heap mem => exact ha.elim
        | _ => rfl
      exact ⟨transferStep_origin h hstart hstep, hsame hno ▸ houtput',
        idle_step h hidle ha hcases, allOf_step h hidle ha htracks hcases⟩)
    ⟨start_origin oc serverAddr max heap mem, start_output o heap mem hpos,
      by simp [Idle, VideoLink.start, Session.start], by simp [Tracks, VideoLink.start]⟩ hrun
  refine ⟨outputOk_nil houtput, fun j e he halone => ?_⟩
  obtain ⟨items, tail, -, -, hsplit, hsent⟩ := h.ends e (List.mem_of_getElem? he)
  exact ⟨items, tail, hsplit, hsent ▸ htracks j e he halone⟩

/-- A client has read two frames and begun a third: the first is stored, the second in flight. -/
theorem transfer_complete_two_frames :
    ∃ s : VideoLink, (s.session.stored.map Datagram.data, s.session.net.map Datagram.data) =
      ([[7]], [[8]]) ∧ Complete .little .little ⟨1, 1337⟩ s := by
  let acts : List TransferAct :=
    [.clientStart ⟨2, 80⟩ ⟨0, 0⟩ (fun _ => 0) (fun _ => 0) [] false, .inside (.clientSend 0 .init),
      .inside (.serverRecv 0), .inside (.clientRecv 0 0), .readFifo 0 1, .readFifo 0 0, .readFifo 0 7,
      .readFifo 0 1, .readFifo 0 0, .readFifo 0 8, .readFifo 0 2, .inside (.serverRecv 0), .fifoWrite]
  have hstored : (runFrom (transferStep ⟨64, by decide⟩ .little .little ⟨1, 1337⟩ 16)
      (.start 16 (fun _ => 0) fun _ => 0) acts).map
      (fun s => (s.session.stored.map Datagram.data, s.session.net.map Datagram.data)) =
      some ([[7]], [[8]]) := by decide +kernel
  obtain ⟨s, hrun, hs⟩ := Option.map_eq_some_iff.mp hstored
  exact ⟨s, hs, transfer_complete ⟨64, by decide⟩ .little .little ⟨1, 1337⟩ 16 (fun _ => 0) (fun _ => 0)
    (by decide) (by decide) acts (by decide +kernel) (by decide +kernel) s hrun⟩

end LinkManagement.TransferOrder
