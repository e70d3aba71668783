import NetSim.Convergence
import NetSim.FrameHistory

/-! Packets arrive. Along a learned route a packet goes from switch to switch until its
destination takes it; without one it goes over the tree. So once the network has converged it
delivers every packet, and a reply to a packet that has come through arrives in any case. -/
namespace EventualDelivery

open Filter PacketCodec SwitchNode NetworkTopology NetworkRuns LinkSends CarriedFrames LinkTraffic
  LearnedRoutes SwitchElection ElectedTree FlagTree PortFlags Continuations Settling InfiniteRuns
  NetworkSchedules Convergence FrameHistory

variable {ι : Type} [DecidableEq ι] {net : Topology ι}

/-- Every switch keeps going through its loop, and every node keeps reading its ports. -/
structure Running (e : Execution (ActionStep net lossless)) : Prop where
  live : Live e
  polls : ∀ q, net.IsPort q → Polled e q

def Arrived (e : Execution (ActionStep net lossless)) (A : ι) (x : Header) : Prop :=
  ∃ u k, net.IsPort (A, k) ∧ ∃ g ∈ (e.state u).received (A, k), header g = x

variable {e : Execution (ActionStep net lossless)}

theorem entries_kept (e : Execution (ActionStep net lossless)) {t u : ℕ} (htu : t ≤ u) :
    KeepsEntries (e.state t) (e.state u) := actionRuns_keepEntries (actionRuns_between e htu)

theorem arrives (hr : Running e) {q : Port ι} (hq : net.IsPort q) {t : ℕ} {f : Frame}
    (hf : f ∈ (e.state t).channel q) : Arrived e q.1 (header f) := by
  obtain ⟨u, _, g, hg, hgf⟩ := frame_taken e (hr.polls q hq) hf
  exact ⟨u, q.2, hq, g, hg, hgf⟩

theorem data_queued (hr : Running e) {q : Port ι} (hq : net.IsPort q) (hs : net.IsSwitch q.1)
    {t : ℕ} {f : Frame} (hf : f ∈ (e.state t).channel q) (hd : f.type ≠ pktControlPacket) :
    ∃ u g stray, t ≤ u ∧ header g = header f ∧
      dataJob q.2 g stray ((e.state u).switch q.1).lookupTable ∈
        ((e.state (u + 1)).switch q.1).jobQ := by
  obtain ⟨u, rx, htu, hrx, hget⟩ := frame_read e (hr.polls q hq) hf
  have hrec : e.label u = .receive q rx := by
    rcases hrx with h | h
    · exact h
    · have hp := (e.valid u).1
      rw [h] at hp
      exact absurd hs hp.1
  refine ⟨u, f.deliver rx.prior, rx.stray, htu, rfl, ?_⟩
  rw [(e.valid u).2.2, hrec, receive_jobQ net hget, if_neg hd]
  exact List.mem_append_right _ (List.mem_singleton.mpr rfl)

theorem forwarded (hr : Running e) {s : ι} (hs : net.IsSwitch s) {k : ℕ} {t u : ℕ} (htu : t ≤ u)
    {g : Frame} {stray : Stray} (hin : InTable g.dst.toInt)
    (hk : Knows (e.state t) s g.dst.toInt)
    (hport : net.IsPort (outPort (e.state t) s g.dst.toInt))
    (hj : dataJob k g stray ((e.state u).switch s).lookupTable ∈
      ((e.state (u + 1)).switch s).jobQ) :
    ∃ v, u ≤ v ∧ g ∈ (e.state v).channel (net.peer (outPort (e.state t) s g.dst.toInt)) := by
  obtain ⟨hk', hout⟩ := entries_kept e htu s _ hk
  rw [dataJob_known hk' hin, hout] at hj
  obtain ⟨v, huv, hsent⟩ := job_sent e (hr.live.jobs s hs) hj
  have hback := hport.peer_peer
  refine ⟨v + 1, by omega, hsent _ hport.peer (by rw [hback]; rfl) g ?_⟩
  rw [hback]
  exact if_pos rfl

theorem queued_arrives (hr : Running e) {A : ι} {t : ℕ} {s : ι} {l : List ι}
    (hroute : Route net (e.state t) A s l) {k u : ℕ} (htu : t ≤ u) {g : Frame} {stray : Stray}
    (hd : g.type ≠ pktControlPacket) (hdst : g.dst.toInt = net.id A)
    (hj : dataJob k g stray ((e.state u).switch s).lookupTable ∈
      ((e.state (u + 1)).switch s).jobQ) : Arrived e A (header g) := by
  induction hroute generalizing k u g stray with
  | @last s hs hk hport hn =>
    rw [← hdst] at hk hport hn
    obtain ⟨w, _, hg⟩ := forwarded hr hs htu (hdst ▸ id_inTable A) hk hport hj
    exact hn ▸ arrives hr hport.peer hg
  | @step s l hs hk hport htail ih =>
    have hnext : net.IsSwitch (nextHop net (e.state t) s (net.id A)) :=
      (htail.knows _ htail.head_mem).1
    rw [← hdst] at hk hport hnext
    obtain ⟨w, huw, hg⟩ := forwarded hr hs htu (hdst ▸ id_inTable A) hk hport hj
    obtain ⟨v, f, stray', hwv, hfg, hj'⟩ := data_queued hr hport.peer hnext hg hd
    have hdst' : f.dst.toInt = net.id A := (congrArg (fun x => x.dst.toInt) hfg).trans hdst
    rw [← hfg]
    apply ih (htu.trans (huw.trans hwv)) ((congrArg Header.type hfg).trans_ne hd) hdst'
    rw [← hdst]
    exact hj'

theorem route_arrives (h0 : e.state 0 = initial net) (hr : Running e) {A : ι} {q : Port ι}
    (hq : net.IsPort q) (hs : net.IsSwitch q.1) {t : ℕ} {f : Frame}
    (hf : f ∈ (e.state t).channel q) (hd : f.type ≠ pktControlPacket)
    (hdst : f.dst.toInt = net.id A) (hk : Knows (e.state t) q.1 (net.id A)) :
    Arrived e A (header f) := by
  obtain ⟨l, hl, _⟩ := reachable_routed (reachable_at e h0 t) A q.1 hs hk
  obtain ⟨u, g, stray, htu, hgf, hj⟩ := data_queued hr hq hs hf hd
  rw [← hgf]
  exact queued_arrives hr hl htu ((congrArg Header.type hgf).trans_ne hd)
    ((congrArg (fun x => x.dst.toInt) hgf).trans hdst) hj

section Tree

variable {B : ℕ} {st : State ι}

theorem flag_kept (hB : ∀ t, B ≤ t → SameTree net (e.state B) (e.state t)) {t : ℕ} (ht : B ≤ t)
    {q : Port ι} (hq : net.IsPort q) (hs : net.IsSwitch q.1) (hy : PortYes (e.state B) q) :
    PortYes (e.state t) q := (hB t ht).portYes hq hs |>.mpr hy

/-- A switch with a packet either knows the way to its destination or sends it on over every
other port of the tree. -/
theorem passed_on (h0 : e.state 0 = initial net) (hr : Running e)
    (hB : ∀ t, B ≤ t → SameTree net (e.state B) (e.state t)) {A : ι} {q : Port ι}
    (hq : net.IsPort q) (hs : net.IsSwitch q.1) {t : ℕ} (ht : B ≤ t) {f : Frame}
    (hf : f ∈ (e.state t).channel q) (hd : f.type ≠ pktControlPacket)
    (hdst : f.dst.toInt = net.id A) :
    Arrived e A (header f) ∨ ∃ v g, t ≤ v ∧ header g = header f ∧
      ∀ k, net.IsPort (q.1, k) → k ≠ q.2 → PortYes (e.state B) (q.1, k) →
        g ∈ (e.state v).channel (net.peer (q.1, k)) := by
  obtain ⟨u, g, stray, htu, hgf, hj⟩ := data_queued hr hq hs hf hd
  have hdst' : g.dst.toInt = net.id A := (congrArg (fun x => x.dst.toInt) hgf).trans hdst
  have hin : InTable g.dst.toInt := hdst' ▸ id_inTable A
  by_cases hk : Knows (e.state u) q.1 g.dst.toInt
  · left
    obtain ⟨l, hl, _⟩ := reachable_routed (reachable_at e h0 u) A q.1 hs (hdst' ▸ hk)
    rw [← hgf]
    exact queued_arrives hr hl le_rfl ((congrArg Header.type hgf).trans_ne hd) hdst' hj
  · right
    rw [dataJob_unknown hk hin] at hj
    obtain ⟨v, huv, hsent⟩ := job_sent e (hr.live.jobs q.1 hs) hj
    refine ⟨v + 1, g, by omega, hgf, ?_⟩
    intro k hport hne hy
    have hback : net.peer (net.peer (q.1, k)) = (q.1, k) := hport.peer_peer
    refine hsent _ hport.peer (by rw [hback]) g ?_
    have hyes := flag_kept hB (show B ≤ v by omega) hport hs hy
    have htype : g.type ≠ pktControlPacket := (congrArg Header.type hgf).trans_ne hd
    have hfloods : FloodsOn ((e.state v).switch q.1) ⟨.sendPktAllPorts, g, q.2, stray.outPortIndex⟩
        k := ⟨Or.inl hyes, hne⟩
    rw [hback]
    simp only [sendsOn, htype, hfloods, if_true, if_false]

omit [DecidableEq ι] in
theorem walk_switches {st : State ι} {s t : ι} (hs : net.IsSwitch s)
    (w : (treeGraph net st).Walk s t) : ∀ v ∈ w.support, net.IsSwitch v := by
  induction w with
  | nil =>
    intro v hv
    rw [SimpleGraph.Walk.support_nil, List.mem_singleton] at hv
    exact hv ▸ hs
  | @cons a b c hab w ih =>
    have hb : net.IsSwitch b := by
      rcases hab.2 with ⟨k, hk, rfl, _⟩ | ⟨k, hk, _, _⟩
      · exact hk.2.2
      · exact hk.2.1
    intro v hv
    rw [SimpleGraph.Walk.support_cons, List.mem_cons] at hv
    rcases hv with rfl | hv
    · exact hs
    · exact ih hb v hv

omit [DecidableEq ι] in
theorem tree_port (hf : TreeFlags net st) {s t : ι} (ha : (treeGraph net st).Adj s t) :
    ∃ k, SwitchLink net (s, k) ∧ (net.peer (s, k)).1 = t ∧ PortYes st (s, k) := by
  rcases ha.2 with h | ⟨k, hk, rfl, hy⟩
  · exact h
  · refine ⟨(net.peer (t, k)).2, hk.peer, congrArg Prod.fst hk.1.peer_peer, ?_⟩
    exact (hf.flags_agree _ hk).mp hy

/-- A packet that comes into the tree goes along it until its destination takes it, unless it
finds a route on its way. -/
theorem tree_arrives (h0 : e.state 0 = initial net) (hr : Running e)
    (hB : ∀ t, B ≤ t → SameTree net (e.state B) (e.state t)) (hflags : TreeFlags net (e.state B))
    {A s s' : ι} (hA : ¬ net.IsSwitch A) {j : ℕ} (hj : net.IsPort (s', j))
    (hjA : (net.peer (s', j)).1 = A) (w : (treeGraph net (e.state B)).Walk s s') (hw : w.IsPath)
    (hs : net.IsSwitch s) {q : Port ι} (hq : net.IsPort q) (hqs : q.1 = s)
    (hfrom : (net.peer q).1 ∉ w.support) (hne : (net.peer q).1 ≠ A) {t : ℕ} (ht : B ≤ t)
    {f : Frame} (hf : f ∈ (e.state t).channel q) (hd : f.type ≠ pktControlPacket)
    (hdst : f.dst.toInt = net.id A) : Arrived e A (header f) := by
  induction w generalizing q t f with
  | nil =>
    subst hqs
    rcases passed_on h0 hr hB hq hs ht hf hd hdst with h | ⟨v, g, _, hgf, hall⟩
    · exact h
    · have hjq : j ≠ q.2 := by
        rintro rfl
        exact hne hjA
      have hmem := hall j hj hjq (hflags.hosts_yes _ hj hs (hjA ▸ hA))
      rw [← hgf]
      exact hjA ▸ arrives hr hj.peer hmem
  | @cons a b c hab w ih =>
    subst hqs
    rcases passed_on h0 hr hB hq hs ht hf hd hdst with h | ⟨v, g, htv, hgf, hall⟩
    · exact h
    · obtain ⟨k, hk, rfl, hy⟩ := tree_port hflags hab
      obtain ⟨hpath, hnot⟩ := (SimpleGraph.Walk.cons_isPath_iff _ _).mp hw
      have hkq : k ≠ q.2 := by
        rintro rfl
        apply hfrom
        rw [SimpleGraph.Walk.support_cons]
        exact List.mem_cons_of_mem _ w.start_mem_support
      have hback : (net.peer (net.peer (q.1, k))).1 = q.1 := by rw [hk.1.peer_peer]
      rw [← hgf]
      refine ih hj hjA hpath hk.2.2 hk.1.peer rfl ?_ ?_ (ht.trans htv) (hall k hk.1 hkq hy)
        ((congrArg Header.type hgf).trans_ne hd) ((congrArg (fun x => x.dst.toInt) hgf).trans hdst)
      · rwa [hback]
      · rw [hback]
        rintro rfl
        exact hA hs

end Tree

/-- Node A has taken a faithful copy of packet p, the one that was sent at time t. -/
def Delivered (e : Execution (ActionStep net lossless)) (t : ℕ) (p : Packet) (A : ι) : Prop :=
  ∃ u k, net.IsPort (A, k) ∧ ∃ g ∈ (e.state u).received (A, k),
    g.stamp = (e.state t).clock ∧ CopyOf p g.toPacket

theorem Arrived.delivered (h0 : e.state 0 = initial net) {t : ℕ} {h A : ι} {p : Packet}
    (hsend : e.label t = .send h p) (hd : p.type ≠ pktControlPacket)
    (ha : Arrived e A (header ⟨p, (e.state t).clock⟩)) : Delivered e t p A := by
  obtain ⟨u, k, hk, g, hg, hgx⟩ := ha
  have hstamp : g.stamp = (e.state t).clock := congrArg Header.stamp hgx
  have htype : g.type ≠ pktControlPacket := (congrArg Header.type hgx).trans_ne hd
  obtain ⟨_, _, _, _, hs, hcopy⟩ := (carried_sentBefore e h0 u).taken _ hk g hg htype
  obtain ⟨_, _, rfl⟩ := SentAt.unique ⟨hsend, hstamp.symm⟩ hs
  exact ⟨u, k, hk, g, hg, hstamp, hcopy⟩

theorem sent_channel {t : ℕ} {h : ι} {p : Packet} (hsend : e.label t = .send h p) {q : Port ι}
    (hq : net.IsPort q) (hqh : (net.peer q).1 = h) :
    (⟨p, (e.state t).clock⟩ : Frame) ∈ (e.state (t + 1)).channel q := by
  rw [(e.valid t).2.2, hsend]
  refine List.mem_append_right _ ?_
  rw [onAllPorts_sentTo hq, if_pos hqh]
  exact List.mem_singleton.mpr rfl

/-- Node v has a link to switch s. -/
def Attached (net : Topology ι) (v s : ι) : Prop := net.IsSwitch s ∧ net.Linked v s

section PingPong

open ForestDelivery

theorem playingPingPong_running : Running playingPingPong where
  live := by
    have hone : ∀ v : Fin 3, hostsOnSwitch.IsSwitch v → v = 1 := by decide
    constructor
    · intro s hs
      apply playingPingPong_often
      simp [pingPong, hone s hs]
    · intro s hs
      apply playingPingPong_often
      simp [pingPong, hone s hs]
  polls := by
    have hports : ∀ v : Fin 3, ∀ k < hostsOnSwitch.nodePortNum v,
        v = 1 ∧ k = 0 ∨ v = 1 ∧ k = 1 ∨ v = 0 ∧ k = 0 ∨ v = 2 ∧ k = 0 := by decide
    rintro ⟨v, k⟩ hq
    have hturn : Action.receive (v, k) takeOldest ∈ pingPong ∨
        Action.poll (v, k) takeOldest ∈ pingPong := by
      rcases hports v k hq with ⟨rfl, rfl⟩ | ⟨rfl, rfl⟩ | ⟨rfl, rfl⟩ | ⟨rfl, rfl⟩ <;>
        simp [pingPong]
    rcases hturn with hturn | hturn
    · exact (playingPingPong_often hturn).mono fun t ht => ⟨takeOldest, Or.inl ht⟩
    · exact (playingPingPong_often hturn).mono fun t ht => ⟨takeOldest, Or.inr ht⟩

theorem playingPingPong_announces : ∀ h, ¬ hostsOnSwitch.IsSwitch h →
    ∃ t, AnnouncesAt playingPingPong h t := by
  have hhost : ∀ v : Fin 3, ¬ hostsOnSwitch.IsSwitch v → v = 0 ∨ v = 2 := by decide
  intro h hh
  have hturn : Action.send h (helloFrom h) ∈ pingPong := by
    rcases hhost h hh with rfl | rfl <;> simp [pingPong]
  obtain ⟨t, ht⟩ := (playingPingPong_often hturn).exists
  exact ⟨t, _, rfl, ht⟩

end PingPong

/-- In a network that loses nothing and keeps running there is a time from which on every data
packet that a host or the DNS server sends to another one arrives, as it was sent, wherever
switches connect the two. -/
theorem packets_delivered (e : Execution (ActionStep net lossless))
    (h0 : e.state 0 = initial net) (hr : Running e)
    (hann : ∀ h, ¬ net.IsSwitch h → ∃ t, AnnouncesAt e h t) :
    ∃ B, ∀ t, B ≤ t → ∀ h A p, e.label t = .send h p → ¬ net.IsSwitch A → A ≠ h →
      p.type ≠ pktControlPacket → p.dst.toInt = net.id A → ∀ s s', Attached net h s →
      Attached net A s' → net.switchGraph.Reachable s s' → Delivered e t p A := by
  obtain ⟨B, hB⟩ := lossless_converges h0 hr.live (fun q hq _ => hr.polls q hq) hann
  refine ⟨B, ?_⟩
  intro t ht h A p hsend hA hne hd hdst s s' hs hs' hreach
  have hhost : ¬ net.IsSwitch h := by
    have hp := (e.valid t).1
    rw [hsend] at hp
    exact hp.1
  obtain ⟨hsw, i, hi, rfl⟩ := hs
  obtain ⟨hsw', hlink⟩ := hs'
  obtain ⟨j, hj, hjA⟩ := hlink.symm
  have hflags := (hB B le_rfl).1.flags
  obtain ⟨w, hw⟩ := (hflags.spans _ _ hsw hsw' hreach).exists_isPath
  have hback : (net.peer (net.peer (h, i))).1 = h := by rw [hi.peer_peer]
  refine Arrived.delivered h0 hsend hd (tree_arrives h0 hr (fun u hu => (hB u hu).2.2) hflags hA
    hj hjA w hw hsw hi.peer rfl ?_ ?_ (ht.trans (Nat.le_succ t)) (sent_channel hsend hi.peer hback)
    hd hdst)
  · rw [hback]
    exact fun hmem => hhost (walk_switches hsw w h hmem)
  · rw [hback]
    exact hne.symm

open ForestDelivery in
theorem packets_delivered_pingPong : ∃ B, ∀ t, B ≤ t → ∀ h A p,
    playingPingPong.label t = .send h p → ¬ hostsOnSwitch.IsSwitch A → A ≠ h →
      p.type ≠ pktControlPacket → p.dst.toInt = hostsOnSwitch.id A → ∀ s s',
      Attached hostsOnSwitch h s → Attached hostsOnSwitch A s' →
      hostsOnSwitch.switchGraph.Reachable s s' → Delivered playingPingPong t p A :=
  packets_delivered playingPingPong rfl playingPingPong_running playingPingPong_announces

/-- A host that has heard from another one reaches it: whatever the state of the election, a packet
that it sends back arrives. -/
theorem replies_delivered (e : Execution (ActionStep net lossless)) (h0 : e.state 0 = initial net)
    (hr : Running e) {t u : ℕ} (htu : t ≤ u) {A H : ι} {k : ℕ} (hk : net.IsPort (A, k))
    {g : Frame} (hg : g ∈ (e.state t).received (A, k)) (hsrc : g.src.toInt = net.id H)
    {p : Packet} (hsend : e.label u = .send A p) (hd : p.type ≠ pktControlPacket)
    (hdst : p.dst.toInt = net.id H) : Delivered e u p H := by
  have hback : (net.peer (net.peer (A, k))).1 = A := by rw [hk.peer_peer]
  have hmem := sent_channel hsend hk.peer hback
  apply Arrived.delivered h0 hsend hd
  rcases (reachable_sourceKnown (reachable_at e h0 t)).taken _ hk g hg with hw | ⟨hw, hknows⟩
  · -- the other host is at the far end of the link
    have hH : (net.peer (A, k)).1 = H := net.id_injective (hw.symm.trans hsrc)
    exact hH ▸ arrives hr hk.peer hmem
  · rw [hsrc] at hknows
    have hknows' := (entries_kept e (htu.trans (Nat.le_succ u)) _ _ hknows).1
    exact route_arrives h0 hr hk.peer hw hmem hd hdst hknows'

open ForestDelivery in
theorem replies_delivered_pingPong : Delivered playingPingPong 5 pongToZero 0 := by
  have hne : (playingPingPong.state 5).received (2, 0) ≠ [] := by decide +kernel
  have hsrc : ∀ h : (playingPingPong.state 5).received (2, 0) ≠ [],
      (((playingPingPong.state 5).received (2, 0)).head h).src.toInt = hostsOnSwitch.id 0 := by
    decide +kernel
  exact replies_delivered playingPingPong rfl playingPingPong_running (t := 5) le_rfl (k := 0)
    (by decide) (List.head_mem hne) (hsrc hne) rfl (by decide) (by decide)

end EventualDelivery

