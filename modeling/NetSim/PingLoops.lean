import NetSim.SwitchPings
import NetSim.DeliveryTree

/-! Packets for a switch with two neighbours among the switches. In a settled network without
cycles each neighbour sends them back to the switch, which floods them to the other, without
end. -/
namespace PingLoops

open PacketCodec SwitchNode NetworkTopology NetworkRuns LinkSends CarriedFrames LinkTraffic
  LearnedRoutes FlagTree PortFlags Settling Continuations PacketCopies GraphPaths TreeSpread
  DeliveryTree SwitchPings

variable {ι : Type} {net : Topology ι}

def Waiting (net : Topology ι) (st : State ι) (x : Header) (p : Port ι) : Prop :=
  net.IsPort p ∧ ∃ f ∈ st.channel p, header f = x

theorem forest_yes {T : State ι} (hf : net.Forest) (ht : SettledTree net T) {q : Port ι}
    (hq : SwitchLink net q) : PortYes T q := by
  have hadj := hq.1.graph_adj hf.toSimple
  have hsw : net.switchGraph.Adj q.1 (net.peer q).1 := ⟨hadj.1, hq.2.1, hq.2.2, hadj.2⟩
  have hle : treeGraph net T ≤ net.graph := by
    rintro s t ⟨hne, ⟨k, hk, rfl, _⟩ | ⟨k, hk, rfl, _⟩⟩
    · exact ⟨hne, hk.1.linked⟩
    · exact ⟨hne, hk.1.linked.symm⟩
  have htree := adj_of_reachable hf.acyclic hle hadj
    (ht.flags.spans _ _ hq.2.1 hq.2.2 hsw.reachable)
  have hsame : ∀ k, net.IsPort (q.1, k) → (net.peer (q.1, k)).1 = (net.peer q).1 →
      (q.1, k) = q := by
    intro k hk he
    exact Prod.ext rfl (hf.no_parallel q.1 k q.2 hk hq.1 he)
  obtain ⟨_, ⟨k, hk, he, hy⟩ | ⟨k, hk, he, hy⟩⟩ := htree
  · rwa [hsame k hk.1 he] at hy
  · have hy' := (ht.flags.flags_agree _ hk).mp hy
    have hback : net.peer ((net.peer q).1, k) = q := by
      have hp := hk.peer.1
      have heta : net.peer ((net.peer q).1, k) = (q.1, (net.peer ((net.peer q).1, k)).2) :=
        Prod.ext he rfl
      rw [heta] at hp ⊢
      apply hsame _ hp
      rw [← heta, hk.1.peer_peer]
    rwa [hback] at hy'

variable [DecidableEq ι] {T st : State ι} {h d : ι} {x : Header}

/-- A flag for a switch was set by its control packet, which also taught its id. -/
theorem yes_knows (hr : ActionReachable net fifo st) {q : Port ι} (hq : SwitchLink net q)
    (hy : PortYes st q) : Knows st q.1 (net.id (net.peer q).1) := by
  induction hr with
  | refl => cases hy
  | @tail u _ hm hstep ih =>
    obtain ⟨a, hp, _, rfl⟩ := hstep
    rcases act_localPortTree net u a q with he | ⟨rx, f, rfl, hf, hc, _⟩
    · exact (act_keepsEntries net u a _ _ (ih (he.symm.trans hy))).1
    · have hsrc := ((reachable_origin hm).inFlight q hq.1 f (List.mem_of_getElem? hf)).1 hc
      rw [Knows, receive_switch hf, receivePacket_lookupTable, ← hsrc]
      exact (learn_isValid _ _ _ _).mpr (Or.inr rfl)

theorem relay {p : Port ι} (hp : net.IsPort p) (hs : net.IsSwitch p.1) {v : State ι} {f : Frame}
    (hf : f ∈ v.channel p) (hd : f.type ≠ pktControlPacket) : ∃ w u, Runs net lossless v w ∧
      Runs net lossless w u ∧ taken w f.stamp p + 1 ≤ taken u f.stamp p ∧
      Sent net p.1 (w.switch p.1) (dataJob p.2 (f.deliver takeOldest.prior) takeOldest.stray
        (w.switch p.1).lookupTable) u := by
  obtain ⟨i, hi⟩ := List.mem_iff_getElem?.mp hf
  obtain ⟨w, hw, l, hl⟩ := channel_front hp hs i hi
  have h0 : ((act net w (.control p.1)).channel p)[takeOldest.index]? = some f := by
    change (w.channel p)[0]? = some f
    rw [hl]
    rfl
  have hft : (f.deliver takeOldest.prior).type ≠ pktControlPacket := hd
  have hctl := control_switch net w p.1
  have hsw : (act net (act net w (.control p.1)) (.receive p takeOldest)).switch p.1 = _ :=
    receive_switch h0
  have hjobs := receive_jobQ net h0
  rw [if_neg hd] at hjobs
  obtain ⟨u, hu, hsent⟩ := execute_reaches hs ((act net w (.control p.1)).switch p.1).jobQ.length
    (v := act net (act net w (.control p.1)) (.receive p takeOldest))
    (by rw [hjobs, List.getElem?_concat_length])
  refine ⟨w, u, hw, (runs_listen w hp hs).trans hu, ?_, ?_⟩
  · have htakes : Takes (act net w (.control p.1)) f.stamp (.receive p takeOldest) p.1 p.2 :=
      ⟨takeOldest, f, Or.inl rfl, h0, rfl⟩
    have h1 := (taken_act net w f.stamp (.control p.1) p).imp And.right And.right
    have h2 := ((taken_act net _ f.stamp _ p).resolve_left fun hno => hno.1 htakes).2
    have h3 := (taken_act net (act net (act net w (.control p.1)) (.receive p takeOldest)) f.stamp
      (.execute p.1) p).imp And.right And.right
    have h4 := taken_mono hu.actionRuns f.stamp p
    omega
  · intro q hq he g hg
    apply hsent q hq he g
    rw [hctl, controlTimer_lookupTable, ← hg]
    have hkeep := controlTimer_keeps (net.id p.1) w.clock (w.switch p.1)
    apply sendsOn_congr
    · rw [hsw, receivePacket_localParent, if_neg hft, hctl, hkeep.1]
    · rw [hsw, receivePacket_localPortTree, if_neg hft, hctl, hkeep.2]

/-- Packet x is for switch d, in a settled forest with hosts at its leaves. -/
structure SettledPing (net : Topology ι) (T : State ι) (d : ι) (x : Header) : Prop where
  forest : net.Forest
  singleLink : net.SingleLinkHosts
  reached : ActionReachable net fifo T
  settled : Settled net T
  switch : net.IsSwitch d
  data : x.type ≠ pktControlPacket
  dst : x.dst.toInt = net.id d

section Relay

variable (hP : SettledPing net T d x) {v : State ι} (hv : Runs net lossless T v)
include hP hv

theorem SettledPing.reached_run : ActionReachable net fifo v :=
  hP.reached.trans hv.fifo.actionRuns

theorem SettledPing.relay {p : Port ι} (hw : Waiting net v x p) (hs : net.IsSwitch p.1) :
    ∃ w u, Runs net lossless v w ∧ Runs net lossless w u ∧
      taken v x.stamp p + 1 ≤ taken u x.stamp p ∧
      (Knows w p.1 (net.id d) → Waiting net u x (net.peer (outPort w p.1 (net.id d)))) ∧
      (¬ Knows w p.1 (net.id d) → ∀ q, SwitchLink net q → (net.peer q).1 = p.1 →
        (net.peer q).2 ≠ p.2 → Waiting net u x q) := by
  obtain ⟨hp, f, hf, rfl⟩ := hw
  have hd : f.type ≠ pktControlPacket := hP.data
  obtain ⟨w, u, hvw, hwu, htaken, hsent⟩ := PingLoops.relay hp hs hf hd
  have hTw : Runs net lossless T w := hv.trans hvw
  have hmono := taken_mono hvw.actionRuns f.stamp p
  have hdst : (f.deliver takeOldest.prior).dst.toInt = net.id d := hP.dst
  have hin : InTable (f.deliver takeOldest.prior).dst.toInt := hdst ▸ id_inTable d
  refine ⟨w, u, hvw, hwu, (Nat.succ_le_succ hmono).trans htaken, ?_, ?_⟩
  · intro hk
    obtain ⟨hport, _⟩ := knows_switch (hP.reached_run hTw) hP.switch hs hk
    refine ⟨hport.peer, f.deliver takeOldest.prior, ?_, rfl⟩
    apply hsent _ hport.peer (by rw [hport.peer_peer]; rfl)
    rw [dataJob_known (hdst ▸ hk) hin, hdst, hport.peer_peer]
    exact if_pos rfl
  · intro hno q hq he hne
    refine ⟨hq.1, f.deliver takeOldest.prior, ?_, rfl⟩
    apply hsent q hq.1 he
    rw [dataJob_unknown (hdst ▸ hno) hin]
    have hyes : PortYes w (net.peer q) := by
      have hT := forest_yes hP.forest (settledTree hP.reached hP.settled) hq.peer
      rwa [(hP.settled w hTw).portYes hq.peer.1 hq.peer.2.1]
    rw [PortYes, he] at hyes
    have hft : (f.deliver takeOldest.prior).type ≠ pktControlPacket := hd
    simp only [sendsOn, hft, if_false]
    exact if_pos ⟨Or.inl hyes, hne⟩

end Relay

section Loop

variable (hP : SettledPing net T d x)
include hP

/-- d itself never knows d. -/
theorem SettledPing.not_self {v : State ι} (hv : Runs net lossless T v) :
    ¬ Knows v d (net.id d) := by
  intro hk
  obtain ⟨hport, hhop⟩ := knows_switch (hP.reached_run hv) hP.switch hP.switch hk
  exact hP.forest.no_self _ hport hhop

theorem SettledPing.bounce_back {v : State ι} (hv : Runs net lossless T v) {q : Port ι}
    (hq : SwitchLink net q) (hd : (net.peer q).1 = d) (hw : Waiting net v x q) :
    ∃ u, Runs net lossless v u ∧ Waiting net u x (net.peer q) := by
  obtain ⟨w, u, hvw, hwu, _, hfor, _⟩ := hP.relay hv hw hq.2.1
  have hTw : Runs net lossless T w := hv.trans hvw
  have hyes : PortYes w q := by
    have hT := forest_yes hP.forest (settledTree hP.reached hP.settled) hq
    rwa [(hP.settled w hTw).portYes hq.1 hq.2.1]
  have hk := yes_knows (hP.reached_run hTw) hq hyes
  rw [hd] at hk
  obtain ⟨hport, hhop⟩ := knows_switch (hP.reached_run hTw) hP.switch hq.2.1 hk
  have hout : outPort w q.1 (net.id d) = q :=
    Prod.ext rfl (hP.forest.no_parallel q.1 _ _ hport hq.1 (hhop.trans hd.symm))
  refine ⟨u, hvw.trans hwu, ?_⟩
  rw [← hout]
  exact hfor hk

theorem SettledPing.around {a b : ι} (ha : net.switchGraph.Adj d a) (hb : net.switchGraph.Adj d b)
    (hab : a ≠ b) {v : State ι} (hv : Runs net lossless T v) {k : ℕ} (hw : Waiting net v x (d, k)) :
    ∃ u, Runs net lossless v u ∧ handled net v x.stamp d + 1 ≤ handled net u x.stamp d ∧
      ∃ j, Waiting net u x (d, j) := by
  obtain ⟨w, u₁, hvw, hwu, htaken, _, hflood⟩ := hP.relay hv hw hP.switch
  -- a neighbour other than the one the packet has come from
  obtain ⟨c, hc, hne⟩ : ∃ c, net.switchGraph.Adj d c ∧ c ≠ (net.peer (d, k)).1 := by
    by_cases hak : a = (net.peer (d, k)).1
    · exact ⟨b, hb, fun h => hab (hak.trans h.symm)⟩
    · exact ⟨a, ha, hak⟩
  obtain ⟨_, _, hcs, j, hj, hjc⟩ := hc
  have hq : SwitchLink net (net.peer (d, j)) := by
    refine ⟨Topology.IsPort.peer hj, hjc ▸ hcs, ?_⟩
    rw [Topology.IsPort.peer_peer hj]
    exact hP.switch
  have hback : net.peer (net.peer (d, j)) = (d, j) := Topology.IsPort.peer_peer hj
  have hw₁ : Waiting net u₁ x (net.peer (d, j)) := by
    apply hflood (hP.not_self (hv.trans hvw)) _ hq (by rw [hback])
    rw [hback]
    rintro rfl
    exact hne hjc.symm
  have hvu₁ : Runs net lossless v u₁ := hvw.trans hwu
  obtain ⟨u, hu, hw₂⟩ := hP.bounce_back (hv.trans hvu₁) hq (by rw [hback]) hw₁
  have hvu : Runs net lossless v u := hvu₁.trans hu
  refine ⟨u, hvu, ?_, j, hback ▸ hw₂⟩
  have hmem : k ∈ Finset.range (net.nodePortNum d) := Finset.mem_range.mpr hw.1
  rw [handled, handled, takenFrom, takenFrom, Nat.add_one_le_iff]
  apply Finset.sum_lt_sum
  · exact fun i _ => taken_mono hvu.actionRuns x.stamp (d, i)
  · exact ⟨k, hmem, htaken.trans (taken_mono hu.actionRuns x.stamp (d, k))⟩

/-- So it can come around as often as one likes. -/
theorem SettledPing.around_again {a b : ι} (ha : net.switchGraph.Adj d a)
    (hb : net.switchGraph.Adj d b) (hab : a ≠ b) (n : ℕ) {v : State ι}
    (hv : Runs net lossless T v) {k : ℕ} (hw : Waiting net v x (d, k)) :
    ∃ u, Runs net lossless v u ∧ n ≤ handled net u x.stamp d ∧ ∃ j, Waiting net u x (d, j) := by
  induction n with
  | zero => exact ⟨v, .refl, Nat.zero_le _, k, hw⟩
  | succ n ih =>
    obtain ⟨u, hvu, hn, j, hj⟩ := ih
    obtain ⟨w, huw, hone, hwait⟩ := hP.around ha hb hab (hv.trans hvu) hj
    exact ⟨w, hvu.trans huw, (Nat.succ_le_succ hn).trans hone, hwait⟩

theorem SettledPing.arrives {v : State ι} (hv : Runs net lossless T v)
    (hsent : ∀ q, net.IsPort q → (net.peer q).1 = h → Waiting net v x q) {s t : ι}
    (ha : Away net.graph h s t) (ht : net.IsSwitch t) :
    ∃ u, Runs net lossless v u ∧
      ((∃ k, Waiting net u x (t, k) ∧ (net.peer (t, k)).1 = s) ∨ ∃ k, Waiting net u x (d, k)) := by
  refine ha.induction (P := fun t => net.IsSwitch t → ∀ s, Away net.graph h s t →
    ∃ u, Runs net lossless v u ∧ ((∃ k, Waiting net u x (t, k) ∧ (net.peer (t, k)).1 = s) ∨
      ∃ k, Waiting net u x (d, k))) ?_ ht s ha
  intro s' t ha' hprev ht s ha
  obtain rfl := ha.unique hP.forest.acyclic ha'
  obtain ⟨k, hk, hks⟩ := ha.adj.symm.2
  by_cases hs' : s = h
  · exact ⟨v, .refl, Or.inl ⟨k, hsent (t, k) hk (hks.trans hs'), hks⟩⟩
  have hprev := hprev.resolve_left hs'
  obtain ⟨r, har, hrt⟩ := ha.before hP.forest.acyclic hs'
  have hs : net.IsSwitch s := by
    by_contra hno
    exact hrt (single_neighbour hP.singleLink hno har.adj.symm.2 ha.adj.2)
  obtain ⟨w, hvw, ⟨j, hj, hjr⟩ | hdone⟩ := hprev hs r har
  · obtain ⟨w', u, hww, hwu, _, hfor, hflood⟩ := hP.relay (hv.trans hvw) hj hs
    have hvu : Runs net lossless v u := hvw.trans (hww.trans hwu)
    have hTw : Runs net lossless T w' := (hv.trans hvw).trans hww
    by_cases hkn : Knows w' s (net.id d)
    · refine ⟨u, hvu, Or.inr ⟨(net.peer (outPort w' s (net.id d))).2, ?_⟩⟩
      obtain ⟨_, hhop⟩ := knows_switch (hP.reached_run hTw) hP.switch hs hkn
      have heq : net.peer (outPort w' s (net.id d)) =
          (d, (net.peer (outPort w' s (net.id d))).2) := Prod.ext hhop rfl
      rw [← heq]
      exact hfor hkn
    · refine ⟨u, hvu, Or.inl ⟨k, hflood hkn (t, k) ⟨hk, ht, hks ▸ hs⟩ hks ?_, hks⟩⟩
      intro he
      have hsame : net.peer (t, k) = (s, j) := Prod.ext hks he
      rw [← hsame, Topology.IsPort.peer_peer hk] at hjr
      exact hrt hjr.symm
  · exact ⟨w, hvw, Or.inr hdone⟩

/-- A packet that a host sends to d can come around as often as one likes, if two neighbours of d
are switches. -/
theorem SettledPing.unbounded [Fintype ι] {p : Packet} (hx : x = header ⟨p, T.clock⟩)
    (hsend : Enabled net (.send h p)) (hreach : net.graph.Reachable h d) {a b : ι}
    (ha : net.switchGraph.Adj d a) (hb : net.switchGraph.Adj d b) (hab : a ≠ b) (n : ℕ) :
    ∃ u, Runs net fifo (next net T (.send h p)) u ∧ n ≤ allHandled net u T.clock := by
  have hstart : Runs net lossless T (next net T (.send h p)) := Runs.send hsend
  have hsent : ∀ q, net.IsPort q → (net.peer q).1 = h →
      Waiting net (next net T (.send h p)) x q := by
    intro q hq he
    refine ⟨hq, ⟨p, T.clock⟩, ?_, hx.symm⟩
    change _ ∈ T.channel q ++ sentTo net h (onAllPorts net h ⟨p, T.clock⟩) q
    rw [onAllPorts_sentTo hq, if_pos he]
    exact List.mem_append_right _ (List.mem_singleton.mpr rfl)
  have hne : d ≠ h := fun he => hsend.1 (he ▸ hP.switch)
  obtain ⟨s, haway⟩ := exists_away hreach hne
  obtain ⟨v, hv, hcome⟩ := hP.arrives hstart hsent haway hP.switch
  obtain ⟨k, hwait⟩ : ∃ k, Waiting net v x (d, k) := by
    rcases hcome with ⟨k, hk, _⟩ | hk
    · exact ⟨k, hk⟩
    · exact hk
  obtain ⟨u, hu, hn, _⟩ := hP.around_again ha hb hab n (hstart.trans hv) hwait
  have hrun : Runs net lossless (next net T (.send h p)) u := hv.trans hu
  refine ⟨u, hrun.fifo, ?_⟩
  rw [hx] at hn
  exact hn.trans (Finset.single_le_sum (f := fun s => handled net u T.clock s)
    (fun _ _ => Nat.zero_le _) (Finset.mem_filter.mpr ⟨Finset.mem_univ d, hP.switch⟩))

end Loop

/-- Hosts 0 and 1 at the ends of a line of switches 2, 3 and 4, and the DNS server at switch 3. -/
def lineOfThree : Topology (Fin 6) :=
  NetworkWiring.ofConfig [(0, 2), (2, 3), (3, 4), (3, 5), (1, 4)]
    ![.host, .host, .switch, .switch, .switch, .server] ![0, 1, 2, 3, 4, 100] (by decide)
    (by decide)

def electAlongLine : List (Event (Fin 6)) :=
  List.replicate 5 (quiet 2) ++ sweep 3 :: List.replicate 5 (quiet 3) ++ [sweep 4]

def helloFrom (v : Fin 6) : Packet :=
  ⟨Int8.ofInt (lineOfThree.id v), 0, pktControlPacket, 0, fun _ => 0, 0, 0, charH, charY⟩

def hearLine : List (Event (Fin 6)) :=
  List.replicate 5 (quiet 2) ++ List.replicate 5 (quiet 3) ++ List.replicate 5 (quiet 4) ++
    [.send 0 (helloFrom 0), .send 1 (helloFrom 1), .send 5 (helloFrom 5)] ++
    [sweep 2, sweep 3, sweep 4, sweep 2]

def lineElected : State (Fin 6) := electAlongLine.foldl (next lineOfThree) (initial lineOfThree)

def lineHeard : State (Fin 6) := hearLine.foldl (next lineOfThree) lineElected

theorem lineElected_reachable : Reachable lineOfThree fifo lineElected :=
  Runs.events electAlongLine (by decide +kernel)

theorem lineHeard_run : Runs lineOfThree fifo lineElected lineHeard :=
  Runs.events hearLine (by decide +kernel)

theorem lineHeard_settled : Settled lineOfThree lineHeard :=
  heard_settled lineElected_reachable.actions lineHeard_run
    (unchanged_of_fields (by decide +kernel)) (heard_of_ports (by decide +kernel))

theorem lineHeard_reachable : Reachable lineOfThree fifo lineHeard :=
  lineElected_reachable.trans lineHeard_run

theorem lineOfThree_forest : lineOfThree.Forest :=
  Topology.forest_of_rank ![2, 2, 1, 0, 1, 1] (by decide) (by decide)

theorem lineOfThree_singleLink : lineOfThree.SingleLinkHosts := by
  unfold Topology.SingleLinkHosts
  decide

def pingSwitch (v : Fin 6) : Packet :=
  ⟨0, Int8.ofInt (lineOfThree.id v), pktPingReq, 0, fun _ => 0, 0, 0, 0, 0⟩

def switchPinged (v : Fin 6) : State (Fin 6) := next lineOfThree lineHeard (.send 0 (pingSwitch v))

theorem middle_neighbours : lineOfThree.switchGraph.Adj 3 2 ∧ lineOfThree.switchGraph.Adj 3 4 :=
  ⟨⟨by decide, by decide, by decide, 0, by decide, by decide⟩,
    ⟨by decide, by decide, by decide, 1, by decide, by decide⟩⟩

/-- A ping for the middle switch goes around forever. -/
theorem lineOfThree_unbounded : Reachable lineOfThree fifo lineHeard ∧
    Settled lineOfThree lineHeard ∧ lineOfThree.Forest ∧ lineOfThree.SingleLinkHosts ∧
    Step lineOfThree lineHeard (.send 0 (pingSwitch 3)) (switchPinged 3) ∧
    (pingSwitch 3).type ≠ pktControlPacket ∧ lineOfThree.IsSwitch 3 ∧
    (pingSwitch 3).dst.toInt = lineOfThree.id 3 ∧
    ¬ ∃ n, ∀ u, Runs lineOfThree fifo (switchPinged 3) u →
      allHandled lineOfThree u lineHeard.clock ≤ n := by
  have hP : SettledPing lineOfThree lineHeard 3 (header ⟨pingSwitch 3, lineHeard.clock⟩) :=
    ⟨lineOfThree_forest, lineOfThree_singleLink, lineHeard_reachable.actions, lineHeard_settled,
      by decide, by decide, by decide⟩
  have hsend : Enabled lineOfThree (.send 0 (pingSwitch 3)) := by decide
  have h02 : lineOfThree.graph.Adj 0 2 := ⟨by decide, 0, by decide, by decide⟩
  have h23 : lineOfThree.graph.Adj 2 3 := ⟨by decide, 1, by decide, by decide⟩
  refine ⟨lineHeard_reachable, lineHeard_settled, lineOfThree_forest, lineOfThree_singleLink,
    ⟨hsend, rfl⟩, by decide, by decide, by decide, ?_⟩
  rintro ⟨n, hn⟩
  obtain ⟨u, hu, hlt⟩ := hP.unbounded rfl hsend (h02.reachable.trans h23.reachable)
    middle_neighbours.1 middle_neighbours.2 (by decide) (n + 1)
  exact absurd (hlt.trans (hn u hu)) (Nat.not_succ_le_self n)

/-- In a settled forest a packet for switch d is handled a bounded number of times if and only if
d has one neighbour among the switches or is not connected to the sender. -/
theorem pings_bounded_iff [Fintype ι] (hf : net.Forest) (hl : net.SingleLinkHosts)
    (hr : Reachable net fifo T) (hset : Settled net T) {p : Packet} {T₁ : State ι}
    (hsend : Step net T (.send h p) T₁) (hdata : p.type ≠ pktControlPacket)
    (hd : net.IsSwitch d) (hdst : p.dst.toInt = net.id d) :
    (∃ n, ∀ u, Runs net fifo T₁ u → allHandled net u T.clock ≤ n) ↔
      (OneSwitchNeighbour net d ∨ ¬ net.graph.Reachable h d) := by
  obtain ⟨⟨hh, hp⟩, rfl⟩ := hsend
  constructor
  · rintro ⟨n, hn⟩
    by_contra hno
    obtain ⟨hmany, hreach⟩ := not_or.mp hno
    apply hmany
    intro a b ha hb
    by_contra hab
    have hP : SettledPing net T d (header ⟨p, T.clock⟩) :=
      ⟨hf, hl, hr.actions, hset, hd, hdata, hdst⟩
    obtain ⟨u, hu, hlt⟩ := hP.unbounded rfl ⟨hh, hp⟩ (not_not.mp hreach) ha hb hab (n + 1)
    exact absurd (hlt.trans (hn u hu)) (Nat.not_succ_le_self n)
  · intro hends
    have hP : Ping net h d (header ⟨p, T.clock⟩) := ⟨hf, hd, hdata, hdst, hends⟩
    have hS : Pinging net h d (header ⟨p, T.clock⟩) (next net T (.send h p)) :=
      pinging_start hf hr.actions hh hp
    exact ⟨_, fun u hu => pings_bounded hP hS hu.actionRuns⟩

/-- A ping for a switch at the end of the line dies out. -/
theorem pings_bounded_lineOfThree : ∃ n, ∀ u, Runs lineOfThree fifo (switchPinged 2) u →
    allHandled lineOfThree u lineHeard.clock ≤ n := by
  refine (pings_bounded_iff lineOfThree_forest lineOfThree_singleLink lineHeard_reachable
    lineHeard_settled (h := 0) (d := 2) ⟨by decide, rfl⟩ (by decide) (by decide) (by decide)).mpr
    (Or.inl ?_)
  have hone : ∀ s, lineOfThree.IsSwitch s → ∀ k < lineOfThree.nodePortNum 2,
      (lineOfThree.peer (2, k)).1 = s → s = 3 := by decide
  rintro s t ⟨_, _, hs, j, hj, hjs⟩ ⟨_, _, ht, k, hk, hkt⟩
  exact (hone s hs j hj hjs).trans (hone t ht k hk hkt).symm

end PingLoops
