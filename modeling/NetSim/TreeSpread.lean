import NetSim.PacketCopies
import NetSim.GraphPaths

/-! A packet that spreads away from its sender over the links of a forest. Each node is entered
by one link only, so the copies on every link, and those every node takes, are at most one. -/
namespace TreeSpread

open PacketCodec SwitchNode NetworkTopology NetworkRuns LinkSends CarriedFrames LinkTraffic
  LearnedRoutes PacketCopies GraphPaths

variable {ι : Type} {net : Topology ι}

/-- The ports of Tree join the nodes as the edges of the forest G do, one link for each edge. -/
structure TreeLinks (net : Topology ι) (G : SimpleGraph ι) (Tree : Port ι → Prop) : Prop where
  isPort : ∀ q, Tree q → net.IsPort q
  peer : ∀ q, Tree q → Tree (net.peer q)
  adj : ∀ q, Tree q → G.Adj (net.peer q).1 q.1
  single : ∀ s j k, Tree (s, j) → Tree (s, k) → (net.peer (s, j)).1 = (net.peer (s, k)).1 → j = k
  acyclic : G.IsAcyclic

theorem forest_links (h : net.Forest) : TreeLinks net net.graph net.IsPort where
  isPort _ hq := hq
  peer _ hq := hq.peer
  adj _ hq := (hq.graph_adj h.toSimple).symm
  single s j k hj hk he := h.no_parallel s j k hj hk he
  acyclic := h.acyclic

theorem TreeLinks.away_step {G : SimpleGraph ι} {Tree : Port ι → Prop} {h : ι}
    (hL : TreeLinks net G Tree) {q : Port ι} {k : ℕ} (hq : Tree q) (hk : Tree ((net.peer q).1, k))
    (ha : Away G h (net.peer ((net.peer q).1, k)).1 (net.peer q).1) (hne : (net.peer q).2 ≠ k) :
    Away G h (net.peer q).1 q.1 := by
  apply ha.step hL.acyclic (hL.adj q hq)
  intro he
  apply hne
  apply hL.single _ _ _ (hL.peer q hq) hk
  rw [Prod.eta, (hL.isPort q hq).peer_peer, he]

/-- If all copies come to s from the side of h, on links that carry at most one, it takes at
most one. -/
theorem TreeLinks.takenFrom_le_one {G : SimpleGraph ι} {Tree : Port ι → Prop} {h s : ι}
    {st : State ι} {n : ℕ} {A : Finset ℕ} (hL : TreeLinks net G Tree)
    (hside : ∀ k ∈ A, 0 < taken st n (s, k) → Tree (s, k) ∧ Away G h (net.peer (s, k)).1 s)
    (hle : ∀ k, Tree (s, k) → Away G h (net.peer (s, k)).1 s →
      copies n (trail net st (s, k)) ≤ 1) : takenFrom st n s A ≤ 1 := by
  apply takenFrom_le
  · intro j hj k hk htj htk
    obtain ⟨h1, h2⟩ := hside j hj htj
    obtain ⟨h3, h4⟩ := hside k hk htk
    exact hL.single s j k h1 h3 (h2.unique hL.acyclic h4)
  · intro k hk
    rcases Nat.eq_zero_or_pos (taken st n (s, k)) with h0 | hpos
    · omega
    · obtain ⟨h1, h2⟩ := hside k hk hpos
      exact (taken_le_copies net st n (s, k)).trans (hle k h1 h2)

/-- Host h has sent packet x, once on each of its links. All frames with the stamp of x are
copies of it. -/
structure PacketSent (net : Topology ι) [DecidableEq ι] (h : ι) (x : Header) (st : State ι) :
    Prop where
  reached : ActionReachable net fifo st
  old : x.stamp < st.clock
  host : ¬ net.IsSwitch h
  source : x.src.toInt = net.id h
  same : ∀ q, net.IsPort q → ∀ y ∈ trail net st q, y.stamp = x.stamp → y = x
  sent : ∀ q, net.IsPort q → (net.peer q).1 = h → copies x.stamp (trail net st q) ≤ 1

/-- The copies of x are on tree links, and all but those on the way back to h itself lead away
from h. -/
structure Spread (net : Topology ι) [DecidableEq ι] (G : SimpleGraph ι) (Tree : Port ι → Prop)
    (h : ι) (x : Header) (st : State ι) : Prop extends PacketSent net h x st where
  onTree : ∀ q, net.IsPort q → ∀ f ∈ st.received q ++ st.channel q, f.stamp = x.stamp → Tree q
  away : ∀ q, Tree q → ∀ y ∈ trail net st q, y.stamp = x.stamp →
    Away G h (net.peer q).1 q.1 ∨ q.1 = h
  fed : ∀ q, Tree q → net.IsSwitch (net.peer q).1 →
    copies x.stamp (trail net st q) ≤ handled net st x.stamp (net.peer q).1

variable [DecidableEq ι] {G : SimpleGraph ι} {Tree : Port ι → Prop} {h : ι} {x : Header}
  {st : State ι}

theorem old_stamps (hr : ActionReachable net fifo st) {q : Port ι} (hq : net.IsPort q)
    {y : Header} (hy : y ∈ trail net st q) : y.stamp < st.clock := by
  obtain ⟨f, rfl, hs⟩ := carried_trail (reachable_stamped hr) (reachable_idle hr) hq hy
  exact hs

/-- Every copy was taken by a switch before it was queued for a link, or h sent it. -/
theorem copy_sender (hr : ActionReachable net fifo st) (hsrc : x.src.toInt = net.id h)
    {q : Port ι} (hq : net.IsPort q) (hx : x ∈ trail net st q)
    (hs : ¬ net.IsSwitch (net.peer q).1) : (net.peer q).1 = h := by
  obtain ⟨f, rfl, hf | ⟨hw, _⟩⟩ :=
    carried_trail (reachable_sourceKnown hr) (reachable_idle hr) hq hx
  · exact net.id_injective (hf.symm.trans hsrc)
  · exact absurd hw hs

theorem copies_sent (hr : ActionReachable net fifo st) (hh : ¬ net.IsSwitch h) (p : Packet)
    {q : Port ι} (hq : net.IsPort q) : copies st.clock (trail net (act net st (.send h p)) q) =
      if (net.peer q).1 = h then 1 else 0 := by
  have hzero : copies st.clock (trail net st q) = 0 :=
    copies_eq_zero fun y hy => (old_stamps hr hq hy).ne
  rw [send_trail (reachable_idle hr) hh p hq, copies_append, hzero, entering]
  by_cases he : (net.peer q).1 = h <;> simp [he, copies, header]

theorem copies_sent_switch (hr : ActionReachable net fifo st) (hh : ¬ net.IsSwitch h) (p : Packet)
    {q : Port ι} (hq : net.IsPort q) (hs : net.IsSwitch (net.peer q).1) :
    copies st.clock (trail net (act net st (.send h p)) q) = 0 := by
  rw [copies_sent hr hh p hq, if_neg]
  rintro rfl
  exact hh hs

theorem mem_trail_sent (hr : ActionReachable net fifo st) (hh : ¬ net.IsSwitch h) {p : Packet}
    {q : Port ι} (hq : net.IsPort q) {y : Header} (hy : y ∈ trail net (act net st (.send h p)) q)
    (hs : y.stamp = st.clock) : y = header ⟨p, st.clock⟩ ∧ (net.peer q).1 = h := by
  rw [send_trail (reachable_idle hr) hh p hq] at hy
  rcases List.mem_append.mp hy with hy | hy
  · exact absurd hs (old_stamps hr hq hy).ne
  · rw [entering] at hy
    split at hy
    · next he => exact ⟨List.mem_singleton.mp hy, he⟩
    · cases hy

theorem packetSent_start (hr : ActionReachable net fifo st) (hh : ¬ net.IsSwitch h) {p : Packet}
    (hp : HostPacket net h p) :
    PacketSent net h (header ⟨p, st.clock⟩) (act net st (.send h p)) where
  reached := hr.tail ⟨.send h p, ⟨hh, hp⟩, trivial, rfl⟩
  old := Nat.lt_succ_self _
  host := hh
  source := by rw [show (header ⟨p, st.clock⟩).src = _ from hp.1, Topology.id_toInt]
  same q hq y hy hs := (mem_trail_sent hr hh hq hy hs).1
  sent q hq he := by
    have hone := copies_sent hr hh p hq
    rw [if_pos he] at hone
    exact hone.le

theorem spread_start (hL : TreeLinks net G Tree) (hr : ActionReachable net fifo st)
    (hh : ¬ net.IsSwitch h) {p : Packet} (hp : HostPacket net h p)
    (htree : ∀ q, net.IsPort q → (net.peer q).1 = h → Tree q) :
    Spread net G Tree h (header ⟨p, st.clock⟩) (act net st (.send h p)) where
  toPacketSent := packetSent_start hr hh hp
  onTree q hq f hf hs := by
    have hmem : header f ∈ trail net (act net st (.send h p)) q :=
      List.mem_append_left _ (List.mem_map_of_mem hf)
    exact htree q hq (mem_trail_sent hr hh hq hmem hs).2
  away q hq y hy hs := by
    have hadj := hL.adj q hq
    rw [(mem_trail_sent hr hh (hL.isPort q hq) hy hs).2] at hadj ⊢
    exact Or.inl (away_start hadj)
  fed q hq hs := (copies_sent_switch hr hh p (hL.isPort q hq) hs).trans_le (Nat.zero_le _)

theorem mem_trail_act (hS : PacketSent net h x st) {a : Action ι} (hp : Permitted net a)
    (hf : fifo a) {q : Port ι} (hq : net.IsPort q) {y : Header}
    (hy : y ∈ trail net (act net st a) q) (hs : y.stamp = x.stamp) :
    y ∈ trail net st q ∨ ∃ k, Passes net st x.stamp a k q ∧ y = x := by
  have hsub := trail_act (reachable_idle hS.reached) hp hf hq
  rcases List.mem_append.mp (hsub.subset hy) with hy | hy
  · exact Or.inl hy
  · rcases entering_cases net st a q with he | ⟨z, he, hz⟩
    · rw [he] at hy
      cases hy
    · rw [he, List.mem_singleton] at hy
      subst hy
      refine Or.inr ?_
      rcases hz with ⟨_, _, _, rfl⟩ | ⟨p, rx, f, ha, hc, hw, hd, hm, rfl⟩ | ⟨_, _, _, _, rfl⟩
      · exact absurd hs hS.old.ne'
      · have hpair : ((net.peer q).1, p.2) = p := Prod.ext hw rfl
        subst ha
        exact ⟨p.2, ⟨rx, f, by rw [hpair], by rw [hpair, hc], hs, hd, hw ▸ hm⟩,
          hS.same p hp.2 _ (mem_trail_channel (List.mem_of_getElem? hc)) hs⟩
      · exact absurd hs hS.old.ne'

theorem PacketSent.act (hS : PacketSent net h x st) {a : Action ι} (hp : Permitted net a)
    (hf : fifo a) : PacketSent net h x (act net st a) where
  reached := hS.reached.tail ⟨a, hp, hf, rfl⟩
  old := hS.old.trans_le (act_clock_le net st a)
  host := hS.host
  source := hS.source
  same q hq y hy hs := by
    rcases mem_trail_act hS hp hf hq hy hs with hy | ⟨_, _, he⟩
    · exact hS.same q hq y hy hs
    · exact he
  sent q hq he := by
    rcases copies_entering net hS.old a q with h0 | ⟨_, k, rx, f, rfl, _⟩
    · have hle := copies_act_le (reachable_idle hS.reached) hp hf hq x.stamp
      have := hS.sent q hq he
      omega
    · have hsw : net.IsSwitch (net.peer q).1 := hp.1
      exact absurd (he ▸ hsw) hS.host

theorem PacketSent.mayUse_iff (hS : PacketSent net h x st) (hd : x.type ≠ pktControlPacket)
    (hin : InTable x.dst.toInt) {p : Port ι} (hp : net.IsPort p) {f : Frame}
    (hf : f ∈ st.channel p) (hn : f.stamp = x.stamp) (rx : Rx) (j : ℕ) :
    MayUse (dataJob p.2 (f.deliver rx.prior) rx.stray (st.switch p.1).lookupTable) j ↔
      (Knows st p.1 x.dst.toInt ∧ outPort st p.1 x.dst.toInt = (p.1, j)) ∨
        (¬ Knows st p.1 x.dst.toInt ∧ j ≠ p.2) := by
  have hx : header f = x := hS.same p hp _ (mem_trail_channel hf) hn
  rw [← hx] at hd hin ⊢
  exact mayUse_dataJob (f := f.deliver rx.prior) st p.1 hin hd p.2 rx.stray j

theorem PacketSent.passes (hS : PacketSent net h x st) (hd : x.type ≠ pktControlPacket)
    (hin : InTable x.dst.toInt) {a : Action ι} (hp : Permitted net a) {k : ℕ} {q : Port ι}
    (hpass : Passes net st x.stamp a k q) :
    (Knows st (net.peer q).1 x.dst.toInt ∧ outPort st (net.peer q).1 x.dst.toInt = net.peer q) ∨
      (¬ Knows st (net.peer q).1 x.dst.toInt ∧ (net.peer q).2 ≠ k) := by
  obtain ⟨rx, f, rfl, hf, hn, _, hm⟩ := hpass
  exact (hS.mayUse_iff hd hin hp.2 (List.mem_of_getElem? hf) hn rx _).mp hm

theorem PacketSent.copies_host (hS : PacketSent net h x st) {q : Port ι} (hq : net.IsPort q)
    (hs : ¬ net.IsSwitch (net.peer q).1) : copies x.stamp (trail net st q) ≤ 1 := by
  by_contra hne
  have hpos : 0 < copies x.stamp (trail net st q) := by omega
  obtain ⟨y, hy, hys⟩ := copies_pos.mp hpos
  rw [hS.same _ hq y hy hys] at hy
  exact hne (hS.sent _ hq (copy_sender hS.reached hS.source hq hy hs))

/-- The spread goes on as long as switches pass copies on away from h or back to h, and send
them over tree links. -/
theorem Spread.act (hL : TreeLinks net G Tree) (hS : Spread net G Tree h x st) {a : Action ι}
    (hp : Permitted net a) (hf : fifo a)
    (hpass : ∀ k q, Tree q → Passes net st x.stamp a k q →
      Away G h (net.peer q).1 q.1 ∨ q.1 = h)
    (htree : ∀ q, net.IsPort q → ∀ f ∈ (act net st a).channel q, f.stamp = x.stamp → Tree q) :
    Spread net G Tree h x (act net st a) where
  toPacketSent := hS.toPacketSent.act hp hf
  onTree q hq f hm hs := by
    rcases List.mem_append.mp hm with hm | hm
    · rcases act_received net st a q with he | ⟨rx, g, _, hc, he⟩
      · exact hS.onTree q hq f (List.mem_append_left _ (he ▸ hm)) hs
      · rw [he, List.mem_append, List.mem_singleton] at hm
        rcases hm with hm | rfl
        · exact hS.onTree q hq f (List.mem_append_left _ hm) hs
        · exact hS.onTree q hq g (List.mem_append_right _ (List.mem_of_getElem? hc)) hs
    · exact htree q hq f hm hs
  away q hq y hy hs := by
    rcases mem_trail_act hS.toPacketSent hp hf (hL.isPort q hq) hy hs with hy | ⟨k, hk, _⟩
    · exact hS.away q hq y hy hs
    · exact hpass k q hq hk
  fed q hq hs := by
    apply fed_act (reachable_idle hS.reached) hp hf (hL.isPort q hq) hS.old _ (hS.fed q hq hs)
    rintro k ⟨rx, f, rfl, _⟩
    exact Finset.mem_range.mpr hp.2

theorem Spread.switch_side (hS : Spread net G Tree h x st) {s : ι} (hs : net.IsSwitch s) {k : ℕ}
    (hk : k ∈ Finset.range (net.nodePortNum s)) (ht : 0 < taken st x.stamp (s, k)) :
    Tree (s, k) ∧ Away G h (net.peer (s, k)).1 s := by
  obtain ⟨f, hf, hn⟩ := taken_pos.mp ht
  have htree := hS.onTree (s, k) (Finset.mem_range.mp hk) f (List.mem_append_left _ hf) hn
  rcases hS.away _ htree _ (mem_trail_received hf) hn with ha | he
  · exact ⟨htree, ha⟩
  · exact absurd (he ▸ hs) hS.host

theorem Spread.handled_le (hL : TreeLinks net G Tree) (hS : Spread net G Tree h x st) {s : ι}
    (hs : net.IsSwitch s) (hle : ∀ k, Tree (s, k) → Away G h (net.peer (s, k)).1 s →
      copies x.stamp (trail net st (s, k)) ≤ 1) : handled net st x.stamp s ≤ 1 :=
  hL.takenFrom_le_one (fun _ hk ht => hS.switch_side hs hk ht) hle

/-- By induction on the way out from h, no link that leads away carries two copies. -/
theorem Spread.copies_le_one (hL : TreeLinks net G Tree) (hS : Spread net G Tree h x st) {s t : ι}
    (ha : Away G h s t) : ∀ k, Tree (t, k) → (net.peer (t, k)).1 = s →
      copies x.stamp (trail net st (t, k)) ≤ 1 := by
  refine ha.induction (P := fun t => ∀ s, Away G h s t → ∀ k, Tree (t, k) →
    (net.peer (t, k)).1 = s → copies x.stamp (trail net st (t, k)) ≤ 1) ?_ s ha
  rintro s t ha hprev s' ha' k hk rfl
  rcases hprev with rfl | hprev
  · exact hS.sent _ (hL.isPort _ hk) (ha'.unique hL.acyclic ha)
  · by_cases hs : net.IsSwitch (net.peer (t, k)).1
    · apply (hS.fed _ hk hs).trans
      apply hS.handled_le hL hs
      intro j hj haj
      rw [← ha'.unique hL.acyclic ha] at hprev
      exact hprev _ haj j hj rfl
    · exact hS.copies_host (hL.isPort _ hk) hs

theorem Spread.handled_le_one (hL : TreeLinks net G Tree) (hS : Spread net G Tree h x st) {s : ι}
    (hs : net.IsSwitch s) : handled net st x.stamp s ≤ 1 :=
  hS.handled_le hL hs fun k hk ha => hS.copies_le_one hL ha k hk rfl

theorem Spread.not_handled (hL : TreeLinks net G Tree) (hS : Spread net G Tree h x st) {p : Port ι}
    (hp : net.IsPort p) (hs : net.IsSwitch p.1) {f : Frame} (hf : f ∈ st.channel p)
    (hn : f.stamp = x.stamp) : handled net st x.stamp p.1 = 0 := by
  have htree := hS.onTree p hp f (List.mem_append_right _ hf) hn
  have ha := (hS.away p htree _ (mem_trail_channel hf) hn).resolve_right fun he =>
    hS.host (he ▸ hs)
  have hone := hS.copies_le_one hL ha p.2 htree rfl
  have hchan : 0 < (st.channel p).countP fun f => f.stamp = x.stamp :=
    List.countP_pos_iff.mpr ⟨f, hf, by simpa using hn⟩
  rw [Prod.eta, copies_trail] at hone
  rw [handled, takenFrom]
  apply Finset.sum_eq_zero
  intro k hk
  by_contra hne
  obtain ⟨h1, h2⟩ := hS.switch_side hs hk (Nat.pos_of_ne_zero hne)
  have hkp : k = p.2 := hL.single p.1 k p.2 h1 htree (h2.unique hL.acyclic ha)
  rw [hkp, Prod.eta] at hne
  omega

theorem Spread.taken_le_one (hL : TreeLinks net G Tree) (hS : Spread net G Tree h x st) {q : Port ι}
    (hq : net.IsPort q) : taken st x.stamp q ≤ 1 := by
  rcases Nat.eq_zero_or_pos (taken st x.stamp q) with h0 | hpos
  · omega
  obtain ⟨f, hf, hn⟩ := taken_pos.mp hpos
  have htree := hS.onTree q hq f (List.mem_append_left _ hf) hn
  apply (taken_le_copies net st x.stamp q).trans
  rcases hS.away q htree _ (mem_trail_received hf) hn with ha | he
  · exact hS.copies_le_one hL ha q.2 htree rfl
  · by_cases hs : net.IsSwitch (net.peer q).1
    · exact (hS.fed q htree hs).trans (hS.handled_le_one hL hs)
    · exact hS.copies_host hq hs

end TreeSpread
