import NetSim.TreeSpread

/-! Data packets for a switch d. Only neighbours of d learn its id, d itself floods what comes
for it, and a neighbour sends it back. If d has one switch as neighbour, this ends. -/
namespace SwitchPings

open PacketCodec SwitchNode NetworkTopology NetworkRuns LinkSends CarriedFrames LinkTraffic
  LearnedRoutes PacketCopies GraphPaths TreeSpread

variable {ι : Type} {net : Topology ι}

/-- Control packets come straight from the node they name, data packets from some host. -/
def Origin (net : Topology ι) (_ : State ι) (w : ι) (f : Frame) : Prop :=
  (f.type = pktControlPacket → f.src.toInt = net.id w) ∧
    (f.type ≠ pktControlPacket → ∃ v, ¬ net.IsSwitch v ∧ f.src.toInt = net.id v)

def OneSwitchNeighbour (net : Topology ι) (d : ι) : Prop :=
  ∀ s t, net.switchGraph.Adj d s → net.switchGraph.Adj d t → s = t

/-- The ways a packet from h to d takes: away from h, from d back to it, and to hosts of d. -/
def PingWay (net : Topology ι) (h d w t : ι) : Prop :=
  Away net.graph h w t ∨ (t = d ∧ net.IsSwitch w ∧ Away net.graph h d w) ∨
    (w = d ∧ ¬ net.IsSwitch t)

variable [DecidableEq ι]

theorem origin_carriable (st : State ι) (a : Action ι) : Carriable net (Origin net) st a where
  mono _ _ h := h
  created s _ _ := ⟨fun _ => Topology.id_toInt s, fun h => absurd rfl h⟩
  hosted h p _ hs hh := by
    have hsrc : p.src.toInt = net.id h := by rw [show p.src = _ from hh.1, Topology.id_toInt]
    exact ⟨fun _ => hsrc, fun _ => ⟨h, hs, hsrc⟩⟩
  relayed _ _ _ _ _ _ hd h _ := ⟨fun hc => absurd hc hd, h.2⟩
  marked _ _ _ _ _ h := h
  delivered _ _ _ h := h

theorem reachable_origin {D : Action ι → Prop} {st : State ι} (h : ActionReachable net D st) :
    Carried net (Origin net st) st :=
  Carried.runs (fun st a _ => origin_carriable st a) h (carried_initial _)

theorem knows_switch {D : Action ι → Prop} {st : State ι} (h : ActionReachable net D st) {d s : ι}
    (hd : net.IsSwitch d) (hs : net.IsSwitch s) (hk : Knows st s (net.id d)) :
    net.IsPort (outPort st s (net.id d)) ∧ nextHop net st s (net.id d) = d := by
  obtain ⟨hport, f, hf, hsrc⟩ := reachable_taught h s hs _ hk
  refine ⟨hport, ?_⟩
  obtain ⟨h1, h2⟩ := (reachable_origin h).taken _ hport f hf
  by_cases hc : f.type = pktControlPacket
  · exact net.id_injective ((h1 hc).symm.trans hsrc)
  · obtain ⟨v, hv, hid⟩ := h2 hc
    exact absurd (net.id_injective (hid.symm.trans hsrc) ▸ hd) hv

/-- Packet x from h is for switch d, and d has one neighbour among the switches or cannot be
reached. -/
structure Ping (net : Topology ι) (h d : ι) (x : Header) : Prop where
  forest : net.Forest
  switch : net.IsSwitch d
  data : x.type ≠ pktControlPacket
  dst : x.dst.toInt = net.id d
  ends : OneSwitchNeighbour net d ∨ ¬ net.graph.Reachable h d

structure Pinging (net : Topology ι) (h d : ι) (x : Header) (st : State ι) : Prop
    extends PacketSent net h x st where
  way : ∀ q, net.IsPort q → ∀ y ∈ trail net st q, y.stamp = x.stamp →
    PingWay net h d (net.peer q).1 q.1
  outward : ∀ q, net.IsPort q → net.IsSwitch (net.peer q).1 → net.IsSwitch q.1 →
    Away net.graph h (net.peer q).1 q.1 → copies x.stamp (trail net st q) ≤
      takenFrom st x.stamp (net.peer q).1
        ((Finset.range (net.nodePortNum (net.peer q).1)).erase (net.peer q).2)
  back : ∀ q, net.IsPort q → net.IsSwitch (net.peer q).1 →
    copies x.stamp (trail net st q) ≤ handled net st x.stamp (net.peer q).1

variable {h d : ι} {x : Header} {st : State ι}

omit [DecidableEq ι] in
/-- If a way from h leads on from d, d has only one neighbour among the switches. -/
theorem Ping.one_neighbour (hP : Ping net h d x) {w t : ι} (ha : Away net.graph h d w)
    (hw : net.IsSwitch w) (ht : net.IsSwitch t) (hdt : net.graph.Adj d t) : w = t := by
  have hreach : net.graph.Reachable h d := ha.reachable.trans ha.adj.symm.reachable
  exact hP.ends.resolve_right (fun hno => hno hreach) w t
    ⟨ha.adj.1, hP.switch, hw, ha.adj.2⟩ ⟨hdt.1, hP.switch, ht, hdt.2⟩

theorem ping_passes (hP : Ping net h d x) (hS : PacketSent net h x st) {a : Action ι}
    (hp : Permitted net a) {k : ℕ} {q : Port ι} (hpass : Passes net st x.stamp a k q) :
    (Knows st (net.peer q).1 (net.id d) ∧ outPort st (net.peer q).1 (net.id d) = net.peer q) ∨
      (¬ Knows st (net.peer q).1 (net.id d) ∧ (net.peer q).2 ≠ k) := by
  have hor := hS.passes hP.data (hP.dst ▸ id_inTable d) hp hpass
  rwa [hP.dst] at hor

/-- d never knows itself, so it sends nothing back where it came from. -/
theorem ping_floods (hP : Ping net h d x) (hS : PacketSent net h x st) {a : Action ι}
    (hp : Permitted net a) {k : ℕ} {q : Port ι} (hpass : Passes net st x.stamp a k q)
    (hd : (net.peer q).1 = d) : (net.peer q).2 ≠ k := by
  rcases ping_passes hP hS hp hpass with ⟨hk, _⟩ | ⟨_, hne⟩
  · rw [hd] at hk
    obtain ⟨hport, hhop⟩ := knows_switch hS.reached hP.switch hP.switch hk
    exact absurd hhop (hP.forest.no_self _ hport)
  · exact hne

theorem pinging_start {p : Packet} (hf : net.Forest) (hr : ActionReachable net fifo st)
    (hh : ¬ net.IsSwitch h) (hp : HostPacket net h p) :
    Pinging net h d (header ⟨p, st.clock⟩) (act net st (.send h p)) := by
  refine
    { toPacketSent := packetSent_start hr hh hp
      way := ?_
      outward := ?_
      back := ?_ }
  · intro q hq y hy hs
    have hadj := (forest_links hf).adj q hq
    rw [(mem_trail_sent hr hh hq hy hs).2] at hadj ⊢
    exact Or.inl (away_start hadj)
  · exact fun q hq hs _ _ => (copies_sent_switch hr hh p hq hs).trans_le (Nat.zero_le _)
  · exact fun q hq hs => (copies_sent_switch hr hh p hq hs).trans_le (Nat.zero_le _)

theorem ping_step (hP : Ping net h d x) (hS : Pinging net h d x st) {a : Action ι}
    (hp : Permitted net a) {k : ℕ} {q : Port ι} (hq : net.IsPort q)
    (hpass : Passes net st x.stamp a k q) : PingWay net h d (net.peer q).1 q.1 := by
  have hor := ping_passes hP hS.toPacketSent hp hpass
  have hflood := ping_floods hP hS.toPacketSent hp hpass
  obtain ⟨rx, f, rfl, hf, hn, _⟩ := hpass
  obtain ⟨hs, hport⟩ := hp
  have hL := forest_links hP.forest
  have hstep : (net.peer q).2 ≠ k →
      Away net.graph h (net.peer ((net.peer q).1, k)).1 (net.peer q).1 →
      Away net.graph h (net.peer q).1 q.1 := fun hne ha => hL.away_step hq hport ha hne
  rcases hS.way _ hport _ (mem_trail_channel (List.mem_of_getElem? hf)) hn with
    haway | ⟨hsd, hw, hback⟩ | ⟨_, hno⟩
  · by_cases hne : (net.peer q).2 = k
    · -- only a neighbour of d sends a packet back, and that to d
      rcases hor with ⟨hk, hout⟩ | ⟨_, h'⟩
      · obtain ⟨_, hhop⟩ := knows_switch hS.reached hP.switch hs hk
        rw [nextHop, hout, hq.peer_peer] at hhop
        have hin : (net.peer ((net.peer q).1, k)).1 = d := by
          rw [← hne, Prod.eta, hq.peer_peer, hhop]
        exact Or.inr (Or.inl ⟨hhop, hs, hin ▸ haway⟩)
      · exact absurd hne h'
    · exact Or.inl (hstep hne haway)
  · -- d has it back from its only neighbour
    by_cases ht : net.IsSwitch q.1
    · have hadj := hL.adj q hq
      rw [show (net.peer q).1 = d from hsd] at hadj
      have heq := hP.one_neighbour hback hw ht hadj
      refine absurd (hL.single _ _ _ hq.peer hport ?_) (hflood hsd)
      rw [Prod.eta, hq.peer_peer]
      exact heq.symm
    · exact Or.inr (Or.inr ⟨hsd, ht⟩)
  · exact absurd hs hno

theorem Pinging.act (hP : Ping net h d x) (hS : Pinging net h d x st) {a : Action ι}
    (hp : Permitted net a) (hf : fifo a) : Pinging net h d x (act net st a) where
  toPacketSent := hS.toPacketSent.act hp hf
  way q hq y hy hs := by
    rcases mem_trail_act hS.toPacketSent hp hf hq hy hs with hy | ⟨k, hk, _⟩
    · exact hS.way q hq y hy hs
    · exact ping_step hP hS hp hq hk
  outward q hq hs ht ha := by
    apply fed_act (reachable_idle hS.reached) hp hf hq hS.old _ (hS.outward q hq hs ht ha)
    intro k hpass
    have hflood := ping_floods hP hS.toPacketSent hp hpass
    obtain ⟨rx, f, rfl, hc, hn, _⟩ := hpass
    refine Finset.mem_erase.mpr ⟨?_, Finset.mem_range.mpr hp.2⟩
    rintro rfl
    -- a copy from the far side would have to be on its way back to d
    rcases hS.way _ hp.2 _ (mem_trail_channel (List.mem_of_getElem? hc)) hn with h1 | h1 | h1
    · rw [Prod.eta, hq.peer_peer] at h1
      exact ha.not_back hP.forest.acyclic h1
    · exact hflood h1.1 rfl
    · exact h1.2 hs
  back q hq hs := by
    apply fed_act (reachable_idle hS.reached) hp hf hq hS.old _ (hS.back q hq hs)
    rintro k ⟨rx, f, rfl, _⟩
    exact Finset.mem_range.mpr hp.2

theorem Pinging.taken_way (hS : Pinging net h d x st) {s : ι} (hs : net.IsSwitch s) {k : ℕ}
    (hport : net.IsPort (s, k)) (ht : 0 < taken st x.stamp (s, k)) :
    Away net.graph h (net.peer (s, k)).1 s ∨
      s = d ∧ net.IsSwitch (net.peer (s, k)).1 ∧ Away net.graph h d (net.peer (s, k)).1 := by
  obtain ⟨f, hf, hn⟩ := taken_pos.mp ht
  rcases hS.way _ hport _ (mem_trail_received hf) hn with h1 | h1 | h1
  · exact Or.inl h1
  · exact Or.inr h1
  · exact absurd hs h1.2

section Count

variable (hP : Ping net h d x) (hS : Pinging net h d x st)
include hP hS

/-- By induction on the way out from h, no link to a switch carries two copies away from h. -/
theorem Pinging.copies_le_one {s t : ι} (ha : Away net.graph h s t) (ht : net.IsSwitch t) :
    ∀ k, net.IsPort (t, k) → (net.peer (t, k)).1 = s →
      copies x.stamp (trail net st (t, k)) ≤ 1 := by
  refine ha.induction (P := fun t => net.IsSwitch t → ∀ s, Away net.graph h s t → ∀ k,
    net.IsPort (t, k) → (net.peer (t, k)).1 = s → copies x.stamp (trail net st (t, k)) ≤ 1)
    ?_ ht s ha
  rintro s' t ha' hprev ht s ha k hk rfl
  obtain rfl := ha.unique hP.forest.acyclic ha'
  by_cases hh : (net.peer (t, k)).1 = h
  · exact hS.sent _ hk hh
  have hprev := hprev.resolve_left hh
  by_cases hs : net.IsSwitch (net.peer (t, k)).1
  · refine (hS.outward _ hk hs ht ha).trans
      ((forest_links hP.forest).takenFrom_le_one (h := h) ?_ ?_)
    · intro i hi hti
      have hport : net.IsPort ((net.peer (t, k)).1, i) :=
        Finset.mem_range.mp (Finset.mem_of_mem_erase hi)
      rcases hS.taken_way hs hport hti with h1 | ⟨hsd, hw, hback⟩
      · exact ⟨hport, h1⟩
      · -- t is the only neighbour of d, and the port to it is left out
        have hadj := ha.adj
        rw [hsd] at hadj
        have heq := hP.one_neighbour hback hw ht hadj
        refine absurd ((forest_links hP.forest).single _ _ _ hport hk.peer ?_)
          (Finset.ne_of_mem_erase hi)
        rw [heq, Prod.eta, hk.peer_peer]
    · exact fun i hi hai => hprev hs _ hai i hi rfl
  · exact hS.copies_host hk hs

theorem Pinging.handled_le_one {s : ι} (hs : net.IsSwitch s) (hne : s ≠ d) :
    handled net st x.stamp s ≤ 1 := by
  apply (forest_links hP.forest).takenFrom_le_one
  · intro k hk ht
    have hport : net.IsPort (s, k) := Finset.mem_range.mp hk
    exact ⟨hport, (hS.taken_way hs hport ht).resolve_right fun hback => hne hback.1⟩
  · exact fun k hk ha => hS.copies_le_one hP ha hs k hk rfl

theorem Pinging.taken_le_one {q : Port ι} (hq : net.IsPort q) (hs : net.IsSwitch q.1) :
    taken st x.stamp q ≤ 1 := by
  rcases Nat.eq_zero_or_pos (taken st x.stamp q) with h0 | hpos
  · omega
  apply (taken_le_copies net st x.stamp q).trans
  rcases hS.taken_way hs hq hpos with ha | ⟨_, hw, hback⟩
  · exact hS.copies_le_one hP ha hs q.2 hq rfl
  · exact (hS.back q hq hw).trans (hS.handled_le_one hP hw hback.adj.ne')

end Count

def allHandled [Fintype ι] (net : Topology ι) (st : State ι) (n : ℕ) : ℕ :=
  ∑ s with net.IsSwitch s, handled net st n s

/-- A packet for a switch with one neighbour among the switches is handled at most once for each
port of a switch. -/
theorem pings_bounded [Fintype ι] (hP : Ping net h d x) {u : State ι}
    (hS : Pinging net h d x st) (hrun : ActionRuns net fifo st u) :
    allHandled net u x.stamp ≤ ∑ s with net.IsSwitch s, net.nodePortNum s := by
  have hSu : Pinging net h d x u :=
    hrun.invariant (P := Pinging net h d x) (fun _ _ hp hf hv => hv.act hP hp hf) hS
  apply Finset.sum_le_sum
  intro s hs
  have hsw := (Finset.mem_filter.mp hs).2
  have hle : ∀ k ∈ Finset.range (net.nodePortNum s), taken u x.stamp (s, k) ≤ 1 :=
    fun k hk => hSu.taken_le_one hP (Finset.mem_range.mp hk) hsw
  simpa [handled, takenFrom] using Finset.sum_le_sum hle

end SwitchPings
