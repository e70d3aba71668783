import NetSim.Settling

/-! Where a settled network floods data packets. The flags keep every switch but the root on
the tree. The root, whose parent is -1 for good, ignores its flags: it leaves the tree exactly
when two of its links lead to one switch or one leads back to itself. -/
namespace FloodLinks

open PacketCodec SwitchNode NetworkTopology NetworkRuns SwitchElection ElectedTree FlagTree
  PortFlags Settling

variable {ι : Type} {net : Topology ι} {st : State ι}

/-- A job that floods a data packet taken from port k. -/
structure DataFlood (job : SwitchJob) (k : ℕ) : Prop where
  type : job.type = .sendPktAllPorts
  data : job.packet.type ≠ pktControlPacket
  inPort : job.inPortIndex = k

/-- Every copy the job sends at s goes to a host or the DNS server, or over a tree link. -/
def StaysOnTree (net : Topology ι) (st : State ι) (s : ι) (job : SwitchJob) : Prop :=
  ∀ o ∈ jobSends (net.nodePortNum s) (st.switch s) job,
    ¬ net.IsSwitch (net.peer (s, o.1)).1 ∨ ParentLink net st (s, o.1)

def FloodsOnTree (net : Topology ι) (st : State ι) : Prop :=
  ∀ s k job, net.IsSwitch s → net.IsPort (s, k) → DataFlood job k → StaysOnTree net st s job

/-- The links of the least switch of each component lead to different nodes, none to itself. -/
structure SimpleRoots (net : Topology ι) : Prop where
  no_self : ∀ r k, net.IsSwitch r → Least net r → net.IsPort (r, k) → (net.peer (r, k)).1 ≠ r
  no_parallel : ∀ r j k, net.IsSwitch r → Least net r → net.IsPort (r, j) → net.IsPort (r, k) →
    net.IsSwitch (net.peer (r, j)).1 → (net.peer (r, j)).1 = (net.peer (r, k)).1 → j = k

theorem mem_flood {n i k : ℕ} {sw : SwitchState} {job : SwitchJob} (h : DataFlood job i)
    {f : Frame} : (k, f) ∈ jobSends n sw job ↔ k < n ∧ FloodsOn sw job k ∧ f = job.packet := by
  unfold jobSends
  rw [h.type]
  simp only [h.data, if_false, List.mem_map, List.mem_filter, List.mem_range, decide_eq_true_eq,
    Prod.mk.injEq]
  constructor
  · rintro ⟨_, ⟨h1, h2⟩, rfl, rfl⟩
    exact ⟨h1, h2, rfl⟩
  · rintro ⟨h1, h2, rfl⟩
    exact ⟨k, ⟨h1, h2⟩, rfl, rfl⟩

/-- The root reaches a neighbour on one link only, and that is the neighbour's parent link. -/
theorem root_port (ht : SettledTree net st) (hsimple : SimpleRoots net) {q : Port ι}
    (hq : SwitchLink net q) (hl : Least net q.1) : ParentLink net st q := by
  have hne := hsimple.no_self q.1 q.2 hq.2.1 hl hq.1
  obtain ⟨_, k, hpar, hp, hk⟩ := ht.below_root q.1 (net.peer q).1
    ⟨hne.symm, hq.2.1, hq.2.2, hq.1.linked⟩ hl
  have hback : net.peer (q.1, (net.peer ((net.peer q).1, k)).2) = ((net.peer q).1, k) := by
    conv_rhs => rw [← hp.peer_peer]
    rw [← hk]
  have hport : net.IsPort (q.1, (net.peer ((net.peer q).1, k)).2) := by
    rw [← hk]
    exact hp.peer
  have hidx : q.2 = (net.peer ((net.peer q).1, k)).2 :=
    hsimple.no_parallel q.1 _ _ hq.2.1 hl hq.1 hport hq.2.2 (by rw [hback])
  have hpeer : net.peer q = ((net.peer q).1, k) := by
    conv_lhs => rw [← Prod.eta q, hidx]
    exact hback
  refine Or.inr (hpar.trans ?_)
  rw [hpeer]

theorem simpleRoots_floodsOnTree (ht : SettledTree net st) (hsimple : SimpleRoots net) :
    FloodsOnTree net st := by
  intro s i job hs _ hjob
  rintro ⟨k, f⟩ ho
  obtain ⟨hk, ⟨hflag, _⟩, _⟩ := (mem_flood hjob).mp ho
  by_cases hw : net.IsSwitch (net.peer (s, k)).1
  · have hq : SwitchLink net (s, k) := ⟨hk, hs, hw⟩
    refine Or.inr ?_
    rcases hflag with hy | hpar
    · exact (ht.flags.flag_iff _ hq).mp hy
    · exact root_port ht hsimple hq ((ht.root_iff s hs).mp hpar)
  · exact Or.inl hw

def floodJob (j : ℕ) : SwitchJob :=
  ⟨.sendPktAllPorts, ⟨⟨0, 0, pktPingReq, 0, fun _ => 0, 0, 0, 0, 0⟩, 0⟩, j, 0⟩

theorem floodJob_dataFlood (j : ℕ) : DataFlood (floodJob j) j :=
  ⟨rfl, show pktPingReq ≠ pktControlPacket by decide, rfl⟩

theorem root_sends (ht : SettledTree net st) (hf : FloodsOnTree net st) {r : ι} {j k : ℕ}
    (hr : net.IsSwitch r) (hl : Least net r) (hj : net.IsPort (r, j)) (hk : net.IsPort (r, k))
    (hw : net.IsSwitch (net.peer (r, k)).1) (hne : k ≠ j) : ParentLink net st (r, k) := by
  have hpar := (ht.root_iff r hr).mpr hl
  have hmem : (k, (floodJob j).packet) ∈ jobSends (net.nodePortNum r) (st.switch r) (floodJob j) :=
    (mem_flood (floodJob_dataFlood j)).mpr ⟨hk, ⟨Or.inr hpar, hne⟩, rfl⟩
  exact (hf r j _ hr hj (floodJob_dataFlood j) _ hmem).resolve_left fun h => h hw

theorem floodsOnTree_simpleRoots (ht : SettledTree net st) (hf : FloodsOnTree net st) :
    SimpleRoots net where
  no_self r k hr hl hk hself := by
    have hpar := (ht.root_iff r hr).mpr hl
    have hne : k ≠ (net.peer (r, k)).2 := by
      intro h
      exact net.peer_ne _ hk (Prod.ext hself h.symm)
    have hback : net.IsPort (r, (net.peer (r, k)).2) := by
      have := Topology.IsPort.peer hk
      rwa [Topology.IsPort, hself] at this
    rcases root_sends ht hf hr hl hback hk (hself.symm ▸ hr) hne with h | h
    · have : (k : ℤ) = -1 := h.symm.trans hpar
      omega
    · rw [hself] at h
      have : ((net.peer (r, k)).2 : ℤ) = -1 := h.symm.trans hpar
      omega
  no_parallel r j k hr hl hj hk hw heq := by
    by_contra hne
    have hqj : SwitchLink net (r, j) := ⟨hj, hr, hw⟩
    have hqk : SwitchLink net (r, k) := ⟨hk, hr, heq ▸ hw⟩
    have hpj := root_sends ht hf hr hl hk hj hqj.2.2 hne
    have hpk := root_sends ht hf hr hl hj hk hqk.2.2 fun h => hne h.symm
    exact hne (ht.flags.no_parallel r j k hqj hqk ((ht.flags.flag_iff _ hqj).mpr hpj)
      ((ht.flags.flag_iff _ hqk).mpr hpk) heq)

variable [DecidableEq ι]

/-- In a settled state flooding uses tree links only if and only if no root has two links to one
switch or a link to itself. -/
theorem floods_on_tree_iff (hr : Reachable net fifo st) (hs : Settled net st) :
    FloodsOnTree net st ↔ SimpleRoots net := by
  have ht := settledTree hr.actions hs
  constructor
  · exact floodsOnTree_simpleRoots ht
  · exact simpleRoots_floodsOnTree ht

/-- Two links between switches 0 and 1, and host 2 at switch 0. -/
def doubleLink : Topology (Fin 3) :=
  NetworkWiring.ofConfig [(0, 1), (0, 1), (0, 2)] ![.switch, .switch, .host] ![0, 1, 2]
    NetworkWiring.ids_three NetworkWiring.ids_three_range

def electOverDouble : List (Event (Fin 3)) :=
  List.replicate 5 (quiet 0) ++ [sweep 1]

def pingFifty : Packet := ⟨2, 50, pktPingReq, 0, fun _ => 0, 0, 0, 0, 0⟩

/-- Every link is heard, then switch 0 takes a ping of host 2 right behind its own control
packet, so that the ping is next in its queue. -/
def pingTheRoot : List (Event (Fin 3)) :=
  List.replicate 5 (quiet 0) ++ List.replicate 5 (quiet 1) ++
    [.send 2 hostHello, sweep 0, sweep 1] ++
    List.replicate 3 (quiet 0) ++
    [.send 2 pingFifty, sweep 0]

def doubleElected : State (Fin 3) :=
  electOverDouble.foldl (next doubleLink) (initial doubleLink)

def pinged : State (Fin 3) := pingTheRoot.foldl (next doubleLink) doubleElected

theorem doubleElected_reachable : Reachable doubleLink fifo doubleElected :=
  Runs.events electOverDouble (by decide +kernel)

theorem pinged_run : Runs doubleLink fifo doubleElected pinged :=
  Runs.events pingTheRoot (by decide +kernel)

theorem pinged_settled : Settled doubleLink pinged :=
  heard_settled doubleElected_reachable.actions pinged_run (unchanged_of_fields (by decide +kernel))
    (heard_of_ports (by decide +kernel))

theorem doubleLink_connected : doubleLink.Connected := Topology.connected_of_hub 0 (by decide)

/-- The root is about to send the ping over the second link, which is nobody's parent link. -/
theorem doubleLink_leaves_tree : doubleLink.Connected ∧ Reachable doubleLink fifo pinged ∧
    Settled doubleLink pinged ∧ ∃ job ∈ (pinged.switch 0).jobQ, DataFlood job 2 ∧
      ¬ StaysOnTree doubleLink pinged 0 job := by
  refine ⟨doubleLink_connected, doubleElected_reachable.trans pinged_run, pinged_settled, ?_⟩
  have hqueue : ∃ job ∈ (pinged.switch 0).jobQ, job.type = .sendPktAllPorts ∧
      job.packet.type ≠ pktControlPacket ∧ job.inPortIndex = 2 ∧
      ∃ o ∈ jobSends (doubleLink.nodePortNum 0) (pinged.switch 0) job, o.1 = 1 := by
    decide +kernel
  have hoff : ¬ ParentLink doubleLink pinged (0, 1) := by
    unfold ParentLink
    decide +kernel
  obtain ⟨job, hj, h1, h2, h3, o, ho, hk⟩ := hqueue
  refine ⟨job, hj, ⟨h1, h2, h3⟩, fun hstay => ?_⟩
  rcases hstay o ho with h | h
  · rw [hk] at h
    exact absurd h (by decide)
  · rw [hk] at h
    exact hoff h

theorem floods_on_tree_iff_hostedPair : FloodsOnTree hostedPair heard := by
  have hset : Settled hostedPair heard :=
    heard_settled elected_reachable.actions heard_run heard_unchanged heard_everywhere
  refine (floods_on_tree_iff (elected_reachable.trans heard_run) hset).mpr ⟨?_, ?_⟩
  · have hother : ∀ r : Fin 3, ∀ k < hostedPair.nodePortNum r, (hostedPair.peer (r, k)).1 ≠ r := by
      decide
    intro r k _ _ hk
    exact hother r k hk
  · have hapart : ∀ r : Fin 3, ∀ j < hostedPair.nodePortNum r, ∀ k < hostedPair.nodePortNum r,
        (hostedPair.peer (r, j)).1 = (hostedPair.peer (r, k)).1 → j = k := by decide
    intro r j k _ _ hj hk _ hsame
    exact hapart r j hj k hk hsame

end FloodLinks
