import NetSim.LinkTraffic
import NetSim.FlagTree

/-! Port flags after the election has come to rest. From a time T on every control packet tells
the same; once one made after T has come over a link, FIFO order keeps older ones away, and
the flags of the two ports agree on whether the link is in the tree. -/
namespace PortFlags

open PacketCodec SwitchNode NetworkTopology NetworkRuns LinkSends CarriedFrames LinkTraffic
  SwitchElection ElectedTree FlagTree

variable {ι : Type}

/-- No switch has changed its root, distance or parent since T. -/
def Unchanged (net : Topology ι) (T st : State ι) : Prop :=
  ∀ s, net.IsSwitch s → election (st.switch s) = election (T.switch s) ∧
    (st.switch s).localParent = (T.switch s).localParent

def Fresh (T : State ι) (x : Header) : Prop := x.type = pktControlPacket ∧ T.clock ≤ x.stamp

instance (T : State ι) (x : Header) : Decidable (Fresh T x) :=
  inferInstanceAs (Decidable (_ ∧ _))

def Announces (net : Topology ι) (T : State ι) (w : ι) (f : Frame) : Prop :=
  Fresh T (header f) → net.IsSwitch w →
    f.packetRootID.toInt = (T.switch w).localRootID ∧
      f.packetRootDist = (T.switch w).localRootDist

def PortDone (net : Topology ι) (T st : State ι) (q : Port ι) : Prop :=
  (PortYes st q ↔ ParentLink net T q) ∧ election (T.switch q.1) ≤
    toLex ((T.switch (net.peer q).1).localRootID, (T.switch (net.peer q).1).localRootDist + 1)

variable [DecidableEq ι]

/-- What holds in a run after T as long as the election does not move. -/
structure Since (net : Topology ι) (T st : State ι) : Prop where
  reached : ActionReachable net fifo st
  unchanged : Unchanged net T st
  clock_le : T.clock ≤ st.clock
  frames : Carried net (Announces net T) st
  child : ∀ q, net.IsPort q → net.IsSwitch (net.peer q).1 → ∀ f ∈ st.channel q,
    Fresh T (header f) → (f.packetSenderChild = charY ↔
      (T.switch (net.peer q).1).localParent = (net.peer q).2)
  ordered : ∀ q, net.IsPort q → (trail net st q).Pairwise fun x y =>
    Fresh T x → y.type = pktControlPacket → Fresh T y
  done : ∀ q, SwitchLink net q → (∃ f ∈ st.received q, Fresh T (header f)) → PortDone net T st q

variable {net : Topology ι} {T st : State ι}

theorem since_start (hT : ActionReachable net fifo T) : Since net T T := by
  have hst := reachable_stamped hT
  have old : ∀ w f, Stamped T w f → ¬ Fresh T (header f) := by
    intro w f hs hf
    have h1 : f.stamp < T.clock := hs
    have h2 : T.clock ≤ f.stamp := hf.2
    omega
  refine
    { reached := hT
      unchanged := fun s _ => ⟨rfl, rfl⟩
      clock_le := le_rfl
      frames := ⟨?_, ?_, ?_⟩
      child := ?_
      ordered := ?_
      done := ?_ }
  · exact fun s hs job hj hf => absurd hf (old _ _ (hst.queued s hs job hj))
  · exact fun p hp f hm hf => absurd hf (old _ _ (hst.inFlight p hp f hm))
  · exact fun p hp f hm hf => absurd hf (old _ _ (hst.taken p hp f hm))
  · exact fun q hq _ f hm hf => absurd hf (old _ _ (hst.inFlight q hq f hm))
  · intro q hq
    apply List.pairwise_of_forall_mem_list
    intro x hx y _ hf
    obtain ⟨f, rfl, hs⟩ := carried_trail hst (reachable_idle hT) hq hx
    exact absurd hf (old _ _ hs)
  · rintro q hq ⟨f, hm, hf⟩
    exact absurd hf (old _ _ (hst.taken q hq.1 f hm))

theorem Since.idle (h : Since net T st) : Idle net st := reachable_idle h.reached

theorem Since.elected (h : Since net T st) : Election net st := reachable_election h.reached

theorem announces_carriable (h : Since net T st) (a : Action ι) :
    Carriable net (fun _ => Announces net T) st a where
  mono _ _ h := h
  created s _ hs _ _ := by
    have hsup := h.elected.backed s hs
    obtain ⟨hroot, hdist⟩ := election_eq (h.unchanged s hs).1
    exact ⟨hsup.root_char.trans hroot, hdist⟩
  hosted v p _ hv _ _ hs := absurd hs hv
  relayed p rx f _ _ _ hd _ _ hf := absurd hf.1 hd
  marked _ _ _ _ _ h := h
  delivered w f prior hf hfr hw := by
    obtain ⟨h1, h2⟩ := hf hfr hw
    refine ⟨h1, ?_⟩
    change (Int8.ofInt f.packetRootDist).toInt = _
    obtain ⟨_, hdist⟩ := election_eq (h.unchanged w hw).1
    rw [h2, ← hdist]
    exact (h.elected.backed w hw).dist_char

/-- The child byte is set when the packet is sent, from the parent the sender has since T. -/
theorem child_act (h : Since net T st) {a : Action ι} (hp : Permitted net a) {q : Port ι}
    (hq : net.IsPort q) (hs : net.IsSwitch (net.peer q).1) {f : Frame}
    (hf : f ∈ (act net st a).channel q) (hfr : Fresh T (header f)) :
    f.packetSenderChild = charY ↔ (T.switch (net.peer q).1).localParent = (net.peer q).2 := by
  rcases mem_act_channel net hq hf with hm | ⟨job, rest, rfl, hj, hsend⟩ | ⟨p, rfl, _⟩
  · exact h.child q hq hs f hm hfr
  · obtain ⟨_, hhead⟩ := sendsOn_mayUse hsend
    have hc : job.packet.type = pktControlPacket := (congrArg Header.type hhead).symm.trans hfr.1
    have ht := reachable_controlFloods h.reached _ job (by rw [hj]; simp) hc
    simp only [sendsOn, ht, hc, if_true, Option.some.injEq] at hsend
    subst hsend
    have hpar := (h.unchanged (net.peer q).1 hs).2
    rw [← hpar]
    by_cases hk : (st.switch (net.peer q).1).localParent = (net.peer q).2
    · simp [childMark, hk]
    · simp only [childMark, hk, if_false, iff_false]
      decide
  · exact absurd hs hp.1

theorem ordered_act (h : Since net T st) {a : Action ι} (hp : Permitted net a) (hf : fifo a)
    {q : Port ι} (hq : net.IsPort q) :
    (trail net (act net st a) q).Pairwise fun x y =>
      Fresh T x → y.type = pktControlPacket → Fresh T y := by
  refine pairwise_trail_act h.idle hp hf hq (h.ordered q hq) ?_
  intro x _ y hy _ hc
  exact ⟨hc, (entering_control hy hc).symm ▸ h.clock_le⟩

theorem fresh_head (h : Since net T st) {q : Port ι} (hq : net.IsPort q) {f g : Frame} {i : ℕ}
    (hg : g ∈ st.received q) (hfr : Fresh T (header g)) (hf : (st.channel q)[i]? = some f)
    (hc : f.type = pktControlPacket) : Fresh T (header f) := by
  have hord := h.ordered q hq
  rw [trail, List.map_append, List.append_assoc, List.pairwise_append] at hord
  apply hord.2.2 _ (List.mem_map_of_mem hg) _ _ hfr hc
  exact List.mem_append_left _ (List.mem_map_of_mem (List.mem_of_getElem? hf))

theorem done_receive (h : Since net T st) {q : Port ι} {rx : Rx} (hq : SwitchLink net q)
    (hu : Unchanged net T (act net st (.receive q rx))) {f : Frame}
    (hf : (st.channel q)[rx.index]? = some f) (hfr : Fresh T (header f)) :
    PortDone net T (act net st (.receive q rx)) q := by
  have hm := List.mem_of_getElem? hf
  have hc : (f.deliver rx.prior).type = pktControlPacket := hfr.1
  have hsign : (f.deliver rx.prior).packetSenderType = charS :=
    ((reachable_signed h.reached).inFlight q hq.1 f hm hfr.1).trans (if_pos hq.2.2)
  -- the pair does not move, so the election leaves the switch as it is
  have hstay : electRoot q.2 (f.deliver rx.prior).toPacket (st.switch q.1) = st.switch q.1 := by
    apply electRoot_parent
    have h1 := (hu q.1 hq.2.1).1
    rw [receive_switch hf, receivePacket_election, if_pos hc] at h1
    rw [h1, (h.unchanged q.1 hq.2.1).1]
  obtain ⟨hroot, hdist⟩ := ((announces_carriable h (.receive q rx)).delivered _ _ rx.prior
    (h.frames.inFlight q hq.1 f hm)) hfr hq.2.2
  constructor
  · have hchild := h.child q hq.1 hq.2.2 f hm hfr
    have hpar := (h.unchanged q.1 hq.2.1).2
    rw [PortYes, receive_flag hf hfr.1, hstay, portFlag_switch hsign, ParentLink, ← hpar]
    exact or_congr_right hchild
  · have hle : election (electRoot q.2 _ (st.switch q.1)) ≤ _ := electRoot_le_offer hsign
    rw [hstay, (h.unchanged q.1 hq.2.1).1, offer] at hle
    rwa [← hroot, ← hdist]

theorem done_act (h : Since net T st) {a : Action ι} (hp : Permitted net a)
    (hu : Unchanged net T (act net st a)) {q : Port ι} (hq : SwitchLink net q)
    (hr : ∃ f ∈ (act net st a).received q, Fresh T (header f)) :
    PortDone net T (act net st a) q := by
  obtain ⟨g', hg', hfr'⟩ := hr
  -- either the port has taken a fresh packet before, or it takes one now
  have hcase : (∃ f ∈ st.received q, Fresh T (header f)) ∨ ∃ rx f, a = .receive q rx ∧
      (st.channel q)[rx.index]? = some f ∧ Fresh T (header f) := by
    rcases act_received net st a q with he | ⟨rx, f, ha, hc, he⟩
    · exact Or.inl ⟨g', he ▸ hg', hfr'⟩
    · rw [he, List.mem_append, List.mem_singleton] at hg'
      rcases hg' with hg' | rfl
      · exact Or.inl ⟨g', hg', hfr'⟩
      · rcases ha with rfl | rfl
        · exact Or.inr ⟨rx, f, rfl, hc, hfr'⟩
        · exact absurd hq.2.1 hp.1
  rcases hcase with ⟨g, hg, hfr⟩ | ⟨rx, f, rfl, hc, hfr⟩
  · rcases act_localPortTree net st a q with he | ⟨rx, f, rfl, hf, hc, _⟩
    · obtain ⟨h1, h2⟩ := h.done q hq ⟨g, hg, hfr⟩
      refine ⟨?_, h2⟩
      rw [PortYes, he]
      exact h1
    · exact done_receive h hq hu hf (fresh_head h hq.1 hg hfr hf hc)
  · exact done_receive h hq hu hc hfr

theorem Since.act (h : Since net T st) {a : Action ι} (hp : Permitted net a) (hf : fifo a)
    (hu : Unchanged net T (act net st a)) : Since net T (act net st a) where
  reached := h.reached.tail ⟨a, hp, hf, rfl⟩
  unchanged := hu
  clock_le := h.clock_le.trans (act_clock_le net st a)
  frames := h.frames.act hp (announces_carriable h a)
  child _ hq hs _ hm hfr := child_act h hp hq hs hm hfr
  ordered _ hq := ordered_act h hp hf hq
  done _ hq hr := done_act h hp hu hq hr

/-- Pairs only fall, so one that is the same at the end has been the same in between. -/
theorem unchanged_before {a : Action ι} (hle : ∀ s, election (st.switch s) ≤ election (T.switch s))
    (hu : Unchanged net T (act net st a)) : Unchanged net T st := by
  intro s hs
  obtain ⟨h1, h2⟩ := hu s hs
  have he : election (st.switch s) = election (T.switch s) :=
    le_antisymm (hle s) (h1 ▸ act_election_le net st a s)
  refine ⟨he, ?_⟩
  rcases act_election net st a s with ⟨_, hpar⟩ | ⟨_, _, _, _, _, _, _, _, hlt, heq, _⟩
  · exact hpar ▸ h2
  · rw [← heq, h1, he] at hlt
    exact absurd hlt (lt_irrefl _)

theorem since_run (hT : ActionReachable net fifo T) (h : ActionRuns net fifo T st)
    (hu : Unchanged net T st) : Since net T st := by
  induction h with
  | refl => exact since_start hT
  | tail hm hstep ih =>
    obtain ⟨a, hp, hf, rfl⟩ := hstep
    exact (ih (unchanged_before (actionRuns_election_le hm) hu)).act hp hf hu

/-- Only a host or the DNS server is heard on its link, so the first control packet sets the
flag for good. -/
theorem host_port_yes (h : ActionReachable net fifo st) {q : Port ι} (hq : net.IsPort q)
    (hs : net.IsSwitch q.1) (hw : ¬ net.IsSwitch (net.peer q).1)
    (hr : ∃ f ∈ st.received q, f.type = pktControlPacket) : PortYes st q := by
  induction h with
  | refl =>
    obtain ⟨f, hf, _⟩ := hr
    cases hf
  | @tail u _ hm hstep ih =>
    obtain ⟨a, hp, _, rfl⟩ := hstep
    have hsign : ∀ {i : ℕ} {f : Frame}, (u.channel q)[i]? = some f → f.type = pktControlPacket →
        ∀ prior, (f.deliver prior).packetSenderType = charH := by
      intro i f hf hc prior
      exact ((reachable_signed hm).inFlight q hq f (List.mem_of_getElem? hf) hc).trans (if_neg hw)
    have hkeep : PortYes u q → PortYes (NetworkRuns.act net u a) q := by
      intro hy
      rcases act_localPortTree net u a q with he | ⟨rx, f, _, hf, hc, he⟩
      · exact he.trans hy
      · exact he.trans (portFlag_host (hsign hf hc rx.prior) _)
    obtain ⟨g, hg, hc⟩ := hr
    rcases act_received net u a q with he | ⟨rx, f, ha, hf, he⟩
    · exact hkeep (ih ⟨g, he ▸ hg, hc⟩)
    · rw [he, List.mem_append, List.mem_singleton] at hg
      rcases hg with hg | rfl
      · exact hkeep (ih ⟨g, hg, hc⟩)
      · rcases ha with rfl | rfl
        · exact (receive_flag hf hc).trans (portFlag_host (hsign hf hc rx.prior) _)
        · exact absurd hs hp.1

/-- Every link of two switches has brought a control packet made after T, and every link of a
host or the DNS server some control packet. -/
structure Heard (net : Topology ι) (T st : State ι) : Prop where
  switches : ∀ q, SwitchLink net q → ∃ f ∈ st.received q, Fresh T (header f)
  hosts : ∀ q, net.IsPort q → net.IsSwitch q.1 → ¬ net.IsSwitch (net.peer q).1 →
    ∃ f ∈ st.received q, f.type = pktControlPacket

theorem heard_noBetterOffer (h : Since net T st) (hh : Heard net T st) :
    NoBetterOffer net st := by
  rintro s t ⟨_, hs, ht, k, hk, rfl⟩
  have hq : SwitchLink net (s, k) := ⟨hk, hs, ht⟩
  obtain ⟨_, hle⟩ := h.done _ hq (hh.switches _ hq)
  obtain ⟨hroot, hdist⟩ := election_eq (h.unchanged _ ht).1
  rwa [(h.unchanged s hs).1, hroot, hdist]

theorem heard_treeFlags (h : Since net T st) (hh : Heard net T st) : TreeFlags net st := by
  refine treeFlags h.elected (heard_noBetterOffer h hh) ?_ ?_
  · intro q hq
    rw [(h.done q hq (hh.switches q hq)).1, ParentLink, ParentLink, (h.unchanged _ hq.2.1).2,
      (h.unchanged _ hq.2.2).2]
  · intro q hq hs hw
    exact host_port_yes h.reached hq hs hw (hh.hosts q hq hs hw)

/-- Once the election rests and every link has been heard since, the flags of the switch ports
are the spanning tree of parent links, and all ports to hosts are YES. -/
theorem settled_flags_tree (hconn : net.Connected) (hT : Reachable net fifo T)
    (hrun : Runs net fifo T st) (hquiet : Unchanged net T st) (hheard : Heard net T st) :
    TreeFlags net st ∧
      ∀ s t, net.IsSwitch s → net.IsSwitch t → (treeGraph net st).Reachable s t := by
  have htree := heard_treeFlags (since_run hT.actions hrun.actionRuns hquiet) hheard
  exact ⟨htree, fun s t hs ht => htree.spans s t hs ht (hconn s t hs ht)⟩

omit [DecidableEq ι] in
theorem unchanged_of_fields (h : ∀ s, net.IsSwitch s →
    (st.switch s).localRootID = (T.switch s).localRootID ∧
      (st.switch s).localRootDist = (T.switch s).localRootDist ∧
      (st.switch s).localParent = (T.switch s).localParent) : Unchanged net T st := by
  intro s hs
  obtain ⟨h1, h2, h3⟩ := h s hs
  exact ⟨by rw [election, election, h1, h2], h3⟩

omit [DecidableEq ι] in
theorem heard_of_ports (h : ∀ s, ∀ k < net.nodePortNum s, net.IsSwitch s →
    if net.IsSwitch (net.peer (s, k)).1 then ∃ f ∈ st.received (s, k), Fresh T (header f)
    else ∃ f ∈ st.received (s, k), f.type = pktControlPacket) : Heard net T st where
  switches q hq := by
    have := h q.1 q.2 hq.1 hq.2.1
    rwa [if_pos hq.2.2] at this
  hosts q hp hs hw := by
    have := h q.1 q.2 hp hs
    rwa [if_neg hw] at this

/-- Two switches and a host at the first. -/
def hostedPair : Topology (Fin 3) :=
  NetworkWiring.ofConfig [(0, 1), (0, 2)] ![.switch, .switch, .host] ![0, 1, 2]
    NetworkWiring.ids_three NetworkWiring.ids_three_range

def hostHello : Packet := ⟨2, 0, pktControlPacket, 0, fun _ => 0, 0, 0, charH, charY⟩

def electFirst : List (Event (Fin 3)) :=
  List.replicate 5 (quiet 0) ++ [sweep 1]

def hearAll : List (Event (Fin 3)) :=
  List.replicate 5 (quiet 0) ++ List.replicate 5 (quiet 1) ++
    [.send 2 hostHello, sweep 0, sweep 1]

def elected : State (Fin 3) := electFirst.foldl (next hostedPair) (initial hostedPair)

def heard : State (Fin 3) := hearAll.foldl (next hostedPair) elected

theorem elected_reachable : Reachable hostedPair fifo elected :=
  Runs.events electFirst (by decide +kernel)

theorem heard_run : Runs hostedPair fifo elected heard :=
  Runs.events hearAll (by decide +kernel)

theorem hostedPair_connected : hostedPair.Connected := Topology.connected_of_hub 0 (by decide)

theorem heard_unchanged : Unchanged hostedPair elected heard :=
  unchanged_of_fields (by decide +kernel)

theorem heard_everywhere : Heard hostedPair elected heard := heard_of_ports (by decide +kernel)

theorem settled_flags_tree_hostedPair : TreeFlags hostedPair heard ∧ ∀ s t,
    hostedPair.IsSwitch s → hostedPair.IsSwitch t → (treeGraph hostedPair heard).Reachable s t :=
  settled_flags_tree hostedPair_connected elected_reachable heard_run heard_unchanged
    heard_everywhere

end PortFlags
