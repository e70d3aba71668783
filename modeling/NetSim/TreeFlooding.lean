import NetSim.DeliveryTree

/-! Flooding over the tree of a settled network. A packet for a node that only the switch of that
node may know goes over each tree link once, away from its sender. -/
namespace TreeFlooding

open PacketCodec SwitchNode NetworkTopology NetworkRuns LinkSends CarriedFrames LinkTraffic
  LearnedRoutes FlagTree PortFlags Settling Continuations PacketCopies GraphPaths TreeSpread
  DeliveryTree

variable {ι : Type} {net : Topology ι}

/-- The frame that set the entry for a: the first from its port with that source. -/
def teacher (st : State ι) (s : ι) (a : ℤ) : Option Frame :=
  (st.received (outPort st s a)).find? fun f => f.src.toInt = a

/-- Since st no switch has learned the id a, except from a copy of packet n. -/
def NothingLearned (net : Topology ι) (st u : State ι) (a : ℤ) (n : ℕ) : Prop :=
  ∀ s, net.IsSwitch s → Knows u s a → Knows st s a ∨ ∃ f, teacher u s a = some f ∧ f.stamp = n

/-- No copy of packet n is on its way or queued. -/
structure NoneLeft (net : Topology ι) (st : State ι) (n : ℕ) : Prop where
  channels : ∀ q, net.IsPort q → ∀ f ∈ st.channel q, f.stamp ≠ n
  queues : ∀ s, net.IsSwitch s → ∀ job ∈ (st.switch s).jobQ, job.packet.stamp ≠ n

/-- Every switch that knows the node with id a has it at the port of its entry. -/
def KnownAtNode (net : Topology ι) (st : State ι) (a : ℤ) : Prop :=
  ∀ s, net.IsSwitch s → Knows st s a → net.IsPort (outPort st s a) ∧
    ¬ net.IsSwitch (nextHop net st s a) ∧ net.id (nextHop net st s a) = a

/-- Roots, parents and flags are settled, and the packet x is for a node that at most its own
switch knows. -/
structure Calm (net : Topology ι) (st : State ι) (x : Header) : Prop where
  tree : SettledTree net st
  simple : net.SimpleSwitches
  singleLink : net.SingleLinkHosts
  onSwitches : net.HostsOnSwitches
  data : x.type ≠ pktControlPacket
  inTable : InTable x.dst.toInt
  known : KnownAtNode net st x.dst.toInt

variable {T st : State ι} {h : ι} {x : Header}

theorem Calm.links (hc : Calm net T x) :
    TreeLinks net (deliveryGraph net T) (TreePort net T) :=
  delivery_links hc.tree.flags hc.simple hc.singleLink hc.onSwitches

variable [DecidableEq ι]

/-- The progress of packet x since it was sent in state T. -/
structure Flooding (net : Topology ι) (T : State ι) (h : ι) (x : Header) (st : State ι) : Prop where
  spread : Spread net (deliveryGraph net T) (TreePort net T) h x st
  keeps : KeepsEntries T st
  jobs : ∀ s, net.IsSwitch s → ∀ job ∈ (st.switch s).jobQ, job.packet.stamp = x.stamp →
    job.type = .sendPktAllPorts ∨ job.type = .forwardPacket ∧ TreePort net T (s, job.outPortIndex)
  flooded : ∀ q, TreePort net T q → net.IsSwitch (net.peer q).1 →
    ¬ Knows T (net.peer q).1 x.dst.toInt → copies x.stamp (trail net st q) =
      takenFrom st x.stamp (net.peer q).1
        ((Finset.range (net.nodePortNum (net.peer q).1)).erase (net.peer q).2)
  forwarded : ∀ q, TreePort net T q → net.IsSwitch (net.peer q).1 →
    Knows T (net.peer q).1 x.dst.toInt → outPort T (net.peer q).1 x.dst.toInt = net.peer q →
    copies x.stamp (trail net st q) = handled net st x.stamp (net.peer q).1
  sentOnce : ∀ q, TreePort net T q → (net.peer q).1 = h → copies x.stamp (trail net st q) = 1

theorem Flooding.lookup (hc : Calm net T x) (hF : Flooding net T h x st)
    (hno : ∀ s, net.IsSwitch s → Knows st s x.dst.toInt →
      Knows T s x.dst.toInt ∨ 0 < handled net st x.stamp s)
    {p : Port ι} (hp : net.IsPort p) (hs : net.IsSwitch p.1) {f : Frame} (hf : f ∈ st.channel p)
    (hn : f.stamp = x.stamp) : Knows st p.1 x.dst.toInt ↔ Knows T p.1 x.dst.toInt := by
  constructor
  · intro hk
    rcases hno p.1 hs hk with h1 | h1
    · exact h1
    · rw [hF.spread.not_handled hc.links hp hs hf hn] at h1
      exact absurd h1 (lt_irrefl 0)
  · exact fun hk => (hF.keeps p.1 _ hk).1

theorem Flooding.passes_iff (hc : Calm net T x) (hF : Flooding net T h x st)
    (hno : ∀ s, net.IsSwitch s → Knows st s x.dst.toInt →
      Knows T s x.dst.toInt ∨ 0 < handled net st x.stamp s)
    {a : Action ι} (hp : Permitted net a) {q : Port ι} (hs : net.IsSwitch (net.peer q).1) {k : ℕ}
    (ht : Takes st x.stamp a (net.peer q).1 k) : Passes net st x.stamp a k q ↔
      (Knows T (net.peer q).1 x.dst.toInt ∧ outPort T (net.peer q).1 x.dst.toInt = net.peer q) ∨
        (¬ Knows T (net.peer q).1 x.dst.toInt ∧ (net.peer q).2 ≠ k) := by
  obtain ⟨rx, f, ha, hf, hn⟩ := ht
  obtain rfl : a = .receive ((net.peer q).1, k) rx := by
    rcases ha with ha | ha
    · exact ha
    · rw [ha] at hp
      exact absurd hs hp.1
  have hmem := List.mem_of_getElem? hf
  have hlook := hF.lookup hc hno (p := ((net.peer q).1, k)) hp.2 hs hmem hn
  have hx : header f = x := hF.spread.same _ hp.2 _ (mem_trail_channel hmem) hn
  have hd : f.type ≠ pktControlPacket := by
    have := hc.data
    rwa [← hx] at this
  have hout : Knows T (net.peer q).1 x.dst.toInt →
      outPort st (net.peer q).1 x.dst.toInt = outPort T (net.peer q).1 x.dst.toInt :=
    fun hk => (hF.keeps _ _ hk).2
  constructor
  · intro hpass
    rcases hF.spread.toPacketSent.passes hc.data hc.inTable hp hpass with ⟨h1, h2⟩ | ⟨h1, h2⟩
    · have hk := hlook.mp h1
      exact Or.inl ⟨hk, (hout hk).symm.trans h2⟩
    · exact Or.inr ⟨fun hk => h1 (hlook.mpr hk), h2⟩
  · intro hor
    refine ⟨rx, f, rfl, hf, hn, hd,
      (hF.spread.mayUse_iff hc.data hc.inTable hp.2 hmem hn rx _).mpr ?_⟩
    rcases hor with ⟨h1, h2⟩ | ⟨h1, h2⟩
    · exact Or.inl ⟨hlook.mpr h1, (hout h1).trans h2⟩
    · exact Or.inr ⟨fun hk => h1 (hlook.mp hk), h2⟩

/-- What the progress of the packet rests on in one step: an action without loss, no other
learning so far, and a switch that sends has the parent and the flags of T. -/
structure CalmStep (net : Topology ι) (T : State ι) (x : Header) (st : State ι) (a : Action ι) :
    Prop where
  permitted : Permitted net a
  noLoss : lossless a
  unlearned : ∀ s, net.IsSwitch s → Knows st s x.dst.toInt →
    Knows T s x.dst.toInt ∨ 0 < handled net st x.stamp s
  parent : ∀ s, a = .execute s → (st.switch s).localParent = (T.switch s).localParent
  flags : ∀ s, a = .execute s → ∀ k, net.IsPort (s, k) →
    (st.switch s).localPortTree k = (T.switch s).localPortTree k

section Step

variable {a : Action ι} (hc : Calm net T x) (hF : Flooding net T h x st)
  (ha : CalmStep net T x st a)
include hc hF ha

theorem Flooding.passes_away (k : ℕ) (q : Port ι) (hq : TreePort net T q)
    (hpass : Passes net st x.stamp a k q) :
    Away (deliveryGraph net T) h (net.peer q).1 q.1 ∨ q.1 = h := by
  obtain ⟨rx, f, rfl, hf, hn, _⟩ := id hpass
  obtain ⟨hs, hport⟩ := ha.permitted
  have hmem := List.mem_of_getElem? hf
  have htree := hF.spread.onTree _ hport f (List.mem_append_right _ hmem) hn
  have hside := (hF.spread.away _ htree _ (mem_trail_channel hmem) hn).resolve_right fun he =>
    hF.spread.host (he ▸ hs)
  have hstep : (net.peer q).2 ≠ k → Away (deliveryGraph net T) h (net.peer q).1 q.1 :=
    hc.links.away_step hq htree hside
  rcases (hF.passes_iff hc ha.unlearned ha.permitted hs hpass.takes).mp hpass with
    ⟨hk, hout⟩ | ⟨_, hne⟩
  · by_cases hne : (net.peer q).2 = k
    · -- the packet goes back to its sender, which is also its destination
      refine Or.inr ?_
      have hback : net.peer ((net.peer q).1, k) = q := by
        rw [← hne, Prod.eta, hq.1.peer_peer]
      have hD := (hc.known _ hs hk).2.1
      rw [nextHop, hout, hq.1.peer_peer, ← hback] at hD
      have hx := hF.spread.same _ hport _ (mem_trail_channel hmem) hn
      rw [← copy_sender hF.spread.reached hF.spread.source hport (hx ▸ mem_trail_channel hmem) hD,
        hback]
    · exact Or.inl (hstep hne)
  · exact Or.inl (hstep hne)

theorem Flooding.sends_tree {q : Port ι} (hq : net.IsPort q) {f : Frame}
    (hf : f ∈ (act net st a).channel q) (hn : f.stamp = x.stamp) : TreePort net T q := by
  rcases mem_act_channel net hq hf with hm | ⟨job, rest, rfl, hj, hsend⟩ | ⟨p, _, rfl⟩
  · exact hF.spread.onTree q hq f (List.mem_append_right _ hm) hn
  · have hs : net.IsSwitch (net.peer q).1 := ha.permitted
    have hmem : job ∈ (st.switch (net.peer q).1).jobQ := by rw [hj]; exact List.mem_cons_self
    obtain ⟨hm, hhead⟩ := sendsOn_mayUse hsend
    have hstamp : job.packet.stamp = x.stamp := (congrArg Header.stamp hhead).symm.trans hn
    have hqueued : header job.packet ∈ trail net st q := by
      apply List.mem_append_right
      apply List.mem_map_of_mem
      apply List.mem_map_of_mem
      exact List.mem_filter.mpr ⟨hmem, by simpa using hm⟩
    have hx := hF.spread.same q hq _ hqueued hstamp
    have hd : job.packet.type ≠ pktControlPacket := by
      have := hc.data
      rwa [← hx] at this
    have hpeer : TreePort net T (net.peer q) := by
      rcases hF.jobs _ hs job hmem hstamp with ht | ⟨ht, hout⟩
      · simp only [sendsOn, ht, hd, if_false, Option.ite_none_right_eq_some] at hsend
        refine flood_treePort hc.tree hc.simple hq.peer hs ?_
        rw [PortYes, ← ha.flags _ rfl _ hq.peer, ← ha.parent _ rfl]
        exact hsend.1.1
      · simp only [sendsOn, ht, Option.ite_none_right_eq_some] at hsend
        rwa [hsend.1, Prod.eta] at hout
    rw [← hq.peer_peer]
    exact hpeer.peer hc.tree.flags
  · exact absurd hn hF.spread.old.ne'

theorem Flooding.trail_eq {q : Port ι} (hq : TreePort net T q) :
    trail net (act net st a) q = trail net st q ++ entering net st a q := by
  apply trail_act_lossless (reachable_idle hF.spread.reached) ha.permitted ha.noLoss hq.1
  rintro rfl job _ hm
  have hs : net.IsSwitch (net.peer q).1 := ha.permitted
  refine sendsOn_of_yes ?_ hm
  rw [ha.flags _ rfl _ hq.1.peer]
  exact (hq.peer hc.tree.flags).yes hc.tree.flags hs

theorem Flooding.jobs_act {s : ι} (hs : net.IsSwitch s) {job : SwitchJob}
    (hj : job ∈ ((act net st a).switch s).jobQ) (hn : job.packet.stamp = x.stamp) :
    job.type = .sendPktAllPorts ∨
      job.type = .forwardPacket ∧ TreePort net T (s, job.outPortIndex) := by
  rcases mem_act_jobQ net hj with hj | ⟨_, hpk, _⟩ | ⟨p, rx, f, rfl, rfl, hf, _, rfl⟩
  · exact hF.jobs s hs job hj hn
  · rw [hpk] at hn
    exact absurd hn hF.spread.old.ne'
  · rw [dataJob_packet] at hn
    have hmem := List.mem_of_getElem? hf
    have hx := hF.spread.same p ha.permitted.2 _ (mem_trail_channel hmem) hn
    have hdst : (f.deliver rx.prior).dst.toInt = x.dst.toInt := by
      rw [← hx]
      rfl
    have hlook := hF.lookup hc ha.unlearned ha.permitted.2 hs hmem hn
    by_cases hk : Knows st p.1 x.dst.toInt
    · obtain ⟨hport, hD, _⟩ := hc.known p.1 hs (hlook.mp hk)
      rw [dataJob_known (hdst ▸ hk) (hdst ▸ hc.inTable), hdst]
      refine Or.inr ⟨rfl, ?_⟩
      change TreePort net T (outPort st p.1 x.dst.toInt)
      rw [(hF.keeps p.1 _ (hlook.mp hk)).2]
      exact ⟨hport, fun hl => absurd hl.2.2 hD⟩
    · rw [dataJob_unknown (hdst ▸ hk) (hdst ▸ hc.inTable)]
      exact Or.inl rfl

theorem Flooding.act : Flooding net T h x (act net st a) where
  spread := hF.spread.act hc.links ha.permitted (lossless_fifo ha.noLoss)
    (hF.passes_away hc ha) fun _ hq _ hf hn => hF.sends_tree hc ha hq hf hn
  keeps := hF.keeps.trans (act_keepsEntries net st a)
  jobs _ hs _ hj hn := hF.jobs_act hc ha hs hj hn
  flooded q hq hs hk := by
    apply fed_act_lossless (hF.trail_eq hc ha hq) hF.spread.old _ _ (hF.flooded q hq hs hk)
    · intro k hpass
      rcases (hF.passes_iff hc ha.unlearned ha.permitted hs hpass.takes).mp hpass with h1 | h1
      · exact absurd h1.1 hk
      · obtain ⟨rx, f, rfl, _⟩ := hpass
        exact Finset.mem_erase.mpr ⟨h1.2.symm, Finset.mem_range.mpr ha.permitted.2⟩
    · intro k hmem ht
      exact (hF.passes_iff hc ha.unlearned ha.permitted hs ht).mpr
        (Or.inr ⟨hk, (Finset.ne_of_mem_erase hmem).symm⟩)
  forwarded q hq hs hk hout := by
    apply fed_act_lossless (hF.trail_eq hc ha hq) hF.spread.old _ _ (hF.forwarded q hq hs hk hout)
    · rintro k ⟨rx, f, rfl, _⟩
      exact Finset.mem_range.mpr ha.permitted.2
    · intro k _ ht
      exact (hF.passes_iff hc ha.unlearned ha.permitted hs ht).mpr (Or.inl ⟨hk, hout⟩)
  sentOnce q hq he := by
    rw [hF.trail_eq hc ha hq, copies_append, hF.sentOnce q hq he]
    rcases copies_entering net hF.spread.old a q with h0 | ⟨_, k, rx, f, rfl, _⟩
    · rw [h0]
    · have hs : net.IsSwitch (net.peer q).1 := ha.permitted.1
      exact absurd (he ▸ hs) hF.spread.host

end Step

theorem takenFrom_sent (hr : ActionReachable net fifo T) (h : ι) (p : Packet) {s : ι}
    {A : Finset ℕ} (hA : A ⊆ Finset.range (net.nodePortNum s)) :
    takenFrom (act net T (.send h p)) T.clock s A = 0 := by
  apply Finset.sum_eq_zero
  intro k hk
  have hport : net.IsPort (s, k) := Finset.mem_range.mp (hA hk)
  have hle := taken_le_copies net T T.clock (s, k)
  have hzero : copies T.clock (trail net T (s, k)) = 0 :=
    copies_eq_zero fun y hy => (old_stamps hr hport hy).ne
  exact Nat.le_zero.mp (hzero ▸ hle)

theorem flooding_start {p : Packet} (hc : Calm net T (header ⟨p, T.clock⟩))
    (hr : ActionReachable net fifo T) (hh : ¬ net.IsSwitch h) (hp : HostPacket net h p) :
    Flooding net T h (header ⟨p, T.clock⟩) (act net T (.send h p)) where
  spread := by
    apply spread_start hc.links hr hh hp
    exact fun q hq he => ⟨hq, fun hl => absurd (he ▸ hl.2.2) hh⟩
  keeps := act_keepsEntries net T _
  jobs s hs job hj hn := absurd hn ((reachable_stamped hr).queued s hs job hj).ne
  flooded q hq hs _ := (copies_sent_switch hr hh p hq.1 hs).trans
    (takenFrom_sent hr h p (Finset.erase_subset _ _)).symm
  forwarded q hq hs _ _ := (copies_sent_switch hr hh p hq.1 hs).trans
    (takenFrom_sent hr h p Finset.Subset.rfl).symm
  sentOnce q hq he := by
    have hone := copies_sent hr hh p hq.1
    rwa [if_pos he] at hone

theorem NothingLearned.before {a : ℤ} {n : ℕ} {u : State ι} (hu : NothingLearned net T u a n)
    {D : Action ι → Prop} (hr : ActionReachable net fifo st) (hrun : ActionRuns net D st u) :
    NothingLearned net T st a n := by
  intro s hs hk
  obtain ⟨hku, hout⟩ := actionRuns_keepEntries hrun s a hk
  rcases hu s hs hku with h1 | ⟨f, hf, hn⟩
  · exact Or.inl h1
  · obtain ⟨_, g, hg, hsrc⟩ := reachable_taught hr s hs a hk
    obtain ⟨l, hl⟩ := actionRuns_received hrun (outPort st s a)
    rw [teacher, hout, ← hl, List.find?_append, ← teacher] at hf
    cases hfind : teacher st s a with
    | none =>
      have := List.find?_eq_none.mp hfind g hg
      simp [hsrc] at this
    | some f' =>
      rw [hfind] at hf
      cases hf
      exact Or.inr ⟨f, rfl, hn⟩

theorem NothingLearned.unlearned {a : ℤ} {n : ℕ} (h : NothingLearned net T st a n)
    (hr : ActionReachable net fifo st) (s : ι) (hs : net.IsSwitch s) (hk : Knows st s a) :
    Knows T s a ∨ 0 < handled net st n s := by
  rcases h s hs hk with h1 | ⟨f, hf, hn⟩
  · exact Or.inl h1
  · refine Or.inr ?_
    obtain ⟨hport, _⟩ := reachable_taught hr s hs a hk
    have hpos : 0 < taken st n (outPort st s a) :=
      taken_pos.mpr ⟨f, List.mem_of_find?_eq_some hf, hn⟩
    exact hpos.trans_le (taken_le_takenFrom st n s (Finset.mem_range.mpr hport))

theorem flooding_list (hc : Calm net T x) (l : List (Action ι))
    (hl : ∀ a ∈ l, Permitted net a ∧ lossless a ∧ ∀ s, a ≠ .execute s)
    (hF : Flooding net T h x st)
    (hlearn : NothingLearned net T (l.foldl (NetworkRuns.act net) st) x.dst.toInt x.stamp) :
    Flooding net T h x (l.foldl (NetworkRuns.act net) st) := by
  induction l generalizing st with
  | nil => exact hF
  | cons a l ih =>
    have hrest : ActionRuns net lossless st ((a :: l).foldl (NetworkRuns.act net) st) :=
      actionRuns_foldl _ _ fun b hb => ⟨(hl b hb).1, (hl b hb).2.1⟩
    obtain ⟨hp, hll, hne⟩ := hl a (by simp)
    have hstep : CalmStep net T x st a :=
      { permitted := hp
        noLoss := hll
        unlearned := (hlearn.before hF.spread.reached hrest).unlearned hF.spread.reached
        parent := fun s he => absurd he (hne s)
        flags := fun s he => absurd he (hne s) }
    exact ih (fun b hb => hl b (by simp [hb])) (hF.act hc hstep) hlearn

variable (net) in
theorem execute_keeps (st : State ι) (s : ι) :
    ((act net st (.execute s)).switch s).localParent = (st.switch s).localParent ∧
      ((act net st (.execute s)).switch s).localPortTree = (st.switch s).localPortTree := by
  cases hj : (st.switch s).jobQ with
  | nil => rw [act_execute_nil hj]; exact ⟨rfl, rfl⟩
  | cons job rest => rw [execute_switch net hj]; exact ⟨rfl, rfl⟩

omit [DecidableEq ι] in
variable (net) in
theorem actions_iterate (s : ι) (rx : ℕ → Option Rx) :
    ∃ l, actions net (.iterate s rx) = l ++ [.execute s] ∧ ∀ a ∈ l, ∀ t, a ≠ .execute t := by
  refine ⟨_, rfl, ?_⟩
  rintro a ha t rfl
  simp at ha

theorem flooding_execute (hc : Calm net T x) {s : ι} (hs : net.IsSwitch s)
    (hF : Flooding net T h x st)
    (hlearn : NothingLearned net T (act net st (.execute s)) x.dst.toInt x.stamp)
    (hsame : SameTree net T (act net st (.execute s))) :
    Flooding net T h x (act net st (.execute s)) := by
  have hlast : ActionRuns net lossless st (act net st (.execute s)) :=
    Relation.ReflTransGen.single ⟨.execute s, hs, trivial, rfl⟩
  have hkeeps := execute_keeps net st s
  refine hF.act hc
    { permitted := hs
      noLoss := trivial
      unlearned := (hlearn.before hF.spread.reached hlast).unlearned hF.spread.reached
      parent := ?_
      flags := ?_ }
  · rintro t ⟨⟩
    exact hkeeps.1.symm.trans (hsame s hs).2.1
  · rintro t ⟨⟩ k hk
    exact (congrFun hkeeps.2 k).symm.trans ((hsame s hs).2.2 k hk)

/-- An event after which the tree is that of T. -/
theorem flooding_event (hc : Calm net T x) {e : Event ι} (he : Enabled net e)
    (hl : ∀ a ∈ actions net e, lossless a) (hF : Flooding net T h x st)
    (hlearn : NothingLearned net T (next net st e) x.dst.toInt x.stamp)
    (hsame : SameTree net T (next net st e)) : Flooding net T h x (next net st e) := by
  have hperm : ∀ a ∈ actions net e, Permitted net a := fun a => mem_actions_permitted he
  have hsingle : ∀ a, actions net e = [a] → (∀ t, a ≠ .execute t) →
      Flooding net T h x (next net st e) := by
    intro a hact hne
    apply flooding_list hc _ _ hF hlearn
    intro b hb
    obtain rfl : b = a := by rwa [hact, List.mem_singleton] at hb
    exact ⟨hperm _ hb, hl _ hb, hne⟩
  cases e with
  | iterate s rx =>
    have hs : net.IsSwitch s := he
    obtain ⟨l, hact, hne⟩ := actions_iterate net s rx
    simp only [next, hact, List.foldl_append, List.foldl_cons, List.foldl_nil] at *
    have hfirst : ∀ a ∈ l, Permitted net a ∧ lossless a ∧ ∀ t, a ≠ .execute t := fun a ha =>
      ⟨hperm a (List.mem_append_left _ ha), hl a (List.mem_append_left _ ha), hne a ha⟩
    have hreached : ActionReachable net fifo (l.foldl (NetworkRuns.act net) st) :=
      hF.spread.reached.trans (actionRuns_foldl _ _ fun a ha =>
        ⟨(hfirst a ha).1, lossless_fifo (hfirst a ha).2.1⟩)
    have hlast : ActionRuns net lossless (l.foldl (NetworkRuns.act net) st)
        (act net (l.foldl (NetworkRuns.act net) st) (.execute s)) :=
      Relation.ReflTransGen.single ⟨.execute s, hs, trivial, rfl⟩
    exact flooding_execute hc hs (flooding_list hc l hfirst hF (hlearn.before hreached hlast))
      hlearn hsame
  | send v p => exact hsingle _ rfl fun t ht => by cases ht
  | poll p rx => exact hsingle _ rfl fun t ht => by cases ht
  | lose p i => exact hsingle _ rfl fun t ht => by cases ht

theorem flooding_run {p : Packet} (hc : Calm net T (header ⟨p, T.clock⟩))
    (hr : ActionReachable net fifo T) (hset : Settled net T) (hh : ¬ net.IsSwitch h)
    (hp : HostPacket net h p) {u : State ι} (hrun : Runs net lossless (next net T (.send h p)) u)
    (hlearn : NothingLearned net T u p.dst.toInt T.clock) :
    Flooding net T h (header ⟨p, T.clock⟩) u := by
  have hfirst : Runs net lossless T (next net T (.send h p)) := Runs.send ⟨hh, hp⟩
  induction hrun with
  | refl => exact flooding_start hc hr hh hp
  | @tail v w hv hstep ih =>
    obtain ⟨e, hl, he, rfl⟩ := hstep
    have hevent : Runs net lossless v (next net v e) := Runs.single he hl
    have hTv : Runs net lossless T v := hfirst.trans hv
    have hreached : ActionReachable net fifo v := hr.trans hTv.fifo.actionRuns
    have hF := ih (hlearn.before hreached hevent.actionRuns)
    exact flooding_event hc he hl hF hlearn (hset _ (hTv.trans hevent))

omit [DecidableEq ι] in
theorem taken_eq_copies (hid : Idle net st) {n : ℕ} (hn : NoneLeft net st n) {q : Port ι}
    (hq : net.IsPort q) : taken st n q = copies n (trail net st q) := by
  have hchan : ((st.channel q).countP fun f => f.stamp = n) = 0 :=
    List.countP_eq_zero.mpr fun f hf => by simpa using hn.channels q hq f hf
  have hqueue : ((queuedFor st (net.peer q)).countP fun f => f.stamp = n) = 0 := by
    refine List.countP_eq_zero.mpr fun f hf => ?_
    obtain ⟨job, hj, rfl⟩ := List.mem_map.mp hf
    have hmem := (List.mem_filter.mp hj).1
    by_cases hs : net.IsSwitch (net.peer q).1
    · simpa using hn.queues _ hs job hmem
    · rw [hid _ hs] at hmem
      cases hmem
  rw [copies_trail, hchan, hqueue, Nat.add_zero]

section Complete

variable (hc : Calm net T x) (hF : Flooding net T h x st) (hn : NoneLeft net st x.stamp)
include hc hF hn

theorem Flooding.handled_one {s : ι} (hs : net.IsSwitch s) {k : ℕ} (hk : TreePort net T (s, k))
    (hone : copies x.stamp (trail net st (s, k)) = 1) : handled net st x.stamp s = 1 := by
  apply le_antisymm (hF.spread.handled_le_one hc.links hs)
  rw [← hone, ← taken_eq_copies (reachable_idle hF.spread.reached) hn hk.1]
  exact taken_le_takenFrom st x.stamp s (Finset.mem_range.mpr hk.1)

theorem Flooding.complete {s t : ι} (ha : Away (deliveryGraph net T) h s t) :
    ∀ k, TreePort net T (t, k) → (net.peer (t, k)).1 = s →
      copies x.stamp (trail net st (t, k)) = 1 ∨
        ∃ v, net.IsSwitch v ∧ Knows T v x.dst.toInt ∧ handled net st x.stamp v = 1 := by
  refine ha.induction (P := fun t => ∀ s, Away (deliveryGraph net T) h s t → ∀ k,
    TreePort net T (t, k) → (net.peer (t, k)).1 = s →
      copies x.stamp (trail net st (t, k)) = 1 ∨
        ∃ v, net.IsSwitch v ∧ Knows T v x.dst.toInt ∧ handled net st x.stamp v = 1) ?_ s ha
  rintro s' t ha' hprev s ha k hk rfl
  obtain rfl := ha.unique hc.links.acyclic ha'
  by_cases hh : (net.peer (t, k)).1 = h
  · exact Or.inl (hF.sentOnce _ hk hh)
  have hprev := hprev.resolve_left hh
  -- the link by which the packet has come to the sender
  obtain ⟨r, har, hrt⟩ := ha.before hc.links.acyclic hh
  by_cases hs : net.IsSwitch (net.peer (t, k)).1
  · obtain ⟨j, hj, hjr⟩ := exists_treePort hc.tree.flags har.adj.symm
    rcases hprev r har j hj hjr with hone | hknown
    · have hhand := hF.handled_one hc hn hs hj hone
      by_cases hkn : Knows T (net.peer (t, k)).1 x.dst.toInt
      · exact Or.inr ⟨_, hs, hkn, hhand⟩
      · refine Or.inl ?_
        rw [hF.flooded _ hk hs hkn]
        have hmem : j ∈ (Finset.range (net.nodePortNum (net.peer (t, k)).1)).erase
            (net.peer (t, k)).2 := by
          refine Finset.mem_erase.mpr ⟨?_, Finset.mem_range.mpr hj.1⟩
          rintro rfl
          rw [Prod.eta, hk.1.peer_peer] at hjr
          exact hrt hjr.symm
        apply le_antisymm
        · rw [← hhand]
          exact Finset.sum_le_sum_of_subset (Finset.erase_subset _ _)
        · rw [← hone, ← taken_eq_copies (reachable_idle hF.spread.reached) hn hj.1]
          exact taken_le_takenFrom st x.stamp _ hmem
    · exact Or.inr hknown
  · -- a host has one link only
    exact absurd (single_neighbour hc.singleLink hs (deliveryGraph_linked har.adj.symm)
      (deliveryGraph_linked ha.adj)) hrt

end Complete

/-- Each switch has handled the packet at most once and, when nothing is left of it, exactly once
if its destination was unknown. The destination has taken it once, unless it is the sender. -/
structure DeliveredOnce (net : Topology ι) (T u : State ι) (h : ι) (a : ℤ) : Prop where
  at_most_once : ∀ s, net.IsSwitch s → handled net u T.clock s ≤ 1
  handled_once : NoneLeft net u T.clock → (∀ s, net.IsSwitch s → ¬ Knows T s a) →
    ∀ s, net.IsSwitch s → handled net u T.clock s = 1
  taken_once : NoneLeft net u T.clock → ∀ D, ¬ net.IsSwitch D → net.id D = a → D ≠ h →
    taken u T.clock (D, 0) = 1

theorem Flooding.delivered (hc : Calm net T x) (hF : Flooding net T h x st)
    (hconn : net.Connected) (hx : x.stamp = T.clock) :
    DeliveredOnce net T st h x.dst.toInt where
  at_most_once s hs := hx ▸ hF.spread.handled_le_one hc.links hs
  handled_once hn hno s hs := by
    rw [← hx] at hn ⊢
    have hne : s ≠ h := fun he => hF.spread.host (he ▸ hs)
    have hreach := delivery_reachable hc.tree.flags hconn hc.singleLink hc.onSwitches h s
    obtain ⟨r, har⟩ := exists_away hreach hne
    obtain ⟨k, hk, hkr⟩ := exists_treePort hc.tree.flags har.adj.symm
    rcases hF.complete hc hn har k hk hkr with hone | ⟨v, hv, hkn, _⟩
    · exact hF.handled_one hc hn hs hk hone
    · exact absurd hkn (hno v hv)
  taken_once hn D hD hid hne := by
    rw [← hx] at hn ⊢
    have hreach := delivery_reachable hc.tree.flags hconn hc.singleLink hc.onSwitches h D
    obtain ⟨r, har⟩ := exists_away hreach hne
    obtain ⟨k, hk, hkr⟩ := exists_treePort hc.tree.flags har.adj.symm
    obtain rfl : k = 0 := by
      have hport : k < net.nodePortNum D := hk.1
      rw [hc.singleLink D hD] at hport
      omega
    have hr : net.IsSwitch (net.peer (D, 0)).1 := hc.onSwitches D hD 0 hk.1
    rw [taken_eq_copies (reachable_idle hF.spread.reached) hn hk.1]
    rcases hF.complete hc hn har 0 hk hkr with hone | ⟨v, hv, hkn, hhand⟩
    · exact hone
    · -- the switch of D knows it, and sends the packet on the link to D
      obtain ⟨hport, hnsw, hnid⟩ := hc.known v hv hkn
      have hhop : nextHop net T v x.dst.toInt = D := net.id_injective (hnid.trans hid.symm)
      have hout : outPort T v x.dst.toInt = net.peer (D, 0) := by
        rw [← hport.peer_peer]
        apply congrArg
        refine Prod.ext hhop ?_
        have hp : net.IsPort (net.peer (outPort T v x.dst.toInt)) := hport.peer
        have hlt : (net.peer (outPort T v x.dst.toInt)).2 <
            net.nodePortNum (net.peer (outPort T v x.dst.toInt)).1 := hp
        rw [show (net.peer (outPort T v x.dst.toInt)).1 = D from hhop, hc.singleLink D hD] at hlt
        dsimp only
        omega
      have hvr : v = (net.peer (D, 0)).1 := congrArg Prod.fst hout
      rw [hF.forwarded (D, 0) hk hr (hvr ▸ hkn) (hvr ▸ hout), ← hvr]
      exact hhand

/-- If at most the switch of node D knows D, it has learned D from the link to D. -/
theorem knownAtNode (hl : net.SingleLinkHosts) (hr : ActionReachable net fifo T) {a : ℤ}
    (h : ∀ s, net.IsSwitch s → Knows T s a →
      ∃ D, ¬ net.IsSwitch D ∧ net.id D = a ∧ net.Linked s D) : KnownAtNode net T a := by
  intro s hs hk
  obtain ⟨D, hD, rfl, hsD⟩ := h s hs hk
  obtain ⟨l, hroute, hnd⟩ := reachable_routed hr D s hs hk
  cases hroute with
  | last _ _ hport hhop =>
    rw [hhop]
    exact ⟨hport, hD, rfl⟩
  | step _ _ hport hrest =>
    -- the next switch would know D too, so it is s again
    obtain ⟨hnext, hkn⟩ := hrest.knows _ hrest.head_mem
    obtain ⟨D', hD', hid, hlink⟩ := h _ hnext hkn
    rw [net.id_injective hid] at hlink
    have hsame := single_neighbour hl hD hsD.symm hlink.symm
    rw [← hsame] at hrest
    exact absurd hrest.head_mem (List.nodup_cons.mp hnd).1

/-- In a settled network a data packet to an unknown node, or to one that only its own switch
knows, is handled at most once by each switch, exactly once if the node is unknown, and taken
exactly once by its destination. -/
theorem flood_delivers_once (hconn : net.Connected) (hsimple : net.SimpleSwitches)
    (hsingle : net.SingleLinkHosts) (hon : net.HostsOnSwitches) (hr : Reachable net fifo T)
    (hset : Settled net T) {p : Packet} {T₁ u : State ι} (hsend : Step net T (.send h p) T₁)
    (hd : p.type ≠ pktControlPacket) (hin : InTable p.dst.toInt)
    (hknown : ∀ s, net.IsSwitch s → Knows T s p.dst.toInt →
      ∃ D, ¬ net.IsSwitch D ∧ net.id D = p.dst.toInt ∧ net.Linked s D)
    (hrun : Runs net lossless T₁ u) (hlearn : NothingLearned net T u p.dst.toInt T.clock) :
    DeliveredOnce net T u h p.dst.toInt := by
  obtain ⟨⟨hh, hp⟩, rfl⟩ := hsend
  have hc : Calm net T (header ⟨p, T.clock⟩) :=
    { tree := settledTree hr.actions hset
      simple := hsimple
      singleLink := hsingle
      onSwitches := hon
      data := hd
      inTable := hin
      known := knownAtNode hsingle hr.actions hknown }
  exact (flooding_run hc hr.actions hset hh hp hrun hlearn).delivered hc hconn rfl

def pingUnknown : Packet := ⟨2, 50, pktPingReq, 0, fun _ => 0, 0, 0, 0, 0⟩

def unknownSent : State (Fin 3) := next hostedPair heard (.send 2 pingUnknown)

def unknownFlooded : State (Fin 3) :=
  [sweep 0, sweep 1].foldl (next hostedPair) unknownSent

theorem unknownFlooded_run : Runs hostedPair lossless unknownSent unknownFlooded :=
  Runs.events [sweep 0, sweep 1] (by decide)

theorem flood_delivers_once_hostedPair :
    NoneLeft hostedPair unknownFlooded heard.clock ∧
      (∀ s, hostedPair.IsSwitch s → handled hostedPair unknownFlooded heard.clock s = 1) ∧
      DeliveredOnce hostedPair heard unknownFlooded 2 50 := by
  have hforest : hostedPair.Forest := Topology.forest_of_rank ![0, 1, 1] (by decide) (by decide)
  have hon : ∀ v, ¬ hostedPair.IsSwitch v → ∀ k < hostedPair.nodePortNum v,
      hostedPair.IsSwitch (hostedPair.peer (v, k)).1 := by decide
  have hsingle : ∀ v, ¬ hostedPair.IsSwitch v → hostedPair.nodePortNum v = 1 := by decide
  have hset : Settled hostedPair heard :=
    heard_settled elected_reachable.actions heard_run heard_unchanged heard_everywhere
  have hunknown : ∀ s, ¬ Knows unknownFlooded s 50 := by decide +kernel
  have hbefore : ∀ s, ¬ Knows heard s 50 := by decide +kernel
  have hchannels : ∀ v, ∀ k < hostedPair.nodePortNum v, ∀ f ∈ unknownFlooded.channel (v, k),
      f.stamp ≠ heard.clock := by decide +kernel
  have hqueues : ∀ s, ∀ job ∈ (unknownFlooded.switch s).jobQ,
      job.packet.stamp ≠ heard.clock := by decide +kernel
  have hleft : NoneLeft hostedPair unknownFlooded heard.clock :=
    ⟨fun q hq => hchannels q.1 q.2 hq, fun s _ => hqueues s⟩
  have hdone : DeliveredOnce hostedPair heard unknownFlooded 2 50 := by
    apply flood_delivers_once hostedPair_connected hforest.toSimple.simpleSwitches hsingle hon
      (elected_reachable.trans heard_run) hset (p := pingUnknown) ⟨by decide, rfl⟩ (by decide)
      (by decide) _ unknownFlooded_run
    · exact fun s _ hk => absurd hk (hunknown s)
    · exact fun s _ hk => absurd hk (hbefore s)
  exact ⟨hleft, hdone.handled_once hleft fun s _ => hbefore s, hdone⟩

def pingOutsideTable : Packet := ⟨2, 110, pktPingReq, 0, fun _ => 0, 0, 0, 0, 0⟩

def outsideSent : State (Fin 3) := next hostedPair heard (.send 2 pingOutsideTable)

def outsideReturned : State (Fin 3) :=
  [strayForward 0 0, strayForward 1 0, sweep 0].foldl (next hostedPair) outsideSent

/-- A ping for 110, which no switch knows, comes back to the switch of its sender. -/
theorem outside_not_once : hostedPair.Connected ∧ hostedPair.SimpleSwitches ∧
    hostedPair.SingleLinkHosts ∧ hostedPair.HostsOnSwitches ∧
    Reachable hostedPair fifo heard ∧ Settled hostedPair heard ∧
    Step hostedPair heard (.send 2 pingOutsideTable) outsideSent ∧
    pingOutsideTable.type ≠ pktControlPacket ∧
    (∀ s, ¬ Knows heard s pingOutsideTable.dst.toInt) ∧
    Runs hostedPair lossless outsideSent outsideReturned ∧
    NothingLearned hostedPair heard outsideReturned pingOutsideTable.dst.toInt heard.clock ∧
    ¬ DeliveredOnce hostedPair heard outsideReturned 2 pingOutsideTable.dst.toInt := by
  have hforest : hostedPair.Forest := Topology.forest_of_rank ![0, 1, 1] (by decide) (by decide)
  have hon : ∀ v, ¬ hostedPair.IsSwitch v → ∀ k < hostedPair.nodePortNum v,
      hostedPair.IsSwitch (hostedPair.peer (v, k)).1 := by decide
  have hsingle : ∀ v, ¬ hostedPair.IsSwitch v → hostedPair.nodePortNum v = 1 := by decide
  have hset : Settled hostedPair heard :=
    heard_settled elected_reachable.actions heard_run heard_unchanged heard_everywhere
  have hbefore : ∀ s, ¬ Knows heard s 110 := by decide +kernel
  have hafter : ∀ s, ¬ Knows outsideReturned s 110 := by decide +kernel
  have hrun : Runs hostedPair lossless outsideSent outsideReturned :=
    Runs.events [strayForward 0 0, strayForward 1 0, sweep 0] (by decide)
  have htwice : handled hostedPair outsideReturned heard.clock 0 = 2 := by decide +kernel
  refine ⟨hostedPair_connected, hforest.toSimple.simpleSwitches, hsingle, hon,
    elected_reachable.trans heard_run, hset, ⟨by decide, rfl⟩, by decide, hbefore, hrun,
    fun s _ hk => absurd hk (hafter s), ?_⟩
  intro hdone
  have hone := hdone.at_most_once 0 (by decide)
  rw [htwice] at hone
  exact absurd hone (by decide)

end TreeFlooding
