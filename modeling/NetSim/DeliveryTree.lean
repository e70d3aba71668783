import NetSim.FloodLinks
import NetSim.TreeSpread

/-! The links that packets use in a settled network: the YES links between switches and the
links of hosts and the DNS server. They join all nodes in one tree. -/
namespace DeliveryTree

open SwitchNode NetworkTopology NetworkRuns ElectedTree FlagTree Settling FloodLinks GraphPaths
  TreeSpread

variable {ι : Type} {net : Topology ι} {st : State ι}

def TreePort (net : Topology ι) (st : State ι) (q : Port ι) : Prop :=
  net.IsPort q ∧ (SwitchLink net q → PortYes st q)

def deliveryGraph (net : Topology ι) (st : State ι) : SimpleGraph ι :=
  SimpleGraph.fromRel fun s t => ∃ k, TreePort net st (s, k) ∧ (net.peer (s, k)).1 = t

theorem deliveryGraph_linked {s t : ι} (h : (deliveryGraph net st).Adj s t) : net.Linked s t := by
  obtain ⟨_, ⟨k, hk, ht⟩ | ⟨k, hk, ht⟩⟩ := h
  · exact ⟨k, hk.1, ht⟩
  · exact Topology.Linked.symm ⟨k, hk.1, ht⟩

theorem TreePort.yes (hf : TreeFlags net st) {q : Port ι} (hq : TreePort net st q)
    (hs : net.IsSwitch q.1) : PortYes st q := by
  by_cases hw : net.IsSwitch (net.peer q).1
  · exact hq.2 ⟨hq.1, hs, hw⟩
  · exact hf.hosts_yes q hq.1 hs hw

theorem TreePort.peer (hf : TreeFlags net st) {q : Port ι} (hq : TreePort net st q) :
    TreePort net st (net.peer q) := by
  refine ⟨hq.1.peer, fun hl => ?_⟩
  have hl' : SwitchLink net q := by
    rw [← hq.1.peer_peer]
    exact hl.peer
  exact (hf.flags_agree q hl').mp (hq.2 hl')

theorem exists_treePort (hf : TreeFlags net st) {s t : ι} (ha : (deliveryGraph net st).Adj s t) :
    ∃ k, TreePort net st (s, k) ∧ (net.peer (s, k)).1 = t := by
  obtain ⟨_, ⟨k, hk, ht⟩ | ⟨k, hk, rfl⟩⟩ := ha
  · exact ⟨k, hk, ht⟩
  · refine ⟨(net.peer (t, k)).2, hk.peer hf, ?_⟩
    rw [Prod.eta, hk.1.peer_peer]

theorem single_neighbour (hl : net.SingleLinkHosts) {v u w : ι} (hv : ¬ net.IsSwitch v)
    (hu : net.Linked v u) (hw : net.Linked v w) : u = w := by
  obtain ⟨j, hj, rfl⟩ := hu
  obtain ⟨k, hk, rfl⟩ := hw
  have hone := hl v hv
  rw [Topology.IsPort] at hj hk
  obtain rfl : j = k := by
    dsimp only at hj hk
    omega
  rfl

theorem delivery_links (hf : TreeFlags net st) (hs : net.SimpleSwitches)
    (hl : net.SingleLinkHosts) (ha : net.HostsOnSwitches) :
    TreeLinks net (deliveryGraph net st) (TreePort net st) where
  isPort _ hq := hq.1
  peer _ hq := hq.peer hf
  adj q hq := ⟨(hs.simple hl ha).no_self q hq.1, Or.inr ⟨q.2, hq, rfl⟩⟩
  single s j k hj hk he := (hs.simple hl ha).no_parallel s j k hj.1 hk.1 he
  acyclic := by
    apply acyclic_of_leaves net.IsSwitch hf.acyclic
    · rintro u v ⟨hne, h⟩ hu hv
      refine ⟨hne, h.imp ?_ ?_⟩
      · rintro ⟨k, hk, rfl⟩
        exact ⟨k, ⟨hk.1, hu, hv⟩, rfl, hk.2 ⟨hk.1, hu, hv⟩⟩
      · rintro ⟨k, hk, rfl⟩
        exact ⟨k, ⟨hk.1, hv, hu⟩, rfl, hk.2 ⟨hk.1, hv, hu⟩⟩
    · intro v hv u w hu hw
      exact single_neighbour hl hv (deliveryGraph_linked hu) (deliveryGraph_linked hw)

/-- Hosts hang on the tree by their only link. -/
theorem host_adj (st : State ι) (hl : net.SingleLinkHosts) (ha : net.HostsOnSwitches) {v : ι}
    (hv : ¬ net.IsSwitch v) :
    ∃ s, net.IsSwitch s ∧ (deliveryGraph net st).Adj v s := by
  have hp : net.IsPort (v, 0) := by
    rw [Topology.IsPort, hl v hv]
    exact Nat.one_pos
  have hs := ha v hv 0 hp
  refine ⟨_, hs, ?_, Or.inl ⟨0, ⟨hp, fun h => absurd h.2.1 hv⟩, rfl⟩⟩
  intro he
  exact hv (he ▸ hs)

theorem delivery_reachable (hf : TreeFlags net st) (hc : net.Connected)
    (hl : net.SingleLinkHosts) (ha : net.HostsOnSwitches) (u v : ι) :
    (deliveryGraph net st).Reachable u v := by
  have hle : treeGraph net st ≤ deliveryGraph net st := by
    rintro s t ⟨hne, h⟩
    refine ⟨hne, h.imp ?_ ?_⟩
    · rintro ⟨k, hk, ht, hy⟩
      exact ⟨k, ⟨hk.1, fun _ => hy⟩, ht⟩
    · rintro ⟨k, hk, ht, hy⟩
      exact ⟨k, ⟨hk.1, fun _ => hy⟩, ht⟩
  have up : ∀ w, ∃ s, net.IsSwitch s ∧ (deliveryGraph net st).Reachable w s := by
    intro w
    by_cases hw : net.IsSwitch w
    · exact ⟨w, hw, .refl w⟩
    · obtain ⟨s, hs, hadj⟩ := host_adj st hl ha hw
      exact ⟨s, hs, hadj.reachable⟩
  obtain ⟨s, hs, hus⟩ := up u
  obtain ⟨t, ht, hvt⟩ := up v
  exact (hus.trans ((hf.spans s t hs ht (hc s t hs ht)).mono hle)).trans hvt.symm

theorem simpleRoots (hs : net.SimpleSwitches) : SimpleRoots net where
  no_self r k hr _ hk := hs.no_self (r, k) hk hr
  no_parallel r j k hr _ hj hk hw he := hs.no_parallel r j k hj hk hr hw he

theorem flood_treePort (ht : SettledTree net st) (hs : net.SimpleSwitches) {q : Port ι}
    (hq : net.IsPort q) (hsw : net.IsSwitch q.1)
    (hflag : PortYes st q ∨ (st.switch q.1).localParent = -1) : TreePort net st q := by
  refine ⟨hq, fun hl => ?_⟩
  rcases hflag with hy | hpar
  · exact hy
  · have hleast := (ht.root_iff q.1 hsw).mp hpar
    exact (ht.flags.flag_iff q hl).mpr (root_port ht (simpleRoots hs) hl hleast)

end DeliveryTree
