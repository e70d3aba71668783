import NetSim.GraphPaths

/-! Nodes, ports and links of a network of PIPE links, as net.c hands them to the nodes.
A port is a node with an index into its `node_port` array; `peer` is the port at the other
end of the link. Several links between two nodes and links of a node to itself are allowed. -/
namespace NetworkTopology

inductive NetNodeType where
  | host | switch | server
  deriving DecidableEq, Repr

abbrev Port (ι : Type) := ι × ℕ

structure Topology (ι : Type) where
  type : ι → NetNodeType
  id : ι → ℤ
  nodePortNum : ι → ℕ
  peer : Port ι → Port ι
  peer_isPort : ∀ p, p.2 < nodePortNum p.1 → (peer p).2 < nodePortNum (peer p).1
  peer_peer : ∀ p, p.2 < nodePortNum p.1 → peer (peer p) = p
  peer_ne : ∀ p, p.2 < nodePortNum p.1 → peer p ≠ p
  id_injective : Function.Injective id
  id_range : ∀ v, 0 ≤ id v ∧ id v ≤ 101

namespace Topology

variable {ι : Type} (net : Topology ι)

def IsSwitch (v : ι) : Prop := net.type v = .switch

instance (v : ι) : Decidable (net.IsSwitch v) := inferInstanceAs (Decidable (_ = _))

def IsPort (p : Port ι) : Prop := p.2 < net.nodePortNum p.1

instance (p : Port ι) : Decidable (net.IsPort p) := inferInstanceAs (Decidable (_ < _))

def switchCount [Fintype ι] : ℕ := (Finset.univ.filter net.IsSwitch).card

/-- Some link joins u and v. -/
def Linked (u v : ι) : Prop := ∃ k, net.IsPort (u, k) ∧ (net.peer (u, k)).1 = v

variable {net}

theorem IsPort.peer {p : Port ι} (h : net.IsPort p) : net.IsPort (net.peer p) :=
  net.peer_isPort p h

theorem IsPort.peer_peer {p : Port ι} (h : net.IsPort p) : net.peer (net.peer p) = p :=
  net.peer_peer p h

theorem IsPort.peer_inj {p q : Port ι} (hp : net.IsPort p) (hq : net.IsPort q)
    (h : net.peer p = net.peer q) : p = q := by
  rw [← hp.peer_peer, h, hq.peer_peer]

theorem IsPort.peer_eq_iff {p q : Port ι} (hp : net.IsPort p) (hq : net.IsPort q) :
    net.peer p = q ↔ p = net.peer q := by
  constructor
  · rintro rfl
    exact hp.peer_peer.symm
  · rintro rfl
    exact hq.peer_peer

theorem IsPort.linked {p : Port ι} (h : net.IsPort p) : net.Linked p.1 (net.peer p).1 :=
  ⟨p.2, h, rfl⟩

theorem Linked.symm {u v : ι} (h : net.Linked u v) : net.Linked v u := by
  obtain ⟨k, hk, rfl⟩ := h
  exact ⟨(net.peer (u, k)).2, hk.peer, congrArg Prod.fst hk.peer_peer⟩

theorem id_toInt (v : ι) : (Int8.ofInt (net.id v)).toInt = net.id v :=
  Int8.toInt_ofInt_of_le (by have := net.id_range v; omega) (by have := net.id_range v; omega)

variable (net)

/-- The network as a graph: its nodes, adjacent when a link joins them. -/
def graph : SimpleGraph ι where
  Adj u v := u ≠ v ∧ net.Linked u v
  symm := ⟨fun _ _ h => ⟨h.1.symm, h.2.symm⟩⟩
  loopless := ⟨fun _ h => h.1 rfl⟩

/-- The links between switches only; the other nodes are isolated here. -/
def switchGraph : SimpleGraph ι where
  Adj u v := u ≠ v ∧ net.IsSwitch u ∧ net.IsSwitch v ∧ net.Linked u v
  symm := ⟨fun _ _ h => ⟨h.1.symm, h.2.2.1, h.2.1, h.2.2.2.symm⟩⟩
  loopless := ⟨fun _ h => h.1 rfl⟩

def Connected : Prop :=
  ∀ s t, net.IsSwitch s → net.IsSwitch t → net.switchGraph.Reachable s t

def SingleLinkHosts : Prop := ∀ v, ¬ net.IsSwitch v → net.nodePortNum v = 1

def HostsOnSwitches : Prop :=
  ∀ v, ¬ net.IsSwitch v → ∀ k, net.IsPort (v, k) → net.IsSwitch (net.peer (v, k)).1

/-- No link from a node to itself and no two links between the same two nodes. -/
structure Simple : Prop where
  no_self : ∀ p, net.IsPort p → (net.peer p).1 ≠ p.1
  no_parallel : ∀ v j k, net.IsPort (v, j) → net.IsPort (v, k) →
    (net.peer (v, j)).1 = (net.peer (v, k)).1 → j = k

/-- `Simple` for the links between switches. -/
structure SimpleSwitches : Prop where
  no_self : ∀ p, net.IsPort p → net.IsSwitch p.1 → (net.peer p).1 ≠ p.1
  no_parallel : ∀ v j k, net.IsPort (v, j) → net.IsPort (v, k) → net.IsSwitch v →
    net.IsSwitch (net.peer (v, j)).1 → (net.peer (v, j)).1 = (net.peer (v, k)).1 → j = k

/-- A multigraph without cycles: `Simple`, and acyclic as a graph. -/
structure Forest : Prop extends Simple net where
  acyclic : net.graph.IsAcyclic

variable {net}

theorem IsPort.graph_adj (hs : net.Simple) {p : Port ι} (h : net.IsPort p) :
    net.graph.Adj p.1 (net.peer p).1 := ⟨(hs.no_self p h).symm, h.linked⟩

/-- A network is a forest if every link joins two ranks and every node has at most one link to a
lower rank. -/
theorem forest_of_rank (rank : ι → ℕ)
    (hne : ∀ v, ∀ k < net.nodePortNum v, rank (net.peer (v, k)).1 ≠ rank v)
    (hdown : ∀ v, ∀ j < net.nodePortNum v, ∀ k < net.nodePortNum v,
      rank (net.peer (v, j)).1 < rank v → rank (net.peer (v, k)).1 < rank v → j = k) :
    net.Forest where
  no_self p hp he := hne p.1 p.2 hp (by rw [he])
  no_parallel v j k hj hk he := by
    rcases lt_or_gt_of_ne (hne v j hj) with hlt | hgt
    · exact hdown v j hj k hk hlt (he ▸ hlt)
    · -- from the upper end both links lead down to v
      have hj' : net.IsPort ((net.peer (v, j)).1, (net.peer (v, j)).2) := IsPort.peer hj
      have hk' : net.IsPort ((net.peer (v, j)).1, (net.peer (v, k)).2) := by
        rw [he]
        exact IsPort.peer hk
      have hback : ∀ i, net.IsPort (v, i) →
          net.peer ((net.peer (v, i)).1, (net.peer (v, i)).2) = (v, i) :=
        fun i hi => IsPort.peer_peer hi
      have hidx : (net.peer (v, j)).2 = (net.peer (v, k)).2 := by
        refine hdown _ _ hj' _ hk' ?_ ?_
        · rw [hback j hj]
          exact hgt
        · rw [he, hback k hk, ← he]
          exact hgt
      have heq : (v, j) = (v, k) := IsPort.peer_inj hj hk (Prod.ext he hidx)
      exact congrArg Prod.snd heq
  acyclic := by
    let par : ι → ι → Prop := fun s t =>
      ∃ k, net.IsPort (s, k) ∧ (net.peer (s, k)).1 = t ∧ rank t < rank s
    have hpar : (SimpleGraph.fromRel par).IsAcyclic := by
      apply GraphPaths.parent_forest rank
      · rintro s t ⟨_, _, _, hlt⟩
        exact hlt
      · rintro s t u ⟨j, hj, rfl, hlt⟩ ⟨k, hk, rfl, hlt'⟩
        rw [hdown s j hj k hk hlt hlt']
    refine hpar.anti ?_
    rintro s t ⟨hst, hl⟩
    have down : ∀ {u v}, net.Linked u v → rank v < rank u → par u v := by
      rintro u v ⟨k, hk, rfl⟩ hlt
      exact ⟨k, hk, rfl, hlt⟩
    obtain ⟨k, hk, rfl⟩ := hl
    rcases lt_or_gt_of_ne (hne s k hk) with hlt | hgt
    · exact ⟨hst, Or.inl (down ⟨k, hk, rfl⟩ hlt)⟩
    · exact ⟨hst, Or.inr (down (IsPort.linked hk).symm hgt)⟩

theorem connected_of_hub (r : ι) (h : ∀ s, net.IsSwitch s → s = r ∨
    r ≠ s ∧ net.IsSwitch r ∧ ∃ k < net.nodePortNum r, (net.peer (r, k)).1 = s) :
    net.Connected := by
  have hub : ∀ s, net.IsSwitch s → net.switchGraph.Reachable r s := by
    intro s hs
    rcases h s hs with rfl | ⟨hne, hr, k, hk, hp⟩
    · exact .refl s
    · have hadj : net.switchGraph.Adj r s := ⟨hne, hr, hs, k, hk, hp⟩
      exact hadj.reachable
  exact fun s t hs ht => (hub s hs).symm.trans (hub t ht)

theorem Simple.simpleSwitches (h : net.Simple) : net.SimpleSwitches where
  no_self p hp _ := h.no_self p hp
  no_parallel v j k hj hk _ _ he := h.no_parallel v j k hj hk he

theorem SimpleSwitches.simple (h : net.SimpleSwitches) (hl : net.SingleLinkHosts)
    (ha : net.HostsOnSwitches) : net.Simple where
  no_self p hp he := by
    by_cases hs : net.IsSwitch p.1
    · exact h.no_self p hp hs he
    · have hw := ha p.1 hs p.2 hp
      exact hs (he ▸ hw)
  no_parallel v j k hj hk he := by
    by_cases hv : net.IsSwitch v
    · by_cases hw : net.IsSwitch (net.peer (v, j)).1
      · exact h.no_parallel v j k hj hk hv hw he
      · -- the only port of the host is the far end of both links
        have hone := hl _ hw
        have hj' : (net.peer (v, j)).2 < _ := hj.peer
        have hk' : (net.peer (v, k)).2 < _ := hk.peer
        rw [← he] at hk'
        have heq : net.peer (v, j) = net.peer (v, k) := Prod.ext he (by omega)
        exact congrArg Prod.snd (hj.peer_inj hk heq)
    · have hone := hl v hv
      have hj' : j < net.nodePortNum v := hj
      have hk' : k < net.nodePortNum v := hk
      omega

end Topology

end NetworkTopology
