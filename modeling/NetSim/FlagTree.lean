import NetSim.ElectedTree

/-! Port flags that follow the parent links of a stable election: the links between switches
that they mark are the spanning tree of parent links. -/
namespace FlagTree

open SwitchNode NetworkTopology NetworkRuns SwitchElection ElectedTree

variable {ι : Type} {net : Topology ι} {st : State ι}

def ParentLink (net : Topology ι) (st : State ι) (q : Port ι) : Prop :=
  (st.switch q.1).localParent = q.2 ∨
    (st.switch (net.peer q).1).localParent = (net.peer q).2

def PortYes (st : State ι) (q : Port ι) : Prop := (st.switch q.1).localPortTree q.2 = .yes

def SwitchLink (net : Topology ι) (q : Port ι) : Prop :=
  net.IsPort q ∧ net.IsSwitch q.1 ∧ net.IsSwitch (net.peer q).1

/-- The links between switches that are YES at the end in s. -/
def treeGraph (net : Topology ι) (st : State ι) : SimpleGraph ι :=
  SimpleGraph.fromRel fun s t => ∃ k, SwitchLink net (s, k) ∧ (net.peer (s, k)).1 = t ∧
    PortYes st (s, k)

/-- The flags are those of the tree of parent links. -/
structure TreeFlags (net : Topology ι) (st : State ι) : Prop where
  flag_iff : ∀ q, SwitchLink net q → (PortYes st q ↔ ParentLink net st q)
  flags_agree : ∀ q, SwitchLink net q → (PortYes st q ↔ PortYes st (net.peer q))
  no_self : ∀ q, SwitchLink net q → PortYes st q → (net.peer q).1 ≠ q.1
  no_parallel : ∀ s j k, SwitchLink net (s, j) → SwitchLink net (s, k) → PortYes st (s, j) →
    PortYes st (s, k) → (net.peer (s, j)).1 = (net.peer (s, k)).1 → j = k
  acyclic : (treeGraph net st).IsAcyclic
  spans : ∀ s t, net.IsSwitch s → net.IsSwitch t → net.switchGraph.Reachable s t →
    (treeGraph net st).Reachable s t
  hosts_yes : ∀ q, net.IsPort q → net.IsSwitch q.1 → ¬ net.IsSwitch (net.peer q).1 →
    PortYes st q

theorem SwitchLink.peer {q : Port ι} (h : SwitchLink net q) : SwitchLink net (net.peer q) :=
  ⟨h.1.peer, h.2.2, by rw [h.1.peer_peer]; exact h.2.1⟩

theorem parentLink_peer {q : Port ι} (hq : net.IsPort q) :
    ParentLink net st (net.peer q) ↔ ParentLink net st q := by
  rw [ParentLink, ParentLink, hq.peer_peer]
  exact Or.comm

/-- A parent link is the parent port of exactly one of its ends. -/
theorem parentLink_parentOf {q : Port ι} (hq : SwitchLink net q) (h : ParentLink net st q) :
    ParentOf net st q.1 (net.peer q).1 ∨ ParentOf net st (net.peer q).1 q.1 := by
  rcases h with h | h
  · exact Or.inl ⟨hq.2.1, q.2, h, hq.1, rfl⟩
  · exact Or.inr ⟨hq.2.2, (net.peer q).2, h, hq.1.peer, congrArg Prod.fst hq.1.peer_peer⟩

section Tree

variable (he : Election net st) (hno : NoBetterOffer net st)
  (hflag : ∀ q, SwitchLink net q → (PortYes st q ↔ ParentLink net st q))
include he hno

theorem parentLink_adj {q : Port ι} (hq : SwitchLink net q) (h : ParentLink net st q) :
    net.switchGraph.Adj q.1 (net.peer q).1 := by
  rcases parentLink_parentOf hq h with hp | hp
  · exact (parentOf_closer he hno hp).1
  · exact (parentOf_closer he hno hp).1.symm

/-- Two switches share at most one parent link: each link lowers the distance by one. -/
theorem parentLink_unique {s : ι} {j k : ℕ} (hj : SwitchLink net (s, j))
    (hk : SwitchLink net (s, k)) (hpj : ParentLink net st (s, j)) (hpk : ParentLink net st (s, k))
    (heq : (net.peer (s, j)).1 = (net.peer (s, k)).1) : j = k := by
  have down : ∀ {i}, SwitchLink net (s, i) → (st.switch s).localParent = i →
      (st.switch (net.peer (s, i)).1).localRootDist = (st.switch s).localRootDist - 1 := by
    intro i hi hpar
    exact (parentOf_closer he hno ⟨hi.2.1, i, hpar, hi.1, rfl⟩).2
  have up : ∀ {i}, SwitchLink net (s, i) →
      (st.switch (net.peer (s, i)).1).localParent = (net.peer (s, i)).2 →
      (st.switch s).localRootDist = (st.switch (net.peer (s, i)).1).localRootDist - 1 := by
    intro i hi hpar
    exact (parentOf_closer he hno
      ⟨hi.2.2, (net.peer (s, i)).2, hpar, hi.1.peer, congrArg Prod.fst hi.1.peer_peer⟩).2
  rcases hpj with h1 | h1 <;> rcases hpk with h2 | h2
  · have : (j : ℤ) = k := h1.symm.trans h2
    omega
  · have h3 := down hj h1
    have h4 := up hk h2
    rw [heq] at h3
    omega
  · have h3 := up hj h1
    have h4 := down hk h2
    rw [heq] at h3
    omega
  · have hport : (net.peer (s, j)).2 = (net.peer (s, k)).2 := by
      rw [heq] at h1
      have h3 : ((net.peer (s, j)).2 : ℤ) = (net.peer (s, k)).2 := h1.symm.trans h2
      omega
    have : (s, j) = (s, k) := hj.1.peer_inj hk.1 (Prod.ext heq hport)
    exact congrArg Prod.snd this

include hflag

theorem treeGraph_eq : treeGraph net st = parentGraph net st := by
  ext s t
  constructor
  · rintro ⟨hne, ⟨k, hq, rfl, hy⟩ | ⟨k, hq, rfl, hy⟩⟩
    · exact ⟨hne, parentLink_parentOf hq ((hflag _ hq).mp hy)⟩
    · exact ⟨hne, (parentLink_parentOf hq ((hflag _ hq).mp hy)).symm⟩
  · have up : ∀ {s t}, ParentOf net st s t → ∃ k, SwitchLink net (s, k) ∧
        (net.peer (s, k)).1 = t ∧ PortYes st (s, k) := by
      rintro s t ⟨hs, k, hpar, hp, rfl⟩
      have ha := (parentOf_closer he hno ⟨hs, k, hpar, hp, rfl⟩).1
      have hq : SwitchLink net (s, k) := ⟨hp, hs, ha.2.2.1⟩
      exact ⟨k, hq, rfl, (hflag _ hq).mpr (Or.inl hpar)⟩
    rintro ⟨hne, hp | hp⟩
    · exact ⟨hne, Or.inl (up hp)⟩
    · exact ⟨hne, Or.inr (up hp)⟩

theorem treeFlags (hhost : ∀ q, net.IsPort q → net.IsSwitch q.1 →
    ¬ net.IsSwitch (net.peer q).1 → PortYes st q) : TreeFlags net st where
  flag_iff := hflag
  flags_agree q hq := by
    rw [hflag q hq, hflag _ hq.peer, parentLink_peer hq.1]
  no_self q hq hy := (parentLink_adj he hno hq ((hflag q hq).mp hy)).1.symm
  no_parallel s j k hj hk hyj hyk heq :=
    parentLink_unique he hno hj hk ((hflag _ hj).mp hyj) ((hflag _ hk).mp hyk) heq
  acyclic := by
    rw [treeGraph_eq he hno hflag]
    exact (parentTree he hno).acyclic
  spans s t hs ht hr := by
    rw [treeGraph_eq he hno hflag]
    exact (parentTree he hno).spans s t hs ht hr
  hosts_yes := hhost

end Tree

end FlagTree
