import NetSim.SwitchElection

/-! Stable elections. When no switch would improve on what a neighbour offers, all switches of
a component agree on its least id, distances are those of breadth first search, and the parent
links are a spanning tree. -/
namespace ElectedTree

open SwitchNode NetworkTopology NetworkRuns SwitchElection GraphPaths

variable {ι : Type} {net : Topology ι} {st : State ι}

/-- A control packet with the pair that t has now would change nothing in s, for every link
of two switches s and t. -/
def ElectionStable (net : Topology ι) (st : State ι) : Prop :=
  ∀ s k, net.IsSwitch s → net.IsPort (s, k) → net.IsSwitch (net.peer (s, k)).1 →
    electRoot k (controlPacket (net.id (net.peer (s, k)).1) (st.switch (net.peer (s, k)).1))
      (st.switch s) = st.switch s

def NoBetterOffer (net : Topology ι) (st : State ι) : Prop :=
  ∀ s t, net.switchGraph.Adj s t → election (st.switch s) ≤
    toLex ((st.switch t).localRootID, (st.switch t).localRootDist + 1)

def ParentOf (net : Topology ι) (st : State ι) (s t : ι) : Prop :=
  net.IsSwitch s ∧ ∃ k : ℕ, (st.switch s).localParent = k ∧ net.IsPort (s, k) ∧
    (net.peer (s, k)).1 = t

def parentGraph (net : Topology ι) (st : State ι) : SimpleGraph ι :=
  SimpleGraph.fromRel (ParentOf net st)

/-- What the election has made of s, where m is the root. -/
structure Elected (net : Topology ι) (st : State ι) (m s : ι) : Prop where
  root_switch : net.IsSwitch m
  root_joined : net.switchGraph.Reachable m s
  root_least : ∀ v, net.IsSwitch v → net.switchGraph.Reachable v s → net.id m ≤ net.id v
  root_id : (st.switch s).localRootID = net.id m
  root_dist : (st.switch s).localRootDist = net.switchGraph.dist m s
  parent_root : (st.switch s).localParent = -1 ↔ s = m
  parent_closer : s ≠ m → ∃ t, ParentOf net st s t ∧ net.IsSwitch t ∧
    (st.switch t).localRootDist = (st.switch s).localRootDist - 1

structure ParentTree (net : Topology ι) (st : State ι) : Prop where
  links : parentGraph net st ≤ net.switchGraph
  acyclic : (parentGraph net st).IsAcyclic
  spans : ∀ s t, net.IsSwitch s → net.IsSwitch t → net.switchGraph.Reachable s t →
    (parentGraph net st).Reachable s t

theorem noBetterOffer (he : Election net st) (h : ElectionStable net st) :
    NoBetterOffer net st := by
  rintro s t ⟨_, hs, ht, k, hk, rfl⟩
  have hle : election (electRoot k _ (st.switch s)) ≤ offer
      (controlPacket (net.id (net.peer (s, k)).1) (st.switch (net.peer (s, k)).1)) :=
    electRoot_le_offer rfl
  rw [h s k hs hk ht] at hle
  change _ ≤ toLex ((Int8.ofInt (st.switch (net.peer (s, k)).1).localRootID).toInt, _) at hle
  rwa [(he.backed _ ht).root_char] at hle

section Stable

variable (he : Election net st) (h : NoBetterOffer net st)
include h

theorem root_eq_of_adj {s t : ι} (ha : net.switchGraph.Adj s t) :
    (st.switch s).localRootID = (st.switch t).localRootID := by
  have h1 := h s t ha
  have h2 := h t s ha.symm
  rw [election, lex_le] at h1 h2
  omega

theorem root_eq_of_reachable {s t : ι} (hr : net.switchGraph.Reachable s t) :
    (st.switch s).localRootID = (st.switch t).localRootID := by
  obtain ⟨p⟩ := hr
  induction p with
  | nil => rfl
  | cons ha _ ih => exact (root_eq_of_adj h ha).trans ih

theorem dist_le_of_adj {s t : ι} (ha : net.switchGraph.Adj s t) :
    (st.switch s).localRootDist ≤ (st.switch t).localRootDist + 1 := by
  have h1 := h s t ha
  have h2 := root_eq_of_adj h ha
  rw [election, lex_le] at h1
  omega

theorem dist_le_length {m s : ι} (hm : (st.switch m).localRootDist = 0)
    (p : net.switchGraph.Walk s m) : (st.switch s).localRootDist ≤ p.length := by
  induction p with
  | nil => exact hm.le
  | cons ha p ih =>
    have := dist_le_of_adj h ha
    have := ih hm
    rw [SimpleGraph.Walk.length_cons]
    omega

include he

theorem parentOf_closer {s t : ι} (hp : ParentOf net st s t) :
    net.switchGraph.Adj s t ∧
      (st.switch t).localRootDist = (st.switch s).localRootDist - 1 := by
  obtain ⟨hs, k, hk, hport, rfl⟩ := hp
  rcases he.parents s hs with ⟨h1, _⟩ | ⟨k', hk', _, ht, _, hle⟩
  · omega
  obtain rfl : k = k' := by omega
  have hne : s ≠ (net.peer (s, k)).1 := by
    intro hst
    rw [← hst, election, lex_le] at hle
    omega
  have ha : net.switchGraph.Adj s (net.peer (s, k)).1 := ⟨hne, hs, ht, hport.linked⟩
  have h1 := dist_le_of_adj h ha
  have h2 := root_eq_of_adj h ha
  rw [election, lex_le] at hle
  exact ⟨ha, by omega⟩

theorem exists_elected {s : ι} (hs : net.IsSwitch s) : ∃ m, Elected net st m s := by
  obtain ⟨m, p, hm, hp, hl, hv⟩ := he.backed s hs
  have hsm : net.IsSwitch m := (hv m p.start_mem_support).1
  have hroot := root_eq_of_reachable h p.reachable
  have hown := he.own_root hsm (hroot.trans hm.symm)
  refine ⟨m, hsm, p.reachable, ?_, hm.symm, ?_, ?_, ?_⟩
  · intro v hv hvs
    have := he.root_le v
    have := root_eq_of_reachable h hvs
    omega
  · apply le_antisymm
    · obtain ⟨q, hq⟩ := p.reachable.symm.exists_walk_length_eq_dist
      rw [SimpleGraph.dist_comm, ← hq]
      exact dist_le_length h hown.2 q
    · rw [← hl]
      exact_mod_cast SimpleGraph.dist_le p
  · rw [he.root_iff_parent hs, ← hm]
    constructor
    · intro hi
      exact (net.id_injective hi).symm
    · intro hi
      rw [hi]
  · intro hne
    rcases he.parents s hs with ⟨_, hr, _⟩ | ⟨k, hk, hport, ht, _, _⟩
    · exact absurd (net.id_injective (hr.symm.trans hm.symm)) hne
    · have hpar : ParentOf net st s (net.peer (s, k)).1 := ⟨hs, k, hk, hport, rfl⟩
      exact ⟨_, hpar, ht, (parentOf_closer he h hpar).2⟩

theorem parentTree : ParentTree net st where
  links := by
    rintro s t ⟨_, hp | hp⟩
    · exact (parentOf_closer he h hp).1
    · exact (parentOf_closer he h hp).1.symm
  acyclic := by
    apply parent_forest fun v => (st.switch v).localRootDist.toNat
    · intro s t hp
      obtain ⟨ha, hd⟩ := parentOf_closer he h hp
      have := (he.backed t ha.2.2.1).bounds
      omega
    · rintro s t u ⟨_, k, hk, _, rfl⟩ ⟨_, l, hl, _, rfl⟩
      obtain rfl : k = l := by omega
      rfl
  spans s t hs ht hr := by
    -- both switches reach the only switch with distance 0 and their root
    have up : ∀ v, net.IsSwitch v ∧ net.switchGraph.Reachable v s →
        ∃ r, (net.IsSwitch r ∧ net.switchGraph.Reachable r s) ∧
          (st.switch r).localRootDist.toNat = 0 ∧ (parentGraph net st).Reachable v r := by
      intro v hv
      refine parent_reaches_root (fun w => (st.switch w).localRootDist.toNat)
        (P := fun w => net.IsSwitch w ∧ net.switchGraph.Reachable w s) ?_ hv
      rintro w ⟨hw, hws⟩ hne
      obtain ⟨m, hm⟩ := exists_elected he h hw
      have hwm : w ≠ m := by
        rintro rfl
        rw [hm.root_dist, SimpleGraph.dist_self] at hne
        exact hne rfl
      obtain ⟨u, hp, hu, hd⟩ := hm.parent_closer hwm
      refine ⟨u, ⟨hu, (parentOf_closer he h hp).1.reachable.symm.trans hws⟩, hp, ?_⟩
      omega
    obtain ⟨a, ⟨hsa, has⟩, ha0, har⟩ := up s ⟨hs, .refl s⟩
    obtain ⟨b, ⟨hsb, hbs⟩, hb0, hbr⟩ := up t ⟨ht, hr.symm⟩
    have hid : net.id a = net.id b := by
      have h1 := he.dist_zero hsa (by have := (he.backed a hsa).bounds; omega)
      have h2 := he.dist_zero hsb (by have := (he.backed b hsb).bounds; omega)
      rw [← h1, ← h2]
      exact root_eq_of_reachable h (has.trans hbs.symm)
    rw [← net.id_injective hid] at hbr
    exact har.trans hbr.symm

end Stable

variable [DecidableEq ι]

/-- At a stable state every component has elected its least id, with the distances of breadth
first search and parent links that span it. -/
theorem stable_elected (h : Reachable net anyOrder st) (hst : ElectionStable net st) :
    (∀ s, net.IsSwitch s → ∃ m, Elected net st m s) ∧ ParentTree net st := by
  have he := reachable_election h.actions
  have hno := noBetterOffer he hst
  constructor
  · intro s hs
    exact exists_elected he hno hs
  · exact parentTree he hno

theorem adopted_stable : ElectionStable twoSwitches adopted := by
  have hone : ∀ s, twoSwitches.nodePortNum s = 1 := by decide
  intro s k _ hk _
  obtain rfl : k = 0 := by
    have := hone s
    simp only [Topology.IsPort] at hk
    omega
  fin_cases s <;> rfl

theorem stable_elected_twoSwitches :
    (∀ s, twoSwitches.IsSwitch s → ∃ m, Elected twoSwitches adopted m s) ∧
      ParentTree twoSwitches adopted :=
  stable_elected adopted_reachable adopted_stable

end ElectedTree
