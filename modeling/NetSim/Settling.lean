import NetSim.Continuations

/-! States in which roots, parents and port flags have settled: nothing that can still happen
changes them. From every state the election can come to rest and every link can be heard, so
a settled state has the flags of the spanning tree. -/
namespace Settling

open SwitchNode NetworkTopology NetworkRuns LinkSends CarriedFrames LinkTraffic SwitchElection
  ElectedTree FlagTree PortFlags Continuations

variable {ι : Type} {net : Topology ι}

/-- The same roots, parents and port flags at all switches. -/
def SameTree (net : Topology ι) (st u : State ι) : Prop :=
  ∀ s, net.IsSwitch s → (u.switch s).localRootID = (st.switch s).localRootID ∧
    (u.switch s).localParent = (st.switch s).localParent ∧
    ∀ k, net.IsPort (s, k) → (u.switch s).localPortTree k = (st.switch s).localPortTree k

def Least (net : Topology ι) (s : ι) : Prop :=
  ∀ v, net.IsSwitch v → net.switchGraph.Reachable v s → net.id s ≤ net.id v

/-- Orders pairs like `election`, as roots and distances are at most 101. -/
def rank (sw : SwitchState) : ℕ := (sw.localRootID * 102 + sw.localRootDist).toNat

theorem rank_le {st u : State ι} {s : ι} (hs : net.IsSwitch s) (h : Election net st)
    (hu : Election net u) (hle : election (u.switch s) ≤ election (st.switch s)) :
    rank (u.switch s) ≤ rank (st.switch s) ∧
      (rank (u.switch s) = rank (st.switch s) →
        election (u.switch s) = election (st.switch s)) := by
  have root : ∀ {v : State ι}, Election net v →
      0 ≤ (v.switch s).localRootID ∧ (v.switch s).localRootID ≤ 101 := by
    intro v hv
    obtain ⟨m, _, hm, _⟩ := hv.backed s hs
    rw [← hm]
    exact net.id_range m
  have h1 := root h
  have h2 := root hu
  have h3 := (h.backed s hs).bounds
  have h4 := (hu.backed s hs).bounds
  simp only [election, lex_le] at hle ⊢
  simp only [rank]
  refine ⟨by omega, fun he => ?_⟩
  have hroot : (u.switch s).localRootID = (st.switch s).localRootID := by omega
  have hdist : (u.switch s).localRootDist = (st.switch s).localRootDist := by omega
  rw [hroot, hdist]

section Transfer

variable {st u : State ι} (h : SameTree net st u)
include h

theorem SameTree.portYes {q : Port ι} (hq : net.IsPort q) (hs : net.IsSwitch q.1) :
    PortYes u q ↔ PortYes st q := by
  rw [PortYes, PortYes, (h q.1 hs).2.2 q.2 hq]

theorem SameTree.parentLink {q : Port ι} (hq : SwitchLink net q) :
    ParentLink net u q ↔ ParentLink net st q := by
  rw [ParentLink, ParentLink, (h _ hq.2.1).2.1, (h _ hq.2.2).2.1]

theorem SameTree.parentOf {s t : ι} (hp : ParentOf net u s t) : ParentOf net st s t := by
  obtain ⟨hs, k, hk, hport, ht⟩ := hp
  exact ⟨hs, k, (h s hs).2.1 ▸ hk, hport, ht⟩

theorem SameTree.treeGraph_eq : treeGraph net u = treeGraph net st := by
  have hrel : ∀ s t, (∃ k, SwitchLink net (s, k) ∧ (net.peer (s, k)).1 = t ∧ PortYes u (s, k)) ↔
      ∃ k, SwitchLink net (s, k) ∧ (net.peer (s, k)).1 = t ∧ PortYes st (s, k) := by
    intro s t
    apply exists_congr
    intro k
    apply and_congr_right
    intro hq
    rw [h.portYes hq.1 hq.2.1]
  simp only [treeGraph, hrel]

theorem SameTree.treeFlags (hf : TreeFlags net u) : TreeFlags net st where
  flag_iff q hq := by
    rw [← h.portYes hq.1 hq.2.1, ← h.parentLink hq]
    exact hf.flag_iff q hq
  flags_agree q hq := by
    rw [← h.portYes hq.1 hq.2.1, ← h.portYes hq.peer.1 hq.peer.2.1]
    exact hf.flags_agree q hq
  no_self q hq hy := hf.no_self q hq ((h.portYes hq.1 hq.2.1).mpr hy)
  no_parallel s j k hj hk hyj hyk heq := hf.no_parallel s j k hj hk
    ((h.portYes hj.1 hj.2.1).mpr hyj) ((h.portYes hk.1 hk.2.1).mpr hyk) heq
  acyclic := h.treeGraph_eq ▸ hf.acyclic
  spans s t hs ht hr := h.treeGraph_eq ▸ hf.spans s t hs ht hr
  hosts_yes q hq hs hw := (h.portYes hq hs).mp (hf.hosts_yes q hq hs hw)

end Transfer

/-- What the election and the flags have made of a settled network. -/
structure SettledTree (net : Topology ι) (st : State ι) : Prop where
  flags : TreeFlags net st
  root_iff : ∀ s, net.IsSwitch s → ((st.switch s).localParent = -1 ↔ Least net s)
  below_root : ∀ r u, net.switchGraph.Adj r u → Least net r → ParentOf net st u r

theorem least_iff {st : State ι} {m s : ι} (h : Elected net st m s) (hs : net.IsSwitch s) :
    Least net s ↔ s = m := by
  constructor
  · intro hl
    apply net.id_injective
    exact le_antisymm (hl m h.root_switch h.root_joined) (h.root_least s hs (.refl s))
  · rintro rfl
    exact h.root_least

theorem below_root {st : State ι} (he : Election net st) (hno : NoBetterOffer net st) {r u : ι}
    (ha : net.switchGraph.Adj r u) (hr : Least net r) : ParentOf net st u r := by
  obtain ⟨m, hm⟩ := exists_elected he hno ha.2.1
  obtain rfl := (least_iff hm ha.2.1).mp hr
  obtain ⟨m, hu⟩ := exists_elected he hno ha.2.2.1
  have hroot : m = r := by
    apply net.id_injective
    rw [← hu.root_id, ← hm.root_id]
    exact root_eq_of_adj hno ha.symm
  subst hroot
  obtain ⟨t, ht, hst, hd⟩ := hu.parent_closer ha.1.symm
  have hdist : (st.switch t).localRootDist = 0 := by
    rw [hd, hu.root_dist, SimpleGraph.dist_eq_one_iff_adj.mpr ha]
    rfl
  have hid : net.id t = net.id m := by
    rw [← he.dist_zero hst hdist, ← hu.root_id]
    exact root_eq_of_adj hno (parentOf_closer he hno ht).1.symm
  exact net.id_injective hid ▸ ht

theorem noBetterOffer_congr {T st : State ι} (hu : Unchanged net T st) (h : NoBetterOffer net T) :
    NoBetterOffer net st := by
  intro s t ha
  obtain ⟨hroot, hdist⟩ := election_eq (hu t ha.2.2.1).1
  rw [(hu s ha.2.1).1, hroot, hdist]
  exact h s t ha

variable [DecidableEq ι]

theorem unchanged_of_election {D : Action ι → Prop} {T st : State ι} (h : ActionRuns net D T st)
    (he : ∀ s, net.IsSwitch s → election (st.switch s) = election (T.switch s)) :
    Unchanged net T st := by
  induction h with
  | refl => exact fun s _ => ⟨rfl, rfl⟩
  | @tail u v hm hstep ih =>
    obtain ⟨a, _, _, rfl⟩ := hstep
    have hmid : ∀ s, net.IsSwitch s → election (u.switch s) = election (T.switch s) := by
      intro s hs
      apply le_antisymm (actionRuns_election_le hm s)
      exact he s hs ▸ act_election_le net u a s
    intro s hs
    refine ⟨he s hs, ?_⟩
    rcases act_election net u a s with ⟨_, hpar⟩ | ⟨_, _, _, _, _, _, _, _, hlt, heq, _⟩
    · exact hpar.trans (ih hmid s hs).2
    · rw [← heq, he s hs, hmid s hs] at hlt
      exact absurd hlt (lt_irrefl _)

theorem exists_quiet {st : State ι} (h : ActionReachable net fifo st) :
    ∃ v, Runs net lossless st v ∧ ∀ w, Runs net lossless v w → Unchanged net v w := by
  classical
  have := finite_nodes net
  have := Fintype.ofFinite ι
  let weight : State ι → ℕ := fun u =>
    ∑ s ∈ Finset.univ.filter net.IsSwitch, rank (u.switch s)
  obtain ⟨v, hv, hmin⟩ := (measure weight).wf.has_min {u | Runs net lossless st u} ⟨st, .refl⟩
  refine ⟨v, hv, ?_⟩
  intro w hw
  have reached : ∀ {u}, Runs net lossless st u → Election net u := fun hu =>
    reachable_election (h.trans hu.fifo.actionRuns)
  have hle : ∀ s ∈ Finset.univ.filter net.IsSwitch, rank (w.switch s) ≤ rank (v.switch s) ∧
      (rank (w.switch s) = rank (v.switch s) → election (w.switch s) = election (v.switch s)) := by
    intro s hs
    exact rank_le (Finset.mem_filter.mp hs).2 (reached hv) (reached (hv.trans hw))
      (actionRuns_election_le hw.actionRuns s)
  have hsum : weight w = weight v :=
    le_antisymm (Finset.sum_le_sum fun s hs => (hle s hs).1) (not_lt.mp (hmin w (hv.trans hw)))
  have heq := (Finset.sum_eq_sum_iff_of_le fun s hs => (hle s hs).1).mp hsum
  apply unchanged_of_election hw.actionRuns
  intro s hs
  have hmem : s ∈ Finset.univ.filter net.IsSwitch := Finset.mem_filter.mpr ⟨Finset.mem_univ s, hs⟩
  exact (hle s hmem).2 (heq s hmem)

/-- No run changes a root, a parent or a flag any more. Runs without loss suffice for what
follows, so a state that settles only as long as nothing is lost is covered as well. -/
def Settled (net : Topology ι) (st : State ι) : Prop :=
  ∀ u, Runs net lossless st u → SameTree net st u

theorem settled_view {st : State ι} (hr : ActionReachable net fifo st) (h : Settled net st) :
    ∃ w, SameTree net st w ∧ Election net w ∧ NoBetterOffer net w ∧ TreeFlags net w := by
  obtain ⟨v, hv, hquiet⟩ := exists_quiet hr
  obtain ⟨w, hw, hheard⟩ := exists_heard net v
  have hrv : ActionReachable net fifo v := hr.trans hv.fifo.actionRuns
  have hsince := since_run hrv hw.fifo.actionRuns (hquiet w hw)
  exact ⟨w, h w (hv.trans hw), hsince.elected, heard_noBetterOffer hsince hheard,
    heard_treeFlags hsince hheard⟩

theorem settledTree {st : State ι} (hr : ActionReachable net fifo st) (h : Settled net st) :
    SettledTree net st := by
  obtain ⟨w, hsame, he, hno, hflags⟩ := settled_view hr h
  refine ⟨hsame.treeFlags hflags, ?_, ?_⟩
  · intro s hs
    obtain ⟨m, hm⟩ := exists_elected he hno hs
    rw [← (hsame s hs).2.1, hm.parent_root, least_iff hm hs]
  · exact fun r u ha hl => hsame.parentOf (below_root he hno ha hl)

theorem election_rests {st : State ι} {a : Action ι} (he : Election net st)
    (hno : NoBetterOffer net st) (hp : Permitted net a) (s : ι) :
    election ((act net st a).switch s) = election (st.switch s) ∧
      ((act net st a).switch s).localParent = (st.switch s).localParent := by
  rcases act_election net st a s with h | ⟨p, rx, f, rfl, rfl, hf, hc, hS, hlt, _, _⟩
  · exact h
  obtain ⟨hw, m, q, _, _, _, hv⟩ := (he.frames.inFlight p hp.2 f (List.mem_of_getElem? hf)).deliver
    rx.prior hc hS
  have hle := (hv _ q.end_mem_support).2
  by_cases hself : p.1 = (net.peer p).1
  · rw [← hself] at hle
    simp only [offer, election, lex_le, lex_lt] at hle hlt
    omega
  · have hbest := hno _ _ ⟨hself, hp.1, hw, hp.2.linked⟩
    simp only [offer, election, lex_le, lex_lt] at hle hlt hbest
    omega

theorem unchanged_of_noBetterOffer {D : Action ι → Prop} {T st : State ι} (he : Election net T)
    (hno : NoBetterOffer net T) (h : ActionRuns net D T st) : Unchanged net T st := by
  have hinv : Election net st ∧ Unchanged net T st := by
    refine h.invariant (P := fun u => Election net u ∧ Unchanged net T u) ?_
      ⟨he, fun s _ => ⟨rfl, rfl⟩⟩
    rintro u a hp _ ⟨heu, hu⟩
    refine ⟨heu.act hp, fun s hs => ?_⟩
    obtain ⟨h1, h2⟩ := election_rests heu (noBetterOffer_congr hu hno) hp s
    exact ⟨h1.trans (hu s hs).1, h2.trans (hu s hs).2⟩
  exact hinv.2

/-- Once the election rests and every link has been heard since, everything has settled. -/
theorem heard_settled {T st : State ι} (hT : ActionReachable net fifo T)
    (hrun : Runs net fifo T st) (hquiet : Unchanged net T st) (hheard : Heard net T st) :
    Settled net st := by
  have hst := since_run hT hrun.actionRuns hquiet
  intro u hu
  have hrunu : Runs net fifo T u := hrun.trans hu.fifo
  have hno := heard_noBetterOffer hst hheard
  have hrest := unchanged_of_noBetterOffer hst.elected hno hu.actionRuns
  have hsince := since_run hT hrunu.actionRuns fun s hs =>
    ⟨(hrest s hs).1.trans (hquiet s hs).1, (hrest s hs).2.trans (hquiet s hs).2⟩
  have hheardu : Heard net T u := by
    constructor
    · intro q hq
      obtain ⟨f, hf, hfr⟩ := hheard.switches q hq
      exact ⟨f, (actionRuns_received hu.actionRuns q).subset hf, hfr⟩
    · intro q hq hs hw
      obtain ⟨f, hf, hc⟩ := hheard.hosts q hq hs hw
      exact ⟨f, (actionRuns_received hu.actionRuns q).subset hf, hc⟩
  have h1 := heard_treeFlags hst hheard
  have h2 := heard_treeFlags hsince hheardu
  have hparent := fun s hs => (hrest s hs).2
  intro s hs
  refine ⟨(election_eq (hrest s hs).1).1, hparent s hs, ?_⟩
  intro k hk
  have hyes : PortYes u (s, k) ↔ PortYes st (s, k) := by
    by_cases hw : net.IsSwitch (net.peer (s, k)).1
    · have hq : SwitchLink net (s, k) := ⟨hk, hs, hw⟩
      rw [h1.flag_iff _ hq, h2.flag_iff _ hq, ParentLink, ParentLink, hparent _ hq.2.1,
        hparent _ hq.2.2]
    · exact ⟨fun _ => h1.hosts_yes _ hk hs hw, fun _ => h2.hosts_yes _ hk hs hw⟩
  rw [PortYes, PortYes] at hyes
  cases hf : (st.switch s).localPortTree k with
  | yes => exact hyes.mpr hf
  | no =>
    cases hg : (u.switch s).localPortTree k with
    | yes => rw [hyes.mp hg] at hf; cases hf
    | no => rfl

end Settling
