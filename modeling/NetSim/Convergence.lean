import NetSim.NetworkSchedules
import NetSim.Settling
import Mathlib.Data.Set.Card
import Mathlib.Order.Filter.Finite

/-! The election comes to rest. A switch changes its root or distance only so many times in any
run; and if the switches keep going and the links keep delivering, the network reaches the
spanning tree of its least id and stays there. -/
namespace Convergence

open Filter PacketCodec SwitchNode NetworkTopology NetworkRuns LinkSends CarriedFrames LinkTraffic
  SwitchElection ElectedTree FlagTree PortFlags Continuations Settling InfiniteRuns
  NetworkSchedules

variable {ι : Type} [DecidableEq ι] {net : Topology ι} {D : Action ι → Prop}

theorem election_falls (e : Execution (ActionStep net D)) (s : ι) {t u : ℕ} (htu : t ≤ u) :
    election ((e.state u).switch s) ≤ election ((e.state t).switch s) :=
  actionRuns_election_le (actionRuns_between e htu) s

theorem election_at (e : Execution (ActionStep net D)) (h0 : e.state 0 = initial net) (t : ℕ) :
    Election net (e.state t) := reachable_election (reachable_at e h0 t)

section Changes

variable [Fintype ι]

def smaller (net : Topology ι) (s : ι) : Finset ι :=
  Finset.univ.filter fun m => net.IsSwitch m ∧ net.id m < net.id s

/-- The pairs that a switch can come down to: the id of a smaller switch and a distance. -/
def offers (net : Topology ι) (s : ι) : Finset (ℤ ×ₗ ℤ) :=
  (smaller net s ×ˢ Finset.Ico 1 net.switchCount).image fun x => toLex (net.id x.1, (x.2 : ℤ))

omit [DecidableEq ι] in
theorem card_offers (s : ι) :
    (offers net s).card ≤ (smaller net s).card * (net.switchCount - 1) := by
  refine Finset.card_image_le.trans ?_
  rw [Finset.card_product, Nat.card_Ico]

omit [DecidableEq ι] in
theorem mem_offers {st : State ι} (h : Election net st) {s : ι} (hs : net.IsSwitch s)
    (hlt : election (st.switch s) < toLex (net.id s, 0)) :
    election (st.switch s) ∈ offers net s := by
  have hcount := (h.backed s hs).lt_switchCount
  have hbounds := (h.backed s hs).bounds
  rw [election, lex_lt] at hlt
  obtain ⟨m, p, hm, _, hd, hv⟩ := h.backed s hs
  have hms : net.IsSwitch m := (hv m p.start_mem_support).1
  have hpos : (st.switch s).localRootDist ≠ 0 := by
    intro h0
    have := h.dist_zero hs h0
    omega
  have hless : net.id m < net.id s := by omega
  rw [offers, Finset.mem_image]
  refine ⟨(m, p.length), ?_, by rw [hm, hd]; rfl⟩
  rw [Finset.mem_product, smaller, Finset.mem_filter, Finset.mem_Ico]
  exact ⟨⟨Finset.mem_univ m, hms, hless⟩, by omega, by omega⟩

/-- The times at which s changes its root or its distance. -/
def changes (e : Execution (ActionStep net D)) (s : ι) : Set ℕ :=
  {t | election ((e.state (t + 1)).switch s) ≠ election ((e.state t).switch s)}

omit [Fintype ι] in
theorem changes_injOn (e : Execution (ActionStep net D)) (s : ι) :
    Set.InjOn (fun t => election ((e.state (t + 1)).switch s)) (changes e s) := by
  have falls : ∀ {t u}, u ∈ changes e s → t < u →
      election ((e.state (u + 1)).switch s) ≠ election ((e.state (t + 1)).switch s) := by
    intro t u hu htu heq
    have h1 := election_falls e s (show t + 1 ≤ u from htu)
    have h2 := election_falls e s (Nat.le_succ u)
    apply hu
    exact le_antisymm h2 (heq ▸ h1)
  intro t ht u hu heq
  rcases lt_trichotomy t u with hlt | rfl | hgt
  · exact absurd heq.symm (falls hu hlt)
  · rfl
  · exact absurd heq (falls ht hgt)

/-- Whatever is lost, delayed or reordered, a switch changes its root or its distance at most
once for each smaller switch and each possible distance. -/
theorem election_changes_bounded (e : Execution (ActionStep net anyOrder))
    (h0 : e.state 0 = initial net) {s : ι} (hs : net.IsSwitch s) :
    (changes e s).Finite ∧
      (changes e s).ncard ≤ (smaller net s).card * (net.switchCount - 1) := by
  have hmaps : Set.MapsTo (fun t => election ((e.state (t + 1)).switch s)) (changes e s)
      (offers net s : Set (ℤ ×ₗ ℤ)) := by
    intro t ht
    have hle := election_falls e s (Nat.le_succ t)
    have hown := (election_at e h0 t).own s
    exact mem_offers (election_at e h0 (t + 1)) hs ((lt_of_le_of_ne hle ht).trans_le hown)
  have hfin : (changes e s).Finite :=
    Set.Finite.of_injOn hmaps (changes_injOn e s) (Finset.finite_toSet _)
  refine ⟨hfin, ?_⟩
  have hcard := Set.ncard_le_ncard_of_injOn _ hmaps (changes_injOn e s) (Finset.finite_toSet _)
  rw [Set.ncard_coe_finset] at hcard
  exact hcard.trans (card_offers s)

theorem election_changes_bounded_takingTurns :
    let e : Execution (ActionStep hostedPair anyOrder) := relax takingTurns fun _ _ => trivial
    (changes e 1).Finite ∧ (changes e 1).ncard ≤
      (smaller hostedPair 1).card * (hostedPair.switchCount - 1) :=
  election_changes_bounded _ rfl (by decide)

end Changes

section Fairness

/-- A link to a switch may lose packets, but if it has recent control packets to deliver again
and again, it delivers one. -/
def FairLinks (e : Execution (ActionStep net D)) : Prop :=
  ∀ q, net.IsPort q → net.IsSwitch q.1 → ∀ n,
    (∃ᶠ t in atTop, ∃ f ∈ (e.state t).channel q, Recent n f) →
      ∃ t, ∃ f ∈ (e.state t).received q, Recent n f

theorem lossless_fairLinks (e : Execution (ActionStep net lossless))
    (hp : ∀ q, net.IsPort q → net.IsSwitch q.1 → Polled e q) : FairLinks e := by
  intro q hq hs n hoften
  obtain ⟨t, f, hf, hc, hn⟩ := hoften.exists
  obtain ⟨u, _, g, hg, hgf⟩ := frame_taken e (hp q hq hs) hf
  refine ⟨u, g, hg, ?_, ?_⟩
  · exact (congrArg Header.type hgf).trans hc
  · exact hn.trans (congrArg Header.stamp hgf).ge

variable {e : Execution (ActionStep net D)}

theorem fresh_heard (hl : Live e) (hf : FairLinks e) {q : Port ι} (hq : SwitchLink net q) (T : ℕ) :
    ∃ t, ∃ f ∈ (e.state t).received q, Fresh (e.state T) (header f) := by
  apply hf q hq.1 hq.2.1
  rw [frequently_atTop]
  intro t
  obtain ⟨u, htu, f, hm, hc, hn⟩ :=
    announced e hq.1 (hl.timers _ hq.2.2) (hl.jobs _ hq.2.2) (max t T)
  exact ⟨u, (le_max_left t T).trans htu, f, hm, hc,
    (clock_mono e (le_max_right t T)).trans hn⟩

theorem heard_eventually (hl : Live e) (hf : FairLinks e)
    (hhosts : ∀ q, net.IsPort q → net.IsSwitch q.1 → ¬ net.IsSwitch (net.peer q).1 →
      ∃ t, ∃ f ∈ (e.state t).received q, f.type = pktControlPacket) (T : ℕ) :
    ∀ᶠ u in atTop, Heard net (e.state T) (e.state u) := by
  obtain ⟨l, hl'⟩ := exists_ports net
  have hfin : {q : Port ι | net.IsPort q ∧ net.IsSwitch q.1}.Finite :=
    (List.finite_toSet l).subset fun q hq => (hl' q).mpr hq
  have hall : ∀ᶠ u in atTop, ∀ q ∈ {q : Port ι | net.IsPort q ∧ net.IsSwitch q.1},
      ∃ f ∈ (e.state u).received q, f.type = pktControlPacket ∧
        (net.IsSwitch (net.peer q).1 → Fresh (e.state T) (header f)) := by
    rw [eventually_all_finite hfin]
    rintro q ⟨hq, hs⟩
    by_cases hw : net.IsSwitch (net.peer q).1
    · obtain ⟨t, f, hm, hfr⟩ := fresh_heard hl hf ⟨hq, hs, hw⟩ T
      filter_upwards [eventually_ge_atTop t] with u htu
      exact ⟨f, (received_mono e htu q).subset hm, hfr.1, fun _ => hfr⟩
    · obtain ⟨t, f, hm, hc⟩ := hhosts q hq hs hw
      filter_upwards [eventually_ge_atTop t] with u htu
      exact ⟨f, (received_mono e htu q).subset hm, hc, fun h => absurd h hw⟩
  filter_upwards [hall] with u hu
  constructor
  · intro q hq
    obtain ⟨f, hm, _, hfr⟩ := hu q ⟨hq.1, hq.2.1⟩
    exact ⟨f, hm, hfr hq.2.2⟩
  · intro q hq hs _
    obtain ⟨f, hm, hc, _⟩ := hu q ⟨hq, hs⟩
    exact ⟨f, hm, hc⟩

end Fairness

section Rest

theorem election_rests_eventually (e : Execution (ActionStep net D))
    (h0 : e.state 0 = initial net) :
    ∃ T, ∀ t, T ≤ t → Unchanged net (e.state T) (e.state t) := by
  have := finite_nodes net
  have falls : ∀ s, net.IsSwitch s → Antitone fun t => rank ((e.state t).switch s) :=
    fun s hs t u htu => (rank_le hs (election_at e h0 t) (election_at e h0 u)
      (election_falls e s htu)).1
  have hrest : ∀ᶠ T in atTop, ∀ s, net.IsSwitch s → ∀ t, T ≤ t →
      rank ((e.state t).switch s) = rank ((e.state T).switch s) := by
    rw [eventually_all]
    intro s
    by_cases hs : net.IsSwitch s
    · obtain ⟨n, hn⟩ := WellFoundedLT.antitone_chain_condition (falls s hs)
      filter_upwards [eventually_ge_atTop n] with T hT _ t ht
      rw [← hn t (hT.trans ht), ← hn T hT]
    · exact Eventually.of_forall fun T h => absurd h hs
  obtain ⟨T, hT⟩ := hrest.exists
  refine ⟨T, fun t ht => unchanged_of_election (actionRuns_between e ht) ?_⟩
  intro s hs
  exact (rank_le hs (election_at e h0 T) (election_at e h0 t) (election_falls e s ht)).2
    (hT s hs t ht)

/-- The network at time t has elected the least id of every component, with the distances of
breadth first search, parents that make a spanning tree, and the flags of that tree. -/
structure Converged (net : Topology ι) (st : State ι) : Prop where
  elected : ∀ s, net.IsSwitch s → ∃ m, Elected net st m s
  parents : ParentTree net st
  flags : TreeFlags net st

theorem since_converged {T st : State ι} (h : Since net T st) (hh : Heard net T st) :
    Converged net st where
  elected _ hs := exists_elected h.elected (heard_noBetterOffer h hh) hs
  parents := parentTree h.elected (heard_noBetterOffer h hh)
  flags := heard_treeFlags h hh

omit [DecidableEq ι] in
theorem unchanged_between {T st u : State ι} (h : Unchanged net T st) (hu : Unchanged net T u) :
    Unchanged net st u :=
  fun s hs => ⟨(hu s hs).1.trans (h s hs).1.symm, (hu s hs).2.trans (h s hs).2.symm⟩

omit [DecidableEq ι] in
theorem sameTree_of_flags {st u : State ι} (h : Unchanged net st u) (hs : TreeFlags net st)
    (hu : TreeFlags net u) : SameTree net st u := by
  intro s hsw
  refine ⟨(election_eq (h s hsw).1).1, (h s hsw).2, ?_⟩
  intro k hk
  have hyes : PortYes u (s, k) ↔ PortYes st (s, k) := by
    by_cases hw : net.IsSwitch (net.peer (s, k)).1
    · have hq : SwitchLink net (s, k) := ⟨hk, hsw, hw⟩
      rw [hs.flag_iff _ hq, hu.flag_iff _ hq, ParentLink, ParentLink, (h _ hq.2.1).2,
        (h _ hq.2.2).2]
    · exact ⟨fun _ => hs.hosts_yes _ hk hsw hw, fun _ => hu.hosts_yes _ hk hsw hw⟩
  rw [PortYes, PortYes] at hyes
  cases hf : (st.switch s).localPortTree k with
  | yes => exact hyes.mpr hf
  | no =>
    cases hg : (u.switch s).localPortTree k with
    | yes => rw [hyes.mp hg] at hf; cases hf
    | no => rfl

theorem converges {e : Execution (ActionStep net fifo)} (h0 : e.state 0 = initial net)
    (hheard : ∀ T, ∀ᶠ u in atTop, Heard net (e.state T) (e.state u)) :
    ∃ B, ∀ t, B ≤ t → Converged net (e.state t) ∧ Unchanged net (e.state B) (e.state t) ∧
      SameTree net (e.state B) (e.state t) := by
  obtain ⟨T, hT⟩ := election_rests_eventually e h0
  obtain ⟨B, hB⟩ := eventually_atTop.mp ((hheard T).and (eventually_ge_atTop T))
  have hsince : ∀ t, B ≤ t → Since net (e.state T) (e.state t) := fun t ht =>
    since_run (reachable_at e h0 T) (actionRuns_between e (hB t ht).2) (hT t (hB t ht).2)
  have hconv : ∀ t, B ≤ t → Converged net (e.state t) := fun t ht =>
    since_converged (hsince t ht) (hB t ht).1
  refine ⟨B, fun t ht => ?_⟩
  have hun := unchanged_between (hsince B le_rfl).unchanged (hsince t ht).unchanged
  exact ⟨hconv t ht, hun, sameTree_of_flags hun (hconv B le_rfl).flags (hconv t ht).flags⟩

end Rest

section Announcements

/-- Even if links lose packets, as long as they do not lose all announcements for good and every
node keeps going, the network reaches the spanning tree of its least id and stays there. -/
theorem lossy_election_converges (e : Execution (ActionStep net fifo))
    (h0 : e.state 0 = initial net) (hl : Live e) (hf : FairLinks e)
    (hhosts : ∀ h, ¬ net.IsSwitch h → ∃ᶠ t in atTop, AnnouncesAt e h t) :
    ∃ B, ∀ t, B ≤ t → Converged net (e.state t) ∧ Unchanged net (e.state B) (e.state t) ∧
      SameTree net (e.state B) (e.state t) := by
  apply converges h0
  apply heard_eventually hl hf
  intro q hq hs hw
  have hoften : ∃ᶠ t in atTop, ∃ f ∈ (e.state t).channel q, Recent 0 f := by
    rw [frequently_atTop]
    intro t
    obtain ⟨u, htu, hu⟩ := frequently_atTop.mp (hhosts _ hw) t
    exact ⟨u + 1, by omega, announced_channel hq hu⟩
  obtain ⟨t, f, hm, hc, _⟩ := hf q hq hs 0 hoften
  exact ⟨t, f, hm, hc⟩

theorem lossy_election_converges_takingTurns :
    let e : Execution (ActionStep hostedPair fifo) := relax takingTurns fun _ => lossless_fifo
    ∃ B, ∀ t, B ≤ t → Converged hostedPair (e.state t) ∧
      Unchanged hostedPair (e.state B) (e.state t) ∧ SameTree hostedPair (e.state B) (e.state t) :=
  lossy_election_converges _ rfl ⟨takingTurns_live.timers, takingTurns_live.jobs⟩
    (lossless_fairLinks takingTurns takingTurns_polls) takingTurns_announces

/-- Without loss it is enough that every switch goes on polling its ports, counting and executing
jobs, and that every host and the DNS server has announced itself once. -/
theorem lossless_converges {e : Execution (ActionStep net lossless)}
    (h0 : e.state 0 = initial net) (hl : Live e)
    (hp : ∀ q, net.IsPort q → net.IsSwitch q.1 → Polled e q)
    (hhosts : ∀ h, ¬ net.IsSwitch h → ∃ t, AnnouncesAt e h t) :
    ∃ B, ∀ t, B ≤ t → Converged net (e.state t) ∧ Unchanged net (e.state B) (e.state t) ∧
      SameTree net (e.state B) (e.state t) := by
  let e' : Execution (ActionStep net fifo) := relax e fun _ => lossless_fifo
  have hl' : Live e' := ⟨hl.timers, hl.jobs⟩
  have hf' : FairLinks e' := lossless_fairLinks e hp
  refine converges (e := e') h0 (heard_eventually hl' hf' ?_)
  intro q hq hs hw
  obtain ⟨t, ht⟩ := hhosts _ hw
  obtain ⟨f, hm, hc, _⟩ := announced_channel hq ht
  obtain ⟨u, _, g, hg, hgf⟩ := frame_taken e (hp q hq hs) hm
  exact ⟨u, g, hg, (congrArg Header.type hgf).trans hc⟩

end Announcements

end Convergence
