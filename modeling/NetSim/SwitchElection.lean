import NetSim.CarriedFrames
import NetSim.NetworkWiring
import Mathlib.Data.Fin.VecNotation
import Mathlib.Combinatorics.SimpleGraph.Metric
import Mathlib.Data.Int.Interval

/-! The election of the root switch. The pair of a switch only falls, so the switches through
which a root and a distance came are all different, and the distance is the length of a path. -/
namespace SwitchElection

open PacketCodec SwitchNode NetworkTopology NetworkRuns CarriedFrames

variable {ι : Type} {net : Topology ι}

/-- A simple path of exactly d links leads to t from the switch with id r, and every switch on
it has come down to (r, d) or lower. -/
def Supported (net : Topology ι) (st : State ι) (r d : ℤ) (t : ι) : Prop :=
  ∃ m, ∃ p : net.switchGraph.Walk m t, net.id m = r ∧ p.IsPath ∧ (p.length : ℤ) = d ∧
    ∀ v ∈ p.support, net.IsSwitch v ∧ election (st.switch v) ≤ toLex (r, d)

theorem Supported.mono {st u : State ι} (hu : ∀ v, election (u.switch v) ≤ election (st.switch v))
    {r d : ℤ} {t : ι} (h : Supported net st r d t) : Supported net u r d t := by
  obtain ⟨m, p, hm, hp, hd, hv⟩ := h
  exact ⟨m, p, hm, hp, hd, fun v hvp => ⟨(hv v hvp).1, (hu v).trans (hv v hvp).2⟩⟩

/-- Ids are distinct and in 0..101, so a path has at most 101 links. -/
theorem Supported.bounds {st : State ι} {r d : ℤ} {t : ι} (h : Supported net st r d t) :
    0 ≤ d ∧ d ≤ 101 := by
  obtain ⟨m, p, _, hp, rfl, _⟩ := h
  have hnd : (p.support.map net.id).Nodup := hp.support_nodup.map net.id_injective
  have hsub : (p.support.map net.id).toFinset ⊆ Finset.Icc 0 101 := by
    intro x hx
    rw [List.mem_toFinset, List.mem_map] at hx
    obtain ⟨v, _, rfl⟩ := hx
    exact Finset.mem_Icc.mpr (net.id_range v)
  have hcard := Finset.card_le_card hsub
  rw [List.toFinset_card_of_nodup hnd, List.length_map, p.length_support, Int.card_Icc] at hcard
  omega

theorem Supported.lt_switchCount [Fintype ι] {st : State ι} {r d : ℤ} {t : ι}
    (h : Supported net st r d t) : d + 1 ≤ net.switchCount := by
  classical
  obtain ⟨m, p, _, hp, rfl, hv⟩ := h
  have hsub : p.support.toFinset ⊆ Finset.univ.filter net.IsSwitch := by
    intro v hvp
    rw [List.mem_toFinset] at hvp
    exact Finset.mem_filter.mpr ⟨Finset.mem_univ v, (hv v hvp).1⟩
  have hcard := Finset.card_le_card hsub
  rw [List.toFinset_card_of_nodup hp.support_nodup, p.length_support] at hcard
  rw [Topology.switchCount]
  omega

theorem Supported.root_char {st : State ι} {r d : ℤ} {t : ι} (h : Supported net st r d t) :
    (Int8.ofInt r).toInt = r := by
  obtain ⟨m, _, rfl, _⟩ := h
  exact Topology.id_toInt m

theorem Supported.dist_char {st : State ι} {r d : ℤ} {t : ι} (h : Supported net st r d t) :
    (Int8.ofInt d).toInt = d := by
  have := h.bounds
  exact char_of_small (by omega) (by omega)

theorem Supported.extend {st : State ι} {r d : ℤ} {s t : ι} (h : Supported net st r d t)
    (hs : net.IsSwitch s) (hl : net.Linked t s) (hlt : toLex (r, d + 1) < election (st.switch s))
    {u : State ι} (hu : ∀ v, election (u.switch v) ≤ election (st.switch v))
    (he : election (u.switch s) = toLex (r, d + 1)) : Supported net u r (d + 1) s := by
  obtain ⟨m, p, hm, hp, hd, hv⟩ := h
  have hle : toLex (r, d) ≤ toLex (r, d + 1) := by
    rw [lex_le]
    omega
  have hns : s ∉ p.support := fun hmem => absurd ((hv s hmem).2.trans hle) (not_le.mpr hlt)
  have hadj : net.switchGraph.Adj t s :=
    ⟨fun hts => hns (hts ▸ p.end_mem_support), (hv t p.end_mem_support).1, hs, hl⟩
  refine ⟨m, p.concat hadj, hm, hp.concat hns hadj, by simp [hd], ?_⟩
  intro v hvp
  rw [SimpleGraph.Walk.support_concat, List.mem_append, List.mem_singleton] at hvp
  rcases hvp with hvp | rfl
  · exact ⟨(hv v hvp).1, (hu v).trans ((hv v hvp).2.trans hle)⟩
  · exact ⟨hs, he.le⟩

def Announced (net : Topology ι) (st : State ι) (w : ι) (f : Frame) : Prop :=
  f.type = pktControlPacket → f.packetSenderType = charS →
    net.IsSwitch w ∧ Supported net st f.packetRootID.toInt f.packetRootDist w

/-- Going through a `char` changes nothing in a control packet of a switch. -/
def WireExact (f : Frame) : Prop :=
  f.type = pktControlPacket → f.packetSenderType = charS → ∀ prior,
    (f.deliver prior).packetRootID = f.packetRootID ∧
      (f.deliver prior).packetRootDist = f.packetRootDist

theorem Announced.wireExact {st : State ι} {w : ι} {f : Frame} (h : Announced net st w f) :
    WireExact f := fun hc hS _ => ⟨rfl, (h hc hS).2.dist_char⟩

def Backed (net : Topology ι) (st : State ι) : Prop :=
  ∀ s, net.IsSwitch s →
    Supported net st (st.switch s).localRootID (st.switch s).localRootDist s

theorem Announced.deliver {st : State ι} {w : ι} {f : Frame} (h : Announced net st w f)
    (prior : Fin payloadMax → Int8) : Announced net st w (f.deliver prior) := by
  intro hc hS
  obtain ⟨hw, hsup⟩ := h hc hS
  refine ⟨hw, ?_⟩
  change Supported net st f.packetRootID.toInt (Int8.ofInt f.packetRootDist).toInt w
  rwa [hsup.dist_char]

/-- Either the switch is its own root, or its parent port leads to the switch it took its pair
from, which has come down to one link less. -/
def ParentKnown (net : Topology ι) (st : State ι) (s : ι) : Prop :=
  ((st.switch s).localParent = -1 ∧ (st.switch s).localRootID = net.id s ∧
    (st.switch s).localRootDist = 0) ∨
  ∃ k : ℕ, (st.switch s).localParent = k ∧ net.IsPort (s, k) ∧
    net.IsSwitch (net.peer (s, k)).1 ∧ election (st.switch s) < toLex (net.id s, 0) ∧
    election (st.switch (net.peer (s, k)).1) ≤
      toLex ((st.switch s).localRootID, (st.switch s).localRootDist - 1)

structure Election (net : Topology ι) (st : State ι) : Prop where
  frames : Carried net (Announced net st) st
  backed : Backed net st
  parents : ∀ s, net.IsSwitch s → ParentKnown net st s
  own : ∀ s, election (st.switch s) ≤ toLex (net.id s, 0)

theorem election_eq {sw : SwitchState} {r d : ℤ} (h : election sw = toLex (r, d)) :
    sw.localRootID = r ∧ sw.localRootDist = d := by
  have := toLex.injective h
  exact ⟨congrArg Prod.fst this, congrArg Prod.snd this⟩

theorem election_initial : Election net (initial net) where
  frames := carried_initial _
  backed s hs := by
    refine ⟨s, .nil, rfl, .nil, rfl, ?_⟩
    intro v hv
    rw [SimpleGraph.Walk.support_nil, List.mem_singleton] at hv
    subst hv
    exact ⟨hs, le_rfl⟩
  parents s _ := Or.inl ⟨rfl, rfl, rfl⟩
  own s := le_rfl

theorem Election.root_le {st : State ι} (h : Election net st) (s : ι) :
    (st.switch s).localRootID ≤ net.id s := by
  have := h.own s
  rw [election, lex_le] at this
  omega

theorem Election.dist_zero {st : State ι} (h : Election net st) {s : ι} (hs : net.IsSwitch s)
    (hd : (st.switch s).localRootDist = 0) : (st.switch s).localRootID = net.id s := by
  obtain ⟨m, p, hm, _, hl, _⟩ := h.backed s hs
  have hms : m = s := p.eq_of_length_eq_zero (by omega)
  rw [← hm, hms]

theorem Election.own_root {st : State ι} (h : Election net st) {s : ι} (hs : net.IsSwitch s)
    (hr : (st.switch s).localRootID = net.id s) :
    (st.switch s).localParent = -1 ∧ (st.switch s).localRootDist = 0 := by
  rcases h.parents s hs with ⟨h1, _, h2⟩ | ⟨_, _, _, _, hlt, _⟩
  · exact ⟨h1, h2⟩
  · have := (h.backed s hs).bounds
    rw [election, lex_lt] at hlt
    omega

theorem Election.root_iff_parent {st : State ι} (h : Election net st) {s : ι}
    (hs : net.IsSwitch s) :
    (st.switch s).localParent = -1 ↔ (st.switch s).localRootID = net.id s := by
  constructor
  · intro hpar
    rcases h.parents s hs with ⟨_, h1, _⟩ | ⟨k, hk, _⟩
    · exact h1
    · omega
  · intro hr
    exact (h.own_root hs hr).1

variable [DecidableEq ι]

theorem controlTimer_election (id : ℤ) (stamp : ℕ) (sw : SwitchState) :
    election (controlTimer id stamp sw) = election sw ∧
      (controlTimer id stamp sw).localParent = sw.localParent := by
  unfold controlTimer
  split <;> exact ⟨rfl, rfl⟩

variable (net) in
/-- The pair and the parent of a switch change only when it takes a control packet of a switch
that offers a better pair. -/
theorem act_election (st : State ι) (a : Action ι) (s : ι) :
    (election ((act net st a).switch s) = election (st.switch s) ∧
      ((act net st a).switch s).localParent = (st.switch s).localParent) ∨
    ∃ p rx f, a = .receive p rx ∧ p.1 = s ∧ (st.channel p)[rx.index]? = some f ∧
      f.type = pktControlPacket ∧ f.packetSenderType = charS ∧
      offer (f.deliver rx.prior).toPacket < election (st.switch s) ∧
      election ((act net st a).switch s) = offer (f.deliver rx.prior).toPacket ∧
      ((act net st a).switch s).localParent = p.2 := by
  rcases act_switch net st a s with h | ⟨_, h⟩ | ⟨p, rx, f, ha, hp, hf, h⟩ | ⟨_, _, _, _, h⟩
  · exact Or.inl (by rw [h]; exact ⟨rfl, rfl⟩)
  · rw [h]
    exact Or.inl (controlTimer_election _ _ _)
  · rw [h, receivePacket_election, receivePacket_localParent]
    by_cases hc : (f.deliver rx.prior).type = pktControlPacket
    · rw [if_pos hc, if_pos hc]
      rcases electRoot_cases p.2 (f.deliver rx.prior).toPacket (st.switch s) with
        ⟨he, _⟩ | ⟨hS, hlt, he⟩
      · exact Or.inl (by rw [he]; exact ⟨rfl, rfl⟩)
      · exact Or.inr ⟨p, rx, f, ha, hp, hf, hc, hS, hlt, by rw [he]; rfl, by rw [he]⟩
    · rw [if_neg hc, if_neg hc]
      exact Or.inl ⟨rfl, rfl⟩
  · exact Or.inl (by rw [h]; exact ⟨rfl, rfl⟩)

variable (net) in
theorem act_election_le (st : State ι) (a : Action ι) (s : ι) :
    election ((act net st a).switch s) ≤ election (st.switch s) := by
  rcases act_election net st a s with ⟨h, _⟩ | ⟨_, _, _, _, _, _, _, _, hlt, he, _⟩
  · exact h.le
  · exact he ▸ hlt.le

theorem actionRuns_election_le {D : Action ι → Prop} {st u : State ι}
    (h : ActionRuns net D st u) (s : ι) : election (u.switch s) ≤ election (st.switch s) :=
  h.invariant (P := fun v => election (v.switch s) ≤ election (st.switch s))
    (fun v a _ _ hv => (act_election_le net v a s).trans hv) le_rfl

theorem announced_carriable {st : State ι} {a : Action ι} (hb : Backed net st) :
    Carriable net (Announced net) st a where
  mono w f h hc hS := ⟨(h hc hS).1, (h hc hS).2.mono fun v => act_election_le net st a v⟩
  created s _ hs _ _ := by
    refine ⟨hs, ?_⟩
    have hsup := (hb s hs).mono fun v => act_election_le net st a v
    change Supported net _ (Int8.ofInt (st.switch s).localRootID).toInt _ s
    rwa [(hb s hs).root_char]
  hosted h p _ _ hh hc hS := by
    have hH : p.packetSenderType = charH := (hh.2 hc).1
    exact absurd (hH.symm.trans hS) (by decide)
  relayed p rx f _ _ _ hd _ _ hc := absurd hc hd
  marked _ _ _ _ _ h := h
  delivered _ _ prior h := h.deliver prior

theorem Election.act {st : State ι} {a : Action ι} (h : Election net st)
    (hp : Permitted net a) : Election net (act net st a) := by
  have hmono : ∀ v, election ((NetworkRuns.act net st a).switch v) ≤ election (st.switch v) :=
    fun v => act_election_le net st a v
  refine ⟨h.frames.act hp (announced_carriable h.backed), ?_, ?_,
    fun s => (hmono s).trans (h.own s)⟩
  · intro s hs
    rcases act_election net st a s with ⟨he, _⟩ | ⟨p, rx, f, rfl, rfl, hf, hc, hS, hlt, he, _⟩
    · obtain ⟨h1, h2⟩ := election_eq he
      rw [h1, h2]
      exact (h.backed s hs).mono hmono
    · obtain ⟨_, hsup⟩ := (h.frames.inFlight p hp.2 f (List.mem_of_getElem? hf)).deliver
        rx.prior hc hS
      obtain ⟨h1, h2⟩ := election_eq he
      rw [h1, h2]
      exact hsup.extend hs hp.2.linked.symm hlt hmono he
  · intro s hs
    rcases act_election net st a s with ⟨he, hpar⟩ |
      ⟨p, rx, f, rfl, rfl, hf, hc, hS, hlt, he, hpar⟩
    · obtain ⟨h1, h2⟩ := election_eq he
      rcases h.parents s hs with ⟨h3, h4, h5⟩ | ⟨k, h3, h4, h5, h6, h7⟩
      · exact Or.inl ⟨hpar.trans h3, h1.trans h4, h2.trans h5⟩
      · refine Or.inr ⟨k, hpar.trans h3, h4, h5, he ▸ h6, ?_⟩
        rw [h1, h2]
        exact (hmono _).trans h7
    · obtain ⟨hw, m, q, _, _, _, hv⟩ := (h.frames.inFlight p hp.2 f
        (List.mem_of_getElem? hf)).deliver rx.prior hc hS
      refine Or.inr ⟨p.2, hpar, hp.2, hw, he ▸ hlt.trans_le (h.own p.1), ?_⟩
      obtain ⟨h1, h2⟩ := election_eq he
      rw [h1, h2, Int.add_sub_cancel]
      exact (hmono _).trans (hv _ q.end_mem_support).2

theorem reachable_election {D : Action ι → Prop} {st : State ι} (h : ActionReachable net D st) :
    Election net st :=
  ActionRuns.invariant (fun _ _ hp _ hst => hst.act hp) h election_initial

/-- What the pair and the parent of switch s mean, whatever the switch is told next. -/
structure SoundDistance [Fintype ι] (net : Topology ι) (st : State ι) (s : ι) : Prop where
  falls : ∀ u, Runs net anyOrder st u → election (u.switch s) ≤ election (st.switch s)
  root_le : (st.switch s).localRootID ≤ net.id s
  path : ∃ m, ∃ p : net.switchGraph.Walk m s, net.IsSwitch m ∧
    net.id m = (st.switch s).localRootID ∧ p.IsPath ∧
    (p.length : ℤ) = (st.switch s).localRootDist
  dist_nonneg : 0 ≤ (st.switch s).localRootDist
  dist_lt : (st.switch s).localRootDist ≤ net.switchCount - 1
  created_exact : (Int8.ofInt (st.switch s).localRootID).toInt = (st.switch s).localRootID ∧
    (Int8.ofInt (st.switch s).localRootDist).toInt = (st.switch s).localRootDist
  queued_exact : ∀ job ∈ (st.switch s).jobQ, WireExact job.packet
  inFlight_exact : ∀ k, net.IsPort (s, k) → ∀ f ∈ st.channel (s, k), WireExact f
  parent_iff : (st.switch s).localParent = -1 ↔ (st.switch s).localRootID = net.id s
  dist_iff : (st.switch s).localRootID = net.id s ↔ (st.switch s).localRootDist = 0

/-- In every state of every run the pair of a switch is backed by a simple path, so its
distance fits the wire byte. -/
theorem root_distance_sound [Fintype ι] {st : State ι} (h : Reachable net anyOrder st) {s : ι}
    (hs : net.IsSwitch s) : SoundDistance net st s := by
  have he := reachable_election h.actions
  have hsup := he.backed s hs
  have hd := hsup.lt_switchCount
  refine
    { falls := fun u hu => actionRuns_election_le hu.actionRuns s
      root_le := he.root_le s
      path := ?_
      dist_nonneg := hsup.bounds.1
      dist_lt := by omega
      created_exact := ⟨hsup.root_char, hsup.dist_char⟩
      queued_exact := fun job hj => (he.frames.queued s hs job hj).wireExact
      inFlight_exact := fun k hk f hf => (he.frames.inFlight (s, k) hk f hf).wireExact
      parent_iff := he.root_iff_parent hs
      dist_iff := ⟨fun hr => (he.own_root hs hr).2, he.dist_zero hs⟩ }
  obtain ⟨m, p, hm, hp, hl, hv⟩ := hsup
  exact ⟨m, p, (hv m p.start_mem_support).1, hm, hp, hl⟩

def twoSwitches : Topology (Fin 2) :=
  NetworkWiring.ofConfig [(0, 1)] ![.switch, .switch] ![0, 1] NetworkWiring.ids_two
    NetworkWiring.ids_two_range

def firstAdoption : List (Event (Fin 2)) :=
  List.replicate 5 (quiet 0) ++ [sweep 1]

def adopted : State (Fin 2) := firstAdoption.foldl (next twoSwitches) (initial twoSwitches)

theorem adopted_reachable : Reachable twoSwitches anyOrder adopted :=
  Runs.events firstAdoption (by decide)

theorem root_distance_sound_twoSwitches :
    (adopted.switch 1).localRootDist = 1 ∧ SoundDistance twoSwitches adopted 1 :=
  ⟨by decide, root_distance_sound adopted_reachable (by decide)⟩

end SwitchElection
