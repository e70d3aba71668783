import NetSim.TreeSpread
import NetSim.NetworkWiring
import Mathlib.Data.Fin.VecNotation

/-! No duplicates in a network without cycles. A switch never sends a packet back where it came
from: it would have to know the destination from a frame of the sender, and by FIFO order that
frame would have come behind the packet. -/
namespace ForestDelivery

open PacketCodec SwitchNode NetworkTopology NetworkRuns LinkSends CarriedFrames LinkTraffic
  LearnedRoutes PacketCopies GraphPaths TreeSpread

variable {ι : Type} {net : Topology ι}

def For (a : ℤ) (y : Header) : Prop := y.type ≠ pktControlPacket ∧ y.dst.toInt = a

/-- Entries for node D lead toward D, and on a link away from D no packet for D comes behind a
packet of D. -/
structure Oriented (net : Topology ι) (D : ι) (st : State ι) : Prop where
  away : ∀ s, net.IsSwitch s → Knows st s (net.id D) →
    Away net.graph D (nextHop net st s (net.id D)) s
  ordered : ∀ q, net.IsPort q → net.IsSwitch (net.peer q).1 →
    Away net.graph D (net.peer q).1 q.1 → (trail net st q).Pairwise fun x y =>
      x.src.toInt = net.id D → ¬ For (net.id D) y

variable [DecidableEq ι] {st : State ι} {D : ι}

/-- A frame of D leads away from D, unless its receiver is D or knows D already. -/
theorem source_away (hf : net.Forest) (hr : ActionReachable net fifo st) (ho : Oriented net D st)
    {p : Port ι} (hp : net.IsPort p) {f : Frame} (hm : f ∈ st.channel p)
    (hsrc : f.src.toInt = net.id D) :
    Away net.graph D (net.peer p).1 p.1 ∨ p.1 = D ∨ Knows st p.1 (net.id D) := by
  have hadj := (hp.graph_adj hf.toSimple).symm
  rcases (reachable_sourceKnown hr).inFlight p hp f hm with hw | ⟨hw, hk⟩
  · rw [← net.id_injective (hsrc.symm.trans hw)] at hadj ⊢
    exact Or.inl (away_start hadj)
  rw [hsrc] at hk
  by_cases hback : p.1 = nextHop net st (net.peer p).1 (net.id D)
  · -- the receiver is the next hop of the sender, which learned D from it
    obtain ⟨hport, g, hg, hgsrc⟩ := reachable_taught hr _ hw _ hk
    rcases (reachable_sourceKnown hr).taken _ hport g hg with h | ⟨_, h⟩
    · exact Or.inr (Or.inl (hback.trans (net.id_injective (h.symm.trans hgsrc))))
    · rw [hgsrc] at h
      exact Or.inr (Or.inr (hback ▸ h))
  · exact Or.inl ((ho.away _ hw hk).step hf.acyclic hadj hback)

theorem oriented_act (hf : net.Forest) (hD : ¬ net.IsSwitch D) (hr : ActionReachable net fifo st)
    {a : Action ι} (hp : Permitted net a) (hfifo : fifo a) (ho : Oriented net D st) :
    Oriented net D (act net st a) where
  away s hs hk := by
    by_cases hold : Knows st s (net.id D)
    · rw [nextHop, (act_keepsEntries net st a s _ hold).2]
      exact ho.away s hs hold
    · obtain ⟨p, rx, f, rfl, rfl, hc, hsrc, hout⟩ := new_entry hold hk
      rw [nextHop, hout]
      rcases source_away hf hr ho hp.2 (List.mem_of_getElem? hc) hsrc with h | h | h
      · exact h
      · exact absurd (h ▸ hs) hD
      · exact absurd h hold
  ordered q hq hs ha := by
    apply pairwise_trail_act (reachable_idle hr) hp hfifo hq (ho.ordered q hq hs ha)
    intro y hy z hz hsrc hfor
    -- the sender knows D, so it would forward the packet toward D
    obtain ⟨g, rfl, hg⟩ := carried_trail (reachable_sourceKnown hr) (reachable_idle hr) hq hy
    have hk : Knows st (net.peer q).1 (net.id D) := by
      rcases hg with h | ⟨_, h⟩
      · exact absurd (net.id_injective (hsrc.symm.trans h) ▸ hs) hD
      · rwa [show g.src.toInt = _ from hsrc] at h
    rcases entering_cases net st a q with he | ⟨w, he, hw⟩
    · rw [he] at hz
      cases hz
    rw [he, List.mem_singleton] at hz
    subst hz
    rcases hw with ⟨_, _, _, rfl⟩ | ⟨p, rx, f, _, _, hsp, hd, hm, rfl⟩ | ⟨v, _, rfl, hv, rfl⟩
    · exact hfor.1 rfl
    · have hdst : (f.deliver rx.prior).dst.toInt = net.id D := hfor.2
      have hft : (f.deliver rx.prior).type ≠ pktControlPacket := hd
      rw [← hsp, mayUse_dataJob _ _ (hdst ▸ id_inTable D) hft, hdst] at hm
      rcases hm with ⟨_, hout⟩ | ⟨hno, _⟩
      · have hback := ho.away _ hs hk
        rw [nextHop, hout, hq.peer_peer] at hback
        exact ha.not_back hf.acyclic hback
      · exact hno hk
    · exact hp.1 (hv ▸ hs)

theorem reachable_oriented (hf : net.Forest) (hD : ¬ net.IsSwitch D)
    (hr : ActionReachable net fifo st) : Oriented net D st := by
  have hinv : ActionReachable net fifo st ∧ Oriented net D st := by
    refine ActionRuns.invariant (P := fun u => ActionReachable net fifo u ∧ Oriented net D u)
      ?_ hr ⟨.refl, ?_, ?_⟩
    · rintro u a hp hfifo ⟨hu, ho⟩
      exact ⟨hu.tail ⟨a, hp, hfifo, rfl⟩, oriented_act hf hD hu hp hfifo ho⟩
    · intro s _ hk
      simp [Knows, initial, switchInit] at hk
    · intro q _ _ _
      exact List.Pairwise.nil
  exact hinv.2

/-- The entry for D is the port by which a packet for D comes only if D itself sent it. -/
theorem no_bounce (hf : net.Forest) (hD : ¬ net.IsSwitch D) (hr : ActionReachable net fifo st)
    {p : Port ι} (hs : net.IsSwitch p.1) {f : Frame} (hm : f ∈ st.channel p)
    (hfor : For (net.id D) (header f)) (hk : Knows st p.1 (net.id D))
    (hout : outPort st p.1 (net.id D) = p) : (net.peer p).1 = D := by
  have ho := reachable_oriented hf hD hr
  have ha := ho.away p.1 hs hk
  rw [nextHop, hout] at ha
  obtain ⟨hport, g, hg, hsrc⟩ := reachable_taught hr p.1 hs _ hk
  rw [hout] at hport hg
  rcases (reachable_sourceKnown hr).taken p hport g hg with h | ⟨hw, _⟩
  · exact (net.id_injective (hsrc.symm.trans h)).symm
  · have hord := ho.ordered p hport hw ha
    rw [trail, List.map_append, List.append_assoc, List.pairwise_append] at hord
    exact absurd hfor (hord.2.2 _ (List.mem_map_of_mem hg) _
      (List.mem_append_left _ (List.mem_map_of_mem hm)) hsrc)

theorem spread_run (hf : net.Forest) {h : ι} {x : Header} {u : State ι}
    (hd : x.type ≠ pktControlPacket) (hin : InTable x.dst.toInt)
    (hns : ∀ s, net.IsSwitch s → net.id s ≠ x.dst.toInt)
    (hS : Spread net net.graph net.IsPort h x st) (hrun : ActionRuns net fifo st u) :
    Spread net net.graph net.IsPort h x u := by
  refine hrun.invariant (P := Spread net net.graph net.IsPort h x) ?_ hS
  intro v a hp hfifo hv
  refine hv.act (forest_links hf) hp hfifo ?_ fun q hq _ _ _ => hq
  intro k q hq hpass
  have hor := hv.toPacketSent.passes hd hin hp hpass
  obtain ⟨rx, f, rfl, hc, hn, _⟩ := hpass
  have hmem := List.mem_of_getElem? hc
  have hx : header f = x := hv.same _ hp.2 _ (mem_trail_channel hmem) hn
  have hside := (hv.away _ hp.2 _ (mem_trail_channel hmem) hn).resolve_right fun he =>
    hv.host (he ▸ hp.1)
  have hstep : (net.peer q).2 ≠ k → Away net.graph h (net.peer q).1 q.1 :=
    (forest_links hf).away_step hq hp.2 hside
  rcases hor with ⟨hk, hout⟩ | ⟨_, hne⟩
  · by_cases hne : (net.peer q).2 = k
    · refine Or.inr ?_
      obtain ⟨D, hid⟩ := knows_named hv.reached hp.1 hk
      have hD : ¬ net.IsSwitch D := fun hs => hns D hs hid.symm
      rw [hid, show net.peer q = ((net.peer q).1, k) from Prod.ext rfl hne] at hout
      rw [hid] at hk
      have hback : (net.peer ((net.peer q).1, k)).1 = D := by
        apply no_bounce hf hD hv.reached hp.1 hmem ⟨?_, ?_⟩ hk hout
        · rw [hx]
          exact hd
        · rw [hx, hid]
      have hw := copy_sender hv.reached hv.source hp.2 (hx ▸ mem_trail_channel hmem)
        (hback ▸ hD)
      rwa [← hne, Prod.eta, hq.peer_peer] at hw
    · exact Or.inl (hstep hne)
  · exact Or.inl (hstep hne)

/-- In a network without cycles every switch handles at most one copy of a data packet that a
host sends to no switch, and every host and the DNS server take at most one. -/
theorem delivered_at_most_once (hf : net.Forest) {st₁ u : State ι} {h : ι} {p : Packet}
    (hr : Reachable net fifo st) (hsend : Step net st (.send h p) st₁)
    (hrun : Runs net fifo st₁ u) (hd : p.type ≠ pktControlPacket) (hin : InTable p.dst.toInt)
    (hns : ∀ s, net.IsSwitch s → net.id s ≠ p.dst.toInt) :
    (∀ s, net.IsSwitch s → handled net u st.clock s ≤ 1) ∧
      ∀ q, net.IsPort q → ¬ net.IsSwitch q.1 → taken u st.clock q ≤ 1 := by
  obtain ⟨⟨hh, hp⟩, rfl⟩ := hsend
  have hL := forest_links hf
  have hstart : Spread net net.graph net.IsPort h (header ⟨p, st.clock⟩)
      (next net st (.send h p)) := spread_start hL hr.actions hh hp fun _ hq _ => hq
  have hS := spread_run hf hd hin hns hstart hrun.actionRuns
  constructor
  · intro s hs
    exact hS.handled_le_one hL hs
  · intro q hq _
    exact hS.taken_le_one hL hq

def hostsOnSwitch : Topology (Fin 3) :=
  NetworkWiring.ofConfig [(0, 1), (1, 2)] ![.host, .switch, .host] ![0, 1, 2]
    NetworkWiring.ids_three NetworkWiring.ids_three_range

def pingToTwo : Packet := ⟨0, 2, pktPingReq, 0, fun _ => 0, 0, 0, 0, 0⟩

def pingSent : State (Fin 3) :=
  next hostsOnSwitch (initial hostsOnSwitch) (.send 0 pingToTwo)

def pingTaken : State (Fin 3) :=
  [sweep 1, .poll (2, 0) takeOldest].foldl (next hostsOnSwitch) pingSent

theorem pingTaken_run : Runs hostsOnSwitch fifo pingSent pingTaken :=
  Runs.events [sweep 1, .poll (2, 0) takeOldest] (by decide)

theorem delivered_at_most_once_hostsOnSwitch : taken pingTaken 0 (2, 0) = 1 ∧
    (∀ s, hostsOnSwitch.IsSwitch s → handled hostsOnSwitch pingTaken 0 s ≤ 1) ∧
      ∀ q, hostsOnSwitch.IsPort q → ¬ hostsOnSwitch.IsSwitch q.1 → taken pingTaken 0 q ≤ 1 := by
  have hforest : hostsOnSwitch.Forest :=
    Topology.forest_of_rank ![1, 0, 1] (by decide) (by decide)
  have hstart : Reachable hostsOnSwitch fifo (initial hostsOnSwitch) := .refl
  exact ⟨by decide, delivered_at_most_once hforest hstart ⟨by decide, rfl⟩ pingTaken_run (by decide)
    (by decide) (by decide)⟩

def pingOutside : Packet := ⟨0, 110, pktPingReq, 0, fun _ => 0, 0, 0, 0, 0⟩

def outsideSent : State (Fin 3) := next hostOnLine (initial hostOnLine) (.send 0 pingOutside)

def outsideReturned : State (Fin 3) :=
  [strayForward 1 1, strayForward 2 0, sweep 1].foldl (next hostOnLine) outsideSent

/-- A ping for 110 has no entry of the table, and its switches send it back and forth. -/
theorem outside_handled_twice : hostOnLine.Forest ∧ hostOnLine.SingleLinkHosts ∧
    Reachable hostOnLine fifo (initial hostOnLine) ∧
    Step hostOnLine (initial hostOnLine) (.send 0 pingOutside) outsideSent ∧
    Runs hostOnLine fifo outsideSent outsideReturned ∧ pingOutside.type ≠ pktControlPacket ∧
    (∀ s, hostOnLine.IsSwitch s → hostOnLine.id s ≠ pingOutside.dst.toInt) ∧
    ¬ ∀ s, hostOnLine.IsSwitch s → handled hostOnLine outsideReturned 0 s ≤ 1 := by
  refine ⟨Topology.forest_of_rank ![1, 0, 1] (by decide) (by decide), by
    unfold Topology.SingleLinkHosts; decide, .refl, ⟨by decide, rfl⟩,
    Runs.events [strayForward 1 1, strayForward 2 0, sweep 1] (by decide), by decide, by decide, ?_⟩
  intro h
  have htwice : handled hostOnLine outsideReturned 0 1 = 2 := by decide
  exact absurd (h 1 (by decide)) (by rw [htwice]; decide)

end ForestDelivery
