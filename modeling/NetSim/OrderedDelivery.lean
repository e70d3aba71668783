import NetSim.EventRuns
import NetSim.FrameHistory

/-! The order of delivery in a network without cycles. The packets of a host come to a node by
one link only, and a switch that has taken one of them before another passes it on first. So
whatever is lost or flooded on the way, they are taken in the order in which they were sent. -/
namespace OrderedDelivery

open PacketCodec SwitchNode NetworkTopology NetworkRuns LinkSends CarriedFrames LinkTraffic
  LearnedRoutes PacketCopies GraphPaths TreeSpread NetworkSchedules
open EventRuns (Run)
open FrameHistory (CopyOf)

/-- If the elements of two lists are in the order of their keys, and each element of the first
has a partner with its key in the second, then the partners come in the same order. -/
theorem sublistForall₂_of_keys {α β : Type*} {R : α → β → Prop} {f : α → ℕ} {g : β → ℕ}
    {l : List α} {m : List β} (hl : l.Pairwise fun a a' => f a < f a')
    (hm : m.Pairwise fun b b' => g b < g b') (h : ∀ a ∈ l, ∃ b ∈ m, g b = f a ∧ R a b) :
    List.SublistForall₂ R l m := by
  induction m generalizing l with
  | nil =>
    cases l with
    | nil => exact .nil
    | cons a l =>
      obtain ⟨b, hb, -⟩ := h a List.mem_cons_self
      cases hb
  | cons b m ih =>
    obtain ⟨hfirst, hrest⟩ := List.pairwise_cons.mp hm
    cases l with
    | nil => exact .nil
    | cons a l =>
      have hafter := (List.pairwise_cons.mp hl).1
      obtain ⟨b', hb', hkey, hR⟩ := h a List.mem_cons_self
      -- whose key is above that of b has its partner behind b
      have behind : ∀ a' ∈ a :: l, g b < f a' → ∃ b' ∈ m, g b' = f a' ∧ R a' b' := by
        intro a' ha' hlt
        obtain ⟨c, hc, hck, hcR⟩ := h a' ha'
        rcases List.mem_cons.mp hc with rfl | hc
        · exact absurd hck hlt.ne
        · exact ⟨c, hc, hck, hcR⟩
      rcases List.mem_cons.mp hb' with rfl | hb'
      · refine .cons hR (ih (List.pairwise_cons.mp hl).2 hrest ?_)
        intro a' ha'
        exact behind a' (List.mem_cons_of_mem a ha') (hkey ▸ hafter a' ha')
      · have hlt : g b < f a := hkey ▸ hfirst b' hb'
        refine .cons_right (ih hl hrest ?_)
        intro a' ha'
        refine behind a' ha' ?_
        rcases List.mem_cons.mp ha' with rfl | hmem
        · exact hlt
        · exact hlt.trans (hafter a' hmem)

variable {ι : Type} {net : Topology ι}

/-- A data packet with the id of h as its source, for no switch. -/
structure DataOf (net : Topology ι) (h : ι) (x : Header) : Prop where
  data : x.type ≠ pktControlPacket
  source : x.src.toInt = net.id h
  inTable : InTable x.dst.toInt
  noSwitch : ∀ s, net.IsSwitch s → net.id s ≠ x.dst.toInt

variable [DecidableEq ι] {st : State ι} {h : ι}

def Spreading (net : Topology ι) (h : ι) (st : State ι) : Prop :=
  ∀ q, net.IsPort q → ∀ x ∈ trail net st q, DataOf net h x →
    Spread net net.graph net.IsPort h x st

theorem spreading_act (hf : net.Forest) (hr : ActionReachable net fifo st) {a : Action ι}
    (hp : Permitted net a) (hfifo : fifo a) (hs : Spreading net h st) :
    Spreading net h (act net st a) := by
  have hstep : ActionRuns net fifo st (act net st a) := .single ⟨a, hp, hfifo, rfl⟩
  -- an old packet goes on spreading
  have hold : ∀ q, net.IsPort q → ∀ x ∈ trail net st q, DataOf net h x →
      Spread net net.graph net.IsPort h x (act net st a) := by
    intro q hq x hx hd
    exact ForestDelivery.spread_run hf hd.data hd.inTable hd.noSwitch (hs q hq x hx hd) hstep
  intro q hq x hx hd
  have hsub := trail_act (reachable_idle hr) hp hfifo hq
  rcases List.mem_append.mp (hsub.subset hx) with hx | hx
  · exact hold q hq x hx hd
  rcases entering_cases net st a q with he | ⟨y, he, hy⟩
  · rw [he] at hx
    cases hx
  rw [he, List.mem_singleton] at hx
  subst hx
  rcases hy with ⟨_, _, _, rfl⟩ | ⟨p, rx, f, rfl, hc, _, _, _, rfl⟩ | ⟨v, p, rfl, hv, rfl⟩
  · exact absurd rfl hd.data
  · exact hold p hp.2 _ (mem_trail_channel (List.mem_of_getElem? hc)) hd
  · have hsrc : p.src.toInt = net.id v := by rw [hp.2.1, Topology.id_toInt]
    have hsame : v = h := net.id_injective (hsrc.symm.trans hd.source)
    subst hsame
    exact spread_start (forest_links hf) hr hp.1 hp.2 fun q hq _ => hq

/-- On a link away from h the packets of h are in the order in which they were sent. -/
def Ordered (net : Topology ι) (h : ι) (st : State ι) : Prop :=
  ∀ q, net.IsPort q → Away net.graph h (net.peer q).1 q.1 →
    (trail net st q).Pairwise fun x y => DataOf net h x → DataOf net h y → x.stamp < y.stamp

theorem ordered_act (hf : net.Forest) (hh : ¬ net.IsSwitch h) (hr : ActionReachable net fifo st)
    (hs : Spreading net h st) {a : Action ι} (hp : Permitted net a) (hfifo : fifo a)
    (ho : Ordered net h st) : Ordered net h (act net st a) := by
  intro q hq ha
  apply pairwise_trail_act (reachable_idle hr) hp hfifo hq (ho q hq ha)
  intro x hx y hy hdx hdy
  rcases entering_cases net st a q with he | ⟨z, he, hz⟩
  · rw [he] at hy
    cases hy
  rw [he, List.mem_singleton] at hy
  subst hy
  rcases hz with ⟨_, _, _, rfl⟩ | ⟨p, rx, f, rfl, hc, hw, _, _, rfl⟩ | ⟨_, _, _, _, rfl⟩
  · exact old_stamps hr hq hx
  · -- the switch has taken x from the port where y waits
    have hsw : net.IsSwitch (net.peer q).1 := hw ▸ hp.1
    have hzero : rx.index = 0 := hfifo
    have hmem := List.mem_of_getElem? hc
    have hL := forest_links hf
    have hSx := hs q hq x hx hdx
    have hcopies := hSx.fed q hq hsw
    have hpos : 0 < handled net st x.stamp (net.peer q).1 :=
      (copies_pos.mpr ⟨x, hx, rfl⟩).trans_le hcopies
    rw [handled, takenFrom] at hpos
    obtain ⟨k, hk, htaken⟩ := Finset.exists_ne_zero_of_sum_ne_zero hpos.ne'
    obtain ⟨hport, hside⟩ := hSx.switch_side hsw hk (Nat.pos_of_ne_zero htaken)
    have hSy := hs p hp.2 _ (mem_trail_channel hmem) hdy
    have hyside := (hSy.away p hp.2 _ (mem_trail_channel hmem) rfl).resolve_right fun he =>
      hh (he ▸ hp.1)
    have hpair : ((net.peer q).1, p.2) = p := Prod.ext hw rfl
    have hkp : k = p.2 := by
      apply hL.single _ _ _ hport
      · rw [hpair]
        exact hp.2
      · rw [hpair]
        rw [hw] at hside ⊢
        exact hside.unique hf.acyclic hyside
    rw [hkp, hpair] at htaken
    obtain ⟨g, hg, hgs⟩ := taken_pos.mp (Nat.pos_of_ne_zero htaken)
    have hgx : header g = x := hSx.same p hp.2 _ (mem_trail_received hg) hgs
    have hord := ho p hp.2 hyside
    rw [trail, List.map_append, List.append_assoc, List.pairwise_append] at hord
    exact hord.2.2 x (hgx ▸ List.mem_map_of_mem hg) _
      (List.mem_append_left _ (List.mem_map_of_mem hmem)) hdx hdy
  · exact old_stamps hr hq hx

structure InOrder (net : Topology ι) (h : ι) (st : State ι) : Prop where
  reached : ActionReachable net fifo st
  spreading : Spreading net h st
  ordered : Ordered net h st

theorem inOrder_initial : InOrder net h (initial net) := by
  refine ⟨.refl, ?_, ?_⟩
  · intro q _ x hx
    cases hx
  · intro q _ _
    exact List.Pairwise.nil

theorem inOrder_act (hf : net.Forest) (hh : ¬ net.IsSwitch h) {a : Action ι}
    (hp : Permitted net a) (hfifo : fifo a) (hi : InOrder net h st) :
    InOrder net h (act net st a) where
  reached := hi.reached.tail ⟨a, hp, hfifo, rfl⟩
  spreading := spreading_act hf hi.reached hp hfifo hi.spreading
  ordered := ordered_act hf hh hi.reached hi.spreading hp hfifo hi.ordered

theorem InOrder.away (hi : InOrder net h st) {q : Port ι} (hq : net.IsPort q) (hne : q.1 ≠ h)
    {f : Frame} (hm : f ∈ st.received q) (hd : DataOf net h (header f)) :
    Away net.graph h (net.peer q).1 q.1 := by
  have hS := hi.spreading q hq _ (mem_trail_received hm) hd
  exact (hS.away q hq _ (mem_trail_received hm) rfl).resolve_right hne

theorem InOrder.one_port (hf : net.Forest) (hi : InOrder net h st) {v : ι} (hv : v ≠ h)
    {j k : ℕ} (hj : net.IsPort (v, j)) (hk : net.IsPort (v, k)) {f g : Frame}
    (hm : f ∈ st.received (v, j)) (hg : g ∈ st.received (v, k)) (hdf : DataOf net h (header f))
    (hdg : DataOf net h (header g)) : j = k := by
  apply (forest_links hf).single v j k hj hk
  exact (hi.away hj hv hm hdf).unique hf.acyclic (hi.away hk hv hg hdg)

theorem InOrder.received_sorted (hi : InOrder net h st) {q : Port ι} (hq : net.IsPort q)
    (hne : q.1 ≠ h) {l : List Frame} (hl : l.Sublist (st.received q))
    (hd : ∀ f ∈ l, DataOf net h (header f)) :
    l.Pairwise fun f g => f.stamp < g.stamp := by
  cases l with
  | nil => exact .nil
  | cons f l =>
    have ha := hi.away hq hne (hl.subset List.mem_cons_self) (hd f List.mem_cons_self)
    have hord := hi.ordered q hq ha
    rw [trail, List.map_append, List.append_assoc, List.pairwise_append, List.pairwise_map] at hord
    refine (hord.1.sublist hl).imp_of_mem ?_
    intro a b ha hb hab
    exact hab (hd a ha) (hd b hb)

def CopiedFrom (net : Topology ι) (h : ι) (log : List Frame) (_ : ι) (f : Frame) : Prop :=
  f.type ≠ pktControlPacket → f.src.toInt = net.id h →
    ∃ g ∈ log, g.stamp = f.stamp ∧ CopyOf g.toPacket f.toPacket

theorem copiedFrom_carriable {log : List Frame} {a : Action ι}
    (hlog : ∀ p, a = .send h p → (⟨p, st.clock⟩ : Frame) ∈ log) :
    Carriable net (fun _ => CopiedFrom net h log) st a where
  mono _ _ h := h
  created s _ _ hd := absurd rfl hd
  hosted v p ha _ hp _ hsrc := by
    have hid : p.src.toInt = net.id v := by rw [hp.1, Topology.id_toInt]
    have hsame : v = h := net.id_injective (hid.symm.trans hsrc)
    subst hsame
    exact ⟨_, hlog p ha, rfl, .refl p⟩
  relayed _ _ _ _ _ _ _ h _ := h
  marked _ _ f _ hc _ hd := absurd hc hd
  delivered _ f prior h hd hsrc := by
    obtain ⟨g, hg, hs, hcopy⟩ := h hd hsrc
    exact ⟨g, hg, hs, hcopy.deliver prior⟩

omit [DecidableEq ι] in
theorem CopiedFrom.mono {log log' : List Frame} (hsub : log ⊆ log') {w : ι} {f : Frame}
    (hf : CopiedFrom net h log w f) : CopiedFrom net h log' w f := by
  intro hd hsrc
  obtain ⟨g, hg, hs⟩ := hf hd hsrc
  exact ⟨g, hsub hg, hs⟩

/-- The log holds what h has sent, in the order of the stamps. -/
structure Logged (net : Topology ι) (h : ι) (log : List Frame) (st : State ι) : Prop where
  sorted : log.Pairwise fun f g => f.stamp < g.stamp
  old : ∀ f ∈ log, f.stamp < st.clock
  copied : Carried net (CopiedFrom net h log) st

theorem Logged.extend {log new : List Frame} (hl : Logged net h log st) {a : Action ι}
    (hp : Permitted net a) (hnew : ∀ p, a = .send h p → (⟨p, st.clock⟩ : Frame) ∈ new) :
    Carried net (CopiedFrom net h (log ++ new)) (act net st a) := by
  have later : ∀ w f, CopiedFrom net h log w f → CopiedFrom net h (log ++ new) w f :=
    fun w f hf => hf.mono (List.subset_append_left log new)
  have hmid : Carried net (CopiedFrom net h (log ++ new)) st :=
    ⟨fun s hs job hj => later _ _ (hl.copied.queued s hs job hj),
      fun q hq f hf => later _ _ (hl.copied.inFlight q hq f hf),
      fun q hq f hf => later _ _ (hl.copied.taken q hq f hf)⟩
  refine hmid.act (Q := fun _ => CopiedFrom net h (log ++ new)) hp (copiedFrom_carriable ?_)
  intro p ha
  exact List.mem_append_right log (hnew p ha)

theorem logged_act {log : List Frame} (hl : Logged net h log st) {a : Action ι}
    (hp : Permitted net a) : ∃ new : List Frame, new.map Frame.toPacket = sentIn h [a] ∧
      Logged net h (log ++ new) (act net st a) := by
  rcases sentIn_singleton h a with ⟨hnone, hother⟩ | ⟨p, rfl, hone⟩
  · refine ⟨[], hnone.symm, ?_⟩
    have hcopied : Carried net (CopiedFrom net h (log ++ [])) (act net st a) :=
      hl.extend hp fun p ha => absurd ha (hother p)
    rw [List.append_nil] at hcopied ⊢
    exact ⟨hl.sorted, fun f hf => (hl.old f hf).trans_le (act_clock_le net st a), hcopied⟩
  · refine ⟨[⟨p, st.clock⟩], hone.symm, ?_, ?_, ?_⟩
    · refine List.pairwise_append.mpr ⟨hl.sorted, List.pairwise_singleton _ _, ?_⟩
      intro f hf g hg
      rw [List.mem_singleton.mp hg]
      exact hl.old f hf
    · intro f hf
      rcases List.mem_append.mp hf with hf | hf
      · exact (hl.old f hf).trans (Nat.lt_succ_self _)
      · rw [List.mem_singleton.mp hf]
        exact Nat.lt_succ_self _
    · refine hl.extend hp ?_
      intro r he
      cases he
      exact List.mem_singleton_self _

theorem logged_run {as : List (Action ι)} {u : State ι} (hrun : Run (ActionStep net fifo) st as u)
    {log : List Frame} (hl : Logged net h log st) : ∃ new : List Frame,
      new.map Frame.toPacket = sentIn h as ∧ Logged net h (log ++ new) u := by
  induction hrun generalizing log with
  | nil => exact ⟨[], rfl, by rwa [List.append_nil]⟩
  | @cons st a v as u hstep _ ih =>
    obtain ⟨hp, -, rfl⟩ := hstep
    obtain ⟨first, hfirst, hl'⟩ := logged_act hl hp
    obtain ⟨rest, hrest, hl''⟩ := ih hl'
    refine ⟨first ++ rest, ?_, by rwa [← List.append_assoc]⟩
    rw [List.map_append, hfirst, hrest, ← sentIn_append]
    rfl

theorem inOrder_run (hf : net.Forest) (hh : ¬ net.IsSwitch h) {as : List (Action ι)}
    (hrun : Run (ActionStep net fifo) (initial net) as st) : InOrder net h st := by
  refine hrun.invariant ?_ inOrder_initial
  rintro u a v ⟨hp, hfifo, rfl⟩ hi
  exact inOrder_act hf hh hp hfifo hi

theorem logged_at {as : List (Action ι)}
    (hrun : Run (ActionStep net fifo) (initial net) as st) (h : ι) :
    ∃ log : List Frame, log.map Frame.toPacket = sentIn h as ∧ Logged net h log st := by
  have hstart : Logged net h [] (initial net) := ⟨.nil, by simp, carried_initial _⟩
  exact logged_run hrun hstart

theorem received_sublist (hf : net.Forest) {as : List (Action ι)}
    (hrun : Run (ActionStep net fifo) (initial net) as st) (hh : ¬ net.IsSwitch h) {q : Port ι}
    (hq : net.IsPort q) (hne : q.1 ≠ h) {l : List Frame} (hl : l.Sublist (st.received q))
    (hd : ∀ f ∈ l, DataOf net h (header f)) :
    List.SublistForall₂ (fun f p => CopyOf p f.toPacket) l (sentIn h as) := by
  obtain ⟨log, hlog, hlogged⟩ := logged_at hrun h
  rw [← hlog, List.sublistForall₂_map_right_iff]
  apply sublistForall₂_of_keys ((inOrder_run hf hh hrun).received_sorted hq hne hl hd)
    hlogged.sorted
  intro f hm
  have hdata := hd f hm
  exact hlogged.copied.taken q hq f (hl.subset hm) hdata.data hdata.source

/-- In a network without cycles a node takes the packets of a host by one port, in the order in
which they were sent, some of them lost on the way, whatever else is under way. -/
theorem arrives_in_order (hf : net.Forest) {as : List (Action ι)}
    (hrun : Run (ActionStep net fifo) (initial net) as st) (hh : ¬ net.IsSwitch h) {v : ι}
    (hv : v ≠ h) :
    (∀ j k, net.IsPort (v, j) → net.IsPort (v, k) → ∀ f ∈ st.received (v, j),
      ∀ g ∈ st.received (v, k), DataOf net h (header f) → DataOf net h (header g) → j = k) ∧
    ∀ k, net.IsPort (v, k) → ∀ l, l.Sublist (st.received (v, k)) →
      (∀ f ∈ l, DataOf net h (header f)) →
        List.SublistForall₂ (fun f p => CopyOf p f.toPacket) l (sentIn h as) := by
  constructor
  · intro j k hj hk f hm g hg hdf hdg
    exact (inOrder_run hf hh hrun).one_port hf hv hj hk hm hg hdf hdg
  · intro k hk l hl hd
    exact received_sublist hf hrun hh hk hv hl hd

section TwoPackets

open ForestDelivery FrameHistory

def replyToTwo : Packet := ⟨0, 2, pktPingReply, 0, fun _ => 0, 0, 0, 0, 0⟩

/-- Host 0 sends two packets to host 2; the switch floods them, and one copy is lost. -/
def twoPackets : List (Action (Fin 3)) :=
  [.send 0 pingToTwo, .send 0 replyToTwo, .send 0 pingToTwo, .lose (1, 0) 1,
    .receive (1, 0) takeOldest, .receive (1, 0) takeOldest, .execute 1, .execute 1,
    .poll (2, 0) takeOldest, .poll (2, 0) takeOldest]

def twoPacketsTaken : State (Fin 3) :=
  twoPackets.foldl (act hostsOnSwitch) (initial hostsOnSwitch)

theorem twoPackets_run :
    Run (ActionStep hostsOnSwitch fifo) (initial hostsOnSwitch) twoPackets twoPacketsTaken := by
  have hrun : ∀ a ∈ twoPackets, Permitted hostsOnSwitch a ∧ fifo a := by decide +kernel
  exact run_foldl hrun _

theorem twoPackets_data : ∀ f ∈ twoPacketsTaken.received (2, 0), f.type ≠ pktControlPacket ∧
    f.src.toInt = hostsOnSwitch.id 0 ∧ InTable f.dst.toInt ∧
      ∀ s, hostsOnSwitch.IsSwitch s → hostsOnSwitch.id s ≠ f.dst.toInt := by
  decide +kernel

theorem arrives_in_order_twoPackets :
    (twoPacketsTaken.received (2, 0)).length = 2 ∧
      List.SublistForall₂ (fun f p => CopyOf p f.toPacket) (twoPacketsTaken.received (2, 0))
        [pingToTwo, replyToTwo, pingToTwo] := by
  have hforest : hostsOnSwitch.Forest :=
    Topology.forest_of_rank ![1, 0, 1] (by decide) (by decide)
  refine ⟨by decide +kernel, ?_⟩
  have horder := arrives_in_order hforest twoPackets_run (h := 0) (by decide) (v := 2) (by decide)
  refine horder.2 0 (by decide) _ (List.Sublist.refl _) ?_
  intro f hf
  obtain ⟨hdata, hsrc, hin, hns⟩ := twoPackets_data f hf
  exact ⟨hdata, hsrc, hin, hns⟩

end TwoPackets

end OrderedDelivery
