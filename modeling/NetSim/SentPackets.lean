import NetSim.EventRuns
import NetSim.FrameHistory
import NetSim.SimulationRefinement

/-! The packets of the whole simulation. Hosts and the server keep a list of what they have sent;
every data packet in a pipe or in a switch is a copy of one that its source has sent, and so is
every one that packet_recv returns. -/
namespace SentPackets

open PacketCodec Simulation SimulatedNetwork OwnPackets
open FrameHistory (CopyOf)
open SimulationRefinement (ReadsWhole WholeStep wholeStep wholeStep_some recv_first cut_aligned)
open SwitchNode (SwitchState Stray)
open NetworkWiring (LinkEnd farEnd)
open HostNode (HostState HostEvent hostStep)
open DnsServer (ServerState)
open TableIndices (forall_update quietMemory quietRecv commanded)
open EventRuns (Run)

variable {c : Config}

/-- The packets that node v has sent, oldest first. -/
def sentBy (c : Config) (s : SimState) (v : ℕ) : List Packet :=
  match c.typeOf v with
  | some .host => (s.host v).sent
  | some .server => (s.server v).sent
  | _ => []

theorem sentBy_host {s : SimState} {v : ℕ} (h : c.typeOf v = some .host) :
    sentBy c s v = (s.host v).sent := by
  unfold sentBy
  simp only [h]

theorem sentBy_server {s : SimState} {v : ℕ} (h : c.typeOf v = some .server) :
    sentBy c s v = (s.server v).sent := by
  unfold sentBy
  simp only [h]

theorem mem_sentBy_host {s : SimState} {v w : ℕ} (h : c.typeOf v = some .host) {u : HostState}
    {p : Packet} (hp : p ∈ sentBy c { s with host := Function.update s.host v u } w) :
    p ∈ sentBy c s w ∨ w = v ∧ p ∈ u.sent := by
  by_cases hw : w = v
  · subst hw
    rw [sentBy_host h] at hp
    simp only [Function.update_self] at hp
    exact .inr ⟨rfl, hp⟩
  · unfold sentBy at hp ⊢
    simp only [Function.update_of_ne hw] at hp
    exact .inl hp

theorem mem_sentBy_server {s : SimState} {v w : ℕ} (h : c.typeOf v = some .server)
    {u : ServerState} {p : Packet}
    (hp : p ∈ sentBy c { s with server := Function.update s.server v u } w) :
    p ∈ sentBy c s w ∨ w = v ∧ p ∈ u.sent := by
  by_cases hw : w = v
  · subst hw
    rw [sentBy_server h] at hp
    simp only [Function.update_self] at hp
    exact .inr ⟨rfl, hp⟩
  · unfold sentBy at hp ⊢
    simp only [Function.update_of_ne hw] at hp
    exact .inl hp

def SentAs (c : Config) (s : SimState) (v : ℕ) (p : Packet) : Prop :=
  ∃ q ∈ sentBy c s v, Own (c.idOf v) q ∧ CopyOf q p

/-- A data packet is a copy of one that some node has sent. -/
structure Traced (c : Config) (s : SimState) (p : Packet) : Prop where
  fits : Fits p
  sent : p.type ≠ pktControlPacket → ∃ v, SentAs c s v p

def Extends (c : Config) (s u : SimState) : Prop := ∀ v, sentBy c s v <+: sentBy c u v

theorem SentAs.mono {s u : SimState} (h : Extends c s u) {v : ℕ} {p : Packet}
    (hp : SentAs c s v p) : SentAs c u v p := by
  obtain ⟨q, hq, hown, hcopy⟩ := hp
  exact ⟨q, (h v).subset hq, hown, hcopy⟩

theorem Traced.mono {s u : SimState} (h : Extends c s u) {p : Packet} (hp : Traced c s p) :
    Traced c u p :=
  ⟨hp.fits, fun hd => (hp.sent hd).imp fun _ hv => hv.mono h⟩

theorem Traced.deliver {s : SimState} {p : Packet} (h : Traced c s p)
    (prior : Fin payloadMax → Int8) : Traced c s (p.deliver prior) where
  fits := SimulationRefinement.fits_deliver h.fits prior
  sent hd := by
    obtain ⟨v, q, hq, hown, hcopy⟩ := h.sent hd
    exact ⟨v, q, hq, hown, hcopy.deliver prior⟩

theorem Traced.own {s : SimState} {v : ℕ} {p : Packet} (hown : Own (c.idOf v) p)
    (hp : p ∈ sentBy c s v) : Traced c s p :=
  ⟨hown.fits, fun _ => ⟨v, p, hp, hown, .refl p⟩⟩

def InPipes (P : Packet → Prop) (wire : LinkEnd → List (List Int8)) : Prop :=
  ∀ t, ∀ m ∈ wire t, ∃ p, P p ∧ m = packetSend p

/-- Every message in a pipe and every packet in a switch. -/
structure OnTheWay (P : Packet → Prop) (s : SimState) : Prop where
  wire : InPipes P s.wire
  switch : ∀ v, ∀ job ∈ (s.switch v).jobQ, P job.packet.toPacket

theorem OnTheWay.mono {P Q : Packet → Prop} {s : SimState} (h : OnTheWay P s)
    (hPQ : ∀ p, P p → Q p) : OnTheWay Q s where
  wire t m hm := by
    obtain ⟨p, hp, rfl⟩ := h.wire t m hm
    exact ⟨p, hPQ p hp, rfl⟩
  switch v job hjob := hPQ _ (h.switch v job hjob)

section

variable {P : Packet → Prop} {s : SimState}

theorem put_onTheWay {v : ℕ} {wire : LinkEnd → List (List Int8)} {out : ℕ × Packet}
    (h : InPipes P wire) (hout : P out.2) : InPipes P (put c v wire out) := by
  unfold put
  split
  · exact h
  · next t _ =>
    split
    · intro u m hm
      by_cases hu : u = farEnd t
      · subst hu
        rw [Function.update_self] at hm
        rcases List.mem_append.mp hm with hold | hnew
        · exact h _ m hold
        · exact ⟨out.2, hout, List.mem_singleton.mp hnew⟩
      · rw [Function.update_of_ne hu] at hm
        exact h u m hm
    · exact h

theorem OnTheWay.transmit (h : OnTheWay P s) {v : ℕ} {outs : List (ℕ × Packet)}
    (houts : ∀ out ∈ outs, P out.2) : OnTheWay P (transmit c v outs s) := by
  refine ⟨?_, h.switch⟩
  change InPipes P (outs.foldl (put c v) s.wire)
  have hwire := h.wire
  generalize s.wire = wire at hwire ⊢
  induction outs generalizing wire with
  | nil => exact hwire
  | cons out outs ih =>
    obtain ⟨hout, hrest⟩ := List.forall_mem_cons.mp houts
    exact ih hrest _ (put_onTheWay hwire hout)

theorem OnTheWay.sent (h : OnTheWay P s) {v : ℕ} {packets : List Packet}
    (hpackets : ∀ p ∈ packets, P p) :
    OnTheWay P (Simulation.transmit c v (packets.flatMap (onAllPorts c v)) s) := by
  refine h.transmit ?_
  intro out hout
  obtain ⟨p, hp, hport⟩ := List.mem_flatMap.mp hout
  obtain ⟨k, -, rfl⟩ := List.mem_map.mp hport
  exact hpackets p hp

theorem OnTheWay.takeOff (h : OnTheWay P s) {t : LinkEnd}
    (hcut : cut (payloadMax + 8) (s.wire t) <:+ s.wire t) : OnTheWay P (takeOff c t s) := by
  unfold Simulation.takeOff
  split
  · refine ⟨?_, h.switch⟩
    intro u m hm
    by_cases hu : u = t
    · subst hu
      have hleft : m ∈ cut (payloadMax + 8) (s.wire u) := by
        rwa [← Function.update_self u (cut (payloadMax + 8) (s.wire u)) s.wire]
      exact h.wire _ m (hcut.subset hleft)
    · have hold : m ∈ s.wire u := by
        rwa [← Function.update_of_ne hu (cut (payloadMax + 8) (s.wire t)) s.wire]
      exact h.wire u m hold
  · exact h

theorem OnTheWay.setSwitch (h : OnTheWay P s) {v : ℕ} {sw : SwitchState}
    (hsw : ∀ job ∈ sw.jobQ, P job.packet.toPacket) :
    OnTheWay P { s with switch := Function.update s.switch v sw } :=
  ⟨h.wire, forall_update (P := fun _ (sw : SwitchState) => ∀ job ∈ sw.jobQ,
    P job.packet.toPacket) h.switch hsw⟩

theorem OnTheWay.received (h : OnTheWay P s) (hfits : ∀ p, P p → Fits p) {t : LinkEnd}
    (hpipe : c.linkType t = some .pipe) {peer : List Int8} {stale : ℕ → Int8} {prior : Packet}
    (hn : 0 < (received c t peer stale prior s).1) :
    ∃ p buffer, P p ∧ (received c t peer stale prior s).2 = p.deliver buffer := by
  rw [SimulationRefinement.received_pipe hpipe] at hn ⊢
  cases hwire : s.wire t with
  | nil =>
    rw [hwire] at hn
    exact absurd hn (lt_irrefl 0)
  | cons m q =>
    obtain ⟨p, hp, rfl⟩ := h.wire t m (hwire ▸ List.mem_cons_self)
    obtain ⟨-, buffer, hbuffer⟩ := recv_first .pipe (hfits p hp) q.flatten stale prior
    exact ⟨p, buffer, hp, hbuffer⟩

end

theorem extends_same {s u : SimState} (hhost : u.host = s.host) (hserver : u.server = s.server) :
    Extends c s u := by
  intro v
  unfold sentBy
  rw [hhost, hserver]

theorem extends_host {s : SimState} {v : ℕ} {u : HostState} (hsent : (s.host v).sent <+: u.sent) :
    Extends c s { s with host := Function.update s.host v u } := by
  intro w
  unfold sentBy
  split
  · exact forall_update (P := fun w (a : HostState) => (s.host w).sent <+: a.sent)
      (fun _ => List.prefix_refl _) hsent w
  · exact List.prefix_refl _
  · exact List.prefix_refl _

theorem extends_server {s : SimState} {v : ℕ} {u : ServerState}
    (hsent : (s.server v).sent <+: u.sent) :
    Extends c s { s with server := Function.update s.server v u } := by
  intro w
  unfold sentBy
  split
  · exact List.prefix_refl _
  · exact forall_update (P := fun w (a : ServerState) => (s.server w).sent <+: a.sent)
      (fun _ => List.prefix_refl _) hsent w
  · exact List.prefix_refl _

/-- What was sent before a step was sent before the next one. -/
theorem OnTheWay.grow {s u : SimState} (h : OnTheWay (Traced c s) u) (hext : Extends c s u) :
    OnTheWay (Traced c u) u := h.mono fun _ => Traced.mono hext

/-- Data packets in pipes and switches are copies of packets that nodes have sent. -/
structure TracedSim (c : Config) (s : SimState) : Prop where
  own : OwnSim c s
  way : OnTheWay (Traced c s) s

theorem traced_init (c : Config) (memory : SimMemory) : TracedSim c (simInit c memory) :=
  ⟨ownSim_init c memory, fun _ => List.forall_mem_nil _, fun _ => List.forall_mem_nil _⟩

theorem traced_sends {s : SimState} (h : OnTheWay (Traced c s) s) {v : ℕ} {sent : List Packet}
    (hown : SendsOwn (c.idOf v) sent) (hmem : ∀ p ∈ sent, p ∈ sentBy c s v) :
    OnTheWay (Traced c (Simulation.transmit c v (sent.flatMap (onAllPorts c v)) s))
      (Simulation.transmit c v (sent.flatMap (onAllPorts c v)) s) := by
  refine OnTheWay.grow (h.sent fun p hp => Traced.own ?_ (hmem p hp)) (extends_same rfl rfl)
  rcases hown with rfl | ⟨q, hq, rfl⟩
  · cases hp
  · rwa [List.mem_singleton.mp hp]

theorem jobSends_packets {n : ℕ} {sw : SwitchState} {job : SwitchNode.SwitchJob}
    {s : SimState} (h : Traced c s job.packet.toPacket) :
    ∀ out ∈ SwitchNode.jobSends n sw job, Traced c s out.2.toPacket := by
  unfold SwitchNode.jobSends
  split
  · split
    · next hc => exact List.forall_mem_map.mpr fun k _ => ⟨h.fits, fun hd => absurd hc hd⟩
    · exact List.forall_mem_map.mpr fun k _ => h
  · exact List.forall_mem_singleton.mpr h
  · exact List.forall_mem_nil _

theorem traced_handle {v k : ℕ} {n : ℤ} {p : Packet} {stray : Stray} {s u : SimState}
    (hs : OnTheWay (Traced c s) s) (hp : n > 0 → Traced c s p)
    (h : handle c v k n p stray s = some u) : OnTheWay (Traced c u) u := by
  unfold handle at h
  cases htype : c.typeOf v with
  | none =>
    rw [htype] at h
    cases h
  | some type =>
    rw [htype] at h
    cases type with
    | host =>
      obtain ⟨-, h⟩ := Option.ite_none_right_eq_some.mp h
      obtain ⟨host, hhost, rfl⟩ := Option.map_eq_some_iff.mp h
      exact OnTheWay.grow ⟨hs.wire, hs.switch⟩ (extends_host (hostStep_sent hhost))
    | switch =>
      dsimp only at h
      split_ifs at h with hn
      · cases h
        refine OnTheWay.grow (hs.setSwitch ?_) (extends_same rfl rfl)
        intro job hjob
        rcases CarriedFrames.mem_receivePacket hjob with hold | ⟨-, rfl⟩
        · exact hs.switch v job hold
        · rw [SwitchNode.dataJob_packet]
          exact hp hn
      · cases h
        exact hs
    | server =>
      obtain ⟨-, h⟩ := Option.ite_none_right_eq_some.mp h
      split_ifs at h with hn
      · cases h
        exact OnTheWay.grow ⟨hs.wire, hs.switch⟩
          (extends_server (List.prefix_refl (s.server v).sent))
      · cases h
        exact hs

theorem traced_read (hc : Piped c) {s : SimState} (hs : OnTheWay (Traced c s) s) {w : Node c}
    {k : ℕ}
    {t : LinkEnd} (ht : (c.nodePort w)[k]? = some t) {peer : List Int8} {stale : ℕ → Int8}
    {prior : Packet} (hn : 0 < (received c t peer stale prior s).1) :
    Traced c s (received c t peer stale prior s).2 := by
  have hend : EndOf c (w, k) t := ht
  obtain ⟨p, buffer, hp, hread⟩ := hs.received (fun _ h => h.fits) (hend.pipe hc) hn
  rw [hread]
  exact hp.deliver buffer

theorem traced_step (hc : Piped c) {s u : SimState} {e : SimEvent} (hstep : WholeStep c s e u)
    (hs : TracedSim c s) : TracedSim c u := by
  refine ⟨ownSim_step hstep.2 hs.own, ?_⟩
  obtain ⟨hwhole, hstep⟩ := hstep
  unfold SimStep simStep at hstep
  cases e with
  | host v e =>
    obtain ⟨⟨htype, -⟩, hstep⟩ := Option.ite_none_right_eq_some.mp hstep
    obtain ⟨host, hhost, rfl⟩ := Option.map_eq_some_iff.mp hstep
    have hnext : OnTheWay (Traced c { s with host := Function.update s.host v host })
        { s with host := Function.update s.host v host } :=
      OnTheWay.grow ⟨hs.way.wire, hs.way.switch⟩ (extends_host (hostStep_sent hhost))
    refine traced_sends hnext (ownHost_step hhost (hs.own.host v htype)).2 ?_
    intro p hp
    rw [sentBy_host htype]
    simp only [Function.update_self]
    exact List.mem_of_mem_drop hp
  | switchControl v =>
    obtain ⟨-, hstep⟩ := Option.ite_none_right_eq_some.mp hstep
    cases hstep
    refine OnTheWay.grow (hs.way.setSwitch ?_) (extends_same rfl rfl)
    intro job hjob
    rcases CarriedFrames.mem_controlTimer hjob with hold | ⟨hpacket, -⟩
    · exact hs.way.switch v job hold
    · rw [hpacket]
      exact ⟨FileSplit.fits_of_length (n := 0) rfl (Nat.zero_le _), fun hd => absurd rfl hd⟩
  | switchExecute v =>
    obtain ⟨-, hstep⟩ := Option.ite_none_right_eq_some.mp hstep
    cases hstep
    have hjobs := hs.way.switch v
    unfold switchPart
    cases hq : (s.switch v).jobQ with
    | nil =>
      rw [NetworkRuns.executeJob_nil hq]
      exact OnTheWay.grow (hs.way.setSwitch hjobs) (extends_same rfl rfl)
    | cons job rest =>
      rw [NetworkRuns.executeJob_cons hq]
      rw [hq] at hjobs
      obtain ⟨hjob, hrest⟩ := List.forall_mem_cons.mp hjobs
      refine OnTheWay.grow (OnTheWay.transmit (hs.way.setSwitch hrest) ?_) (extends_same rfl rfl)
      exact List.forall_mem_map.mpr (jobSends_packets hjob)
  | serverControl v blank =>
    obtain ⟨-, hstep⟩ := Option.ite_none_right_eq_some.mp hstep
    cases hstep
    refine OnTheWay.grow ⟨hs.way.wire, hs.way.switch⟩ (extends_server ?_)
    unfold DnsServer.controlTimer
    split <;> exact List.prefix_refl _
  | serverExecute v around blank =>
    obtain ⟨hserver, hstep⟩ := Option.ite_none_right_eq_some.mp hstep
    obtain ⟨server, hnext, rfl⟩ := Option.map_eq_some_iff.mp hstep
    have hway : OnTheWay (Traced c { s with server := Function.update s.server v server })
        { s with server := Function.update s.server v server } :=
      OnTheWay.grow ⟨hs.way.wire, hs.way.switch⟩ (extends_server (execute_sent hnext))
    refine traced_sends hway (hserver.2 ▸ (ownServer_execute hnext (hs.own.server v)).2) ?_
    intro p hp
    rw [sentBy_server hserver.1]
    simp only [Function.update_self]
    exact List.mem_of_mem_drop hp
  | recv v k peer stale prior stray =>
    dsimp only at hstep
    cases ht : (c.nodePort v)[k]? with
    | none =>
      rw [ht] at hstep
      cases hstep
    | some t =>
      rw [ht] at hstep
      obtain ⟨hhost, hserver⟩ := takeOff_nodes (c := c) t s
      have hext : Extends c s (takeOff c t s) := extends_same hhost hserver
      refine traced_handle ((hs.way.takeOff (hwhole t ht)).grow hext) ?_ hstep
      intro hn
      obtain ⟨-, type, htype, -⟩ := SimulationRefinement.handle_cases hstep
      obtain ⟨w, rfl⟩ := exists_node htype
      exact (traced_read hc hs.way ht hn).mono hext

theorem traced_run (hc : Piped c) {memory : SimMemory} {es : List SimEvent} {s : SimState}
    (h : Run (WholeStep c) (simInit c memory) es s) : TracedSim c s :=
  h.invariant (fun _ _ _ hstep hs => traced_step hc hstep hs) (traced_init c memory)

/-- Every data packet that any node reads was sent by the node that it names as source, with the
same contents. -/
theorem reads_what_was_sent (hc : Piped c) (memory : SimMemory) {es : List SimEvent}
    {s : SimState} (h : Run (WholeStep c) (simInit c memory) es s) {w : Node c} {k : ℕ}
    {t : LinkEnd} (ht : (c.nodePort w)[k]? = some t) (peer : List Int8) (stale : ℕ → Int8)
    (prior : Packet) (hn : 0 < (received c t peer stale prior s).1)
    (hd : (received c t peer stale prior s).2.type ≠ pktControlPacket) :
    ∃ v, ∃ q ∈ sentBy c s v, q.src = Int8.ofInt (c.idOf v) ∧ Fits q ∧
      CopyOf q (received c t peer stale prior s).2 := by
  obtain ⟨v, q, hq, hown, hcopy⟩ := (traced_read hc (traced_run hc h).way ht hn).sent hd
  exact ⟨v, q, hq, hown.src, hown.fits, hcopy⟩

def hostPair : Config :=
  ⟨[⟨some .host, 0⟩, ⟨some .host, 1⟩], [⟨some .pipe, 0, 1, [], [], []⟩]⟩

theorem hostPair_piped : Piped hostPair := by decide +kernel

def quietRound (v : ℕ) : List SimEvent :=
  [.host v (.control HostReplies.noPacket), .host v (.command none HostReplies.noPacket),
    quietRecv v,
    .host v (.execute (fun _ => true) ⟨fun _ => HostReplies.noPacket, fun _ => 0, fun _ _ => 0⟩)]

def pingReplied : List SimEvent := commanded [112, 32, 49] ++ quietRound 1 ++ quietRound 1

def nextRead (s : SimState) : ℤ × Packet :=
  received hostPair (0, false) [] (fun _ => 0) HostReplies.noPacket s

theorem pingReplied_run :
    ∃ s, Run (WholeStep hostPair) (simInit hostPair quietMemory) pingReplied s ∧
      0 < (nextRead s).1 ∧ (nextRead s).2.type = pktPingReply ∧
      (nextRead s).2.src = 1 ∧ (nextRead s).2.dst = 0 := by
  have hrun : (pingReplied.foldlM (wholeStep hostPair) (simInit hostPair quietMemory)).map
      (fun s => ((nextRead s).1, (nextRead s).2.type, (nextRead s).2.src, (nextRead s).2.dst)) =
        some (8, pktPingReply, 1, 0) := by
    decide +kernel
  obtain ⟨s, hs, hread⟩ := Option.map_eq_some_iff.mp hrun
  obtain ⟨hn, hread⟩ := Prod.mk.inj hread
  obtain ⟨htype, hread⟩ := Prod.mk.inj hread
  obtain ⟨hsrc, hdst⟩ := Prod.mk.inj hread
  refine ⟨s, (Run.of_foldlM hs).mono fun _ _ _ => wholeStep_some, ?_, htype, hsrc, hdst⟩
  rw [hn]
  decide

theorem reads_what_was_sent_pingReplied :
    ∃ s, Run (WholeStep hostPair) (simInit hostPair quietMemory) pingReplied s ∧
      0 < (nextRead s).1 ∧
      ∃ v, ∃ q ∈ sentBy hostPair s v, q.src = Int8.ofInt (hostPair.idOf v) ∧ Fits q ∧
        CopyOf q (nextRead s).2 := by
  obtain ⟨s, hs, hn, htype, -, -⟩ := pingReplied_run
  have hport : (hostPair.nodePort (⟨0, by decide⟩ : Node hostPair))[0]? = some (0, false) := by
    decide +kernel
  have hdata : (nextRead s).2.type ≠ pktControlPacket := by
    rw [htype]
    decide
  exact ⟨s, hs, hn, reads_what_was_sent hostPair_piped quietMemory hs hport [] (fun _ => 0)
    HostReplies.noPacket hn hdata⟩

end SentPackets
