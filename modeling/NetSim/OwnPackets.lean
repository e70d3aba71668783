import NetSim.TableIndices

/-! What hosts and the server put on the links: packets that name them as source, and in a control
packet the sender type of a host. -/
namespace OwnPackets

open PacketCodec Simulation
open SwitchNode (YesNo Stray)
open NetworkWiring (LinkEnd)
open HostNode (HostState HostEvent hostStep)
open DnsServer (ServerState ServerJob serverId)
open HostJobs (Made Queued hostStep_does)
open TableIndices (forall_update)

structure Own (id : ℤ) (p : Packet) : Prop where
  src : p.src = Int8.ofInt id
  control : p.type = pktControlPacket → p.packetSenderType = charH ∧ p.packetSenderChild = charY
  fits : Fits p

theorem Own.of_data {id : ℤ} {p : Packet} (hsrc : p.src = Int8.ofInt id)
    (htype : p.type ≠ pktControlPacket) (hfits : Fits p) : Own id p :=
  ⟨hsrc, fun hc => absurd hc htype, hfits⟩

theorem own_made {hostId dst : ℤ} {p : Packet} (h : Made hostId dst p) : Own hostId p :=
  .of_data h.src h.type h.fits

theorem own_empty {id : ℤ} {p : Packet} (hsrc : p.src = Int8.ofInt id)
    (hcontrol : p.type = pktControlPacket → p.packetSenderType = charH ∧
      p.packetSenderChild = charY) (hlength : p.length = 0) : Own id p :=
  ⟨hsrc, hcontrol, FileSplit.fits_of_length hlength (Nat.zero_le _)⟩

/-- The packets in the job queue are the host's own. -/
structure OwnHost (id : ℤ) (s : HostState) : Prop where
  hostId : s.hostId = id
  jobs : ∀ p, .sendPktAllPorts p ∈ s.jobQ → Own id p

theorem queued_own {s : HostState} {e : HostEvent} {p : Packet}
    (h : Queued s e (.sendPktAllPorts p)) : Own s.hostId p := by
  cases h with
  | control => exact own_empty rfl (fun _ => ⟨rfl, rfl⟩) rfl
  | command hjob =>
    cases hjob with
    | toDst _ hmade => exact own_made hmade
    | toServer hmade => exact own_made hmade
    | wait hwait => exact hwait.elim
  | receive _ _ _ hjob => cases hjob
  | execute _ hjob =>
    cases hjob with
    | reply =>
      refine own_empty rfl (fun hc => ?_) rfl
      exact absurd hc (by decide : pktPingReply ≠ pktControlPacket)
    | part _ hmade => exact own_made hmade
    | again hagain => cases hagain
    | toFound hmade => exact own_made hmade

/-- At most one packet goes out, and it is the node's own. -/
def SendsOwn (id : ℤ) (sent : List Packet) : Prop := sent = [] ∨ ∃ p, Own id p ∧ sent = [p]

theorem ownHost_step {id : ℤ} {s u : HostState} {e : HostEvent} (h : hostStep s e = some u)
    (hs : OwnHost id s) : OwnHost id u ∧ SendsOwn id (u.sent.drop s.sent.length) := by
  have hdoes := hostStep_does h
  refine ⟨⟨hdoes.hostId.trans hs.hostId, ?_⟩, ?_⟩
  · intro p hp
    rcases hdoes.jobQ _ hp with hold | hnew
    · exact hs.jobs p hold
    · exact hs.hostId ▸ queued_own hnew
  · rcases hdoes.sent with hsame | ⟨p, hp, hmore⟩
    · exact .inl (by rw [hsame, List.drop_length])
    · exact .inr ⟨p, hs.jobs p hp, by rw [hmore, List.drop_left]⟩

theorem hostStep_sent {s u : HostState} {e : HostEvent} (h : hostStep s e = some u) :
    s.sent <+: u.sent := by
  rcases (HostJobs.hostStep_does h).sent with hsame | ⟨p, -, hmore⟩
  · rw [hsame]
  · rw [hmore]
    exact List.prefix_append _ _

theorem receive_sent {n : ℤ} {p : Packet} {s u : HostState}
    (h : hostStep s (.receive n p) = some u) : u.sent = s.sent := by
  cases HostNode.hostStep_part h with
  | receive _ _ hv =>
    unfold HostNode.receive at hv
    split_ifs at hv
    · cases hv
      rfl
    · cases HostNode.translate_translated hv <;> rfl
    · cases hv
      rfl

def OwnServer (s : ServerState) : Prop :=
  ∀ p, ServerJob.sendPktAllPorts p ∈ s.jobQ → Own serverId p

theorem ownServer_append {s u : ServerState} {jobs : List ServerJob} (hs : OwnServer s)
    (hq : ∀ job ∈ u.jobQ, job ∈ s.jobQ ∨ job ∈ jobs)
    (hjobs : ∀ p, ServerJob.sendPktAllPorts p ∈ jobs → Own serverId p) : OwnServer u := by
  intro p hp
  rcases hq _ hp with hold | hnew
  · exact hs p hold
  · exact hjobs p hnew

theorem ownServer_control (blank : Packet) {s : ServerState} (hs : OwnServer s) :
    OwnServer (DnsServer.controlTimer blank s) := by
  unfold DnsServer.controlTimer
  split
  · refine ownServer_append hs (fun job => List.mem_append.mp) ?_
    intro p hp
    cases List.mem_singleton.mp hp
    exact own_empty rfl (fun _ => ⟨rfl, rfl⟩) rfl
  · exact hs

theorem ownServer_receive (p : Packet) {s : ServerState} (hs : OwnServer s) :
    OwnServer (DnsServer.receivePackets [p] s) := by
  refine ownServer_append hs (fun job => List.mem_append.mp) ?_
  intro r hr
  obtain ⟨q, -, hjob⟩ := List.mem_filterMap.mp hr
  unfold DnsServer.packetJob at hjob
  split_ifs at hjob <;> cases hjob

theorem registerReply_own (attempt : DnsServer.RegisterAttempt) (src : Int8) (blank : Packet) :
    Own serverId (DnsServer.registerReply attempt src blank) := by
  have hnot : pktDnsRegisterReply ≠ pktControlPacket := by decide
  cases attempt with
  | success => exact .of_data rfl hnot (FileSplit.fits_of_length (n := 1) rfl (by decide))
  | nameTooLong | invalidName | alreadyRegistered =>
    exact .of_data rfl hnot (FileSplit.fits_of_length (n := 2) rfl (by decide))

theorem lookupReply_own (s : DnsServer.Naming) (around : ℤ → YesNo) (found : ℤ) (src : Int8)
    (blank : Packet) : Own serverId (DnsServer.lookupReply s around found src blank) := by
  have hnot : pktDnsLookupReply ≠ pktControlPacket := by decide
  unfold DnsServer.lookupReply
  split
  · exact .of_data rfl hnot (FileSplit.fits_of_length (n := 5) rfl (by decide))
  · exact .of_data rfl hnot (FileSplit.fits_of_length (n := 1) rfl (by decide))

theorem registerNewDomain_reply {s t : DnsServer.Naming} {p blank reply : Packet}
    (h : DnsServer.registerNewDomain s p blank = some (t, reply)) :
    ∃ attempt, reply = DnsServer.registerReply attempt p.src blank := by
  rcases DnsServer.registerNewDomain_cases h with
    ⟨_, _, _, _, hreply, _⟩ | ⟨attempt, _, hreply, _⟩
  · exact ⟨_, hreply⟩
  · exact ⟨_, hreply⟩

theorem execute_sent {around : ℤ → YesNo} {blank : Packet} {s u : ServerState}
    (h : DnsServer.execute around blank s = some u) : s.sent <+: u.sent := by
  unfold DnsServer.execute at h
  split at h
  · cases h
    exact List.prefix_refl _
  · cases h
    exact List.prefix_append _ _
  · cases h
    exact List.prefix_refl _
  · obtain ⟨r, -, rfl⟩ := Option.map_eq_some_iff.mp h
    exact List.prefix_refl _
  · cases h
    exact List.prefix_refl _

theorem ownServer_execute {around : ℤ → YesNo} {blank : Packet} {s u : ServerState}
    (h : DnsServer.execute around blank s = some u) (hs : OwnServer s) :
    OwnServer u ∧ SendsOwn serverId (u.sent.drop s.sent.length) := by
  have hanswer : ∀ (naming : DnsServer.Naming) (reply : Packet) (job : ServerJob)
      (q : List ServerJob), s.jobQ = job :: q → Own serverId reply →
      OwnServer { s with naming := naming, jobQ := q ++ [.sendPktAllPorts reply] } := by
    intro naming reply job q hq hreply p hp
    rcases List.mem_append.mp hp with hold | hnew
    · exact hs p (hq ▸ List.mem_cons_of_mem job hold)
    · cases List.mem_singleton.mp hnew
      exact hreply
  have hquiet : SendsOwn serverId (s.sent.drop s.sent.length) := .inl List.drop_length
  unfold DnsServer.execute at h
  split at h
  · cases h
    exact ⟨hs, hquiet⟩
  · next p q hq =>
    cases h
    refine ⟨fun r hr => hs r (hq ▸ List.mem_cons_of_mem _ hr), .inr ⟨p, hs p ?_, List.drop_left⟩⟩
    rw [hq]
    exact List.mem_cons_self
  · next p q hq =>
    cases h
    refine ⟨hanswer _ _ _ q hq (own_empty rfl (fun hc => ?_) rfl), hquiet⟩
    exact absurd hc (by decide : pktPingReply ≠ pktControlPacket)
  · next p q hq =>
    obtain ⟨⟨t, reply⟩, hr, rfl⟩ := Option.map_eq_some_iff.mp h
    obtain ⟨attempt, rfl⟩ := registerNewDomain_reply hr
    exact ⟨hanswer _ _ _ q hq (registerReply_own _ _ _), hquiet⟩
  · next p q hq =>
    cases h
    exact ⟨hanswer _ _ _ q hq (lookupReply_own _ _ _ _ _), hquiet⟩

variable {c : Config}

structure OwnSim (c : Config) (s : SimState) : Prop where
  host : ∀ v, c.typeOf v = some .host → OwnHost (c.idOf v) (s.host v)
  server : ∀ v, OwnServer (s.server v)

theorem ownSim_init (c : Config) (memory : SimMemory) : OwnSim c (simInit c memory) :=
  ⟨fun _ _ => ⟨rfl, nofun⟩, fun _ => nofun⟩

theorem ownSim_handle {v k : ℕ} {n : ℤ} {p : Packet} {stray : Stray} {s u : SimState}
    (hs : OwnSim c s) (h : handle c v k n p stray s = some u) : OwnSim c u := by
  unfold handle at h
  cases htype : c.typeOf v with
  | none =>
    rw [htype] at h
    cases h
  | some type =>
    rw [htype] at h
    cases type with
    | host =>
      obtain ⟨-, h⟩ := Option.ite_none_right_eq_some.mp h
      obtain ⟨host, hhost, rfl⟩ := Option.map_eq_some_iff.mp h
      exact ⟨forall_update (P := fun w a => c.typeOf w = some .host → OwnHost (c.idOf w) a)
        hs.host fun _ => (ownHost_step hhost (hs.host v htype)).1, hs.server⟩
    | switch =>
      dsimp only at h
      split_ifs at h <;> cases h <;> exact ⟨hs.host, hs.server⟩
    | server =>
      obtain ⟨-, h⟩ := Option.ite_none_right_eq_some.mp h
      split_ifs at h <;> cases h
      · exact ⟨hs.host, forall_update hs.server (ownServer_receive p (hs.server v))⟩
      · exact hs

theorem takeOff_nodes (t : LinkEnd) (s : SimState) :
    (takeOff c t s).host = s.host ∧ (takeOff c t s).server = s.server := by
  unfold takeOff
  split <;> exact ⟨rfl, rfl⟩

theorem ownSim_step {s u : SimState} {e : SimEvent} (h : SimStep c s e u) (hs : OwnSim c s) :
    OwnSim c u := by
  unfold SimStep simStep at h
  cases e with
  | host v e =>
    obtain ⟨⟨htype, -⟩, h⟩ := Option.ite_none_right_eq_some.mp h
    obtain ⟨host, hhost, rfl⟩ := Option.map_eq_some_iff.mp h
    exact ⟨forall_update (P := fun w a => c.typeOf w = some .host → OwnHost (c.idOf w) a)
      hs.host fun _ => (ownHost_step hhost (hs.host v htype)).1, hs.server⟩
  | switchControl v =>
    obtain ⟨-, h⟩ := Option.ite_none_right_eq_some.mp h
    cases h
    exact ⟨hs.host, hs.server⟩
  | switchExecute v =>
    obtain ⟨-, h⟩ := Option.ite_none_right_eq_some.mp h
    cases h
    exact ⟨hs.host, hs.server⟩
  | serverControl v blank =>
    obtain ⟨-, h⟩ := Option.ite_none_right_eq_some.mp h
    cases h
    exact ⟨hs.host, forall_update hs.server (ownServer_control blank (hs.server v))⟩
  | serverExecute v around blank =>
    obtain ⟨-, h⟩ := Option.ite_none_right_eq_some.mp h
    obtain ⟨server, hserver, rfl⟩ := Option.map_eq_some_iff.mp h
    exact ⟨hs.host, forall_update hs.server (ownServer_execute hserver (hs.server v)).1⟩
  | recv v k peer stale prior stray =>
    dsimp only at h
    split at h
    · cases h
    · next t _ =>
      obtain ⟨hhost, hserver⟩ := takeOff_nodes (c := c) t s
      exact ownSim_handle ⟨hhost ▸ hs.host, hserver ▸ hs.server⟩ h

end OwnPackets
