import NetSim.RequestQueue
import NetSim.RequestReplies

/-! No request without a reply. A host answers pings, and the server answers pings and the two DNS
requests. Each does so in the order in which it has read them, once for each, and as long as it
executes jobs no request is left without its reply. -/
namespace AnsweredRequests

open Filter PacketCodec FileSplit HostNode HostQueries HostWaits Simulation SimulatedNetwork
  SentPackets RequestReplies InfiniteRuns
open HostJobs (Made uploadSend_made namePacket_made pingRequest_made)
open RequestQueue (Kinds Event Step taken)
open SimulationRefinement (readNow host_moves handle_other)
open DnsServer (ServerState ServerJob serverId)
open TableIndices (quietMemory)
open NetworkTopology (NetNodeType)
open SwitchNode (YesNo Stray)

/-- A request by its type and the node that has sent it. -/
abbrev Request := Int8 × Int8

def replyTo (p : Packet) : Option Request := (requestOf p.type).map fun type => (type, p.dst)

theorem stays {β : Type} {K : Kinds β Request} (s : RequestQueue.State β Request) :
    Step K s (.takes []) s := by
  have h := Step.take (K := K) s [] (by simp)
  rwa [List.append_nil] at h

def hostAsks : HostJob → Option Request
  | .pingSendReply p => some (pktPingReq, p.src)
  | _ => none

def hostGives : HostJob → Option Request
  | .sendPktAllPorts p => replyTo p
  | _ => none

def hostKinds : Kinds HostJob Request where
  asks := hostAsks
  gives := hostGives
  apart job k h := by
    cases job with
    | sendPktAllPorts => rfl
    | _ => cases h

def hostView (s : HostState) : RequestQueue.State HostJob Request :=
  ⟨s.jobQ, s.sent.filterMap replyTo⟩

def hostRequests (id : ℤ) (p : Packet) : List Request :=
  if p.dst.toInt = id ∧ p.type = pktPingReq then [(p.type, p.src)] else []

section

variable {s u v : HostState} {jobs : List HostJob}

theorem made_quiet {hostId dst : ℤ} {p : Packet} (h : Made hostId dst p) :
    hostKinds.Quiet (.sendPktAllPorts p) := by
  refine ⟨rfl, ?_⟩
  change (requestOf p.type).map _ = none
  rw [requestOf, if_neg h.noReply.1, if_neg h.noReply.2, if_neg h.noAnswer]
  rfl

theorem quiet_singleton {job : HostJob} (h : hostKinds.Quiet job) :
    ∀ j ∈ [job], hostKinds.Quiet j := by
  intro j hj
  rwa [List.mem_singleton.mp hj]

theorem quiet_pair {job job' : HostJob} (h : hostKinds.Quiet job) (h' : hostKinds.Quiet job') :
    ∀ j ∈ [job, job'], hostKinds.Quiet j :=
  List.forall_mem_cons.mpr ⟨h, quiet_singleton h'⟩

theorem takes_quiet (h : Queues s u jobs) (hjobs : ∀ job ∈ jobs, hostKinds.Quiet job) :
    Step hostKinds (hostView s) (.takes []) (hostView u) := by
  have hstep := Step.take (K := hostKinds) (hostView s) jobs
    fun job hjob => (hjobs job hjob).2
  have hview : hostView u = { hostView s with queue := (hostView s).queue ++ jobs } := by
    rw [hostView, h.jobQ, h.sent]
    rfl
  rw [Kinds.Quiet.asks_nil hjobs] at hstep
  rwa [hview]

def QueuesQuiet (s u : HostState) : Prop :=
  ∃ jobs, Queues s u jobs ∧ ∀ job ∈ jobs, hostKinds.Quiet job

theorem queuesQuiet_nothing (hq : u.jobQ = s.jobQ) (hs : u.sent = s.sent) : QueuesQuiet s u :=
  ⟨[], queues_nothing hq hs, by simp⟩

theorem executeCommand_quiet {c : ManCommand} {arg : List Int8} {blank : Packet}
    {t : ReplyBook.Ticket ManCommand} (h : executeCommand c arg blank t s = some u) :
    QueuesQuiet s u := by
  cases executeCommand_commanded h with
  | displayHostState | setHostDir | unknown => exact queuesQuiet_nothing rfl rfl
  | ping => exact ⟨_, ⟨rfl, rfl⟩, quiet_pair (made_quiet (pingRequest_made _ _ _)) ⟨rfl, rfl⟩⟩
  | fileUpload hv =>
    exact ⟨_, (scanned_quiet (scanDstName_scanned hv)).1.enqueued rfl rfl,
      quiet_singleton ⟨rfl, rfl⟩⟩
  | fileDownload hv hp =>
    exact ⟨_, (scanned_quiet (scanDstName_scanned hv)).1.enqueued rfl rfl,
      quiet_singleton (made_quiet (namePacket_made hp (by decide)))⟩
  | dnsRegister hv hp | dnsLookup hv hp | dnsPing hv hp =>
    exact ⟨_, (scanned_quiet (scanDomainName_scanned hv)).1.enqueued rfl rfl,
      quiet_pair (made_quiet (namePacket_made hp (by decide))) ⟨rfl, rfl⟩⟩
  | dnsFileDownload hv _ hp =>
    exact ⟨_, (scanned_quiet (scanDomainNameName_scanned hv)).1.enqueued rfl rfl,
      quiet_pair (made_quiet (namePacket_made hp (by decide))) ⟨rfl, rfl⟩⟩

theorem translate_request {n : ℤ} {p : Packet} (h : translate n p s = some u)
    (htype : p.type = pktPingReq) : Queues s u [.pingSendReply p] := by
  rw [HostNode.translate, if_pos htype] at h
  cases h
  exact queues_enqueue _ _

theorem translate_quiet {n : ℤ} {p : Packet} (h : translate n p s = some u)
    (htype : p.type ≠ pktPingReq) : QueuesQuiet s u := by
  cases translate_translated h with
  | pingReq hping => exact absurd hping htype
  | pingReply | dnsRegisterReply | dnsLookupReply | other => exact queuesQuiet_nothing rfl rfl
  | fileUploadStart | fileUploadEnd | fileUploadMiddle | fileDownloadReq =>
    exact ⟨_, queues_enqueue _ _, quiet_singleton ⟨rfl, rfl⟩⟩

theorem receive_view {n : ℤ} {p : Packet} (h : receive n p s = some u) :
    Step hostKinds (hostView s) (.takes (if n > 0 then hostRequests s.hostId p else []))
      (hostView u) := by
  by_cases hasks : n > 0 ∧ p.dst.toInt = s.hostId ∧ p.type = pktPingReq
  · obtain ⟨hn, hdst, htype⟩ := hasks
    have hcontrol : p.type ≠ pktControlPacket := by
      rw [htype]
      decide
    rw [receive_translate hn hdst hcontrol] at h
    have hq := translate_request h htype
    have hview : hostView u =
        { hostView s with queue := (hostView s).queue ++ [.pingSendReply p] } := by
      rw [hostView, hq.jobQ, hq.sent]
      rfl
    rw [if_pos hn, hostRequests, if_pos ⟨hdst, htype⟩, htype, hview]
    exact Step.take (K := hostKinds) (hostView s) [.pingSendReply p] (by
      intro job hjob
      rw [List.mem_singleton.mp hjob]
      rfl)
  · have hnone : (if n > 0 then hostRequests s.hostId p else []) = [] := by
      rw [hostRequests]
      split_ifs with hn hp
      · exact absurd ⟨hn, hp⟩ hasks
      · rfl
      · rfl
    have hquiet : QueuesQuiet s u := by
      unfold receive at h
      split_ifs at h with hcontrol hus
      · cases h
        exact queuesQuiet_nothing rfl rfl
      · exact translate_quiet h fun htype => hasks ⟨hus.1, hus.2, htype⟩
      · cases h
        exact queuesQuiet_nothing rfl rfl
    obtain ⟨jobs, hq, hjobs⟩ := hquiet
    rw [hnone]
    exact takes_quiet hq hjobs

theorem waitForReply_quiet {received : Bool} {answered : Option HostState} {timer : ℕ}
    {again : ℕ → HostJob} {t : ReplyBook.Ticket ManCommand} {timeOut : String}
    (h : waitForReply received answered timer again t timeOut s = some u)
    (hagain : ∀ n, hostKinds.Quiet (again n)) (hanswered : answered = some u → QueuesQuiet s u) :
    QueuesQuiet s u := by
  rcases waitForReply_cases h with ⟨-, ha⟩ | ⟨-, -, rfl⟩ | ⟨-, -, rfl⟩
  · exact hanswered ha
  · exact ⟨_, queues_enqueue _ _, quiet_singleton (hagain _)⟩
  · exact queuesQuiet_nothing rfl rfl

/-- Every job but the sending of a packet or of a ping reply. -/
theorem execute_quiet {canOpen : List Int8 → Bool} {mem : Scratch} {job : HostJob}
    {q : List HostJob} (hs : s.jobQ = job :: q) (h : execute canOpen mem s = some u)
    (hsend : ∀ p, job ≠ .sendPktAllPorts p) (hreply : ∀ p, job ≠ .pingSendReply p) :
    QueuesQuiet { s with jobQ := q } u := by
  simp only [execute, hs] at h
  cases job with
  | sendPktAllPorts p => exact absurd rfl (hsend p)
  | pingSendReply p => exact absurd rfl (hreply p)
  | fileUploadSend fname dst =>
    obtain ⟨packets, hpackets, rfl⟩ := Option.map_eq_some_iff.mp h
    refine ⟨packets.map .sendPktAllPorts, ⟨rfl, rfl⟩, ?_⟩
    exact List.forall_mem_map.mpr fun p hp => made_quiet (uploadSend_made hpackets p hp)
  | fileUploadRecvStart p | fileUploadRecvMiddle p | fileUploadRecvEnd p =>
    obtain ⟨r, -, rfl⟩ := Option.map_eq_some_iff.mp h
    exact queuesQuiet_nothing rfl rfl
  | pingWaitForReply t timer | dnsRegisterWaitForReply t timer
  | dnsLookupWaitForReply t fname timer =>
    refine waitForReply_quiet h (fun _ => ⟨rfl, rfl⟩) ?_
    intro ha
    cases ha
    exact queuesQuiet_nothing rfl rfl
  | dnsPingWaitForReply t timer =>
    refine waitForReply_quiet h (fun _ => ⟨rfl, rfl⟩) ?_
    intro ha
    cases ha
    split
    · exact queuesQuiet_nothing rfl rfl
    · exact ⟨_, ⟨rfl, rfl⟩, quiet_pair (made_quiet (pingRequest_made _ _ _)) ⟨rfl, rfl⟩⟩
  | dnsDownloadWaitForReply t fname timer =>
    refine waitForReply_quiet h (fun _ => ⟨rfl, rfl⟩) ?_
    intro ha
    split at ha
    · cases ha
      exact queuesQuiet_nothing rfl rfl
    · obtain ⟨p, hp, rfl⟩ := Option.map_eq_some_iff.mp ha
      exact ⟨_, ⟨rfl, rfl⟩, quiet_singleton (made_quiet (namePacket_made hp (by decide)))⟩

theorem execute_view {canOpen : List Int8 → Bool} {mem : Scratch}
    (h : execute canOpen mem s = some u) :
    Step hostKinds (hostView s) .executes (hostView u) := by
  rcases hs : s.jobQ with _ | ⟨job, q⟩
  · simp only [execute, hs, Option.some.injEq] at h
    subst h
    exact .idle _ hs
  have hqueue : (hostView s).queue = job :: q := hs
  by_cases hsend : ∃ p, job = .sendPktAllPorts p
  · obtain ⟨p, rfl⟩ := hsend
    simp only [execute, hs, Option.some.injEq] at h
    subst h
    cases hreply : replyTo p with
    | none =>
      have hstep := Step.other (K := hostKinds) (hostView s) [] hqueue ⟨rfl, hreply⟩
        (by simp)
      have hview : hostView { s with jobQ := q, sent := s.sent ++ [p] } =
          { hostView s with queue := q ++ [] } := by
        simp [hostView, hreply]
      rwa [hview]
    | some k =>
      have hstep := Step.give (K := hostKinds) (hostView s) hqueue hreply
      have hview : hostView { s with jobQ := q, sent := s.sent ++ [p] } =
          ⟨q, (hostView s).answered ++ [k]⟩ := by
        simp [hostView, hreply]
      rwa [hview]
  · by_cases hping : ∃ p, job = .pingSendReply p
    · obtain ⟨p, rfl⟩ := hping
      simp only [execute, hs, Option.some.injEq] at h
      subst h
      exact Step.serve (K := hostKinds) (hostView s) hqueue rfl rfl
    · obtain ⟨jobs, hq, hjobs⟩ := execute_quiet hs h (fun p hp => hsend ⟨p, hp⟩)
        fun p hp => hping ⟨p, hp⟩
      have hjob : hostKinds.Quiet job := by
        cases job with
        | sendPktAllPorts p => exact absurd ⟨p, rfl⟩ hsend
        | pingSendReply p => exact absurd ⟨p, rfl⟩ hping
        | _ => exact ⟨rfl, rfl⟩
      have hstep := Step.other (hostView s) jobs hqueue hjob hjobs
      have hview : hostView u = { hostView s with queue := q ++ jobs } := by
        rw [hostView, hq.jobQ, hq.sent]
        rfl
      rwa [hview]

theorem controlTimer_quiet (blank : Packet) (s : HostState) :
    QueuesQuiet s (controlTimer blank s) := by
  unfold controlTimer
  split
  · have hcontrol : hostKinds.Quiet (.sendPktAllPorts (controlPacket s.hostId blank)) := ⟨rfl, rfl⟩
    exact ⟨_, ⟨rfl, rfl⟩, quiet_singleton hcontrol⟩
  · exact queuesQuiet_nothing rfl rfl

/-- What a part of an iteration is for the requests. -/
def hostEvent (s : HostState) : HostEvent → Event Request
  | .receive n p => .takes (if n > 0 then hostRequests s.hostId p else [])
  | .execute _ _ => .executes
  | _ => .takes []

theorem hostStep_view {e : HostEvent} (h : hostStep s e = some u) :
    Step hostKinds (hostView s) (hostEvent s e) (hostView u) := by
  cases hostStep_part h with
  | @control blank =>
    obtain ⟨jobs, hq, hjobs⟩ := controlTimer_quiet blank s
    exact takes_quiet ⟨hq.jobQ, hq.sent⟩ hjobs
  | noCommand => exact stays _
  | command _ hv =>
    obtain ⟨-, hv⟩ := Option.ite_none_right_eq_some.mp hv
    obtain ⟨jobs, hq, hjobs⟩ := executeCommand_quiet hv
    exact takes_quiet ⟨hq.jobQ, hq.sent⟩ hjobs
  | receive _ _ hv =>
    have hview := receive_view hv
    exact hview
  | execute _ hv =>
    have hview := execute_view hv
    exact hview

end

def serverAsks : ServerJob → Option Request
  | .pingSendReply p => some (pktPingReq, p.src)
  | .registerNewDomain p => some (pktDnsRegister, p.src)
  | .dnsPingReq p => some (pktDnsLookup, p.src)
  | .sendPktAllPorts _ => none

def serverGives : ServerJob → Option Request
  | .sendPktAllPorts p => replyTo p
  | _ => none

def serverKinds : Kinds ServerJob Request where
  asks := serverAsks
  gives := serverGives
  apart job k h := by
    cases job with
    | sendPktAllPorts => rfl
    | _ => cases h

def serverView (s : ServerState) : RequestQueue.State ServerJob Request :=
  ⟨s.jobQ, s.sent.filterMap replyTo⟩

def serverRequests (p : Packet) : List Request :=
  if p.dst.toInt = serverId ∧
      (p.type = pktPingReq ∨ p.type = pktDnsRegister ∨ p.type = pktDnsLookup) then
    [(p.type, p.src)]
  else []

section

variable {s u : ServerState}

theorem registerReply_replyTo (attempt : DnsServer.RegisterAttempt) (src : Int8)
    (blank : Packet) : replyTo (DnsServer.registerReply attempt src blank) =
      some (pktDnsRegister, src) := by
  cases attempt <;> rfl

theorem lookupReply_replyTo (naming : DnsServer.Naming) (around : ℤ → YesNo) (found : ℤ)
    (src : Int8) (blank : Packet) :
    replyTo (DnsServer.lookupReply naming around found src blank) = some (pktDnsLookup, src) := by
  unfold DnsServer.lookupReply
  split <;> rfl

theorem packetJob_asks (p : Packet) :
    ([p].filterMap DnsServer.packetJob).filterMap serverAsks = serverRequests p ∧
      ∀ job ∈ [p].filterMap DnsServer.packetJob, serverGives job = none := by
  have hcontrol : pktControlPacket ≠ pktPingReq ∧ pktControlPacket ≠ pktDnsRegister ∧
      pktControlPacket ≠ pktDnsLookup := by decide
  simp only [List.filterMap_cons, List.filterMap_nil, DnsServer.packetJob, serverRequests]
  split_ifs <;> simp_all [serverAsks, serverGives]

theorem serverReceive_view (p : Packet) (s : ServerState) :
    Step serverKinds (serverView s) (.takes (serverRequests p))
      (serverView (DnsServer.receivePackets [p] s)) := by
  obtain ⟨hasks, hgives⟩ := packetJob_asks p
  rw [← hasks]
  exact Step.take (K := serverKinds) (serverView s) _ hgives

theorem serverControl_view (blank : Packet) (s : ServerState) :
    Step serverKinds (serverView s) (.takes []) (serverView (DnsServer.controlTimer blank s)) := by
  unfold DnsServer.controlTimer
  split
  · exact Step.take (K := serverKinds) (serverView s)
      [.sendPktAllPorts (DnsServer.controlPacket blank)] (by
        intro job hjob
        rw [List.mem_singleton.mp hjob]
        rfl)
  · exact stays _

theorem serverExecute_view {around : ℤ → YesNo} {blank : Packet}
    (h : DnsServer.execute around blank s = some u) :
    Step serverKinds (serverView s) .executes (serverView u) := by
  unfold DnsServer.execute at h
  split at h
  · next hq =>
    cases h
    exact .idle _ hq
  · next p q hq =>
    cases h
    have hqueue : (serverView s).queue = .sendPktAllPorts p :: q := hq
    cases hreply : replyTo p with
    | none =>
      have hstep := Step.other (K := serverKinds) (serverView s) [] hqueue
        ⟨rfl, hreply⟩ (by simp)
      have hview : serverView { s with jobQ := q, sent := s.sent ++ [p] } =
          { serverView s with queue := q ++ [] } := by
        simp [serverView, hreply]
      rwa [hview]
    | some k =>
      have hstep := Step.give (K := serverKinds) (serverView s) hqueue hreply
      have hview : serverView { s with jobQ := q, sent := s.sent ++ [p] } =
          ⟨q, (serverView s).answered ++ [k]⟩ := by
        simp [serverView, hreply]
      rwa [hview]
  · next p q hq =>
    cases h
    exact Step.serve (K := serverKinds) (serverView s) hq rfl rfl
  · next p q hq =>
    obtain ⟨⟨naming, reply⟩, hreply, rfl⟩ := Option.map_eq_some_iff.mp h
    obtain ⟨attempt, rfl⟩ := OwnPackets.registerNewDomain_reply hreply
    exact Step.serve (K := serverKinds) (serverView s) hq rfl (registerReply_replyTo _ _ _)
  · next p q hq =>
    cases h
    exact Step.serve (K := serverKinds) (serverView s) hq rfl (lookupReply_replyTo _ _ _ _ _)

end

variable {c : Config}

/-- The requests that node v finds in a packet. -/
def requestsIn (c : Config) (v : ℕ) (p : Packet) : List Request :=
  match c.typeOf v with
  | some .host => hostRequests (c.idOf v) p
  | some .server => serverRequests p
  | _ => []

def requestsAt (c : Config) (v : ℕ) (s : SimState) : Option SimEvent → List Request
  | some (.recv w k peer stale prior _) =>
    match (c.nodePort w)[k]? with
    | none => []
    | some t =>
      let r := received c t peer stale prior s
      if w = v ∧ r.1 > 0 then requestsIn c v r.2 else []
  | _ => []

/-- Node v executes a job, if it has one. -/
def Executes (v : ℕ) : Option SimEvent → Prop
  | some (.host w (.execute _ _)) => w = v
  | some (.serverExecute w _ _) => w = v
  | _ => False

instance (v : ℕ) : DecidablePred (Executes v)
  | some (.host w (.execute _ _)) => inferInstanceAs (Decidable (w = v))
  | some (.serverExecute w _ _) => inferInstanceAs (Decidable (w = v))
  | some (.host _ (.control _)) | some (.host _ (.command _ _)) | some (.host _ (.receive _ _))
  | some (.switchControl _) | some (.switchExecute _) | some (.serverControl _ _)
  | some (.recv _ _ _ _ _ _) | none => inferInstanceAs (Decidable False)

def nodeEvent (c : Config) (v : ℕ) (s : SimState) (x : Option SimEvent) : Event Request :=
  if Executes v x then .executes else .takes (requestsAt c v s x)

theorem nodeEvent_executes {v : ℕ} {s : SimState} {x : Option SimEvent} (h : Executes v x) :
    nodeEvent c v s x = .executes := if_pos h

theorem nodeEvent_takes {v : ℕ} {s : SimState} {x : Option SimEvent} (h : ¬ Executes v x) :
    nodeEvent c v s x = .takes (requestsAt c v s x) := if_neg h

theorem requestsAt_recv {v k : ℕ} {s : SimState} {peer : List Int8} {stale : ℕ → Int8}
    {prior : Packet} {stray : Stray} {t : NetworkWiring.LinkEnd}
    (ht : (c.nodePort v)[k]? = some t) :
    requestsAt c v s (some (.recv v k peer stale prior stray)) =
      if (received c t peer stale prior s).1 > 0 then
        requestsIn c v (received c t peer stale prior s).2
      else [] := by
  simp only [requestsAt, ht, true_and]

theorem requestsAt_other {v w k : ℕ} {s : SimState} {peer : List Int8} {stale : ℕ → Int8}
    {prior : Packet} {stray : Stray} (hw : w ≠ v) :
    requestsAt c v s (some (.recv w k peer stale prior stray)) = [] := by
  cases ht : (c.nodePort w)[k]? with
  | none => simp only [requestsAt, ht]
  | some t =>
    simp only [requestsAt, ht]
    exact if_neg fun h => hw h.1

theorem requestsAt_eq (v : ℕ) (s : SimState) (e : SimEvent) : requestsAt c v s (some e) =
    (readNow c s v e).flatMap fun read => requestsIn c v read.2 := by
  cases e with
  | recv w k peer stale prior stray =>
    cases ht : (c.nodePort w)[k]? with
    | none => simp only [requestsAt, readNow, ht, List.flatMap_nil]
    | some t =>
      simp only [requestsAt, readNow, ht, eq_comm (a := w)]
      split
      · exact (List.flatMap_singleton _ _).symm
      · rfl
  | _ => rfl

/-- Only a host or a server executes jobs. -/
theorem not_executes {s u : SimState} {e : SimEvent} {v : ℕ} (hv : c.typeOf v = some .host)
    (h : SimStep c s e u) (hother : ∀ x, e ≠ .host v x) : ¬ Executes v (some e) := by
  cases e with
  | host w x =>
    cases x with
    | execute =>
      rintro rfl
      exact hother _ rfl
    | control | command | receive => exact id
  | serverExecute w around blank =>
    rintro rfl
    obtain ⟨hserver, -⟩ := Option.ite_none_right_eq_some.mp h
    rw [IsServer, hv] at hserver
    cases hserver.1
  | switchControl | switchExecute | serverControl | recv => exact id

theorem host_part {s u : SimState} {e : SimEvent} {v : ℕ} (hv : c.typeOf v = some .host)
    (h : SimStep c s e u) :
    u.host v = s.host v ∧ nodeEvent c v s (some e) = .takes [] ∨
      ∃ x, hostStep (s.host v) x = some (u.host v) ∧
        ((s.host v).hostId = c.idOf v → nodeEvent c v s (some e) = hostEvent (s.host v) x) := by
  cases host_moves hv h with
  | rests hother hsame hreads =>
    refine .inl ⟨hsame, ?_⟩
    rw [nodeEvent_takes (not_executes hv h hother), requestsAt_eq, hreads, List.flatMap_nil]
  | @part x he hreceive _ hstep =>
    subst he
    refine .inr ⟨x, hstep, fun _ => ?_⟩
    cases x with
    | execute => exact nodeEvent_executes rfl
    | control | command => exact nodeEvent_takes id
    | receive => cases hreceive
  | @reads k n p hother hreads hstep =>
    refine .inr ⟨_, hstep, fun hid => ?_⟩
    rw [nodeEvent_takes (not_executes hv h hother), requestsAt_eq, hreads, hostEvent, hid]
    split
    · rw [List.flatMap_singleton]
      simp only [requestsIn, hv]
    · rfl

theorem server_reads {s u : SimState} {v w k : ℕ} {peer : List Int8} {stale : ℕ → Int8}
    {prior : Packet} {stray : Stray} (hv : IsServer c v)
    (h : SimStep c s (.recv w k peer stale prior stray) u) :
    u.server v = s.server v ∧ requestsAt c v s (some (.recv w k peer stale prior stray)) = [] ∨
      ∃ p, u.server v = DnsServer.receivePackets [p] (s.server v) ∧
        requestsAt c v s (some (.recv w k peer stale prior stray)) = serverRequests p := by
  unfold SimStep simStep at h
  dsimp only at h
  cases ht : (c.nodePort w)[k]? with
  | none =>
    rw [ht] at h
    cases h
  | some t =>
    rw [ht] at h
    obtain ⟨-, hservers⟩ := OwnPackets.takeOff_nodes (c := c) t s
    by_cases hw : w = v
    · subst hw
      unfold handle at h
      simp only [hv.1, if_pos hv] at h
      rw [requestsAt_recv ht]
      split_ifs at h with hn
      · cases h
        refine .inr ⟨(received c t peer stale prior s).2, ?_, ?_⟩
        · simp only [Function.update_self, hservers]
        · rw [if_pos hn]
          simp only [requestsIn, hv.1]
      · cases h
        rw [if_neg hn]
        exact .inl ⟨congrFun hservers w, rfl⟩
    · refine .inl ⟨?_, requestsAt_other hw⟩
      rw [← hservers]
      exact (handle_other h (Ne.symm hw)).2

theorem server_part {s u : SimState} {e : SimEvent} {v : ℕ} (hv : IsServer c v)
    (h : SimStep c s e u) :
    u.server v = s.server v ∧ nodeEvent c v s (some e) = .takes [] ∨
      (∃ blank, u.server v = DnsServer.controlTimer blank (s.server v) ∧
        nodeEvent c v s (some e) = .takes []) ∨
      (∃ p, u.server v = DnsServer.receivePackets [p] (s.server v) ∧
        nodeEvent c v s (some e) = .takes (serverRequests p)) ∨
      ∃ around blank, DnsServer.execute around blank (s.server v) = some (u.server v) ∧
        nodeEvent c v s (some e) = .executes := by
  unfold SimStep simStep at h
  cases e with
  | host w x =>
    obtain ⟨⟨hhost, -⟩, h⟩ := Option.ite_none_right_eq_some.mp h
    obtain ⟨host, -, rfl⟩ := Option.map_eq_some_iff.mp h
    have hw : w ≠ v := by
      intro hw
      rw [hw, hv.1] at hhost
      cases hhost
    have hno : ¬ Executes v (some (.host w x)) := by
      cases x with
      | execute => exact hw
      | control | command | receive => exact id
    refine .inl ⟨rfl, ?_⟩
    rw [nodeEvent_takes hno]
    rfl
  | switchControl w =>
    obtain ⟨-, h⟩ := Option.ite_none_right_eq_some.mp h
    cases h
    exact .inl ⟨rfl, nodeEvent_takes id⟩
  | switchExecute w =>
    obtain ⟨-, h⟩ := Option.ite_none_right_eq_some.mp h
    cases h
    exact .inl ⟨rfl, nodeEvent_takes id⟩
  | serverControl w blank =>
    obtain ⟨-, h⟩ := Option.ite_none_right_eq_some.mp h
    cases h
    by_cases hw : w = v
    · subst hw
      right
      left
      refine ⟨blank, ?_, nodeEvent_takes id⟩
      simp only [Function.update_self]
    · left
      refine ⟨?_, nodeEvent_takes id⟩
      simp only [Function.update_of_ne (Ne.symm hw)]
  | serverExecute w around blank =>
    obtain ⟨-, h⟩ := Option.ite_none_right_eq_some.mp h
    obtain ⟨server, hserver, rfl⟩ := Option.map_eq_some_iff.mp h
    by_cases hw : w = v
    · subst hw
      right
      right
      right
      refine ⟨around, blank, hserver.trans ?_, nodeEvent_executes rfl⟩
      change _ = some (Function.update s.server w server w)
      rw [Function.update_self]
    · left
      refine ⟨Function.update_of_ne (Ne.symm hw) _ _, ?_⟩
      have hno : ¬ Executes v (some (.serverExecute w around blank)) := hw
      rw [nodeEvent_takes hno]
      rfl
  | recv w k peer stale prior stray =>
    rw [nodeEvent_takes id]
    rcases server_reads hv h with ⟨hsame, hreads⟩ | ⟨p, hreceive, hreads⟩
    · exact .inl ⟨hsame, by rw [hreads]⟩
    · exact .inr (.inr (.inl ⟨p, hreceive, by rw [hreads]⟩))

/-- A run of the simulation; one that comes to an end waits from then on. -/
abbrev SimRun (c : Config) := Execution (Stutters (SimStep c))

/-- The replies that node v has sent, oldest first, as the requests that they answer. -/
def repliesSent (c : Config) (s : SimState) (v : ℕ) : List Request :=
  (sentBy c s v).filterMap replyTo

section

variable (e : SimRun c) {v : ℕ}

/-- The requests that node v has read before time t, oldest first. -/
def requestsRead (v t : ℕ) : List Request :=
  (List.range t).flatMap fun i => requestsAt c v (e.state i) (e.label i)

theorem hostId_at {memory : SimMemory} (h0 : e.state 0 = simInit c memory)
    (hv : c.typeOf v = some .host) (t : ℕ) : ((e.state t).host v).hostId = c.idOf v := by
  apply e.invariant (P := fun s => (s.host v).hostId = c.idOf v) ?_ (Nat.zero_le t)
  · rw [h0]
    rfl
  · apply Stutters.invariant
    intro s x u hs hid
    rcases host_part hv hs with ⟨hsame, -⟩ | ⟨y, hstep, -⟩
    · rw [hsame, hid]
    · exact (HostJobs.hostStep_does hstep).hostId.trans hid

def hostQueue {memory : SimMemory} (h0 : e.state 0 = simInit c memory)
    (hv : c.typeOf v = some .host) : Execution (Step hostKinds) where
  state t := hostView ((e.state t).host v)
  label t := nodeEvent c v (e.state t) (e.label t)
  valid t := by
    cases hx : e.label t with
    | none =>
      rw [e.waited hx]
      exact stays _
    | some x =>
      rcases host_part hv (e.moved hx) with ⟨hsame, hevent⟩ | ⟨y, hstep, hevent⟩
      · rw [hsame, hevent]
        exact stays _
      · rw [hevent (hostId_at e h0 hv t)]
        exact hostStep_view hstep

def serverQueue (hv : IsServer c v) : Execution (Step serverKinds) where
  state t := serverView ((e.state t).server v)
  label t := nodeEvent c v (e.state t) (e.label t)
  valid t := by
    cases hx : e.label t with
    | none =>
      rw [e.waited hx]
      exact stays _
    | some x =>
      rcases server_part hv (e.moved hx) with ⟨hsame, hevent⟩ | ⟨blank, hcontrol, hevent⟩ |
        ⟨p, hreceive, hevent⟩ | ⟨around, blank, hexecute, hevent⟩
      · rw [hsame, hevent]
        exact stays _
      · rw [hcontrol, hevent]
        exact serverControl_view _ _
      · rw [hreceive, hevent]
        exact serverReceive_view _ _
      · rw [hevent]
        exact serverExecute_view hexecute

theorem nodeEvent_requests (v : ℕ) (s : SimState) (x : Option SimEvent) :
    (nodeEvent c v s x).requests = requestsAt c v s x := by
  by_cases hx : Executes v x
  · rw [nodeEvent_executes hx]
    cases x with
    | none => exact hx.elim
    | some y =>
      cases y with
      | host | serverExecute => rfl
      | switchControl | switchExecute | serverControl | recv => exact hx.elim
  · rw [nodeEvent_takes hx]
    rfl

/-- The replies that a host or the server has sent are those to the first requests that it has
read, in the same order and one for each; and if it executes jobs again and again, every request
that it has read gets its reply. -/
theorem requests_are_answered {memory : SimMemory} (h0 : e.state 0 = simInit c memory)
    (hv : c.typeOf v = some .host ∨ IsServer c v) (t : ℕ) :
    repliesSent c (e.state t) v <+: requestsRead e v t ∧
      ((∃ᶠ u in atTop, Executes v (e.label u)) →
        ∃ u, t ≤ u ∧ requestsRead e v t <+: repliesSent c (e.state u) v) := by
  have hread : ∀ t, requestsRead e v t = (List.range t).flatMap fun i =>
      (nodeEvent c v (e.state i) (e.label i)).requests := by
    intro t
    simp only [requestsRead, nodeEvent_requests]
  simp only [repliesSent, hread]
  rcases hv with hv | hv
  · simp only [sentBy_host hv]
    have hstart : RequestQueue.requests hostKinds ((hostQueue e h0 hv).state 0) = [] := by
      change RequestQueue.requests hostKinds (hostView ((e.state 0).host v)) = []
      rw [h0]
      rfl
    refine ⟨RequestQueue.answered_in_order (hostQueue e h0 hv) hstart t, ?_⟩
    intro hexec
    exact RequestQueue.answered_eventually (hostQueue e h0 hv)
      (hexec.mono fun u hu => nodeEvent_executes hu) hstart t
  · simp only [sentBy_server hv.1]
    have hstart : RequestQueue.requests serverKinds ((serverQueue e hv).state 0) = [] := by
      change RequestQueue.requests serverKinds (serverView ((e.state 0).server v)) = []
      rw [h0]
      rfl
    refine ⟨RequestQueue.answered_in_order (serverQueue e hv) hstart t, ?_⟩
    intro hexec
    exact RequestQueue.answered_eventually (serverQueue e hv)
      (hexec.mono fun u hu => nodeEvent_executes hu) hstart t

end

def serverAlone : Config :=
  ⟨[⟨some .server, 100⟩], [⟨some .socket, 100, 0, [], [], []⟩]⟩

def pingOfFive : List Int8 :=
  packetSend { HostReplies.noPacket with src := 5, dst := 100, type := pktPingReq }

def serverTurn (s : SimState) : SimEvent :=
  if (s.server 0).jobQ.isEmpty ∧ (s.server 0).sent.isEmpty then
    .recv 0 0 pingOfFive (fun _ => 0) HostReplies.noPacket ⟨.other, 0⟩
  else .serverExecute 0 (fun _ => .no) HostReplies.noPacket

def IsPingJob : ServerJob → Prop
  | .sendPktAllPorts _ | .pingSendReply _ => True
  | _ => False

def PingJobs (s : SimState) : Prop := ∀ job ∈ (s.server 0).jobQ, IsPingJob job

theorem serverAlone_port : (serverAlone.nodePort 0)[0]? = some (0, false) := by decide +kernel

theorem pingOfFive_read (s : SimState) :
    0 < (received serverAlone (0, false) pingOfFive (fun _ => 0) HostReplies.noPacket s).1 ∧
      (received serverAlone (0, false) pingOfFive (fun _ => 0) HostReplies.noPacket s).2.type =
        pktPingReq ∧
      (received serverAlone (0, false) pingOfFive (fun _ => 0) HostReplies.noPacket s).2.dst = 100 ∧
      (received serverAlone (0, false) pingOfFive (fun _ => 0) HostReplies.noPacket s).2.src =
        5 := by
  have hsame : received serverAlone (0, false) pingOfFive (fun _ => 0) HostReplies.noPacket s =
      received serverAlone (0, false) pingOfFive (fun _ => 0) HostReplies.noPacket
        (simInit serverAlone quietMemory) := rfl
  rw [hsame]
  decide +kernel

theorem serverTurn_runs (s : SimState) (h : PingJobs s) :
    ∃ u, simStep serverAlone s (serverTurn s) = some u ∧ PingJobs u := by
  have hserver : IsServer serverAlone 0 := by decide
  have htype : serverAlone.typeOf 0 = some .server := hserver.1
  unfold serverTurn
  split
  · obtain ⟨hn, hping, hdst, -⟩ := pingOfFive_read s
    simp only [simStep, serverAlone_port, handle, htype, if_pos hserver, if_pos hn]
    refine ⟨_, rfl, ?_⟩
    intro job hjob
    simp only [Function.update_self, DnsServer.receivePackets] at hjob
    rcases List.mem_append.mp hjob with hold | hnew
    · exact h job hold
    · have hpacket : ∀ p : Packet, p.type = pktPingReq → p.dst = 100 →
          DnsServer.packetJob p = some (.pingSendReply p) := by
        intro p ht hd
        rw [DnsServer.packetJob, if_neg (by rw [ht]; decide), if_pos (by rw [hd]; decide),
          if_pos ht]
      rw [List.filterMap_cons_some (hpacket _ hping hdst)] at hnew
      rw [List.mem_singleton.mp hnew]
      trivial
  · simp only [simStep, if_pos hserver, serverPart]
    cases hq : (s.server 0).jobQ with
    | nil =>
      simp only [DnsServer.execute, hq, Option.map_some]
      refine ⟨_, rfl, ?_⟩
      intro job hjob
      change job ∈ (Function.update s.server 0 (s.server 0) 0).jobQ at hjob
      rw [Function.update_self] at hjob
      exact h job hjob
    | cons job rest =>
      have hjob : IsPingJob job := h job (by simp [hq])
      have hrest : ∀ j ∈ rest, IsPingJob j := fun j hj => h j (by simp [hq, hj])
      cases job with
      | registerNewDomain | dnsPingReq => exact hjob.elim
      | sendPktAllPorts p =>
        simp only [DnsServer.execute, hq, Option.map_some]
        refine ⟨_, rfl, ?_⟩
        intro j hj
        change j ∈ (Function.update s.server 0 _ 0).jobQ at hj
        rw [Function.update_self] at hj
        exact hrest j hj
      | pingSendReply p =>
        simp only [DnsServer.execute, hq, Option.map_some]
        refine ⟨_, rfl, ?_⟩
        intro j hj
        change j ∈ (Function.update s.server 0 _ 0).jobQ at hj
        rw [Function.update_self] at hj
        rcases List.mem_append.mp hj with hold | hnew
        · exact hrest j hold
        · rw [List.mem_singleton.mp hnew]
          trivial

theorem serverTurn_next (s : SimState) (h : PingJobs s) :
    Stutters (SimStep serverAlone) s (some (serverTurn s))
        ((simStep serverAlone s (serverTurn s)).getD s) ∧
      PingJobs ((simStep serverAlone s (serverTurn s)).getD s) := by
  obtain ⟨u, hu, hping⟩ := serverTurn_runs s h
  rw [hu]
  exact ⟨.moves hu, hping⟩

theorem pingJobs_start : PingJobs (simInit serverAlone quietMemory) := by
  simp [PingJobs, simInit, DnsServer.serverInit]

def pingedServer : SimRun serverAlone :=
  .driven (fun s => some (serverTurn s)) (fun s => (simStep serverAlone s (serverTurn s)).getD s)
    serverTurn_next pingJobs_start

def Busy (s : SimState) : Prop :=
  ((s.server 0).jobQ.isEmpty && (s.server 0).sent.isEmpty) = false

instance : DecidablePred Busy := fun _ => inferInstanceAs (Decidable (_ = false))

theorem busy_step {s u : SimState} {e : SimEvent} (h : SimStep serverAlone s e u) (hs : Busy s) :
    Busy u := by
  have hview : ∀ v, Busy v ↔ (v.server 0).jobQ ≠ [] ∨ (v.server 0).sent ≠ [] := by
    intro v
    simp [Busy]
    tauto
  rw [hview] at hs ⊢
  rcases server_part (v := 0) (by decide) h with ⟨hsame, -⟩ | ⟨blank, hcontrol, -⟩ |
    ⟨p, hreceive, -⟩ | ⟨around, blank, hexecute, -⟩
  · rwa [hsame]
  · rw [hcontrol, DnsServer.controlTimer]
    split
    · simp
    · exact hs
  · rw [hreceive]
    refine hs.imp ?_ id
    simp +contextual [DnsServer.receivePackets]
  · generalize s.server 0 = a at hs hexecute
    generalize u.server 0 = b at hexecute ⊢
    unfold DnsServer.execute at hexecute
    split at hexecute
    · cases hexecute
      exact hs
    · cases hexecute
      simp
    · cases hexecute
      simp
    · obtain ⟨r, -, rfl⟩ := Option.map_eq_some_iff.mp hexecute
      simp
    · cases hexecute
      simp

theorem pingedServer_first : Busy (pingedServer.state 1) ∧
    requestsRead pingedServer 0 1 = [(pktPingReq, 5)] := by
  decide +kernel

theorem pingedServer_executes : ∃ᶠ t in atTop, Executes 0 (pingedServer.label t) := by
  rw [frequently_atTop]
  intro t
  refine ⟨t + 1, by omega, ?_⟩
  have hbusy : Busy (pingedServer.state (t + 1)) :=
    pingedServer.invariant (P := Busy) (Stutters.invariant fun _ _ _ hs hb => busy_step hs hb)
      (Nat.le_add_left 1 t) pingedServer_first.1
  have hlabel : pingedServer.label (t + 1) = some (serverTurn (pingedServer.state (t + 1))) := rfl
  have hturn : serverTurn (pingedServer.state (t + 1)) =
      .serverExecute 0 (fun _ => .no) HostReplies.noPacket := by
    refine if_neg ?_
    intro hidle
    rw [Busy, hidle.1, hidle.2] at hbusy
    cases hbusy
  rw [hlabel, hturn]
  rfl

theorem requests_are_answered_ping :
    requestsRead pingedServer 0 1 = [(pktPingReq, 5)] ∧
      ∃ u, 1 ≤ u ∧ [(pktPingReq, 5)] <+: repliesSent serverAlone (pingedServer.state u) 0 := by
  have hserver : serverAlone.typeOf 0 = some .host ∨ IsServer serverAlone 0 := .inr (by decide)
  have hread := pingedServer_first.2
  have hstart : pingedServer.state 0 = simInit serverAlone quietMemory := rfl
  obtain ⟨u, hu, hall⟩ := (requests_are_answered pingedServer hstart hserver 1).2
    pingedServer_executes
  rw [hread] at hall
  exact ⟨hread, u, hu, hall⟩

end AnsweredRequests
