import NetSim.HostQueries
import NetSim.LookupReplies
import NetSim.PacketAddresses

/-! What one step of the loop of a host may add to its job queue, what it sends, and where the
answer to a name query comes from. -/
namespace HostJobs

open PacketCodec FileSplit FileUpload ReplyBook HostNode HostWaits PacketAddresses
open DnsServer (serverId payloadText)
open LookupReplies (response_printed)
open FileBuffer (maxFileName)
open HostQueries (Comes)

/-- A packet of the host's own making that is neither a control packet nor an answer. -/
structure Made (hostId dst : ℤ) (p : Packet) : Prop extends Addressed hostId dst p where
  noAnswer : p.type ≠ pktDnsLookupReply
  noReply : p.type ≠ pktPingReply ∧ p.type ≠ pktDnsRegisterReply

def ReadsDst (c : ManCommand) : Prop := c = .ping ∨ c = .fileUpload ∨ c = .fileDownload

instance (c : ManCommand) : Decidable (ReadsDst c) := inferInstanceAs (Decidable (_ ∨ _ ∨ _))

/-- `dst` after the scan of the argument. -/
def dstAfter (arg : List Int8) (old : ℤ) : ℤ :=
  match scanInt arg with
  | some (dst, _) => dst
  | none => old

def argumentOf (bytes : List Int8) (s : HostState) : List Int8 :=
  manText (getManCommand bytes s.manMsg).2

def IsWait : HostJob → Prop
  | .pingWaitForReply _ _ | .dnsRegisterWaitForReply _ _ | .dnsLookupWaitForReply _ _ _
  | .dnsPingWaitForReply _ _ => True
  | .dnsDownloadWaitForReply _ fname _ => fname.length < maxFileName
  | _ => False

inductive CommandJob (c : ManCommand) (hostId dst : ℤ) : HostJob → Prop where
  | toDst {p} : ReadsDst c → Made hostId dst p → CommandJob c hostId dst (.sendPktAllPorts p)
  | toServer {p} : Made hostId serverId p → CommandJob c hostId dst (.sendPktAllPorts p)
  | upload {name} : ReadsDst c → CommandJob c hostId dst (.fileUploadSend name dst)
  | wait {job} : IsWait job → CommandJob c hostId dst job

inductive PacketJob (p : Packet) : HostJob → Prop where
  | ping : p.type = pktPingReq → PacketJob p (.pingSendReply p)
  | start : PacketJob p (.fileUploadRecvStart p)
  | middle : PacketJob p (.fileUploadRecvMiddle p)
  | last : PacketJob p (.fileUploadRecvEnd p)
  | download {fname} : PacketJob p (.fileUploadSend fname p.src.toInt)

/-- The wait goes back to the queue, with another ticket and timer. -/
inductive Again : HostJob → HostJob → Prop where
  | ping {t t' n n'} : Again (.pingWaitForReply t n) (.pingWaitForReply t' n')
  | register {t t' n n'} : Again (.dnsRegisterWaitForReply t n) (.dnsRegisterWaitForReply t' n')
  | lookup {t t' fname n n'} :
      Again (.dnsLookupWaitForReply t fname n) (.dnsLookupWaitForReply t' fname n')
  | dnsPing {t t' n n'} : Again (.dnsPingWaitForReply t n) (.dnsPingWaitForReply t' n')
  | download {t t' fname n n'} :
      Again (.dnsDownloadWaitForReply t fname n) (.dnsDownloadWaitForReply t' fname n')

/-- What the execution of a job may queue when the answer to a name query reads as `found`. -/
inductive NextJob (hostId found : ℤ) (job : HostJob) : HostJob → Prop where
  | reply {p blank} : job = .pingSendReply p →
      NextJob hostId found job (.sendPktAllPorts (pingReply hostId p.src blank))
  | part {fname dst p} : job = .fileUploadSend fname dst → Made hostId dst p →
      NextJob hostId found job (.sendPktAllPorts p)
  | again {job'} : Again job job' → NextJob hostId found job job'
  | toFound {p} : Made hostId found p → NextJob hostId found job (.sendPktAllPorts p)
  | pingWait {t timer} : NextJob hostId found job (.pingWaitForReply t timer)

inductive Queued (s : HostState) : HostEvent → HostJob → Prop where
  | control {blank} : Queued s (.control blank) (.sendPktAllPorts (controlPacket s.hostId blank))
  | command {bytes blank job} :
      CommandJob (commandOf bytes s) s.hostId (dstAfter (argumentOf bytes s) s.dst) job →
      Queued s (.command (some bytes) blank) job
  | receive {n p job} : n > 0 → p.dst.toInt = s.hostId → p.type ≠ pktControlPacket →
      PacketJob p job → Queued s (.receive n p) job
  | execute {canOpen mem job job' q} : s.jobQ = job :: q →
      NextJob s.hostId (dnsLookupResponse s.dnsLookupBuffer) job job' →
      Queued s (.execute canOpen mem) job'

def Answers (s : HostState) (e : HostEvent) (found : ℤ) : Prop :=
  ∃ n p, e = .receive n p ∧ Comes pktDnsLookupReply n p s ∧
    found = ((payloadText p).headD 0).toInt

/-- What a part of an iteration does that adds jobs of P and brings answers of Q. -/
structure Does (P : HostJob → Prop) (Q : ℤ → Prop) (s u : HostState) : Prop where
  jobQ : ∀ job ∈ u.jobQ, job ∈ s.jobQ ∨ P job
  sent : u.sent = s.sent ∨ ∃ p, .sendPktAllPorts p ∈ s.jobQ ∧ u.sent = s.sent ++ [p]
  hostId : u.hostId = s.hostId
  answer : dnsLookupResponse u.dnsLookupBuffer = dnsLookupResponse s.dnsLookupBuffer ∨
    dnsLookupResponse u.dnsLookupBuffer = 0 ∨ Q (dnsLookupResponse u.dnsLookupBuffer)

section

variable {P P' : HostJob → Prop} {Q Q' : ℤ → Prop} {s u v : HostState}

/-- The queue is the same, nothing is sent, and an answer is at most cleared. -/
structure Like (s v : HostState) : Prop where
  jobQ : v.jobQ = s.jobQ
  sent : v.sent = s.sent
  hostId : v.hostId = s.hostId
  answer : dnsLookupResponse v.dnsLookupBuffer = dnsLookupResponse s.dnsLookupBuffer ∨
    dnsLookupResponse v.dnsLookupBuffer = 0

theorem Like.enqueue (h : Like s v) {jobs : List HostJob} (hjobs : ∀ job ∈ jobs, P job) :
    Does P Q s (enqueue jobs v) where
  jobQ := by
    intro job hjob
    have hmem : job ∈ v.jobQ ++ jobs := hjob
    rw [h.jobQ] at hmem
    exact (List.mem_append.mp hmem).imp id (hjobs job)
  sent := .inl h.sent
  hostId := h.hostId
  answer := h.answer.imp id .inl

theorem Like.does (h : Like s v) : Does P Q s v where
  jobQ := fun _ hjob => .inl (h.jobQ ▸ hjob)
  sent := .inl h.sent
  hostId := h.hostId
  answer := h.answer.imp id .inl

theorem like_scanned (h : Scanned s v) : Like s v := by
  obtain ⟨dst, domainName, name, rfl⟩ := h
  exact ⟨rfl, rfl, rfl, .inl rfl⟩

theorem Like.trans (h : Like s v) (k : Like v u) : Like s u where
  jobQ := k.jobQ.trans h.jobQ
  sent := k.sent.trans h.sent
  hostId := k.hostId.trans h.hostId
  answer := by
    rcases k.answer with hk | hk
    · rw [hk]
      exact h.answer
    · exact .inr hk

theorem Does.mono (h : Does P Q s u) (hP : ∀ job, P job → P' job) (hQ : ∀ b, Q b → Q' b) :
    Does P' Q' s u where
  jobQ := fun job hjob => (h.jobQ job hjob).imp id (hP job)
  sent := h.sent
  hostId := h.hostId
  answer := h.answer.imp id (Or.imp id (hQ _))

theorem clear_response (buffer : DnsBuffer) : dnsLookupResponse (clear buffer) = 0 := by
  have hclear : clear buffer 0 = 0 := if_pos (by decide)
  rw [dnsLookupResponse, hclear]
  rfl

theorem Does.useUp (h : Does P Q s u) : Does P Q s (useUp u) :=
  ⟨h.jobQ, h.sent, h.hostId, .inr (.inl (clear_response _))⟩

theorem uploadSend_made {hostId dst : ℤ} {dir : Option (List Int8)} {fname : List Int8}
    {disk : Disk} {mem : Scratch} {packets : List Packet}
    (h : uploadSend hostId dst dir fname disk mem = some packets) :
    ∀ p ∈ packets, Made hostId dst p :=
  fun p hp =>
    have hpart := uploadSend_parts h p hp
    ⟨hpart.addressed, hpart.type_ne (by decide), hpart.type_ne (by decide),
      hpart.type_ne (by decide)⟩

theorem pingRequest_made (hostId dst : ℤ) (blank : Packet) :
    Made hostId dst (pingRequest hostId dst blank) :=
  ⟨CreatedFor.ping.addressed, (by decide : pktPingReq ≠ pktDnsLookupReply),
    (by decide : pktPingReq ≠ pktPingReply ∧ pktPingReq ≠ pktDnsRegisterReply)⟩

def IsRequest (type : Int8) : Prop :=
  type ≠ pktControlPacket ∧ type ≠ pktDnsLookupReply ∧ type ≠ pktPingReply ∧
    type ≠ pktDnsRegisterReply

instance : DecidablePred IsRequest := fun _ => inferInstanceAs (Decidable (_ ∧ _))

theorem namePacket_made {hostId dst : ℤ} {type : Int8} {name : List Int8} {blank p : Packet}
    (h : namePacket hostId dst type name blank = some p)
    (htype : IsRequest type) : Made hostId dst p := by
  obtain ⟨hshort, h⟩ := Option.ite_none_right_eq_some.mp h
  cases h
  exact ⟨⟨rfl, rfl, htype.1, fits_of_length rfl hshort.le⟩, htype.2.1, htype.2.2⟩

theorem scanDstName_dst {arg : List Int8} (h : scanDstName arg s = some v) :
    v.dst = dstAfter arg s.dst := by
  rw [scanDstName] at h
  rw [dstAfter]
  cases hscan : scanInt arg with
  | none =>
    rw [hscan] at h
    cases h
    rfl
  | some scanned =>
    rw [hscan] at h
    obtain ⟨r, -, rfl⟩ := Option.map_eq_some_iff.mp h
    rfl

theorem asks_does {c : ManCommand} {dst : ℤ} {type : Int8} {wait : HostJob} {name : List Int8}
    {blank p : Packet} (hv : Like s v)
    (hp : namePacket s.hostId serverId type name blank = some p)
    (htype : IsRequest type) (hwait : IsWait wait) :
    Does (CommandJob c s.hostId dst) Q s (enqueue [.sendPktAllPorts p, wait] v) :=
  hv.enqueue (List.forall_mem_cons.mpr
    ⟨.toServer (namePacket_made hp htype), List.forall_mem_singleton.mpr (.wait hwait)⟩)

theorem executeCommand_does {c : ManCommand} {arg : List Int8} {blank : Packet}
    {t : Ticket ManCommand} (h : executeCommand c arg blank t s = some u) :
    Does (CommandJob c s.hostId (dstAfter arg s.dst)) Q s u := by
  cases executeCommand_commanded h with
  | displayHostState => exact Like.does ⟨rfl, rfl, rfl, .inl rfl⟩
  | setHostDir => exact Like.does ⟨rfl, rfl, rfl, .inl rfl⟩
  | ping =>
    have hlike : Like s { s with dst := dstAfter arg s.dst, pingReplyReceived := false } :=
      ⟨rfl, rfl, rfl, .inl rfl⟩
    exact hlike.enqueue (List.forall_mem_cons.mpr
      ⟨.toDst (.inl rfl) (pingRequest_made _ _ _), List.forall_mem_singleton.mpr (.wait trivial)⟩)
  | fileUpload hv =>
    refine (like_scanned (scanDstName_scanned hv)).enqueue (List.forall_mem_singleton.mpr ?_)
    rw [scanDstName_dst hv]
    exact .upload (.inr (.inl rfl))
  | fileDownload hv hp =>
    have hlike := like_scanned (scanDstName_scanned hv)
    rw [hlike.hostId, scanDstName_dst hv] at hp
    exact hlike.enqueue (List.forall_mem_singleton.mpr
      (.toDst (.inr (.inr rfl)) (namePacket_made hp (by decide))))
  | dnsRegister hv hp =>
    have hlike := like_scanned (scanDomainName_scanned hv)
    exact asks_does (hlike.trans ⟨rfl, rfl, rfl, .inl rfl⟩) (hlike.hostId ▸ hp) (by decide) trivial
  | dnsLookup hv hp =>
    have hlike := like_scanned (scanDomainName_scanned hv)
    exact asks_does (hlike.trans ⟨rfl, rfl, rfl, .inr (clear_response _)⟩) (hlike.hostId ▸ hp)
      (by decide) trivial
  | dnsPing hv hp =>
    have hlike := like_scanned (scanDomainName_scanned hv)
    exact asks_does (hlike.trans ⟨rfl, rfl, rfl, .inl rfl⟩) (hlike.hostId ▸ hp) (by decide) trivial
  | dnsFileDownload hv hshort hp =>
    have hlike := like_scanned (scanDomainNameName_scanned hv)
    exact asks_does (hlike.trans ⟨rfl, rfl, rfl, .inl rfl⟩) (hlike.hostId ▸ hp) (by decide) hshort
  | unknown => exact Like.does ⟨rfl, rfl, rfl, .inl rfl⟩

theorem handleCommand_does {bytes : List Int8} {blank : Packet}
    (h : handleCommand bytes blank s = some u) :
    Does (Queued s (.command (some bytes) blank)) Q s u := by
  obtain ⟨-, h⟩ := Option.ite_none_right_eq_some.mp h
  obtain ⟨hjobs, hsent, hid, hanswer⟩ := executeCommand_does (Q := Q) h
  refine ⟨?_, hsent, hid, hanswer⟩
  intro job hjob
  exact (hjobs job hjob).imp id .command

def Brings (p : Packet) (found : ℤ) : Prop :=
  p.type = pktDnsLookupReply ∧ found = ((payloadText p).headD 0).toInt

theorem translate_does {n : ℤ} {p : Packet} (h : translate n p s = some u) :
    Does (PacketJob p) (Brings p) s u := by
  have hqueue : ∀ {job}, PacketJob p job →
      Does (PacketJob p) (Brings p) s (enqueue [job] s) :=
    fun hjob => Like.enqueue ⟨rfl, rfl, rfl, .inl rfl⟩ (List.forall_mem_singleton.mpr hjob)
  cases translate_translated h with
  | pingReq htype => exact hqueue (.ping htype)
  | fileUploadStart => exact hqueue .start
  | fileUploadMiddle => exact hqueue .middle
  | fileUploadEnd => exact hqueue .last
  | fileDownloadReq => exact hqueue .download
  | pingReply => exact Like.does ⟨rfl, rfl, rfl, .inl rfl⟩
  | dnsRegisterReply => exact Like.does ⟨rfl, rfl, rfl, .inl rfl⟩
  | dnsLookupReply htype hbuffer =>
    exact ⟨fun _ => .inl, .inl rfl, rfl, .inr (.inr ⟨htype, response_printed hbuffer⟩)⟩
  | other => exact Like.does ⟨rfl, rfl, rfl, .inl rfl⟩

theorem receive_does {n : ℤ} {p : Packet} (h : receive n p s = some u) :
    Does (fun job => n > 0 ∧ p.dst.toInt = s.hostId ∧ p.type ≠ pktControlPacket ∧ PacketJob p job)
      (fun found => Comes pktDnsLookupReply n p s ∧ found = ((payloadText p).headD 0).toInt)
      s u := by
  unfold receive at h
  split_ifs at h with hcontrol hus
  · cases h
    exact Like.does ⟨rfl, rfl, rfl, .inl rfl⟩
  · have hdata : p.type ≠ pktControlPacket := fun hc => hcontrol ⟨hus.1, hc⟩
    exact (translate_does h).mono (fun job hjob => ⟨hus.1, hus.2, hdata, hjob⟩)
      fun found hfound => ⟨⟨hus.1, hus.2, hfound.1⟩, hfound.2⟩
  · cases h
    exact Like.does ⟨rfl, rfl, rfl, .inl rfl⟩

theorem recvEnd_hostId {canOpen : List Int8 → Bool} {h r : Receiver} {p : Packet}
    (hr : recvEnd canOpen h p = some r) : r.hostId = h.hostId := by
  obtain ⟨bytes, -, hr⟩ := Option.bind_eq_some_iff.mp hr
  split at hr
  · cases hr
    rfl
  · obtain ⟨string, -, hr⟩ := Option.bind_eq_some_iff.mp hr
    obtain ⟨path, -, rfl⟩ := Option.map_eq_some_iff.mp hr
    split <;> rfl

/-- A wait that goes back, or ends with a message, unless its answer is there. -/
theorem waitForReply_does {hostId found : ℤ} {job : HostJob} {received : Bool}
    {answered : Option HostState} {pingTimer : ℕ} {again : ℕ → HostJob} {t : Ticket ManCommand}
    {timeOut : String} (h : waitForReply received answered pingTimer again t timeOut s = some u)
    (hagain : ∀ n, Again job (again n))
    (hanswered : answered = some u → Does (NextJob hostId found job) Q s u) :
    Does (NextJob hostId found job) Q s u := by
  rcases waitForReply_cases h with ⟨-, ha⟩ | ⟨-, -, rfl⟩ | ⟨-, -, rfl⟩
  · exact hanswered ha
  · exact Like.enqueue ⟨rfl, rfl, rfl, .inl rfl⟩ (List.forall_mem_singleton.mpr (.again (hagain _)))
  · exact Like.does ⟨rfl, rfl, rfl, .inl rfl⟩

theorem execute_head {canOpen : List Int8 → Bool} {mem : Scratch} {job : HostJob}
    {q : List HostJob} (hs : s.jobQ = job :: q) (h : execute canOpen mem s = some u)
    (hsend : ∀ p, job ≠ .sendPktAllPorts p) :
    Does (NextJob s.hostId (dnsLookupResponse s.dnsLookupBuffer) job) Q { s with jobQ := q } u := by
  simp only [execute, hs] at h
  cases job with
  | sendPktAllPorts p => exact absurd rfl (hsend p)
  | pingSendReply p =>
    cases h
    exact Like.enqueue ⟨rfl, rfl, rfl, .inl rfl⟩ (List.forall_mem_singleton.mpr (.reply rfl))
  | pingWaitForReply t timer =>
    refine waitForReply_does h (fun _ => .ping) ?_
    intro ha
    cases ha
    exact Like.does ⟨rfl, rfl, rfl, .inl rfl⟩
  | fileUploadSend fname dst =>
    obtain ⟨packets, hpackets, rfl⟩ := Option.map_eq_some_iff.mp h
    have hparts : ∀ job ∈ packets.map HostJob.sendPktAllPorts, NextJob s.hostId
        (dnsLookupResponse s.dnsLookupBuffer) (.fileUploadSend fname dst) job :=
      List.forall_mem_map.mpr fun p hp => .part rfl (uploadSend_made hpackets p hp)
    refine ⟨?_, .inl rfl, rfl, .inl rfl⟩
    intro job hjob
    exact (List.mem_append.mp hjob).imp id (hparts job)
  | fileUploadRecvStart p =>
    obtain ⟨r, hr, rfl⟩ := Option.map_eq_some_iff.mp h
    obtain ⟨bytes, -, rfl⟩ := Option.map_eq_some_iff.mp hr
    exact Like.does ⟨rfl, rfl, rfl, .inl rfl⟩
  | fileUploadRecvMiddle p =>
    obtain ⟨r, hr, rfl⟩ := Option.map_eq_some_iff.mp h
    obtain ⟨bytes, -, rfl⟩ := Option.map_eq_some_iff.mp hr
    exact Like.does ⟨rfl, rfl, rfl, .inl rfl⟩
  | fileUploadRecvEnd p =>
    obtain ⟨r, hr, rfl⟩ := Option.map_eq_some_iff.mp h
    exact Like.does ⟨rfl, rfl, recvEnd_hostId hr, .inl rfl⟩
  | dnsRegisterWaitForReply t timer =>
    refine waitForReply_does h (fun _ => .register) ?_
    intro ha
    cases ha
    exact Like.does ⟨rfl, rfl, rfl, .inl rfl⟩
  | dnsLookupWaitForReply t fname timer =>
    refine waitForReply_does h (fun _ => .lookup) ?_
    intro ha
    cases ha
    exact Like.does ⟨rfl, rfl, rfl, .inr (clear_response _)⟩
  | dnsPingWaitForReply t timer =>
    refine waitForReply_does h (fun _ => .dnsPing) ?_
    intro ha
    cases ha
    refine Does.useUp ?_
    split
    · exact Like.does ⟨rfl, rfl, rfl, .inl rfl⟩
    · have hlike : Like { s with jobQ := q } { s with jobQ := q, pingReplyReceived := false } :=
        ⟨rfl, rfl, rfl, .inl rfl⟩
      exact hlike.enqueue (List.forall_mem_cons.mpr
        ⟨NextJob.toFound (pingRequest_made _ _ _), List.forall_mem_singleton.mpr NextJob.pingWait⟩)
  | dnsDownloadWaitForReply t fname timer =>
    refine waitForReply_does h (fun _ => .download) ?_
    intro ha
    split at ha
    · cases ha
      exact Does.useUp (Like.does ⟨rfl, rfl, rfl, .inl rfl⟩)
    · obtain ⟨p, hp, rfl⟩ := Option.map_eq_some_iff.mp ha
      exact Does.useUp (Like.enqueue ⟨rfl, rfl, rfl, .inl rfl⟩
        (List.forall_mem_singleton.mpr (.toFound (namePacket_made hp (by decide)))))

theorem Does.phase (h : Does P Q s u) (k : Phase) : Does P Q s { u with phase := k } :=
  ⟨h.jobQ, h.sent, h.hostId, h.answer⟩

theorem controlTimer_does (blank : Packet) (s : HostState) :
    Does (Queued s (.control blank)) Q s (controlTimer blank s) := by
  unfold controlTimer
  split
  · have hlike : Like s { s with controlCount := 0 } := ⟨rfl, rfl, rfl, .inl rfl⟩
    exact hlike.enqueue (List.forall_mem_singleton.mpr .control)
  · exact Like.does ⟨rfl, rfl, rfl, .inl rfl⟩

theorem execute_does {canOpen : List Int8 → Bool} {mem : Scratch}
    (h : execute canOpen mem s = some u) : Does (Queued s (.execute canOpen mem)) Q s u := by
  rcases hs : s.jobQ with _ | ⟨job, q⟩
  · simp only [execute, hs, Option.some.injEq] at h
    subst h
    exact Like.does ⟨rfl, rfl, rfl, .inl rfl⟩
  · have htail : ∀ j ∈ q, j ∈ s.jobQ := by
      rw [hs]
      exact fun j hj => List.mem_cons_of_mem job hj
    by_cases hsend : ∃ p, job = .sendPktAllPorts p
    · obtain ⟨p, rfl⟩ := hsend
      have hp : .sendPktAllPorts p ∈ s.jobQ := by
        rw [hs]
        exact List.mem_cons_self
      simp only [execute, hs, Option.some.injEq] at h
      subst h
      exact ⟨fun j hj => .inl (htail j hj), .inr ⟨p, hp, rfl⟩, rfl, .inl rfl⟩
    · have hdoes := execute_head (Q := Q) hs h fun p hp => hsend ⟨p, hp⟩
      refine ⟨?_, ?_, hdoes.hostId, hdoes.answer⟩
      · exact fun j hj => (hdoes.jobQ j hj).imp (htail j) (.execute hs)
      · exact hdoes.sent.imp id fun hmore => hmore.imp fun p hp => ⟨htail _ hp.1, hp.2⟩

theorem hostStep_does {e : HostEvent} (h : hostStep s e = some u) :
    Does (Queued s e) (Answers s e) s u := by
  cases hostStep_part h with
  | control _ => exact (controlTimer_does _ s).phase _
  | noCommand => exact Like.does ⟨rfl, rfl, rfl, .inl rfl⟩
  | command _ hv => exact (handleCommand_does hv).phase _
  | receive _ _ hv =>
    refine ((receive_does hv).mono ?_ ?_).phase _
    · exact fun job hjob => .receive hjob.1 hjob.2.1 hjob.2.2.1 hjob.2.2.2
    · exact fun found hfound => ⟨_, _, rfl, hfound⟩
  | execute _ hv => exact (execute_does hv).phase _

end

end HostJobs
