import NetSim.AnswerSlot
import NetSim.HostReplies

/-! The pings and the name queries of a host: what each step of the loop does to the jobs that
wait for them, to the flags that these share, and to the packets on their way out. -/
namespace HostQueries

open PacketCodec FileSplit FileUpload ReplyBook HostNode HostBook HostWaits
open AnswerSlot (Slot Step)

def pingTicket : HostJob → Option (Ticket ManCommand)
  | .pingWaitForReply t _ => some t
  | _ => none

/-- The ticket of a lookup, dns-ping or dns-download wait. -/
def nameTicket : HostJob → Option (Ticket ManCommand)
  | .dnsLookupWaitForReply t _ _ => some t
  | .dnsPingWaitForReply t _ => some t
  | .dnsDownloadWaitForReply t _ _ => some t
  | _ => none

def packetOf : HostJob → Option Packet
  | .sendPktAllPorts p => some p
  | _ => none

def Untracked (job : HostJob) : Prop := pingTicket job = none ∧ nameTicket job = none

def outgoing (s : HostState) : List Packet := s.sent ++ s.jobQ.filterMap packetOf

/-- The serial numbers of the commands that queued jobs with a ticket of this kind wait for. -/
def serials (f : HostJob → Option (Ticket ManCommand)) (s : HostState) : List ℕ :=
  (s.jobQ.filterMap f).map Ticket.serial

def flags (s : HostState) : Bool × Bool × DnsBuffer :=
  (s.pingReplyReceived, s.dnsLookupReceived, s.dnsLookupBuffer)

structure Queues (s u : HostState) (jobs : List HostJob) : Prop where
  jobQ : u.jobQ = s.jobQ ++ jobs
  sent : u.sent = s.sent

section

variable {s u v : HostState} {jobs jobs' : List HostJob}

theorem Queues.outgoing (h : Queues s u jobs) :
    outgoing u = outgoing s ++ jobs.filterMap packetOf := by
  simp [HostQueries.outgoing, h.jobQ, h.sent]

theorem queues_nothing (hq : u.jobQ = s.jobQ) (hs : u.sent = s.sent) : Queues s u [] :=
  ⟨by simpa using hq, hs⟩

theorem queues_enqueue (jobs : List HostJob) (s : HostState) : Queues s (enqueue jobs s) jobs :=
  ⟨rfl, rfl⟩

theorem serials_queues {f : HostJob → Option (Ticket ManCommand)} (h : Queues s u jobs) :
    serials f u = serials f s ++ (jobs.filterMap f).map Ticket.serial := by
  simp [serials, h.jobQ]

theorem serials_same {f : HostJob → Option (Ticket ManCommand)} (h : Queues s u jobs)
    (hnone : ∀ job ∈ jobs, f job = none) : serials f u = serials f s := by
  rw [serials_queues h, List.filterMap_eq_nil_iff.mpr hnone, List.map_nil, List.append_nil]

theorem serials_tail {f : HostJob → Option (Ticket ManCommand)} {job : HostJob}
    {q : List HostJob} (hs : s.jobQ = job :: q) (hjob : f job = none) :
    serials f { s with jobQ := q } = serials f s := by
  rw [serials, serials, hs, List.filterMap_cons_none hjob]

theorem serials_head {f : HostJob → Option (Ticket ManCommand)} {job : HostJob}
    {q : List HostJob} {t : Ticket ManCommand} (hs : s.jobQ = job :: q) (hjob : f job = some t) :
    serials f s = t.serial :: serials f { s with jobQ := q } := by
  rw [serials, serials, hs, List.filterMap_cons_some hjob, List.map_cons]

theorem untracked_nil : ∀ job ∈ ([] : List HostJob), Untracked job := by simp

theorem untracked_singleton {job : HostJob} (h : Untracked job) : ∀ j ∈ [job], Untracked j := by
  intro j hj
  rwa [List.mem_singleton.mp hj]

def asksName : ManCommand → Bool
  | .dnsLookup | .dnsPing | .dnsFileDownload => true
  | _ => false

inductive Asks (t : Ticket ManCommand) (s u : HostState) : ManCommand → Prop where
  | ping {q} : Queues s u [.sendPktAllPorts q, .pingWaitForReply t 10] → q.type = pktPingReq →
      flags u = (false, s.dnsLookupReceived, s.dnsLookupBuffer) → Asks t s u .ping
  | name {c q wait} : asksName c = true → Queues s u [.sendPktAllPorts q, wait] →
      q.type = pktDnsLookup → nameTicket wait = some t → pingTicket wait = none →
      u.pingReplyReceived = s.pingReplyReceived → u.dnsLookupReceived = false → Asks t s u c
  | other {c js} : asksName c = false → c ≠ .ping → Queues s u js →
      (∀ job ∈ js, Untracked job) → flags u = flags s → Asks t s u c

theorem scanned_quiet (h : Scanned s u) : Queues s u [] ∧ flags u = flags s := by
  obtain ⟨dst, domainName, name, rfl⟩ := h
  exact ⟨queues_nothing rfl rfl, rfl⟩

theorem namePacket_type {hostId dst : ℤ} {type : Int8} {name : List Int8} {blank p : Packet}
    (h : namePacket hostId dst type name blank = some p) : p.type = type := by
  simp only [namePacket, Option.ite_none_right_eq_some, Option.some.injEq] at h
  obtain ⟨-, rfl⟩ := h
  rfl

theorem Queues.enqueued {w : HostState} (h : Queues s v []) (hq : w.jobQ = v.jobQ)
    (hsent : w.sent = v.sent) : Queues s (enqueue jobs w) jobs where
  jobQ := by
    rw [enqueue, hq, h.jobQ, List.append_nil]
  sent := hsent.trans h.sent

theorem not_ping_of_name {job : HostJob} {t : Ticket ManCommand} (h : nameTicket job = some t) :
    pingTicket job = none := by
  cases job <;> first
    | rfl
    | cases h

theorem executeCommand_asks {c : ManCommand} {arg : List Int8} {blank : Packet}
    {t : Ticket ManCommand} (h : executeCommand c arg blank t s = some u) : Asks t s u c := by
  cases executeCommand_commanded h with
  | displayHostState => exact .other rfl (by decide) (queues_nothing rfl rfl) untracked_nil rfl
  | setHostDir => exact .other rfl (by decide) (queues_nothing rfl rfl) untracked_nil rfl
  | ping => exact .ping ⟨rfl, rfl⟩ rfl rfl
  | fileUpload hv =>
    obtain ⟨hq, hf⟩ := scanned_quiet (scanDstName_scanned hv)
    exact .other rfl (by decide) (hq.enqueued rfl rfl) (untracked_singleton ⟨rfl, rfl⟩) hf
  | fileDownload hv =>
    obtain ⟨hq, hf⟩ := scanned_quiet (scanDstName_scanned hv)
    exact .other rfl (by decide) (hq.enqueued rfl rfl) (untracked_singleton ⟨rfl, rfl⟩) hf
  | dnsRegister hv =>
    obtain ⟨hq, hf⟩ := scanned_quiet (scanDomainName_scanned hv)
    refine .other rfl (by decide) (hq.enqueued rfl rfl) ?_ hf
    intro job hjob
    simp only [List.mem_cons, List.not_mem_nil, or_false] at hjob
    rcases hjob with rfl | rfl <;> exact ⟨rfl, rfl⟩
  | dnsLookup hv hp =>
    obtain ⟨hq, hf⟩ := scanned_quiet (scanDomainName_scanned hv)
    exact .name rfl (hq.enqueued rfl rfl) (namePacket_type hp) rfl rfl (congrArg Prod.fst hf) rfl
  | dnsPing hv hp =>
    obtain ⟨hq, hf⟩ := scanned_quiet (scanDomainName_scanned hv)
    exact .name rfl (hq.enqueued rfl rfl) (namePacket_type hp) rfl rfl (congrArg Prod.fst hf) rfl
  | dnsFileDownload hv _ hp =>
    obtain ⟨hq, hf⟩ := scanned_quiet (scanDomainNameName_scanned hv)
    exact .name rfl (hq.enqueued rfl rfl) (namePacket_type hp) rfl rfl (congrArg Prod.fst hf) rfl
  | unknown => exact .other rfl (by decide) (queues_nothing rfl rfl) untracked_nil rfl

def Comes (type : Int8) (n : ℤ) (p : Packet) (s : HostState) : Prop :=
  n > 0 ∧ p.dst.toInt = s.hostId ∧ p.type = type

instance (type : Int8) (n : ℤ) (p : Packet) (s : HostState) : Decidable (Comes type n p s) :=
  inferInstanceAs (Decidable (_ ∧ _))

inductive Hears (n : ℤ) (p : Packet) (s u : HostState) : Prop where
  | pingReply : Comes pktPingReply n p s → Queues s u [] →
      flags u = (true, s.dnsLookupReceived, s.dnsLookupBuffer) → Hears n p s u
  | lookupReply {buffer} : Comes pktDnsLookupReply n p s →
      printPayload p s.dnsLookupBuffer = some buffer → Queues s u [] →
      flags u = (s.pingReplyReceived, true, buffer) → Hears n p s u
  | other {js} : ¬ Comes pktPingReply n p s → ¬ Comes pktDnsLookupReply n p s →
      Queues s u js → (∀ job ∈ js, Untracked job) → flags u = flags s → Hears n p s u

theorem translate_hears {n : ℤ} {p : Packet} (hn : n > 0) (hdst : p.dst.toInt = s.hostId)
    (h : translate n p s = some u) : Hears n p s u := by
  have hother : ∀ {type jobs}, p.type = type → type ≠ pktPingReply ∧ type ≠ pktDnsLookupReply →
      Queues s u jobs → (∀ job ∈ jobs, Untracked job) → flags u = flags s → Hears n p s u :=
    fun htype hne => .other (fun hc => hne.1 (htype.symm.trans hc.2.2))
      (fun hc => hne.2 (htype.symm.trans hc.2.2))
  cases translate_translated h with
  | pingReq htype | fileUploadStart htype | fileUploadEnd htype | fileUploadMiddle htype
  | fileDownloadReq htype =>
    exact hother htype (by decide) (queues_enqueue _ _) (untracked_singleton ⟨rfl, rfl⟩) rfl
  | pingReply htype => exact .pingReply ⟨hn, hdst, htype⟩ (queues_nothing rfl rfl) rfl
  | dnsRegisterReply htype =>
    exact hother htype (by decide) (queues_nothing rfl rfl) untracked_nil rfl
  | dnsLookupReply htype hbuffer =>
    exact .lookupReply ⟨hn, hdst, htype⟩ hbuffer (queues_nothing rfl rfl) rfl
  | other hping hlookup =>
    exact hother rfl ⟨hping, hlookup⟩ (queues_nothing rfl rfl) untracked_nil rfl

theorem receive_hears {n : ℤ} {p : Packet} (h : receive n p s = some u) : Hears n p s u := by
  unfold receive at h
  split_ifs at h with hcontrol hus
  · cases h
    have hnot : ∀ type, type ≠ pktControlPacket → ¬ Comes type n p s :=
      fun type ht hc => ht (hc.2.2.symm.trans hcontrol.2)
    exact .other (hnot _ (by decide)) (hnot _ (by decide)) (queues_nothing rfl rfl)
      untracked_nil rfl
  · exact translate_hears hus.1 hus.2 h
  · cases h
    have hnot : ∀ type, ¬ Comes type n p s := fun type hc => hus ⟨hc.1, hc.2.1⟩
    exact .other (hnot _) (hnot _) (queues_nothing rfl rfl) untracked_nil rfl

/-- What a wait for a name does, once it is off the queue and its try is counted in t. -/
inductive NameTurn (job : HostJob) (t : Ticket ManCommand) (r u : HostState) : Prop where
  | again {j} : r.dnsLookupReceived = false → Queues r u [j] → nameTicket j = some t →
      flags u = flags r → NameTurn job t r u
  | expire : r.dnsLookupReceived = false → Queues r u [] → flags u = flags r → NameTurn job t r u
  | use {js} : r.dnsLookupReceived = true → Queues r u js → (∀ j ∈ js, Untracked j) →
      u.pingReplyReceived = r.pingReplyReceived → u.dnsLookupReceived = false →
      (∀ t timer, job = .dnsPingWaitForReply t timer →
        starts r.dnsLookupBuffer failText = true) → NameTurn job t r u
  | ping {t' timer q} : job = .dnsPingWaitForReply t' timer → r.dnsLookupReceived = true →
      starts r.dnsLookupBuffer failText = false →
      Queues r u [.sendPktAllPorts q, .pingWaitForReply t 10] → q.type = pktPingReq →
      u.pingReplyReceived = false → u.dnsLookupReceived = false → NameTurn job t r u
  | leave {t' fname timer} : job = .dnsLookupWaitForReply t' fname timer →
      r.dnsLookupReceived = true → Queues r u [] → u.pingReplyReceived = r.pingReplyReceived →
      u.dnsLookupReceived = true → NameTurn job t r u

theorem waitForReply_turn {job : HostJob} {received : Bool} {answered : Option HostState}
    {pingTimer : ℕ} {again : ℕ → HostJob} {t : Ticket ManCommand} {timeOut : String}
    (h : waitForReply received answered pingTimer again t timeOut s = some u)
    (hr : received = s.dnsLookupReceived) (hagain : ∀ n, nameTicket (again n) = some t)
    (hanswered : s.dnsLookupReceived = true → answered = some u → NameTurn job t s u) :
    NameTurn job t s u := by
  subst hr
  rcases waitForReply_cases h with ⟨hr, ha⟩ | ⟨hr, -, rfl⟩ | ⟨hr, -, rfl⟩
  · exact hanswered hr ha
  · exact .again hr (queues_enqueue _ _) (hagain _) rfl
  · exact .expire hr (queues_nothing rfl rfl) rfl

theorem dnsLookupWaitForReply_turn {t t' : Ticket ManCommand} {fname : List Int8} {timer : ℕ}
    (h : dnsLookupWaitForReply t fname timer s = some u) :
    NameTurn (.dnsLookupWaitForReply t' fname timer) t s u := by
  refine waitForReply_turn h rfl (fun _ => rfl) ?_
  intro hr ha
  cases ha
  exact .leave rfl hr (queues_nothing rfl rfl) rfl hr

theorem dnsPingWaitForReply_turn {t t' : Ticket ManCommand} {timer : ℕ} {blank : Packet}
    (h : dnsPingWaitForReply t timer blank s = some u) :
    NameTurn (.dnsPingWaitForReply t' timer) t s u := by
  refine waitForReply_turn h rfl (fun _ => rfl) ?_
  intro hr ha
  cases ha
  cases hf : starts s.dnsLookupBuffer failText with
  | true =>
    rw [if_pos rfl]
    exact .use hr (queues_nothing rfl rfl) untracked_nil rfl rfl fun _ _ _ => hf
  | false =>
    rw [if_neg Bool.false_ne_true]
    exact .ping rfl hr hf ⟨rfl, rfl⟩ rfl rfl rfl

theorem dnsDownloadWaitForReply_turn {t t' : Ticket ManCommand} {fname : List Int8} {timer : ℕ}
    {blank : Packet} (h : dnsDownloadWaitForReply t fname timer blank s = some u) :
    NameTurn (.dnsDownloadWaitForReply t' fname timer) t s u := by
  refine waitForReply_turn h rfl (fun _ => rfl) ?_
  intro hr ha
  cases hf : starts s.dnsLookupBuffer failText with
  | true =>
    rw [hf, if_pos rfl] at ha
    cases ha
    exact .use hr (queues_nothing rfl rfl) untracked_nil rfl rfl (by simp)
  | false =>
    rw [hf, if_neg Bool.false_ne_true] at ha
    obtain ⟨p, -, rfl⟩ := Option.map_eq_some_iff.mp ha
    have hq : Queues s _ [.sendPktAllPorts p] := queues_enqueue _ _
    exact .use hr ⟨hq.jobQ, hq.sent⟩ (untracked_singleton ⟨rfl, rfl⟩) rfl rfl (by simp)

/-- What the execution of a job does. -/
inductive Executes (s u : HostState) : Prop where
  | idle : s.jobQ = [] → u = s → Executes s u
  | send {p q} : s.jobQ = .sendPktAllPorts p :: q →
      u = { s with jobQ := q, sent := s.sent ++ [p] } → Executes s u
  | pingWait {t timer q} : s.jobQ = .pingWaitForReply t timer :: q →
      pingWaitForReply t.tried timer { s with jobQ := q } = some u → Executes s u
  | name {job t q} : s.jobQ = job :: q → nameTicket job = some t →
      NameTurn job t.tried { s with jobQ := q } u → Executes s u
  | other {job q js} : s.jobQ = job :: q → Untracked job → packetOf job = none →
      Queues { s with jobQ := q } u js → (∀ j ∈ js, Untracked j) → flags u = flags s →
      Executes s u

theorem execute_executes {canOpen : List Int8 → Bool} {mem : Scratch}
    (h : execute canOpen mem s = some u) : Executes s u := by
  rcases hs : s.jobQ with _ | ⟨job, q⟩
  · simp only [execute, hs, Option.some.injEq] at h
    exact .idle hs h.symm
  · simp only [execute, hs] at h
    cases job with
    | sendPktAllPorts p =>
      cases h
      exact .send hs rfl
    | pingSendReply p =>
      cases h
      exact .other hs ⟨rfl, rfl⟩ rfl (queues_enqueue _ _) (untracked_singleton ⟨rfl, rfl⟩) rfl
    | pingWaitForReply t timer => exact .pingWait hs h
    | fileUploadSend fname dst =>
      obtain ⟨packets, -, rfl⟩ := Option.map_eq_some_iff.mp h
      have hq : Queues { s with jobQ := q } _ (packets.map .sendPktAllPorts) :=
        queues_enqueue _ _
      refine .other hs ⟨rfl, rfl⟩ rfl ⟨hq.jobQ, hq.sent⟩ ?_ rfl
      intro job hjob
      obtain ⟨p, -, rfl⟩ := List.mem_map.mp hjob
      exact ⟨rfl, rfl⟩
    | fileUploadRecvStart p =>
      obtain ⟨r, -, rfl⟩ := Option.map_eq_some_iff.mp h
      exact .other hs ⟨rfl, rfl⟩ rfl (queues_nothing rfl rfl) untracked_nil rfl
    | fileUploadRecvMiddle p =>
      obtain ⟨r, -, rfl⟩ := Option.map_eq_some_iff.mp h
      exact .other hs ⟨rfl, rfl⟩ rfl (queues_nothing rfl rfl) untracked_nil rfl
    | fileUploadRecvEnd p =>
      obtain ⟨r, -, rfl⟩ := Option.map_eq_some_iff.mp h
      exact .other hs ⟨rfl, rfl⟩ rfl (queues_nothing rfl rfl) untracked_nil rfl
    | dnsRegisterWaitForReply t timer =>
      rcases waitForReply_cases h with ⟨-, ha⟩ | ⟨-, -, rfl⟩ | ⟨-, -, rfl⟩
      · cases ha
        exact .other hs ⟨rfl, rfl⟩ rfl (queues_nothing rfl rfl) untracked_nil rfl
      · exact .other hs ⟨rfl, rfl⟩ rfl (queues_enqueue _ _) (untracked_singleton ⟨rfl, rfl⟩) rfl
      · exact .other hs ⟨rfl, rfl⟩ rfl (queues_nothing rfl rfl) untracked_nil rfl
    | dnsLookupWaitForReply t fname timer => exact .name hs rfl (dnsLookupWaitForReply_turn h)
    | dnsPingWaitForReply t timer => exact .name hs rfl (dnsPingWaitForReply_turn h)
    | dnsDownloadWaitForReply t fname timer =>
      exact .name hs rfl (dnsDownloadWaitForReply_turn h)

/-- Packets keep their places among those sent and queued, and sent packets stay sent. -/
structure Follows (s u : HostState) : Prop where
  outgoing : outgoing s <+: outgoing u
  sent : s.sent <+: u.sent

theorem Follows.of_queues {js : List HostJob} (h : Queues s u js) : Follows s u := by
  constructor
  · rw [h.outgoing]
    exact List.prefix_append _ _
  · rw [h.sent]

theorem Asks.follows {t : Ticket ManCommand} {c : ManCommand} (h : Asks t s u c) :
    Follows s u := by
  cases h with
  | ping hq => exact .of_queues hq
  | name _ hq => exact .of_queues hq
  | other _ _ hq => exact .of_queues hq

theorem Hears.follows {n : ℤ} {p : Packet} (h : Hears n p s u) : Follows s u := by
  cases h with
  | pingReply _ hq => exact .of_queues hq
  | lookupReply _ _ hq => exact .of_queues hq
  | other _ _ hq => exact .of_queues hq

theorem outgoing_tail {job : HostJob} {q : List HostJob} (hs : s.jobQ = job :: q)
    (hjob : packetOf job = none) : outgoing { s with jobQ := q } = outgoing s := by
  rw [outgoing, outgoing, hs, List.filterMap_cons_none hjob]

theorem Follows.of_tail {job : HostJob} {q js : List HostJob} (hs : s.jobQ = job :: q)
    (hjob : packetOf job = none) (h : Queues { s with jobQ := q } u js) : Follows s u := by
  have hrest := Follows.of_queues h
  constructor
  · rw [← outgoing_tail hs hjob]
    exact hrest.outgoing
  · exact hrest.sent

theorem NameTurn.queues {job : HostJob} {t : Ticket ManCommand} (h : NameTurn job t s u) :
    ∃ js, Queues s u js := by
  cases h with
  | again _ hq => exact ⟨_, hq⟩
  | expire _ hq => exact ⟨_, hq⟩
  | use _ hq => exact ⟨_, hq⟩
  | ping _ _ _ hq => exact ⟨_, hq⟩
  | leave _ _ hq => exact ⟨_, hq⟩

theorem not_packet_of_name {job : HostJob} {t : Ticket ManCommand} (h : nameTicket job = some t) :
    packetOf job = none := by
  cases job <;> first
    | rfl
    | cases h

theorem Executes.follows (h : Executes s u) : Follows s u := by
  cases h with
  | idle _ hu =>
    subst hu
    exact ⟨List.prefix_rfl, List.prefix_rfl⟩
  | send hs hu =>
    subst hu
    constructor
    · simp [outgoing, hs, packetOf]
    · exact List.prefix_append _ _
  | pingWait hs h =>
    rcases waitForReply_cases h with ⟨-, ha⟩ | ⟨-, -, rfl⟩ | ⟨-, -, rfl⟩
    · cases ha
      exact .of_tail hs rfl (queues_nothing rfl rfl)
    · exact .of_tail hs rfl (queues_enqueue _ _)
    · exact .of_tail hs rfl (queues_nothing rfl rfl)
  | name hs hname hturn =>
    obtain ⟨js, hq⟩ := hturn.queues
    exact .of_tail hs (not_packet_of_name hname) hq
  | other hs _ hjob hq => exact .of_tail hs hjob hq

theorem Follows.phase (h : Follows s u) (k : Phase) : Follows s { u with phase := k } :=
  ⟨h.outgoing, h.sent⟩

theorem controlTimer_queues (blank : Packet) (s : HostState) :
    ∃ js, Queues s (controlTimer blank s) js ∧ (∀ job ∈ js, Untracked job) ∧
      flags (controlTimer blank s) = flags s := by
  unfold controlTimer
  split_ifs
  · exact ⟨_, ⟨rfl, rfl⟩, untracked_singleton ⟨rfl, rfl⟩, rfl⟩
  · exact ⟨[], queues_nothing rfl rfl, untracked_nil, rfl⟩

theorem handleCommand_asks {bytes : List Int8} {blank : Packet}
    (h : handleCommand bytes blank s = some u) :
    Asks ((book s).issue (commandOf bytes s)) s u (commandOf bytes s) := by
  simp only [handleCommand, Option.ite_none_right_eq_some] at h
  have hasks := executeCommand_asks h.2
  rw [← commandOf] at hasks
  generalize commandOf bytes s = c at hasks
  cases hasks with
  | ping hq htype hf => exact .ping ⟨hq.jobQ, hq.sent⟩ htype hf
  | name hc hq htype hn hnone hp hl => exact .name hc ⟨hq.jobQ, hq.sent⟩ htype hn hnone hp hl
  | other hc hne hq hjobs hf => exact .other hc hne ⟨hq.jobQ, hq.sent⟩ hjobs hf

inductive Moves (s : HostState) : HostEvent → HostState → Prop where
  | control {blank u js} : Queues s u js → (∀ job ∈ js, Untracked job) → flags u = flags s →
      Moves s (.control blank) u
  | noCommand {blank k} : Moves s (.command none blank) { s with phase := k }
  | command {bytes blank u k} : Asks ((book s).issue (commandOf bytes s)) s u (commandOf bytes s) →
      Moves s (.command (some bytes) blank) { u with phase := k }
  | receive {n p u k} : Hears n p s u → Moves s (.receive n p) { u with phase := k }
  | execute {canOpen mem u k} : Executes s u → Moves s (.execute canOpen mem) { u with phase := k }

theorem hostStep_moves {e : HostEvent} (h : hostStep s e = some u) : Moves s e u := by
  cases hostStep_part h with
  | @control blank =>
    obtain ⟨js, hq, hjobs, hf⟩ := controlTimer_queues blank s
    exact .control ⟨hq.jobQ, hq.sent⟩ hjobs hf
  | noCommand => exact .noCommand
  | command _ hv => exact .command (handleCommand_asks hv)
  | receive _ _ hv => exact .receive (receive_hears hv)
  | execute _ hv => exact .execute (execute_executes hv)

theorem Moves.follows {e : HostEvent} (h : Moves s e u) : Follows s u := by
  cases h with
  | control hq => exact .of_queues hq
  | noCommand => exact ⟨List.prefix_rfl, List.prefix_rfl⟩
  | command ha => exact ha.follows.phase _
  | receive hh => exact hh.follows.phase _
  | execute hx => exact hx.follows.phase _

end

/-- The waits that `f` picks, and the answer that they look at. -/
def slot {α : Type*} (f : HostJob → Option (Ticket ManCommand)) (answer : HostState → Option α)
    (s : HostState) : Slot ℕ α := ⟨serials f s, answer s⟩

section

variable {α : Type*} {f : HostJob → Option (Ticket ManCommand)} {answer : HostState → Option α}
variable {Own : ℕ → α → Prop} {s u : HostState} {job : HostJob} {q js : List HostJob}
variable {t : Ticket ManCommand}

theorem slot_eq {ns : List ℕ} {a : Option α} (hw : serials f s = ns) (ha : answer s = a) :
    slot f answer s = ⟨ns, a⟩ := by
  rw [slot, hw, ha]

theorem slot_stay (hw : serials f u = serials f s) (ha : answer u = answer s) :
    Step Own (slot f answer s) (slot f answer u) := by
  rw [slot_eq hw ha]
  exact .stay _

theorem slot_ask {n : ℕ} (hw : serials f u = serials f s ++ [n]) (ha : answer u = none) :
    Step Own (slot f answer s) (slot f answer u) := by
  rw [slot_eq hw ha]
  exact .ask _ _

theorem slot_arrive {a : α} (hw : serials f u = serials f s) (ha : answer u = some a)
    (hown : ∀ n ∈ (serials f s).head?, Own n a) :
    Step Own (slot f answer s) (slot f answer u) := by
  rw [slot_eq hw ha]
  exact .arrive _ hown

section

variable (hs : s.jobQ = job :: q) (hjob : f job = some t) (hq : Queues { s with jobQ := q } u js)

include hs hjob hq

theorem slot_again {t' : Ticket ManCommand} (hjs : js.filterMap f = [t'])
    (hsame : t'.serial = t.serial) (hno : answer s = none) (ha : answer u = none) :
    Step Own (slot f answer s) (slot f answer u) := by
  have hback : serials f u = serials f { s with jobQ := q } ++ [t.serial] := by
    rw [serials_queues hq, hjs, ← hsame]
    rfl
  rw [slot_eq (serials_head hs hjob) hno, slot_eq hback ha]
  exact .again

theorem slot_expire (hjs : ∀ j ∈ js, f j = none) (hno : answer s = none) (ha : answer u = none) :
    Step Own (slot f answer s) (slot f answer u) := by
  rw [slot_eq (serials_head hs hjob) hno, slot_eq (serials_same hq hjs) ha]
  exact .expire

theorem slot_use {a : α} (hjs : ∀ j ∈ js, f j = none) (hyes : answer s = some a)
    (ha : answer u = none) : Step Own (slot f answer s) (slot f answer u) := by
  rw [slot_eq (serials_head hs hjob) hyes, slot_eq (serials_same hq hjs) ha]
  exact .use

/-- The answer is left where it is, so nobody else may wait. -/
theorem slot_leave {a b : α} (hjs : ∀ j ∈ js, f j = none) (hyes : answer s = some a)
    (hlast : serials f { s with jobQ := q } = []) (ha : answer u = some b) :
    Step Own (slot f answer s) (slot f answer u) := by
  rw [slot_eq (serials_head hs hjob) hyes, slot_eq ((serials_same hq hjs).trans hlast) ha, hlast]
  exact .leave

end

end

end HostQueries
