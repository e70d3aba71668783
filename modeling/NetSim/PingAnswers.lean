import NetSim.AnswerSlot
import NetSim.WatchedHost

/-! Which reply a ping is acknowledged for. The host keeps one flag for all ping replies, and
looks neither at the host that sent one nor at the request that it answers. -/
namespace PingAnswers

open PacketCodec ReplyBook HostNode HostBook HostWaits HostQueries WatchedHost AnswerSlot
open HostReplies (HostStep Kept kept_init kept_step quietHost noPacket iteration)

/-- A command that pings: p and P. -/
def pings : ManCommand → Bool
  | .ping | .dnsPing => true
  | _ => false

/-- The command that a step makes a ping request for: p at once, P when its host is found. -/
def pingAsked (s : HostState) : HostEvent → Option ℕ
  | .command (some bytes) _ =>
    if commandOf bytes s = .ping then some s.commands.length else none
  | .execute _ _ =>
    match s.jobQ with
    | .dnsPingWaitForReply t _ :: _ =>
      if s.dnsLookupReceived && !starts s.dnsLookupBuffer failText then some t.serial else none
    | _ => none
  | _ => none

section

variable {s u : HostState} {js : List HostJob}

theorem pingAsked_sends {e : HostEvent} {n : ℕ} (h : hostStep s e = some u)
    (ha : pingAsked s e = some n) :
    ∃ q ps, outgoing u = outgoing s ++ q :: ps ∧ q.type = pktPingReq := by
  have hm := hostStep_moves h
  cases hm with
  | control => cases ha
  | noCommand => cases ha
  | @command bytes _ v _ hasks =>
    simp only [pingAsked, Option.ite_none_right_eq_some] at ha
    obtain ⟨hc, -⟩ := ha
    rw [hc] at hasks
    cases hasks with
    | ping hq htype => exact ⟨_, _, hq.outgoing, htype⟩
    | name hname => cases hname
    | other _ hne => exact absurd rfl hne
  | receive => cases ha
  | @execute _ _ v _ hx =>
    simp only [pingAsked] at ha
    split at ha
    case h_2 => cases ha
    case h_1 t timer q hs =>
      simp only [Option.ite_none_right_eq_some, Bool.and_eq_true, Bool.not_eq_true'] at ha
      obtain ⟨⟨hr, hf⟩, -⟩ := ha
      cases hx with
      | idle hnil => simp [hnil] at hs
      | send hs' => simp [hs'] at hs
      | pingWait hs' => simp [hs'] at hs
      | other hs' hu =>
        rw [hs] at hs'
        cases hs'
        cases hu.2
      | @name job t' q' hs' hname hturn =>
        have hcons : HostJob.dnsPingWaitForReply t timer :: q = job :: q' := hs.symm.trans hs'
        cases hcons
        cases hturn with
        | again hno => exact absurd (hr.symm.trans hno) (by decide)
        | expire hno => exact absurd (hr.symm.trans hno) (by decide)
        | use _ _ _ _ _ hfail => exact absurd (hf.symm.trans (hfail t timer rfl)) (by decide)
        | ping _ _ _ hq htype =>
          refine ⟨_, [], ?_, htype⟩
          rw [← outgoing_tail hs rfl]
          exact hq.outgoing
        | leave hjob => cases hjob

end

def pingKind : Kind := ⟨pingAsked, pktPingReq, pktPingReply, pingAsked_sends⟩

/-- The host that the ping of the command went to has answered it. -/
def TargetReplied (w : Watched) (serial : ℕ) : Prop :=
  ∃ q r, Answered pingKind w serial q r ∧ r.src = q.dst

def pingAnswer (s : HostState) : Option Unit := if s.pingReplyReceived then some () else none

def pingSlot (s : HostState) : Slot ℕ Unit := slot pingTicket pingAnswer s

section

variable {s u : HostState} {js : List HostJob}

theorem pings_untracked (h : Queues s u js) (hj : ∀ job ∈ js, Untracked job) :
    serials pingTicket u = serials pingTicket s := serials_same h fun job hjob => (hj job hjob).1

theorem ping_stay {Own : ℕ → Unit → Prop} (hw : serials pingTicket u = serials pingTicket s)
    (hf : u.pingReplyReceived = s.pingReplyReceived) : Step Own (pingSlot s) (pingSlot u) :=
  slot_stay hw (by rw [pingAnswer, pingAnswer, hf])

theorem ping_ask {Own : ℕ → Unit → Prop} {n : ℕ}
    (hw : serials pingTicket u = serials pingTicket s ++ [n]) (hf : u.pingReplyReceived = false) :
    Step Own (pingSlot s) (pingSlot u) :=
  slot_ask hw (by rw [pingAnswer, hf, if_neg Bool.false_ne_true])

theorem slot_turn (Own : ℕ → Unit → Prop) {t : Ticket ManCommand} {timer : ℕ} {q : List HostJob}
    (hs : s.jobQ = .pingWaitForReply t timer :: q) (hone : (serials pingTicket s).length ≤ 1)
    (h : pingWaitForReply t.tried timer { s with jobQ := q } = some u) :
    Step Own (pingSlot s) (pingSlot u) := by
  have hlast : serials pingTicket { s with jobQ := q } = [] := by
    rw [serials_head hs rfl] at hone
    simpa using hone
  rcases waitForReply_cases h with ⟨hr, ha⟩ | ⟨hr, -, rfl⟩ | ⟨hr, -, rfl⟩
  · cases ha
    have hyes : pingAnswer s = some () := if_pos hr
    exact slot_leave hs rfl (queues_nothing rfl rfl) (by simp) hyes hlast hyes
  · have hno : pingAnswer s = none := if_neg (by simpa using hr)
    exact slot_again hs rfl (queues_enqueue _ _) rfl rfl hno hno
  · have hno : pingAnswer s = none := if_neg (by simpa using hr)
    exact slot_expire hs rfl (queues_nothing rfl rfl) (by simp) hno hno

end

def pingCommands (s : HostState) : ℕ := (s.commands.filter pings).length

def pingResults (s : HostState) : ℕ := (s.written.filter fun m => pings m.ticket.command).length

/-- The manager issues a p or P command when every earlier one has its result written. -/
def Issued (s : HostState) : HostEvent → Prop
  | .command (some bytes) _ =>
    pings (commandOf bytes s) = true → pingCommands s = pingResults s
  | _ => True

/-- At most one p or P command is without its result. -/
def Single (s : HostState) : Prop := pingCommands s ≤ pingResults s + 1

section

variable {s u : HostState}

theorem pings_owed (c : ManCommand) (h : pings c = true) : owed c = true := by
  cases c <;> first
    | rfl
    | cases h

theorem pingTickets_le {jobs : List HostJob} (hg : ∀ job ∈ jobs, Genuine job) :
    (jobs.filterMap pingTicket).length ≤
      (((jobs.filterMap waitOf).map Wait.ticket).filter fun t => pings t.command).length := by
  induction jobs with
  | nil => exact le_rfl
  | cons job jobs ih =>
    have hrest := ih fun j hj => hg j (List.mem_cons_of_mem job hj)
    have hmore : ∀ t : Ticket ManCommand, (jobs.filterMap pingTicket).length ≤
        ((t :: (jobs.filterMap waitOf).map Wait.ticket).filter
          fun t => pings t.command).length := by
      intro t
      rw [List.filter_cons]
      split
      · exact hrest.trans (Nat.le_succ _)
      · exact hrest
    cases job with
    | pingWaitForReply t timer =>
      have hc : pings t.command = true := by
        rcases hg _ List.mem_cons_self with hc | hc <;> rw [hc] <;> rfl
      simpa [pingTicket, waitOf, hc] using hrest
    | dnsRegisterWaitForReply t timer => exact hmore t
    | dnsLookupWaitForReply t fname timer => exact hmore t
    | dnsPingWaitForReply t timer => exact hmore t
    | dnsDownloadWaitForReply t fname timer => exact hmore t
    | sendPktAllPorts => exact hrest
    | pingSendReply => exact hrest
    | fileUploadSend => exact hrest
    | fileUploadRecvStart => exact hrest
    | fileUploadRecvEnd => exact hrest
    | fileUploadRecvMiddle => exact hrest

theorem pingWaits_count (hk : Kept s) :
    pingResults s + (serials pingTicket s).length ≤ pingCommands s := by
  have hbalance : pingCommands s = _ := hk.balanced.length_eq pings_owed
  rw [Book.tickets, List.filter_append, List.length_append] at hbalance
  have hwritten : ((book s).written.filter fun t => pings t.command).length = pingResults s := by
    simp only [book, pingResults, List.filter_map, List.length_map]
    rfl
  rw [hbalance, hwritten, serials, List.length_map]
  exact Nat.add_le_add_left (pingTickets_le hk.genuine) _

theorem one_wait (hk : Kept s) (hs : Single s) : (serials pingTicket s).length ≤ 1 := by
  have hcount := pingWaits_count hk
  unfold Single at hs
  omega

theorem results_mono {e : HostEvent} (hg : AllGenuine s) (h : hostStep s e = some u) :
    pingResults s ≤ pingResults u := by
  obtain ⟨ms, hms⟩ := (hostStep_books hg h).written
  rw [pingResults, pingResults, ← hms, List.filter_append, List.length_append]
  exact Nat.le_add_right _ _

theorem single_step {e : HostEvent} (hg : AllGenuine s) (h : hostStep s e = some u)
    (hi : Issued s e) (hs : Single s) : Single u := by
  have hmono := results_mono hg h
  have hcommands : pingCommands u = pingCommands s + ((newCommands s e).filter pings).length := by
    rw [pingCommands, (hostStep_books hg h).commands, List.filter_append, List.length_append]
    rfl
  have hnone : newCommands s e = [] → Single u := by
    intro hnew
    rw [hnew] at hcommands
    simp only [Single, List.filter_nil, List.length_nil] at *
    omega
  cases e with
  | control => exact hnone rfl
  | command bytes blank =>
    cases bytes with
    | none => exact hnone rfl
    | some bytes =>
      unfold Single at *
      rw [newCommands] at hcommands
      cases hc : pings (commandOf bytes s) with
      | true =>
        have hsettled : pingCommands s = pingResults s := hi hc
        rw [List.filter_cons_of_pos hc, List.filter_nil, List.length_singleton] at hcommands
        omega
      | false =>
        rw [List.filter_cons_of_neg (by simp [hc]), List.filter_nil, List.length_nil] at hcommands
        omega
  | receive => exact hnone rfl
  | execute => exact hnone rfl

end

/-- The reply comes while a ping waits without one, and is the answer of its target to it. -/
def InTime (w : Watched) : HostEvent × ℕ → Prop
  | (.receive n p, k) =>
    Comes pktPingReply n p w.host → w.host.pingReplyReceived = false →
      ∀ serial ∈ serials pingTicket w.host,
        (serial, k) ∈ w.asked ∧ w.host.sent[k]?.map Packet.dst = some p.src
  | _ => True

instance (s : HostState) (e : HostEvent) : Decidable (Issued s e) :=
  match e with
  | .command (some _) _ => inferInstanceAs (Decidable (_ → _))
  | .command none _ | .control _ | .receive _ _ | .execute _ _ => inferInstanceAs (Decidable True)

instance (w : Watched) (e : HostEvent × ℕ) : Decidable (InTime w e) :=
  match e with
  | (.receive _ _, _) => inferInstanceAs (Decidable (_ → _ → _))
  | (.command _ _, _) | (.control _, _) | (.execute _ _, _) => inferInstanceAs (Decidable True)

def PingStep (w : Watched) (e : HostEvent × ℕ) (v : Watched) : Prop :=
  watch pingKind w e = some v ∧ Issued w.host e.1

def TimelyStep (w : Watched) (e : HostEvent × ℕ) (v : Watched) : Prop :=
  PingStep w e v ∧ InTime w e

def ackText : List Int8 := toBytes "Ping acked!" ++ [0]

section

variable {s u : HostState} {w v : Watched} {e : HostEvent × ℕ}

theorem slot_asks (Own : ℕ → Unit → Prop) {t : Ticket ManCommand} {c : ManCommand}
    (h : Asks t s u c) : Step Own (pingSlot s) (pingSlot u) := by
  cases h with
  | ping hq _ hf => exact ping_ask (serials_queues hq) (congrArg Prod.fst hf)
  | @name _ q wait _ hq _ _ hnone hp =>
    refine ping_stay ?_ hp
    rw [serials_queues hq, List.filterMap_cons_none rfl, List.filterMap_cons_none hnone]
    exact List.append_nil _
  | other _ _ hq hjobs hf => exact ping_stay (pings_untracked hq hjobs) (congrArg Prod.fst hf)

theorem slot_hears (Own : ℕ → Unit → Prop) {n : ℤ} {p : Packet} (h : Hears n p s u)
    (hown : Comes pktPingReply n p s → s.pingReplyReceived = false →
      ∀ serial ∈ (serials pingTicket s).head?, Own serial ()) :
    Step Own (pingSlot s) (pingSlot u) := by
  cases h with
  | pingReply hc hq hf =>
    have hw : serials pingTicket u = serials pingTicket s := pings_untracked hq untracked_nil
    have hflag : u.pingReplyReceived = true := congrArg Prod.fst hf
    cases hs : s.pingReplyReceived with
    | true => exact ping_stay hw (hflag.trans hs.symm)
    | false => exact slot_arrive hw (if_pos hflag) (hown hc hs)
  | lookupReply _ _ hq hf =>
    exact ping_stay (pings_untracked hq untracked_nil) (congrArg Prod.fst hf)
  | other _ _ hq hjobs hf => exact ping_stay (pings_untracked hq hjobs) (congrArg Prod.fst hf)

theorem slot_executes (Own : ℕ → Unit → Prop) (hone : (serials pingTicket s).length ≤ 1)
    (h : Executes s u) : Step Own (pingSlot s) (pingSlot u) := by
  cases h with
  | idle _ hu =>
    subst hu
    exact .stay _
  | send hs hu =>
    subst hu
    exact ping_stay (serials_tail hs rfl) rfl
  | pingWait hs h => exact slot_turn Own hs hone h
  | @name job t q hs hname hturn =>
    have htail := serials_tail hs (not_ping_of_name hname)
    cases hturn with
    | again _ hq hn hf =>
      refine ping_stay ?_ (congrArg Prod.fst hf)
      rw [serials_queues hq, List.filterMap_cons_none (not_ping_of_name hn), htail]
      exact List.append_nil _
    | expire _ hq hf =>
      exact ping_stay ((pings_untracked hq untracked_nil).trans htail) (congrArg Prod.fst hf)
    | use _ hq hjobs hp => exact ping_stay ((pings_untracked hq hjobs).trans htail) hp
    | ping _ _ _ hq _ hp =>
      refine ping_ask (n := t.serial) ?_ hp
      rw [serials_queues hq, htail]
      rfl
    | leave _ _ hq hp => exact ping_stay ((pings_untracked hq untracked_nil).trans htail) hp
  | other hs hjob _ hq hjobs hf =>
    refine ping_stay ((pings_untracked hq hjobs).trans ?_) (congrArg Prod.fst hf)
    exact serials_tail hs hjob.1

theorem slot_watch (h : watch pingKind w e = some v) (hp : Placed pingKind w)
    (hone : (serials pingTicket w.host).length ≤ 1) (hin : InTime w e) :
    Step (fun n _ => TargetReplied v n) (pingSlot w.host) (pingSlot v.host) := by
  obtain ⟨e, k⟩ := e
  have hm : Moves w.host e v.host := hostStep_moves (watch_host h)
  generalize hv : v.host = u at hm
  cases hm with
  | control hq hjobs hf => exact ping_stay (pings_untracked hq hjobs) (congrArg Prod.fst hf)
  | noCommand => exact ping_stay rfl rfl
  | command hasks =>
    have hslot := slot_asks (fun n _ => TargetReplied v n) hasks
    exact hslot
  | execute hx =>
    have hslot := slot_executes (fun n _ => TargetReplied v n) hone hx
    exact hslot
  | receive hh =>
    have hslot := slot_hears (fun n _ => TargetReplied v n) hh (by
      intro hc hflag serial hserial
      obtain ⟨hasked, hdst⟩ := hin hc hflag serial (List.mem_of_mem_head? hserial)
      obtain ⟨q, hsent, hsrc⟩ := Option.map_eq_some_iff.mp hdst
      exact ⟨q, _, answered_receive h hp hc hasked hsent, hsrc.symm⟩)
    exact hslot

/-- The message m is new and acknowledges the ping whose wait is at the head of the queue. -/
def AckOf (s : HostState) (m : Message) : Prop :=
  s.pingReplyReceived = true ∧
    ∃ t timer q, s.jobQ = .pingWaitForReply t timer :: q ∧ m.ticket = t.tried

theorem written_before {t : Ticket ManCommand} {string : String}
    (hne : toBytes string ++ [0] ≠ ackText) {m : Message} (hb : m.bytes = ackText)
    (hm : m ∈ (reply t string s).written) : m ∈ s.written := by
  rcases List.mem_append.mp hm with hm | hm
  · exact hm
  · rw [List.mem_singleton.mp hm] at hb
    exact absurd hb hne

theorem ack_pingWait {t : Ticket ManCommand} {timer : ℕ} {q : List HostJob}
    (hs : s.jobQ = .pingWaitForReply t timer :: q)
    (h : pingWaitForReply t.tried timer { s with jobQ := q } = some u) {m : Message}
    (hm : m ∈ u.written) (hb : m.bytes = ackText) : m ∈ s.written ∨ AckOf s m := by
  rcases waitForReply_cases h with ⟨hr, ha⟩ | ⟨-, -, rfl⟩ | ⟨-, -, rfl⟩
  · cases ha
    rcases List.mem_append.mp hm with hm | hm
    · exact .inl hm
    · rw [List.mem_singleton] at hm
      exact .inr ⟨hr, t, timer, q, hs, by rw [hm]⟩
  · exact .inl hm
  · have htimeOut : toBytes "Ping time out!" ++ [0] ≠ ackText := by decide
    exact .inl (written_before htimeOut hb hm)

theorem ack_dnsPingWait {t : Ticket ManCommand} {timer : ℕ} {blank : Packet}
    (h : dnsPingWaitForReply t timer blank s = some u) {m : Message} (hm : m ∈ u.written)
    (hb : m.bytes = ackText) : m ∈ s.written := by
  rcases waitForReply_cases h with ⟨-, ha⟩ | ⟨-, -, rfl⟩ | ⟨-, -, rfl⟩
  · cases ha
    by_cases hf : starts s.dnsLookupBuffer failText
    · rw [if_pos hf] at hm
      have hfailed : toBytes "DNS lookup failed." ++ [0] ≠ ackText := by decide
      exact written_before hfailed hb hm
    · rw [if_neg hf] at hm
      exact hm
  · exact hm
  · exact written_before (by decide) hb hm

/-- The other jobs write only to commands that ping nobody. -/
theorem no_ack {job : HostJob} {jobs : List HostJob} {messages : List Message}
    (hg : Genuine job) (hping : pingTicket job = none)
    (hdns : ∀ t timer, job ≠ .dnsPingWaitForReply t timer) (h : Outcome s job jobs messages)
    {m : Message} (hm : m ∈ messages) : pings m.ticket.command = false := by
  cases h with
  | plain => cases hm
  | delay => cases hm
  | drop => cases hm
  | close hw _ =>
    rw [List.mem_singleton.mp hm]
    cases job with
    | pingWaitForReply => cases hping
    | dnsPingWaitForReply t timer => exact absurd rfl (hdns t timer)
    | dnsRegisterWaitForReply t timer =>
      obtain ⟨rfl, -⟩ := by simpa [waitOf] using hw
      have hc : t.command = .dnsRegister := hg
      simp [Ticket.tried, hc, pings]
    | dnsLookupWaitForReply t fname timer =>
      obtain ⟨rfl, -⟩ := by simpa [waitOf] using hw
      have hc : t.command = .dnsLookup := hg
      simp [Ticket.tried, hc, pings]
    | dnsDownloadWaitForReply t fname timer =>
      obtain ⟨rfl, -⟩ := by simpa [waitOf] using hw
      have hc : t.command = .dnsFileDownload := hg
      simp [Ticket.tried, hc, pings]
    | _ => cases hw

theorem ack_executed {canOpen : List Int8 → Bool} {mem : FileSplit.Scratch} (hg : AllGenuine s)
    (h : execute canOpen mem s = some u) {m : Message} (hm : m ∈ u.written)
    (hc : pings m.ticket.command = true) (hb : m.bytes = ackText) :
    m ∈ s.written ∨ AckOf s m := by
  rcases hs : s.jobQ with _ | ⟨job, q⟩
  · simp only [execute, hs, Option.some.injEq] at h
    rw [← h] at hm
    exact .inl hm
  · by_cases hping : ∃ t timer, job = .pingWaitForReply t timer
    · obtain ⟨t, timer, rfl⟩ := hping
      simp only [execute, hs] at h
      exact ack_pingWait hs h hm hb
    · by_cases hdns : ∃ t timer, job = .dnsPingWaitForReply t timer
      · obtain ⟨t, timer, rfl⟩ := hdns
        simp only [execute, hs] at h
        exact .inl (ack_dnsPingWait (s := { s with jobQ := q }) h hm hb)
      · have hjob : Genuine job := hg job (by simp [hs])
        obtain ⟨jobs, messages, ha, ho⟩ := execute_outcome hs hjob h
        rw [ha.written] at hm
        rcases List.mem_append.mp hm with hm | hm
        · exact .inl hm
        · have hno : pings m.ticket.command = false := by
            refine no_ack hjob ?_ (fun t timer he => hdns ⟨t, timer, he⟩) ho hm
            cases job with
            | pingWaitForReply t timer => exact absurd ⟨t, timer, rfl⟩ hping
            | _ => rfl
          exact absurd (hc.symm.trans hno) (by decide)

theorem ack_written {e : HostEvent} (hg : AllGenuine s) (h : hostStep s e = some u) {m : Message}
    (hm : m ∈ u.written) (hc : pings m.ticket.command = true) (hb : m.bytes = ackText) :
    m ∈ s.written ∨ AckOf s m := by
  cases hostStep_part h with
  | control =>
    left
    unfold controlTimer at hm
    split_ifs at hm
    · exact hm
    · exact hm
  | noCommand => exact .inl hm
  | command _ hv =>
    simp only [handleCommand, Option.ite_none_right_eq_some] at hv
    obtain ⟨jobs, messages, ho⟩ := executeCommand_opens hv.2 rfl
    simp only [ho.adds.written] at hm
    rcases List.mem_append.mp hm with hm | hm
    · exact .inl hm
    · have hticket : m.ticket ∈ messages.map Message.ticket := List.mem_map_of_mem hm
      rw [ho.told, answeredAtOnce] at hticket
      split_ifs at hticket with hdisplay
      · rw [List.mem_singleton.mp hticket, hdisplay] at hc
        cases hc
      · cases hticket
  | receive _ _ hv =>
    obtain ⟨jobs, ha, -⟩ := receive_adds hv
    simp only [ha.written, List.append_nil] at hm
    exact .inl hm
  | execute _ hv => exact ack_executed hg hv hm hc hb

structure Acking (w : Watched) : Prop where
  kept : Kept w.host
  placed : Placed pingKind w
  single : Single w.host
  matched : Matched (fun n _ => TargetReplied w n) (pingSlot w.host)
  acked : ∀ m ∈ w.host.written, pings m.ticket.command = true → m.bytes = ackText →
    TargetReplied w m.ticket.serial

theorem TargetReplied.mono (h : watch pingKind w e = some v) {n : ℕ} (hr : TargetReplied w n) :
    TargetReplied v n := by
  obtain ⟨q, r, ha, hsrc⟩ := hr
  exact ⟨q, r, ha.mono h, hsrc⟩

theorem acking_init (garbage : HostState) : Acking (watchInit garbage) := by
  constructor
  · exact kept_init garbage
  · exact placed_init garbage
  · exact Nat.zero_le _
  · intro a _ q hq
    cases hq
  · intro m hm
    cases hm

theorem acking_step (h : TimelyStep w e v) (ha : Acking w) : Acking v := by
  obtain ⟨⟨hw, hissued⟩, hin⟩ := h
  have hstep := watch_host hw
  constructor
  · exact kept_step ha.kept hstep
  · exact placed_step hw ha.placed
  · exact single_step ha.kept.genuine hstep hissued ha.single
  · have hold : Matched (fun n _ => TargetReplied v n) (pingSlot w.host) :=
      ha.matched.mono fun n _ hr => hr.mono hw
    exact matched_step (slot_watch hw ha.placed (one_wait ha.kept ha.single) hin) hold
  · intro m hm hc hb
    rcases ack_written ha.kept.genuine hstep hm hc hb with hm | ⟨hr, t, timer, q, hs, ht⟩
    · exact (ha.acked m hm hc hb).mono hw
    · have hhead : t.serial ∈ (pingSlot w.host).waiting.head? := by
        rw [pingSlot, slot, serials_head (f := pingTicket) hs rfl]
        rfl
      rw [ht]
      exact (ha.matched () (by simp [pingSlot, slot, pingAnswer, hr]) _ hhead).mono hw

/-- In a run in which every ping reply that comes while a ping waits without one is the answer of
its target to it, every ping that is acknowledged was answered by its target. -/
theorem ping_acked_by_target {garbage : HostState} {es : List (HostEvent × ℕ)}
    (h : EventRuns.Run TimelyStep (watchInit garbage) es w) :
    ∀ m ∈ w.host.written, pings m.ticket.command = true → m.bytes = ackText →
      TargetReplied w m.ticket.serial :=
  (h.invariant (fun _ _ _ hs ha => acking_step hs ha) (acking_init garbage)).acked

end

def repliedInTime : List (HostEvent × ℕ) := HostReplies.pingedOnce.map fun e => (e, 0)

theorem repliedInTime_runs :
    ((repliedInTime.foldlM (watchIf pingKind fun w e => Issued w.host e.1 ∧ InTime w e)
      (watchInit quietHost)).map fun w => w.host.written.map fun m =>
        (m.ticket.serial, m.ticket.command, m.bytes)) = some [(0, .ping, ackText)] := by
  decide +kernel

theorem ping_acked_by_target_once : ∃ w m,
    EventRuns.Run TimelyStep (watchInit quietHost) repliedInTime w ∧ m ∈ w.host.written ∧
      m.bytes = ackText ∧ TargetReplied w m.ticket.serial := by
  obtain ⟨w, hw, hwritten⟩ := Option.map_eq_some_iff.mp repliedInTime_runs
  have hrun : EventRuns.Run TimelyStep (watchInit quietHost) repliedInTime w :=
    run_of_watchIf hw fun hwatch hallowed => ⟨⟨hwatch, hallowed.1⟩, hallowed.2⟩
  obtain ⟨m, ms, hms, hm, -⟩ := List.map_eq_cons_iff.mp hwritten
  simp only [Prod.mk.injEq] at hm
  have hmem : m ∈ w.host.written := by rw [hms]; exact List.mem_cons_self
  exact ⟨w, m, hrun, hmem, hm.2.2,
    ping_acked_by_target hrun m hmem (by rw [hm.2.1]; rfl) hm.2.2⟩

/-- The command "p 2" times out, the command "p 3" follows, and then host 2 replies. -/
def repliedLate : List (HostEvent × ℕ) :=
  (iteration (some [112, 32, 50]) (-1) noPacket ++
    (List.replicate 12 (iteration none (-1) noPacket)).flatten ++
    iteration (some [112, 32, 51]) (-1) noPacket ++
    iteration none 8 { noPacket with src := 2, dst := 1, type := pktPingReply } ++
    iteration none (-1) noPacket).map fun e => (e, 0)

theorem repliedLate_runs :
    ((repliedLate.foldlM (watchIf pingKind fun w e => Issued w.host e.1)
      (watchInit quietHost)).map fun w => ((w.asked, w.heard.map Heard.place),
        w.host.sent.map Packet.dst, w.host.written.map fun m => (m.ticket.serial, m.bytes))) =
      some (([(0, 0), (1, 3)], [0]), [2, 0, 0, 3, 0],
        [(0, toBytes "Ping time out!" ++ [0]), (1, ackText)]) := by
  decide +kernel

/-- The ping to host 3 is acknowledged, and nothing but the reply of host 2 has come. -/
theorem acked_by_another : ∃ w,
    EventRuns.Run PingStep (watchInit quietHost) repliedLate w ∧
      w.host.sent[3]?.map Packet.dst = some 3 ∧ (1, 3) ∈ w.asked ∧
      w.host.sent[0]?.map Packet.dst = some 2 ∧ w.heard.map Heard.place = [0] ∧
      (∃ m ∈ w.host.written, m.ticket.serial = 1 ∧ m.bytes = ackText) ∧
      ¬ TargetReplied w 1 := by
  obtain ⟨w, hw, hfacts⟩ := Option.map_eq_some_iff.mp repliedLate_runs
  simp only [Prod.mk.injEq] at hfacts
  obtain ⟨⟨hasked, hheard⟩, hsent, hwritten⟩ := hfacts
  have hrun : EventRuns.Run PingStep (watchInit quietHost) repliedLate w :=
    run_of_watchIf hw fun hwatch hissued => ⟨hwatch, hissued⟩
  refine ⟨w, hrun, ?_, ?_, ?_, hheard, ?_, ?_⟩
  · rw [← List.getElem?_map, hsent]
    rfl
  · rw [hasked]
    decide
  · rw [← List.getElem?_map, hsent]
    rfl
  · have hlast : (1, ackText) ∈ w.host.written.map fun m => (m.ticket.serial, m.bytes) := by
      rw [hwritten]
      simp
    obtain ⟨m, hm, hpair⟩ := List.mem_map.mp hlast
    simp only [Prod.mk.injEq] at hpair
    exact ⟨m, hm, hpair.1, hpair.2⟩
  · rintro ⟨q, r, ⟨k, sent, hk, -, -, hr, -⟩, -⟩
    rw [hasked] at hk
    have hplace : k ∈ w.heard.map Heard.place := List.mem_map_of_mem hr
    rw [hheard] at hplace
    simp at hk hplace
    omega

end PingAnswers
