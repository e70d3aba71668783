import NetSim.HostWaits

/-! What the manager sees of a host: each p, r, l and P command is answered by one message, which
one wait job writes at its end. -/
namespace HostReplies

open PacketCodec ReplyBook HostNode HostBook HostWaits

section

variable {s u : HostState}

def HostStep (s : HostState) (e : HostEvent) (u : HostState) : Prop := hostStep s e = some u

/-- Host memory as a run from the start of host_main leaves it. -/
structure Kept (s : HostState) : Prop where
  genuine : AllGenuine s
  balanced : Balanced owed limit (book s)

theorem kept_init (garbage : HostState) : Kept (hostInit garbage) := by
  constructor
  · simp [AllGenuine, hostInit]
  · exact balanced_empty owed limit

theorem kept_step {e : HostEvent} (h : Kept s) (hs : HostStep s e u) : Kept u := by
  have hb := hostStep_books h.genuine hs
  obtain ⟨ts, hstep, -⟩ := hb.step
  exact ⟨hb.genuine, balanced_step h.balanced hstep⟩

theorem kept_run {garbage : HostState} {es : List HostEvent}
    (h : EventRuns.Run HostStep (hostInit garbage) es s) : Kept s :=
  h.invariant (fun _ _ _ hs hk => kept_step hk hs) (kept_init garbage)

theorem filter_waits {jobs : List HostJob} (hg : ∀ job ∈ jobs, Genuine job) :
    ((jobs.filterMap waitOf).map Wait.ticket).filter (fun t => waits t.command) =
      jobs.filterMap replyTicket := by
  induction jobs with
  | nil => rfl
  | cons job jobs ih =>
    have hrest := ih fun j hj => hg j (List.mem_cons_of_mem job hj)
    have hjob := hg job List.mem_cons_self
    cases job with
    | pingWaitForReply t timer =>
      rcases hjob with hc | hc <;> simpa [waitOf, replyTicket, waits, hc] using hrest
    | dnsRegisterWaitForReply t timer =>
      have hc : t.command = .dnsRegister := hjob
      simpa [waitOf, replyTicket, waits, hc] using hrest
    | dnsLookupWaitForReply t fname timer =>
      have hc : t.command = .dnsLookup := hjob
      simpa [waitOf, replyTicket, waits, hc] using hrest
    | dnsPingWaitForReply t timer => simpa [waitOf, replyTicket, waits, hjob.1] using hrest
    | dnsDownloadWaitForReply t fname timer =>
      have hc : t.command = .dnsFileDownload := hjob
      change (t :: (jobs.filterMap waitOf).map Wait.ticket).filter (fun t => waits t.command) =
        jobs.filterMap replyTicket
      rw [List.filter_cons_of_neg (by simp [waits, hc]), hrest]
    | sendPktAllPorts => exact hrest
    | pingSendReply => exact hrest
    | fileUploadSend => exact hrest
    | fileUploadRecvStart => exact hrest
    | fileUploadRecvEnd => exact hrest
    | fileUploadRecvMiddle => exact hrest

theorem waits_owed (c : ManCommand) (h : waits c = true) : owed c = true := by
  cases c <;> first
    | rfl
    | cases h

theorem replyTicket_waits (hk : Kept s) {t : Ticket ManCommand}
    (ht : t ∈ s.jobQ.filterMap replyTicket) :
    waits t.command = true ∧ ∃ w ∈ (book s).waits, w.ticket = t := by
  rw [← filter_waits hk.genuine, List.mem_filter, List.mem_map] at ht
  exact ⟨ht.2, ht.1⟩

theorem message_ticket {m : Message} (hm : m ∈ s.written) : m.ticket ∈ (book s).written :=
  List.mem_map_of_mem hm

theorem Kept.genuine_message (hk : Kept s) {m : Message} (hm : m ∈ s.written) :
    s.commands[m.ticket.serial]? = some m.ticket.command :=
  (forall_tickets.mp hk.balanced.genuine).1 _ (message_ticket hm)

theorem Kept.genuine_waits (hk : Kept s) :
    ∀ w ∈ (book s).waits, s.commands[w.ticket.serial]? = some w.ticket.command :=
  (forall_tickets.mp hk.balanced.genuine).2

theorem Kept.count (hk : Kept s) :
    (s.commands.filter waits).length =
      (s.written.filter fun m => waits m.ticket.command).length +
        (s.jobQ.filterMap replyTicket).length := by
  have := hk.balanced.length_eq waits_owed
  rw [Book.tickets, List.filter_append, List.length_append] at this
  rw [← filter_waits hk.genuine]
  refine this.trans ?_
  congr 1
  simp only [book, List.filter_map, List.length_map]
  rfl

theorem Kept.one (hk : Kept s) {n : ℕ} {c : ManCommand} (hn : s.commands[n]? = some c)
    (hc : waits c = true) :
    (s.written.map fun m => m.ticket.serial).count n +
      ((s.jobQ.filterMap replyTicket).map Ticket.serial).count n = 1 := by
  have hone := hk.balanced.exactly_one hn (waits_owed c hc)
  rw [Book.tickets, List.map_append, List.count_append] at hone
  rw [← hone, ← filter_waits hk.genuine]
  congr 1
  · simp [book, Function.comp_def]
  · apply count_serial_filter
    intro t ht htn
    obtain ⟨w, hw, rfl⟩ := List.mem_map.mp ht
    have := hk.genuine_waits w hw
    rw [htn] at this
    have heq : c = w.ticket.command := Option.some.inj (hn.symm.trans this)
    rwa [← heq]

/-- Every p, r, l and P command that a run has accepted has been answered by one message or has
one wait queued, never both; and its message was written in at most 10 (p), 40 (r, l) or 40 + 10
(P) executions of its waits. -/
theorem waiting_commands_answered {garbage s : HostState} {es : List HostEvent}
    (h : EventRuns.Run HostStep (hostInit garbage) es s) :
    (s.commands.filter waits).length =
        (s.written.filter fun m => waits m.ticket.command).length +
          (s.jobQ.filterMap replyTicket).length ∧
      (∀ n c, s.commands[n]? = some c → waits c = true →
        (s.written.map fun m => m.ticket.serial).count n +
          ((s.jobQ.filterMap replyTicket).map Ticket.serial).count n = 1) ∧
      (∀ m ∈ s.written, s.commands[m.ticket.serial]? = some m.ticket.command ∧
        m.ticket.tries ≤ limit m.ticket.command) ∧
      ∀ t ∈ s.jobQ.filterMap replyTicket, s.commands[t.serial]? = some t.command ∧
        t.tries < limit t.command := by
  have hk := kept_run h
  refine ⟨hk.count, fun n c => hk.one, ?_, ?_⟩
  · intro m hm
    exact ⟨hk.genuine_message hm, hk.balanced.answered _ (message_ticket hm)⟩
  · intro t ht
    obtain ⟨-, w, hw, rfl⟩ := replyTicket_waits hk ht
    have hleft := hk.balanced.waiting w hw
    exact ⟨hk.genuine_waits w hw, by omega⟩

end

def noPacket : Packet := ⟨0, 0, 0, 0, fun _ => 0, 0, 0, 0, 0⟩

/-- Host 1 with one port. -/
def quietHost : HostState where
  toReceiver := ⟨1, none, ⟨⟨fun _ => 0, 0, 0, 0⟩, fun _ => 0, 0⟩, fun _ => none⟩
  nodePortNum := 1
  phase := .top
  controlCount := 0
  manMsg := fun _ => 0
  dst := 0
  name := []
  domainName := []
  pingReplyReceived := false
  dnsRegisterReceived := false
  dnsLookupReceived := false
  dnsRegisterBuffer := fun _ => 0
  dnsLookupBuffer := fun _ => 0
  jobQ := []
  sent := []
  commands := []
  written := []

/-- One iteration of the loop: a command, if any, and a packet of n bytes on the port. -/
def iteration (bytes : Option (List Int8)) (n : ℤ) (p : Packet) : List HostEvent :=
  [.control noPacket, .command bytes noPacket, .receive n p,
    .execute (fun _ => true) ⟨fun _ => noPacket, fun _ => 0, fun _ _ => 0⟩]

def pingedOnce : List HostEvent :=
  iteration (some [112, 32, 50]) (-1) noPacket ++
    iteration none 8 { noPacket with src := 2, dst := 1, type := pktPingReply }

theorem pingedOnce_runs : ((pingedOnce.foldlM hostStep (hostInit quietHost)).map fun s =>
    (s.commands, s.written.map Message.ticket)) = some ([.ping], [⟨0, .ping, 1⟩]) := by
  decide +kernel

theorem waiting_commands_answered_ping :
    ∃ s, EventRuns.Run HostStep (hostInit quietHost) pingedOnce s ∧
      s.written.map Message.ticket = [⟨0, .ping, 1⟩] ∧
      (s.commands.filter waits).length =
        (s.written.filter fun m => waits m.ticket.command).length +
          (s.jobQ.filterMap replyTicket).length ∧
      (∀ n c, s.commands[n]? = some c → waits c = true →
        (s.written.map fun m => m.ticket.serial).count n +
          ((s.jobQ.filterMap replyTicket).map Ticket.serial).count n = 1) ∧
      (∀ m ∈ s.written, s.commands[m.ticket.serial]? = some m.ticket.command ∧
        m.ticket.tries ≤ limit m.ticket.command) ∧
      ∀ t ∈ s.jobQ.filterMap replyTicket, s.commands[t.serial]? = some t.command ∧
        t.tries < limit t.command := by
  obtain ⟨s, hs, hw⟩ := Option.map_eq_some_iff.mp pingedOnce_runs
  have hrun : EventRuns.Run HostStep (hostInit quietHost) pingedOnce s :=
    EventRuns.Run.of_foldlM hs
  exact ⟨s, hrun, congrArg Prod.snd hw, waiting_commands_answered hrun⟩

end HostReplies
