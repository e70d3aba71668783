import NetSim.HostNode

/-! A host as a book of tickets: the commands it accepts, the waits it queues and the messages it
writes, and what the handlers of commands and packets add to them. -/
namespace HostBook

open PacketCodec FileSplit FileUpload ReplyBook HostNode

/-- A command whose message the manager reads. -/
def owed : ManCommand → Bool
  | .displayHostState | .ping | .dnsRegister | .dnsLookup | .dnsPing => true
  | _ => false

/-- A command that a wait job answers: p, r, l and P. -/
def waits : ManCommand → Bool
  | .ping | .dnsRegister | .dnsLookup | .dnsPing => true
  | _ => false

/-- How often the wait jobs of a command may be executed. -/
def limit : ManCommand → ℕ
  | .ping => 10
  | .dnsRegister | .dnsLookup | .dnsFileDownload => 40
  | .dnsPing => 40 + 10
  | _ => 0

def waitOf : HostJob → Option (Wait ManCommand)
  | .pingWaitForReply t timer => some ⟨t, timer⟩
  | .dnsRegisterWaitForReply t timer => some ⟨t, timer⟩
  | .dnsLookupWaitForReply t _ timer => some ⟨t, timer⟩
  | .dnsPingWaitForReply t timer => some ⟨t, timer + 10⟩
  | .dnsDownloadWaitForReply t _ timer => some ⟨t, timer⟩
  | _ => none

/-- The ticket of a ping, register, lookup or dns-ping wait. -/
def replyTicket : HostJob → Option (Ticket ManCommand)
  | .pingWaitForReply t _ => some t
  | .dnsRegisterWaitForReply t _ => some t
  | .dnsLookupWaitForReply t _ _ => some t
  | .dnsPingWaitForReply t _ => some t
  | _ => none

def book (s : HostState) : Book ManCommand :=
  ⟨s.commands, s.jobQ.filterMap waitOf, s.written.map Message.ticket⟩

def Genuine : HostJob → Prop
  | .pingWaitForReply t _ => t.command = .ping ∨ t.command = .dnsPing
  | .dnsRegisterWaitForReply t _ => t.command = .dnsRegister
  | .dnsLookupWaitForReply t _ _ => t.command = .dnsLookup
  | .dnsPingWaitForReply t timer => t.command = .dnsPing ∧ 0 < timer
  | .dnsDownloadWaitForReply t _ _ => t.command = .dnsFileDownload
  | _ => True

/-- The handler adds jobs and messages and leaves the commands as they are. -/
structure Adds (s u : HostState) (jobs : List HostJob) (messages : List Message) : Prop where
  commands : u.commands = s.commands
  jobQ : u.jobQ = s.jobQ ++ jobs
  written : u.written = s.written ++ messages

section

variable {s u v : HostState} {jobs jobs' : List HostJob} {messages messages' : List Message}

theorem Adds.trans (h : Adds s u jobs messages) (k : Adds u v jobs' messages') :
    Adds s v (jobs ++ jobs') (messages ++ messages') := by
  constructor
  · rw [k.commands, h.commands]
  · rw [k.jobQ, h.jobQ, List.append_assoc]
  · rw [k.written, h.written, List.append_assoc]

theorem Adds.same (h : Adds s u jobs messages) (hc : v.commands = u.commands)
    (hq : v.jobQ = u.jobQ) (hw : v.written = u.written) : Adds s v jobs messages := by
  constructor
  · rw [hc, h.commands]
  · rw [hq, h.jobQ]
  · rw [hw, h.written]

theorem adds_nothing (hc : u.commands = s.commands) (hq : u.jobQ = s.jobQ)
    (hw : u.written = s.written) : Adds s u [] [] := by
  constructor
  · exact hc
  · simpa using hq
  · simpa using hw

theorem adds_enqueue (jobs : List HostJob) (s : HostState) : Adds s (enqueue jobs s) jobs [] := by
  constructor
  · rfl
  · rfl
  · simp [enqueue]

theorem Adds.enqueued {w : HostState} (h : Adds s v [] []) (hc : w.commands = v.commands)
    (hq : w.jobQ = v.jobQ) (hw : w.written = v.written) : Adds s (enqueue jobs w) jobs [] :=
  (h.same hc hq hw).trans (adds_enqueue jobs w)

theorem adds_report (t : Ticket ManCommand) (bytes : List Int8) (s : HostState) :
    Adds s (report t bytes s) [] [⟨t, bytes⟩] := by
  constructor
  · rfl
  · simp [report]
  · rfl

theorem Adds.book (h : Adds s u jobs messages) :
    book u = ⟨s.commands, (book s).waits ++ jobs.filterMap waitOf,
      (book s).written ++ messages.map Message.ticket⟩ := by
  simp [HostBook.book, h.commands, h.jobQ, h.written]

theorem scanned_adds (h : Scanned s u) : Adds s u [] [] := by
  obtain ⟨dst, domainName, name, rfl⟩ := h
  exact adds_nothing rfl rfl rfl

def opened (t : Ticket ManCommand) : List (Wait ManCommand) :=
  if waits t.command ∨ t.command = .dnsFileDownload then [⟨t, limit t.command⟩] else []

def answeredAtOnce (t : Ticket ManCommand) : List (Ticket ManCommand) :=
  if t.command = .displayHostState then [t] else []

/-- What executing a command with ticket t does to queue and messages. -/
structure Opens (t : Ticket ManCommand) (s u : HostState) (jobs : List HostJob)
    (messages : List Message) : Prop where
  adds : Adds s u jobs messages
  genuine : ∀ job ∈ jobs, Genuine job
  queued : jobs.filterMap waitOf = opened t
  told : messages.map Message.ticket = answeredAtOnce t

def Plain (jobs : List HostJob) : Prop := ∀ job ∈ jobs, waitOf job = none

theorem Plain.waits (h : Plain jobs) : jobs.filterMap waitOf = [] :=
  List.filterMap_eq_nil_iff.mpr h

theorem Plain.genuine (h : Plain jobs) : ∀ job ∈ jobs, Genuine job := by
  intro job hjob
  have hnone := h job hjob
  cases job <;> trivial

theorem plain_singleton {job : HostJob} (h : waitOf job = none) : Plain [job] := by
  intro j hj
  rwa [List.mem_singleton.mp hj]

theorem opens_nothing {t : Ticket ManCommand} (h : Adds s u jobs []) (hjobs : Plain jobs)
    (ht : opened t = [] ∧ answeredAtOnce t = []) : Opens t s u jobs [] := by
  constructor
  · exact h
  · exact hjobs.genuine
  · rw [hjobs.waits, ht.1]
  · rw [ht.2]
    rfl

theorem opens_wait {t : Ticket ManCommand} {p : Packet} {wait : HostJob}
    (h : Adds s u [.sendPktAllPorts p, wait] []) (hg : Genuine wait)
    (hw : waitOf wait = some ⟨t, limit t.command⟩)
    (ht : opened t = [⟨t, limit t.command⟩] ∧ answeredAtOnce t = []) :
    Opens t s u [.sendPktAllPorts p, wait] [] := by
  constructor
  · exact h
  · intro job hjob
    simp only [List.mem_cons, List.not_mem_nil, or_false] at hjob
    rcases hjob with rfl | rfl
    · trivial
    · exact hg
  · rw [ht.1, List.filterMap_cons_none rfl, List.filterMap_cons_some hw]
    rfl
  · rw [ht.2]
    rfl

theorem ping_adds (arg : List Int8) (blank : Packet) (t : Ticket ManCommand) (s : HostState) :
    ∃ p, Adds s (ping arg blank t s) [.sendPktAllPorts p, .pingWaitForReply t 10] [] := by
  exact ⟨_, rfl, rfl, by simp [ping, enqueue]⟩

theorem executeCommand_opens {c : ManCommand} {arg : List Int8} {blank : Packet}
    {t : Ticket ManCommand} (h : executeCommand c arg blank t s = some u) (hc : t.command = c) :
    ∃ jobs messages, Opens t s u jobs messages := by
  have hquiet : ∀ {jobs}, Adds s u jobs [] → Plain jobs →
      opened t = [] ∧ answeredAtOnce t = [] → ∃ jobs messages, Opens t s u jobs messages :=
    fun ha hj ht => ⟨_, _, opens_nothing ha hj ht⟩
  cases executeCommand_commanded h with
  | displayHostState =>
    refine ⟨[], _, ⟨adds_report _ _ s, by simp, ?_, ?_⟩⟩
    · simp [opened, waits, hc]
    · simp [answeredAtOnce, hc]
  | setHostDir =>
    exact hquiet (adds_nothing rfl rfl rfl) (by simp [Plain])
      (by simp [opened, answeredAtOnce, waits, hc])
  | ping =>
    obtain ⟨p, hp⟩ := ping_adds arg blank t s
    exact ⟨_, _, opens_wait hp (.inl hc) (by simp [waitOf, limit, hc])
      (by simp [opened, answeredAtOnce, waits, hc])⟩
  | fileUpload hv =>
    have hscan := scanned_adds (scanDstName_scanned hv)
    exact hquiet (hscan.enqueued rfl rfl rfl) (plain_singleton rfl)
      (by simp [opened, answeredAtOnce, waits, hc])
  | fileDownload hv =>
    have hscan := scanned_adds (scanDstName_scanned hv)
    exact hquiet (hscan.enqueued rfl rfl rfl) (plain_singleton rfl)
      (by simp [opened, answeredAtOnce, waits, hc])
  | dnsRegister hv =>
    have hscan := scanned_adds (scanDomainName_scanned hv)
    exact ⟨_, _, opens_wait (hscan.enqueued rfl rfl rfl) hc
      (by simp [waitOf, limit, hc]) (by simp [opened, answeredAtOnce, waits, hc])⟩
  | dnsLookup hv =>
    have hscan := scanned_adds (scanDomainName_scanned hv)
    exact ⟨_, _, opens_wait (hscan.enqueued rfl rfl rfl) hc
      (by simp [waitOf, limit, hc]) (by simp [opened, answeredAtOnce, waits, hc])⟩
  | dnsPing hv =>
    have hscan := scanned_adds (scanDomainName_scanned hv)
    exact ⟨_, _, opens_wait (hscan.enqueued rfl rfl rfl) ⟨hc, by omega⟩
      (by simp [waitOf, limit, hc]) (by simp [opened, answeredAtOnce, waits, hc])⟩
  | dnsFileDownload hv =>
    have hscan := scanned_adds (scanDomainNameName_scanned hv)
    exact ⟨_, _, opens_wait (hscan.enqueued rfl rfl rfl) hc
      (by simp [waitOf, limit, hc]) (by simp [opened, answeredAtOnce, waits, hc])⟩
  | unknown =>
    exact hquiet (adds_nothing rfl rfl rfl) (by simp [Plain])
      (by simp [opened, answeredAtOnce, waits, hc])

theorem Opens.step {c : ManCommand} {r : HostState}
    (h : Opens ((book s).issue c) r u jobs messages) (hr : r.commands = s.commands ++ [c])
    (hq : r.jobQ = s.jobQ) (hw : r.written = s.written) :
    Step owed limit (book s) (answeredAtOnce ((book s).issue c)) (book u) := by
  have hbook : book u = ⟨s.commands ++ [c], (book s).waits ++ opened ((book s).issue c),
      (book s).written ++ answeredAtOnce ((book s).issue c)⟩ := by
    rw [h.adds.book, h.queued, h.told, hr]
    simp [book, hq, hw]
  rw [hbook]
  have hanswer : owed c = true → Step owed limit (book s) [(book s).issue c]
      ⟨s.commands ++ [c], (book s).waits, (book s).written ++ [(book s).issue c]⟩ :=
    fun hc => .answer (book s) hc
  have hwait : 0 < limit c → Step owed limit (book s) []
      ⟨s.commands ++ [c], (book s).waits ++ [⟨(book s).issue c, limit c⟩], (book s).written⟩ :=
    fun hpos => .wait (book s) hpos le_rfl
  have hpass : owed c = false → Step owed limit (book s) []
      ⟨s.commands ++ [c], (book s).waits, (book s).written⟩ := fun hc => .pass (book s) hc
  cases c with
  | displayHostState => simpa [opened, waits, Book.issue, answeredAtOnce] using hanswer rfl
  | ping => simpa [opened, waits, Book.issue, answeredAtOnce] using hwait (by decide)
  | dnsRegister => simpa [opened, waits, Book.issue, answeredAtOnce] using hwait (by decide)
  | dnsLookup => simpa [opened, waits, Book.issue, answeredAtOnce] using hwait (by decide)
  | dnsPing => simpa [opened, waits, Book.issue, answeredAtOnce] using hwait (by decide)
  | dnsFileDownload => simpa [opened, waits, Book.issue, answeredAtOnce] using hwait (by decide)
  | setHostDir => simpa [opened, waits, Book.issue, answeredAtOnce] using hpass rfl
  | fileUpload => simpa [opened, waits, Book.issue, answeredAtOnce] using hpass rfl
  | fileDownload => simpa [opened, waits, Book.issue, answeredAtOnce] using hpass rfl
  | unknown => simpa [opened, waits, Book.issue, answeredAtOnce] using hpass rfl

/-- Only plain jobs are added. -/
def AddsPlain (s u : HostState) : Prop := ∃ jobs, Adds s u jobs [] ∧ Plain jobs

theorem addsPlain_nothing (hc : u.commands = s.commands) (hq : u.jobQ = s.jobQ)
    (hw : u.written = s.written) : AddsPlain s u :=
  ⟨[], adds_nothing hc hq hw, by simp [Plain]⟩

theorem addsPlain_enqueue {job : HostJob} (h : waitOf job = none) :
    AddsPlain s (enqueue [job] s) :=
  ⟨[job], adds_enqueue _ _, plain_singleton h⟩

theorem translate_adds {n : ℤ} {p : Packet} (h : translate n p s = some u) : AddsPlain s u := by
  cases translate_translated h with
  | pingReq | fileUploadStart | fileUploadEnd | fileUploadMiddle | fileDownloadReq =>
    exact addsPlain_enqueue rfl
  | pingReply | dnsRegisterReply | dnsLookupReply | other =>
    exact addsPlain_nothing rfl rfl rfl

theorem receive_adds {n : ℤ} {p : Packet} (h : receive n p s = some u) : AddsPlain s u := by
  unfold receive at h
  split_ifs at h
  · cases h
    exact addsPlain_nothing rfl rfl rfl
  · exact translate_adds h
  · cases h
    exact addsPlain_nothing rfl rfl rfl

theorem Adds.stay (h : Adds s u jobs []) (hj : Plain jobs) :
    HostBook.book u = HostBook.book s := by
  rw [h.book, hj.waits]
  simp [HostBook.book]

end

end HostBook
