import NetSim.InfiniteRuns
import NetSim.ManagerReplies
import Mathlib.Order.Filter.Finite

/-! What a host that goes on with its loop gets done. Each iteration executes one job, so every
queued job has its turn, and a wait goes back to the queue only a bounded number of times. With
the manager of man.c this means that a read of a reply comes to an end. -/
namespace HostProgress

open Filter PacketCodec FileSplit ReplyBook HostNode HostBook HostWaits HostReplies InfiniteRuns
open EventRuns (Run)

section

variable {s u v : HostState} {e : HostEvent}

structure SameSetup (s u : HostState) : Prop where
  nodePortNum : u.nodePortNum = s.nodePortNum
  hostId : u.hostId = s.hostId
  dir : u.dir = s.dir

theorem SameSetup.same (h : SameSetup s v) (hu : u.nodePortNum = v.nodePortNum)
    (hid : u.hostId = v.hostId) (hdir : u.dir = v.dir) : SameSetup s u :=
  ⟨hu.trans h.nodePortNum, hid.trans h.hostId, hdir.trans h.dir⟩

theorem SameSetup.dequeued {q : List HostJob} (h : SameSetup { s with jobQ := q } u) :
    SameSetup s u := ⟨h.nodePortNum, h.hostId, h.dir⟩

theorem sameSetup_refl (s : HostState) : SameSetup s s := ⟨rfl, rfl, rfl⟩

theorem scanned_setup (h : Scanned s v) : SameSetup s v := by
  obtain ⟨dst, domainName, name, rfl⟩ := h
  exact ⟨rfl, rfl, rfl⟩

/-- Only "m" changes the directory. -/
theorem executeCommand_setup {c : ManCommand} {arg : List Int8} {blank : Packet}
    {t : Ticket ManCommand} (h : executeCommand c arg blank t s = some u) :
    SameSetup { s with dir := if c = .setHostDir then some arg else s.dir } u := by
  have hscanned : ∀ {v}, Scanned s v → u.nodePortNum = v.nodePortNum → u.hostId = v.hostId →
      u.dir = v.dir → SameSetup s u :=
    fun hv hports hid hdir => (scanned_setup hv).same hports hid hdir
  cases executeCommand_commanded h with
  | displayHostState | setHostDir | ping | unknown => exact ⟨rfl, rfl, rfl⟩
  | fileUpload hv => exact hscanned (scanDstName_scanned hv) rfl rfl rfl
  | fileDownload hv => exact hscanned (scanDstName_scanned hv) rfl rfl rfl
  | dnsRegister hv => exact hscanned (scanDomainName_scanned hv) rfl rfl rfl
  | dnsLookup hv => exact hscanned (scanDomainName_scanned hv) rfl rfl rfl
  | dnsPing hv => exact hscanned (scanDomainName_scanned hv) rfl rfl rfl
  | dnsFileDownload hv => exact hscanned (scanDomainNameName_scanned hv) rfl rfl rfl

theorem receive_setup {n : ℤ} {p : Packet} (h : receive n p s = some u) : SameSetup s u := by
  unfold receive at h
  split_ifs at h
  · cases h
    exact sameSetup_refl s
  · cases translate_translated h <;> exact ⟨rfl, rfl, rfl⟩
  · cases h
    exact sameSetup_refl s

theorem waitForReply_setup {received : Bool} {answered : Option HostState} {timer : ℕ}
    {again : ℕ → HostJob} {t : Ticket ManCommand} {timeOut : String}
    (h : waitForReply received answered timer again t timeOut s = some u)
    (hanswered : answered = some u → SameSetup s u) : SameSetup s u := by
  rcases waitForReply_cases h with ⟨-, ha⟩ | ⟨-, -, rfl⟩ | ⟨-, -, rfl⟩
  · exact hanswered ha
  · exact ⟨rfl, rfl, rfl⟩
  · exact ⟨rfl, rfl, rfl⟩

theorem recvEnd_setup {canOpen : List Int8 → Bool} {h r : FileUpload.Receiver} {p : Packet}
    (hr : FileUpload.recvEnd canOpen h p = some r) : r.hostId = h.hostId ∧ r.dir = h.dir := by
  obtain ⟨bytes, -, hr⟩ := Option.bind_eq_some_iff.mp hr
  split at hr
  · cases hr
    exact ⟨rfl, rfl⟩
  · obtain ⟨string, -, hr⟩ := Option.bind_eq_some_iff.mp hr
    obtain ⟨path, -, rfl⟩ := Option.map_eq_some_iff.mp hr
    split <;> exact ⟨rfl, rfl⟩

theorem execute_setup {canOpen : List Int8 → Bool} {mem : Scratch}
    (h : execute canOpen mem s = some u) : SameSetup s u := by
  rcases hs : s.jobQ with _ | ⟨job, q⟩
  · simp only [execute, hs, Option.some.injEq] at h
    rw [h]
    exact sameSetup_refl u
  · simp only [execute, hs] at h
    cases job with
    | sendPktAllPorts p | pingSendReply p =>
      cases h
      exact ⟨rfl, rfl, rfl⟩
    | fileUploadSend fname dst =>
      obtain ⟨packets, -, rfl⟩ := Option.map_eq_some_iff.mp h
      exact ⟨rfl, rfl, rfl⟩
    | fileUploadRecvStart p | fileUploadRecvMiddle p =>
      obtain ⟨r, hr, rfl⟩ := Option.map_eq_some_iff.mp h
      obtain ⟨bytes, -, rfl⟩ := Option.map_eq_some_iff.mp hr
      exact ⟨rfl, rfl, rfl⟩
    | fileUploadRecvEnd p =>
      obtain ⟨r, hr, rfl⟩ := Option.map_eq_some_iff.mp h
      obtain ⟨hid, hdir⟩ := recvEnd_setup hr
      exact ⟨rfl, hid, hdir⟩
    | pingWaitForReply t timer | dnsRegisterWaitForReply t timer
    | dnsLookupWaitForReply t fname timer =>
      apply SameSetup.dequeued
      apply waitForReply_setup h
      intro ha
      cases ha
      exact ⟨rfl, rfl, rfl⟩
    | dnsPingWaitForReply t timer =>
      apply SameSetup.dequeued
      apply waitForReply_setup h
      intro ha
      cases ha
      split <;> exact ⟨rfl, rfl, rfl⟩
    | dnsDownloadWaitForReply t fname timer =>
      apply SameSetup.dequeued
      apply waitForReply_setup h
      intro ha
      split at ha
      · cases ha
        exact ⟨rfl, rfl, rfl⟩
      · obtain ⟨p, -, rfl⟩ := Option.map_eq_some_iff.mp ha
        exact ⟨rfl, rfl, rfl⟩

theorem hostStep_nodePortNum (h : HostStep s e u) : u.nodePortNum = s.nodePortNum := by
  cases hostStep_part h with
  | control =>
    unfold controlTimer
    split <;> rfl
  | noCommand => rfl
  | command _ hv =>
    obtain ⟨-, hv⟩ := Option.ite_none_right_eq_some.mp hv
    have hports := (executeCommand_setup hv).nodePortNum
    exact hports
  | receive _ _ hv =>
    have hports := (receive_setup hv).nodePortNum
    exact hports
  | execute _ hv =>
    have hports := (execute_setup hv).nodePortNum
    exact hports

def executes : HostEvent → Bool
  | .execute _ _ => true
  | _ => false

/-- The parts of an iteration that are left before its job. -/
def partsLeft (s : HostState) : ℕ :=
  match s.phase with
  | .top => s.nodePortNum + 2
  | .command => s.nodePortNum + 1
  | .scan k => s.nodePortNum - k

theorem partsLeft_falls (h : HostStep s e u) (hno : executes e = false) :
    partsLeft u < partsLeft s := by
  have hports := hostStep_nodePortNum h
  cases hostStep_part h with
  | control hphase =>
    simp only [partsLeft, hphase]
    rw [hports]
    omega
  | noCommand hphase =>
    simp only [partsLeft, hphase]
    omega
  | command hphase =>
    simp only [partsLeft, hphase]
    rw [hports]
    omega
  | receive hphase hlt =>
    simp only [partsLeft, hphase]
    rw [hports]
    omega
  | execute => cases hno

def asksCommand : HostEvent → Bool
  | .command _ _ => true
  | _ => false

/-- The parts that are left before the next read of a command. -/
def partsToCommand (s : HostState) : ℕ :=
  match s.phase with
  | .top => 1
  | .command => 0
  | .scan k => s.nodePortNum - k + 2

theorem partsToCommand_falls (h : HostStep s e u) (hno : asksCommand e = false) :
    partsToCommand u < partsToCommand s := by
  have hports := hostStep_nodePortNum h
  cases hostStep_part h with
  | control hphase =>
    simp only [partsToCommand, hphase]
    omega
  | noCommand | command => cases hno
  | receive hphase hlt =>
    simp only [partsToCommand, hphase]
    rw [hports]
    omega
  | execute hphase =>
    simp only [partsToCommand, hphase]
    omega

theorem hostStep_grows (h : HostStep s e u) (hno : executes e = false) : s.jobQ <+: u.jobQ := by
  cases hostStep_part h with
  | control =>
    unfold controlTimer
    split
    · exact List.prefix_append _ _
    · exact List.prefix_rfl
  | noCommand => exact List.prefix_rfl
  | command _ hv =>
    obtain ⟨-, hv⟩ := Option.ite_none_right_eq_some.mp hv
    obtain ⟨jobs, messages, ho⟩ := executeCommand_opens hv rfl
    exact ⟨jobs, ho.adds.jobQ.symm⟩
  | receive _ _ hv =>
    obtain ⟨jobs, ha, -⟩ := receive_adds hv
    exact ⟨jobs, ha.jobQ.symm⟩
  | execute => cases hno

theorem executed (hk : Kept s) (h : HostStep s e u) (he : executes e = true) :
    s.jobQ = [] ∧ u.jobQ = [] ∨
      ∃ job q jobs messages, s.jobQ = job :: q ∧ Adds { s with jobQ := q } u jobs messages ∧
        Outcome s job jobs messages := by
  cases hostStep_part h with
  | control | noCommand | command | receive => cases he
  | execute _ hv =>
    rcases hs : s.jobQ with _ | ⟨job, q⟩
    · simp only [execute, hs, Option.some.injEq] at hv
      rw [← hv]
      exact .inl ⟨rfl, hs⟩
    · obtain ⟨jobs, messages, ha, ho⟩ := execute_outcome hs (hk.genuine job (by simp [hs])) hv
      exact .inr ⟨job, q, jobs, messages, rfl, ha.same rfl rfl rfl, ho⟩

theorem executed_tail (hk : Kept s) (h : HostStep s e u) (he : executes e = true) :
    s.jobQ.tail <+: u.jobQ := by
  rcases executed hk h he with ⟨hs, -⟩ | ⟨job, q, jobs, messages, hs, ha, -⟩
  · rw [hs]
    exact List.nil_prefix
  · rw [hs]
    exact ⟨jobs, ha.jobQ.symm⟩

def WaitsFor (n : ℕ) (job : HostJob) : Prop :=
  ∃ w, waitOf job = some w ∧ w.ticket.serial = n ∧ owed w.ticket.command = true

def triesLeft (job : HostJob) : ℕ := ((waitOf job).map Wait.left).getD 0

def Told (n : ℕ) (s : HostState) : Prop := ∃ m ∈ s.written, m.ticket.serial = n

theorem wait_tried {n : ℕ} {job : HostJob} (hk : Kept s) (h : HostStep s e u)
    (he : executes e = true) (hfront : s.jobQ[0]? = some job) (hw : WaitsFor n job) :
    Told n u ∨ ∃ again ∈ u.jobQ, WaitsFor n again ∧ triesLeft again < triesLeft job := by
  obtain ⟨w, hwait, hserial, howed⟩ := hw
  rcases executed hk h he with ⟨hs, -⟩ | ⟨job', q, jobs, messages, hs, ha, ho⟩
  · rw [hs] at hfront
    cases hfront
  rw [hs] at hfront
  cases hfront
  cases ho with
  | plain hnone =>
    rw [hwait] at hnone
    cases hnone
  | @delay js again t left left' hsome _ hagain _ hlt _ =>
    rw [hwait] at hsome
    cases hsome
    right
    refine ⟨again, ?_, ⟨_, hagain, hserial, howed⟩, ?_⟩
    · rw [ha.jobQ]
      simp
    · simpa [triesLeft, hwait, hagain] using hlt
  | @close bytes t _ hsome =>
    rw [hwait] at hsome
    cases hsome
    left
    refine ⟨⟨t.tried, bytes⟩, ?_, hserial⟩
    rw [ha.written]
    exact List.mem_append_right _ (List.mem_singleton.mpr rfl)
  | drop hsome _ hnot =>
    rw [hwait] at hsome
    cases hsome
    rw [howed] at hnot
    cases hnot

theorem told_or_waited (hk : Kept s) {n : ℕ} {c : ManCommand} (hn : s.commands[n]? = some c)
    (hc : owed c = true) : Told n s ∨ ∃ job ∈ s.jobQ, WaitsFor n job := by
  have hone := hk.balanced.exactly_one hn hc
  have hmem : n ∈ (book s).tickets.map Ticket.serial := by
    apply List.count_pos_iff.mp
    omega
  obtain ⟨t, ht, rfl⟩ := List.mem_map.mp hmem
  have hgen := hk.balanced.genuine t ht
  have hcommand : t.command = c := Option.some.inj (hgen.symm.trans hn)
  rcases List.mem_append.mp ht with ht | ht
  · obtain ⟨m, hm, rfl⟩ := List.mem_map.mp ht
    exact .inl ⟨m, hm, rfl⟩
  · obtain ⟨w, hw, rfl⟩ := List.mem_map.mp ht
    obtain ⟨job, hjob, hwait⟩ := List.mem_filterMap.mp hw
    exact .inr ⟨job, hjob, w, hwait, rfl, hcommand ▸ hc⟩

/-- There is only one message for it. -/
theorem told_once (hk : Kept s) {n : ℕ} {c : ManCommand} (hn : s.commands[n]? = some c)
    (hc : owed c = true) (ht : Told n s) :
    (s.written.map fun m => m.ticket.serial).count n = 1 := by
  have hone := hk.balanced.exactly_one hn hc
  rw [Book.tickets, List.map_append, List.count_append] at hone
  have hwritten : (book s).written.map Ticket.serial =
      s.written.map fun m => m.ticket.serial := by
    simp [book, Function.comp_def]
  rw [hwritten] at hone
  obtain ⟨m, hm, hserial⟩ := ht
  have hpos : 0 < (s.written.map fun m => m.ticket.serial).count n :=
    List.count_pos_iff.mpr (List.mem_map.mpr ⟨m, hm, hserial⟩)
  omega

end

/-- A host in a larger system, which may do other things between its steps. -/
abbrev HostRun := Execution (Stutters HostStep)

section

variable (e : HostRun) {garbage : HostState}

theorem kept_at (h0 : e.state 0 = hostInit garbage) (t : ℕ) : Kept (e.state t) := by
  apply e.invariant (P := Kept) (Stutters.invariant fun _ _ _ hs hk => kept_step hk hs)
    (Nat.zero_le t)
  rw [h0]
  exact kept_init garbage

def Executing (t : ℕ) : Prop := ∃ x, e.label t = some x ∧ executes x = true

theorem executing_often (hgoes : ∃ᶠ t in atTop, e.label t ≠ none) :
    ∃ᶠ t in atTop, Executing e t := by
  rw [frequently_atTop]
  intro a
  apply tick_of_rank (fun t => partsLeft (e.state t)) hgoes
  · intro t _ ht
    rw [e.waited (not_not.mp ht)]
  · intro t _ ht hno
    obtain ⟨x, hx⟩ := Option.ne_none_iff_exists'.mp ht
    apply partsLeft_falls (e.moved hx)
    by_contra hexec
    exact hno ⟨x, hx, Bool.of_not_eq_false hexec⟩

theorem host_queue (h0 : e.state 0 = hostInit garbage) :
    Queue (fun t => (e.state t).jobQ) (Executing e) where
  waits t ht := by
    cases hx : e.label t with
    | none => rw [e.waited hx]
    | some x =>
      apply hostStep_grows (e.moved hx)
      by_contra hexec
      exact ht ⟨x, hx, Bool.of_not_eq_false hexec⟩
  leaves t ht := by
    obtain ⟨x, hx, hexec⟩ := ht
    exact executed_tail (kept_at e h0 t) (e.moved hx) hexec

theorem records_grow {t u : ℕ} (h0 : e.state 0 = hostInit garbage) (htu : t ≤ u) :
    (e.state t).written <+: (e.state u).written ∧
      (e.state t).commands <+: (e.state u).commands := by
  induction u, htu using Nat.le_induction with
  | base => exact ⟨List.prefix_rfl, List.prefix_rfl⟩
  | succ u _ ih =>
    cases hx : e.label u with
    | none =>
      rw [e.waited hx]
      exact ih
    | some x =>
      have hb := hostStep_books (kept_at e h0 u).genuine (e.moved hx)
      exact ⟨ih.1.trans hb.written, ih.2.trans ⟨_, hb.commands.symm⟩⟩

theorem told_eventually (h0 : e.state 0 = hostInit garbage)
    (hgoes : ∃ᶠ t in atTop, e.label t ≠ none) {t n : ℕ} {c : ManCommand}
    (hn : (e.state t).commands[n]? = some c) (hc : owed c = true) :
    ∃ u, t ≤ u ∧ Told n (e.state u) := by
  rcases told_or_waited (kept_at e h0 t) hn hc with htold | ⟨job, hjob, hw⟩
  · exact ⟨t, le_rfl, htold⟩
  · refine (host_queue e h0).retried (executing_often e hgoes) triesLeft ?_ hjob hw
    intro u job hu hfront hw
    obtain ⟨x, hx, hexec⟩ := hu
    exact wait_tried (kept_at e h0 u) (e.moved hx) hexec hfront hw

theorem told_from (h0 : e.state 0 = hostInit garbage) (hgoes : ∃ᶠ t in atTop, e.label t ≠ none)
    {t n : ℕ} {c : ManCommand} (hn : (e.state t).commands[n]? = some c) (hc : owed c = true) :
    ∀ᶠ v in atTop, Told n (e.state v) := by
  obtain ⟨u, _, m, hm, hserial⟩ := told_eventually e h0 hgoes hn hc
  rw [eventually_atTop]
  exact ⟨u, fun v huv => ⟨m, (records_grow e h0 huv).1.subset hm, hserial⟩⟩

/-- A host that goes on with its loop writes one message for each command s, p, r, l and P that
it has accepted, and no second one. -/
theorem commands_get_one_message (h0 : e.state 0 = hostInit garbage)
    (hgoes : ∃ᶠ t in atTop, e.label t ≠ none) {t n : ℕ} {c : ManCommand}
    (hn : (e.state t).commands[n]? = some c) (hc : owed c = true) :
    ∀ᶠ v in atTop, ((e.state v).written.map fun m => m.ticket.serial).count n = 1 := by
  filter_upwards [told_from e h0 hgoes hn hc, eventually_ge_atTop t] with v htold htv
  exact told_once (kept_at e h0 v) (initial_getElem? (records_grow e h0 htv).2 hn) hc htold

end

open ManagerReplies (System SystemEvent SystemStep systemStep systemInit takeCommand message letter
  command readsReply NoFailedDownload Paired)

/-- Every command is with the host or on its way, and each one that is owed a message was served
once, or is being served. -/
structure Served (s : System) : Prop where
  host : Kept s.host
  pipe : ∀ bytes ∈ s.pipe, ∃ r, message r = some bytes
  issued : s.issued = s.host.commands ++ s.pipe.map letter
  reads : s.read.length + s.serving.toList.length = (s.issued.filter owed).length

theorem served_init (garbage : HostState) : Served (systemInit garbage) := by
  constructor
  · exact kept_init garbage
  · simp [systemInit]
  · rfl
  · rfl

theorem served_step {s u : System} {e : SystemEvent} (h : Served s) (hs : SystemStep s e u) :
    Served u := by
  cases e with
  | issue r =>
    simp only [SystemStep, systemStep, Option.ite_none_right_eq_some, Option.map_eq_some_iff] at hs
    obtain ⟨hidle, bytes, hb, rfl⟩ := hs
    constructor
    · exact h.host
    · intro b hmem
      rcases List.mem_append.mp hmem with hmem | hmem
      · exact h.pipe b hmem
      · rw [List.mem_singleton.mp hmem]
        exact ⟨r, hb⟩
    · simp [h.issued, ManagerReplies.letter_message hb]
    · have hreads := h.reads
      rw [hidle] at hreads
      simp only [List.filter_append, List.length_append, ManagerReplies.readsReply_eq]
      rw [← hreads]
      cases hc : owed (command r) <;> simp [hc]
  | host e =>
    simp only [SystemStep, systemStep, Option.bind_eq_some_iff, Option.map_eq_some_iff] at hs
    obtain ⟨pipe, hpipe, host, hhost, rfl⟩ := hs
    obtain ⟨hletters, hsub⟩ := ManagerReplies.takeCommand_spec s.host hpipe h.pipe
    constructor
    · exact kept_step h.host hhost
    · exact fun bytes hbytes => h.pipe bytes (hsub bytes hbytes)
    · rw [h.issued, hletters, (hostStep_books h.host.genuine hhost).commands, List.append_assoc]
    · exact h.reads
  | read =>
    simp only [SystemStep, systemStep] at hs
    split at hs
    case h_2 => cases hs
    case h_1 n m hn hm =>
      cases hs
      constructor
      · exact h.host
      · exact h.pipe
      · exact h.issued
      · have hreads := h.reads
        rw [hn] at hreads
        simpa using hreads

/-- The step of the host in a step of the system. -/
def hostEvent : SystemEvent → Option HostEvent
  | .host e => some e
  | _ => none

theorem systemStep_host {s u : System} {e : SystemEvent} (hs : SystemStep s e u) :
    Stutters HostStep s.host (hostEvent e) u.host := by
  cases e with
  | issue r =>
    simp only [SystemStep, systemStep, Option.ite_none_right_eq_some, Option.map_eq_some_iff] at hs
    obtain ⟨-, bytes, -, rfl⟩ := hs
    exact .waits
  | host e =>
    simp only [SystemStep, systemStep, Option.bind_eq_some_iff, Option.map_eq_some_iff] at hs
    obtain ⟨pipe, -, host, hhost, rfl⟩ := hs
    exact .moves hhost
  | read =>
    simp only [SystemStep, systemStep] at hs
    split at hs
    · cases hs
      exact .waits
    · cases hs

theorem stutters_host {s u : System} {o : Option SystemEvent} (hs : Stutters SystemStep s o u) :
    Stutters HostStep s.host (o.bind hostEvent) u.host := by
  cases hs with
  | waits => exact .waits
  | moves hs => exact systemStep_host hs

theorem systemStep_issued {s u : System} {e : SystemEvent} (hs : SystemStep s e u) :
    s.issued <+: u.issued := by
  cases e with
  | issue r =>
    simp only [SystemStep, systemStep, Option.ite_none_right_eq_some, Option.map_eq_some_iff] at hs
    obtain ⟨-, bytes, -, rfl⟩ := hs
    exact List.prefix_append _ _
  | host x =>
    simp only [SystemStep, systemStep, Option.bind_eq_some_iff, Option.map_eq_some_iff] at hs
    obtain ⟨pipe, -, host, -, rfl⟩ := hs
    exact List.prefix_rfl
  | read =>
    simp only [SystemStep, systemStep] at hs
    split at hs
    · cases hs
      exact List.prefix_rfl
    · cases hs

/-- A manager with one host in a larger system. -/
abbrev SystemRun := Execution (Stutters SystemStep)

section

variable (e : SystemRun) {garbage : HostState}

def hostRun : HostRun :=
  e.part System.host (·.bind hostEvent) fun _ _ _ hs => stutters_host hs

theorem served_at (h0 : e.state 0 = systemInit garbage) (t : ℕ) : Served (e.state t) := by
  apply e.invariant (P := Served) (Stutters.invariant fun _ _ _ hs h => served_step h hs)
    (Nat.zero_le t)
  rw [h0]
  exact served_init garbage

theorem issued_grows {t u : ℕ} (htu : t ≤ u) : (e.state t).issued <+: (e.state u).issued := by
  refine e.relates (R := fun s v => s.issued <+: v.issued) (fun _ => List.prefix_rfl) ?_ htu
  intro s a u v hu hv
  cases hv with
  | waits => exact hu
  | moves hv => exact hu.trans (systemStep_issued hv)

def Asking (t : ℕ) : Prop := ∃ x, (hostRun e).label t = some x ∧ asksCommand x = true

theorem asking_often (hgoes : ∃ᶠ t in atTop, (hostRun e).label t ≠ none) :
    ∃ᶠ t in atTop, Asking e t := by
  rw [frequently_atTop]
  intro a
  apply tick_of_rank (fun t => partsToCommand (e.state t).host) hgoes
  · intro t _ ht
    have hw := (hostRun e).waited (not_not.mp ht)
    exact congrArg partsToCommand hw
  · intro t _ ht hno
    obtain ⟨x, hx⟩ := Option.ne_none_iff_exists'.mp ht
    apply partsToCommand_falls ((hostRun e).moved hx)
    by_contra hasks
    exact hno ⟨x, hx, Bool.of_not_eq_false hasks⟩

theorem newCommands_not_asking {s : HostState} {x : HostEvent} (hx : asksCommand x = false) :
    newCommands s x = [] := by
  cases x with
  | command => cases hx
  | control | receive | execute => rfl

theorem commands_wait (h0 : e.state 0 = systemInit garbage) {t : ℕ} (ht : ¬ Asking e t) :
    (e.state (t + 1)).host.commands = (e.state t).host.commands := by
  cases hx : (hostRun e).label t with
  | none => exact congrArg HostState.commands ((hostRun e).waited hx)
  | some x =>
    have hb := hostStep_books (served_at e h0 t).host.genuine ((hostRun e).moved hx)
    have hno : asksCommand x = false := by
      by_contra hasks
      exact ht ⟨x, hx, Bool.of_not_eq_false hasks⟩
    rw [newCommands_not_asking hno] at hb
    exact hb.commands.trans (List.append_nil _)

theorem commands_taken (h0 : e.state 0 = systemInit garbage) {t : ℕ} (ht : Asking e t)
    (hpipe : (e.state t).pipe ≠ []) :
    (e.state (t + 1)).host.commands.length = (e.state t).host.commands.length + 1 := by
  obtain ⟨x, hx, hasks⟩ := ht
  have hb := hostStep_books (served_at e h0 t).host.genuine ((hostRun e).moved hx)
  obtain ⟨a, hl, ha⟩ := Option.bind_eq_some_iff.mp hx
  have hs := e.moved hl
  cases a with
  | issue | read => cases ha
  | host y =>
    cases ha
    simp only [SystemStep, systemStep, Option.bind_eq_some_iff] at hs
    obtain ⟨rest, htake, -⟩ := hs
    have hcommands : (e.state (t + 1)).host.commands = _ := hb.commands
    rw [hcommands]
    cases x with
    | control | receive | execute => cases hasks
    | command bytes blank =>
      cases bytes with
      | none =>
        simp only [takeCommand, Option.ite_none_right_eq_some] at htake
        exact absurd htake.1 hpipe
      | some bytes =>
        rw [List.length_append]
        rfl

theorem commands_accepted (h0 : e.state 0 = systemInit garbage)
    (hgoes : ∃ᶠ t in atTop, (hostRun e).label t ≠ none) (t : ℕ) :
    ∃ u, t ≤ u ∧ (e.state t).issued <+: (e.state u).host.commands := by
  have hlength : ∃ u, t ≤ u ∧ (e.state t).issued.length ≤ (e.state u).host.commands.length := by
    apply tick_of_rank (fun u => (e.state t).issued.length - (e.state u).host.commands.length)
      (asking_often e hgoes)
    · intro u _ hu
      rw [commands_wait e h0 hu]
    · intro u htu hu hless
      have hgrown := (issued_grows e htu).length_le
      have hissued := congrArg List.length (served_at e h0 u).issued
      rw [List.length_append, List.length_map] at hissued
      have hpipe : (e.state u).pipe ≠ [] := by
        intro hempty
        rw [hempty, List.length_nil] at hissued
        omega
      rw [commands_taken e h0 hu hpipe]
      omega
  obtain ⟨u, htu, hle⟩ := hlength
  refine ⟨u, htu, ?_⟩
  have hall := issued_grows e htu
  rw [(served_at e h0 u).issued] at hall
  exact List.prefix_of_prefix_length_le hall (List.prefix_append _ _) hle

theorem messages_arrive (h0 : e.state 0 = systemInit garbage)
    (hgoes : ∃ᶠ t in atTop, (hostRun e).label t ≠ none) (t : ℕ) :
    ∀ᶠ u in atTop, ((e.state t).issued.filter owed).length ≤ (e.state u).host.written.length := by
  obtain ⟨a, hta, haccepted⟩ := commands_accepted e h0 hgoes t
  have hhost : (hostRun e).state 0 = hostInit garbage := congrArg System.host h0
  have htold : ∀ᶠ u in atTop, ∀ k ∈ (accepted owed (e.state t).issued).toFinset,
      Told k.2 (e.state u).host := by
    rw [Filter.eventually_all_finset]
    intro k hk
    obtain ⟨hn, hc⟩ := mem_accepted.mp (List.mem_toFinset.mp hk)
    exact told_from (hostRun e) hhost hgoes (initial_getElem? haccepted hn) hc
  filter_upwards [htold] with u hu
  have hsub : (accepted owed (e.state t).issued).map Prod.snd ⊆
      (e.state u).host.written.map fun m => m.ticket.serial := by
    intro n hn
    obtain ⟨k, hk, rfl⟩ := List.mem_map.mp hn
    obtain ⟨m, hm, hserial⟩ := hu k (List.mem_toFinset.mpr hk)
    exact List.mem_map.mpr ⟨m, hm, hserial⟩
  have hle := ((nodup_serials owed (e.state t).issued).subperm hsub).length_le
  rwa [List.length_map, length_accepted, List.length_map] at hle

theorem waits_or_reads {t u n : ℕ} (htu : t ≤ u) (hn : (e.state t).serving = some n) :
    (∃ v, t ≤ v ∧ v < u ∧ e.label v = some .read ∧ (e.state v).serving = some n) ∨
      (e.state u).serving = some n ∧ (e.state u).read = (e.state t).read := by
  induction u, htu using Nat.le_induction with
  | base => exact .inr ⟨hn, rfl⟩
  | succ u htu ih =>
    rcases ih with ⟨v, htv, hvu, hread⟩ | ⟨hserving, hsame⟩
    · exact .inl ⟨v, htv, by omega, hread⟩
    · cases hl : e.label u with
      | none =>
        rw [e.waited hl]
        exact .inr ⟨hserving, hsame⟩
      | some a =>
        have hs := e.moved hl
        cases a with
        | issue r =>
          simp only [SystemStep, systemStep, Option.ite_none_right_eq_some] at hs
          rw [hserving] at hs
          cases hs.1
        | host x =>
          simp only [SystemStep, systemStep, Option.bind_eq_some_iff, Option.map_eq_some_iff] at hs
          obtain ⟨pipe, -, host, -, hnext⟩ := hs
          rw [← hnext]
          exact .inr ⟨hserving, hsame⟩
        | read => exact .inl ⟨u, htu, by omega, hl, hserving⟩

theorem paired_until (h0 : e.state 0 = systemInit garbage) {t : ℕ}
    (hno : ∀ v, v < t → ∀ x ∈ e.label v, NoFailedDownload (e.state v) x) :
    Paired (e.state t) := by
  induction t with
  | zero =>
    rw [h0]
    exact ManagerReplies.paired_init garbage
  | succ t ih =>
    have hpaired := ih fun v hv => hno v (by omega)
    cases hl : e.label t with
    | none =>
      rw [e.waited hl]
      exact hpaired
    | some x =>
      exact ManagerReplies.paired_step hpaired (e.moved hl) (hno t (Nat.lt_succ_self t) x hl)

theorem message_there (h0 : e.state 0 = systemInit garbage)
    (hgoes : ∃ᶠ t in atTop, (hostRun e).label t ≠ none) {t n : ℕ}
    (hn : (e.state t).serving = some n) :
    ∃ u m, t ≤ u ∧ (e.state u).serving = some n ∧
      (e.state u).host.written[(e.state u).read.length]? = some m := by
  obtain ⟨a, ha⟩ := eventually_atTop.mp (messages_arrive e h0 hgoes t)
  have hwritten := ha (max a t) (le_max_left a t)
  rcases waits_or_reads e (le_max_right a t) hn with ⟨v, htv, -, hl, hserving⟩ | ⟨hserving, hread⟩
  · have hs := e.moved hl
    simp only [SystemStep, systemStep] at hs
    split at hs
    case h_1 n' m hn' hm =>
      refine ⟨v, m, htv, hserving, ?_⟩
      exact hm
    case h_2 => cases hs
  · have hreads := (served_at e h0 t).reads
    rw [hn, Option.toList_some, List.length_singleton] at hreads
    have hlt : (e.state (max a t)).read.length < (e.state (max a t)).host.written.length := by
      rw [hread]
      omega
    exact ⟨max a t, _, le_max_right a t, hserving, List.getElem?_eq_getElem hlt⟩

end

/-- The manager never waits in vain: as long as the host goes on with its loop, the read of a
reply finds a message, and it is the reply to the manager's command unless a download by name
has failed before. -/
theorem reads_come_to_an_end (e : Execution SystemStep) {garbage : HostState}
    (h0 : e.state 0 = systemInit garbage)
    (hgoes : ∃ᶠ t in atTop, hostEvent (e.label t) ≠ none) {t n : ℕ}
    (hn : (e.state t).serving = some n) :
    ∃ u m, t ≤ u ∧ (e.state u).serving = some n ∧
      (e.state u).host.written[(e.state u).read.length]? = some m ∧
      ((∀ v, v < u → NoFailedDownload (e.state v) (e.label v)) → m.ticket.serial = n) := by
  obtain ⟨u, m, htu, hserving, hm⟩ := message_there e.unpaused h0 hgoes hn
  refine ⟨u, m, htu, hserving, hm, ?_⟩
  intro hno
  have hpaired : Paired (e.state u) := by
    apply paired_until e.unpaused h0
    intro v hv x hx
    cases hx
    exact hno v hv
  exact (hpaired.next_message hserving hm).2

def pingText : List Int8 := [112, 32, 50]

def nextPart (s : HostState) (command : Option (List Int8)) : HostEvent :=
  match s.phase with
  | .top => .control noPacket
  | .command => .command command noPacket
  | .scan k =>
    if k < s.nodePortNum then .receive (-1) noPacket
    else .execute (fun _ => true) ⟨fun _ => noPacket, fun _ => 0, fun _ _ => 0⟩

def IsPing : HostJob → Prop
  | .sendPktAllPorts _ | .pingWaitForReply _ _ => True
  | _ => False

/-- Only pings are queued. -/
structure PingsOnly (s : HostState) : Prop where
  jobs : ∀ job ∈ s.jobQ, IsPing job
  phase : ∀ k, s.phase = .scan k → k ≤ s.nodePortNum

theorem PingsOnly.enqueue {s : HostState} (h : PingsOnly s) {jobs : List HostJob}
    (hjobs : ∀ job ∈ jobs, IsPing job) : PingsOnly (enqueue jobs s) where
  jobs := by
    intro job hjob
    exact (List.mem_append.mp hjob).elim (h.jobs job) (hjobs job)
  phase := h.phase

theorem pingsOnly_execute {s : HostState} (h : PingsOnly s) (canOpen : List Int8 → Bool)
    (mem : Scratch) : ∃ u, execute canOpen mem s = some u ∧ ∀ job ∈ u.jobQ, IsPing job := by
  rcases hs : s.jobQ with _ | ⟨job, q⟩
  · exact ⟨s, by simp [execute, hs], h.jobs⟩
  have htail : PingsOnly { s with jobQ := q } := by
    refine ⟨?_, h.phase⟩
    intro j hj
    exact h.jobs j (by rw [hs]; exact List.mem_cons_of_mem job hj)
  have hping : IsPing job := h.jobs job (by simp [hs])
  cases job with
  | sendPktAllPorts p =>
    exact ⟨{ s with jobQ := q, sent := s.sent ++ [p] }, by simp [execute, hs], htail.jobs⟩
  | pingWaitForReply t timer =>
    simp only [execute, hs, pingWaitForReply, waitForReply]
    split_ifs
    · exact ⟨_, rfl, htail.jobs⟩
    · have hagain : ∀ job ∈ [HostJob.pingWaitForReply t.tried (timer - 1)], IsPing job :=
        List.forall_mem_singleton.mpr trivial
      exact ⟨_, rfl, (htail.enqueue hagain).jobs⟩
    · exact ⟨_, rfl, htail.jobs⟩
  | pingSendReply | fileUploadSend | fileUploadRecvStart | fileUploadRecvEnd
  | fileUploadRecvMiddle | dnsRegisterWaitForReply | dnsLookupWaitForReply | dnsPingWaitForReply
  | dnsDownloadWaitForReply => exact hping.elim

theorem pingsOnly_command {s : HostState} (h : PingsOnly s) :
    ∃ u, handleCommand pingText noPacket s = some u ∧ ∀ job ∈ u.jobQ, IsPing job := by
  have hletter : manCommand (getManCommand pingText s.manMsg).1 = .ping := by
    rw [pingText, ManagerReplies.getManCommand_head (by decide)]
    rfl
  simp only [handleCommand, hletter]
  rw [if_pos (by decide)]
  refine ⟨_, rfl, ?_⟩
  intro job hjob
  rcases List.mem_append.mp hjob with hold | hnew
  · exact h.jobs job hold
  · simp only [List.mem_cons, List.not_mem_nil, or_false] at hnew
    rcases hnew with rfl | rfl <;> trivial

theorem pingsOnly_step {s : HostState} (h : PingsOnly s) {command : Option (List Int8)}
    (hc : ∀ bytes, command = some bytes → bytes = pingText) :
    ∃ u, hostStep s (nextPart s command) = some u ∧ PingsOnly u := by
  cases hphase : s.phase with
  | top =>
    refine ⟨_, by simp only [nextPart, hostStep, hphase, if_true]; rfl, ?_, by simp⟩
    unfold controlTimer
    split
    · apply PingsOnly.jobs (s := HostNode.enqueue _ { s with controlCount := 0 })
      have hs : PingsOnly { s with controlCount := 0 } := ⟨h.jobs, h.phase⟩
      exact hs.enqueue (List.forall_mem_singleton.mpr trivial)
    · exact h.jobs
  | command =>
    cases command with
    | none =>
      refine ⟨{ s with phase := .scan 0 }, ?_, h.jobs, by simp⟩
      simp [nextPart, hostStep, hphase]
    | some bytes =>
      obtain ⟨u, hu, hjobs⟩ := pingsOnly_command h
      refine ⟨{ u with phase := .scan 0 }, ?_, hjobs, by simp⟩
      simp [nextPart, hostStep, hphase, hc bytes rfl, hu]
  | scan k =>
    by_cases hk : k < s.nodePortNum
    · refine ⟨{ s with phase := .scan (k + 1) }, ?_, h.jobs, ?_⟩
      · simp [nextPart, hostStep, hphase, hk, receive]
      · intro j hj
        cases hj
        exact hk
    · have hend : k = s.nodePortNum := by
        have := h.phase k hphase
        omega
      obtain ⟨u, hu, hjobs⟩ := pingsOnly_execute h (fun _ => true)
        ⟨fun _ => noPacket, fun _ => 0, fun _ _ => 0⟩
      refine ⟨{ u with phase := .top }, ?_, hjobs, by simp⟩
      simp [nextPart, hostStep, hphase, hend, hu]

def pingOnce (s : System) : SystemEvent :=
  if s.issued = [] then .issue (.ping 2) else .host (nextPart s.host s.pipe.head?)

structure Pinged (s : System) : Prop where
  host : PingsOnly s.host
  pipe : ∀ bytes ∈ s.pipe, bytes = pingText
  idle : s.issued = [] → s.serving = none

theorem pinged_start : Pinged (systemInit quietHost) := by
  refine ⟨⟨?_, ?_⟩, ?_, ?_⟩
  · simp [systemInit, hostInit]
  · simp [systemInit, hostInit]
  · simp [systemInit]
  · intro _
    rfl

theorem pinged_host {s : System} (h : PingsOnly s.host) (hp : ∀ bytes ∈ s.pipe, bytes = pingText) :
    ∃ host pipe, systemStep s (.host (nextPart s.host s.pipe.head?)) =
        some { s with host := host, pipe := pipe } ∧
      PingsOnly host ∧ ∀ bytes ∈ pipe, bytes = pingText := by
  have hread : ∀ bytes ∈ s.pipe.head?, bytes = pingText :=
    fun bytes hbytes => hp bytes (List.mem_of_mem_head? hbytes)
  obtain ⟨host, hhost, hpings⟩ := pingsOnly_step h hread
  have htake : ∃ pipe, takeCommand (nextPart s.host s.pipe.head?) s.pipe = some pipe ∧
      ∀ bytes ∈ pipe, bytes ∈ s.pipe := by
    unfold nextPart
    split
    · exact ⟨s.pipe, rfl, fun _ => id⟩
    · cases hpipe : s.pipe with
      | nil => exact ⟨[], rfl, by simp⟩
      | cons bytes rest =>
        exact ⟨rest, by simp [takeCommand], fun _ => List.mem_cons_of_mem bytes⟩
    · split
      · exact ⟨s.pipe, rfl, fun _ => id⟩
      · exact ⟨s.pipe, rfl, fun _ => id⟩
  obtain ⟨pipe, hpipe, hsub⟩ := htake
  refine ⟨host, pipe, ?_, hpings, fun bytes hbytes => hp bytes (hsub bytes hbytes)⟩
  simp only [systemStep, hpipe, hhost, Option.bind_some, Option.map_some]

theorem pinged_next (s : System) (h : Pinged s) :
    SystemStep s (pingOnce s) ((systemStep s (pingOnce s)).getD s) ∧
      Pinged ((systemStep s (pingOnce s)).getD s) := by
  suffices hnext : ∃ u, systemStep s (pingOnce s) = some u ∧ Pinged u by
    obtain ⟨u, hu, hpinged⟩ := hnext
    rw [SystemStep, hu]
    exact ⟨rfl, hpinged⟩
  by_cases hissued : s.issued = []
  · have hmessage : message (.ping 2) = some pingText := by decide
    rw [pingOnce, if_pos hissued]
    simp only [systemStep, if_pos (h.idle hissued), hmessage, Option.map_some]
    refine ⟨_, rfl, h.host, ?_, by simp⟩
    intro bytes hbytes
    rcases List.mem_append.mp hbytes with hold | hnew
    · exact h.pipe bytes hold
    · exact List.mem_singleton.mp hnew
  · obtain ⟨host, pipe, hstep, hhost, hpipe⟩ := pinged_host h.host h.pipe
    rw [pingOnce, if_neg hissued]
    refine ⟨_, hstep, hhost, hpipe, ?_⟩
    intro hnone
    exact absurd hnone hissued

def pingingManager : Execution SystemStep :=
  .driven pingOnce (fun s => (systemStep s (pingOnce s)).getD s) pinged_next pinged_start

theorem pingingManager_first : (pingingManager.state 1).issued = [.ping] ∧
    (pingingManager.state 1).serving = some 0 := by
  decide +kernel

theorem pingingManager_goes : ∃ᶠ t in atTop, hostEvent (pingingManager.label t) ≠ none := by
  rw [frequently_atTop]
  intro t
  refine ⟨t + 1, by omega, ?_⟩
  have hgrown := issued_grows pingingManager.unpaused (Nat.le_add_left 1 t)
  change (pingingManager.state 1).issued <+: (pingingManager.state (t + 1)).issued at hgrown
  rw [pingingManager_first.1] at hgrown
  have hissued : (pingingManager.state (t + 1)).issued ≠ [] := by
    intro hnone
    rw [hnone] at hgrown
    exact absurd hgrown.length_le (by decide)
  have hlabel : pingingManager.label (t + 1) = pingOnce (pingingManager.state (t + 1)) := rfl
  rw [hlabel, pingOnce, if_neg hissued]
  exact Option.some_ne_none _

theorem commands_get_one_message_ping : ∃ t,
    ((hostRun pingingManager.unpaused).state t).commands[0]? = some .ping ∧
      ∀ᶠ v in atTop, (((hostRun pingingManager.unpaused).state v).written.map
        fun m => m.ticket.serial).count 0 = 1 := by
  obtain ⟨t, -, haccepted⟩ :=
    commands_accepted pingingManager.unpaused rfl pingingManager_goes 1
  change (pingingManager.state 1).issued <+: _ at haccepted
  rw [pingingManager_first.1] at haccepted
  have hn : ((hostRun pingingManager.unpaused).state t).commands[0]? = some .ping :=
    initial_getElem? haccepted rfl
  exact ⟨t, hn,
    commands_get_one_message (hostRun pingingManager.unpaused) rfl pingingManager_goes hn rfl⟩

theorem reads_come_to_an_end_ping : ∃ u m, 1 ≤ u ∧
    (pingingManager.state u).serving = some 0 ∧
      (pingingManager.state u).host.written[(pingingManager.state u).read.length]? = some m ∧
      ((∀ v, v < u → NoFailedDownload (pingingManager.state v) (pingingManager.label v)) →
        m.ticket.serial = 0) :=
  reads_come_to_an_end pingingManager rfl pingingManager_goes pingingManager_first.2

end HostProgress
