import NetSim.HostBook

/-! What the jobs of a host do to its book of tickets, and the loop as steps of the book. -/
namespace HostWaits

open PacketCodec FileSplit FileUpload ReplyBook HostNode HostBook

section

variable {s u v : HostState} {jobs jobs' : List HostJob} {messages messages' : List Message}

/-- The wait of a download by name is about to write a message: the server found no such name,
or no reply came in time. -/
def downloadFails (s : HostState) : Bool :=
  match s.jobQ with
  | .dnsDownloadWaitForReply _ _ pingTimer :: _ =>
    if s.dnsLookupReceived then starts s.dnsLookupBuffer failText else pingTimer ≤ 1
  | _ => false

/-- What the execution of the job at the head of the queue of s adds. -/
inductive Outcome (s : HostState) (job : HostJob) : List HostJob → List Message → Prop where
  | plain {js} : waitOf job = none → Plain js → Outcome s job js []
  | delay {js again t left left'} : waitOf job = some ⟨t, left⟩ → Plain js →
      waitOf again = some ⟨t.tried, left'⟩ → 0 < left' → left' < left → Genuine again →
      Outcome s job (js ++ [again]) []
  | close {bytes t left} : waitOf job = some ⟨t, left⟩ →
      (owed t.command = true ∨ downloadFails s = true) → Outcome s job [] [⟨t.tried, bytes⟩]
  | drop {js t left} : waitOf job = some ⟨t, left⟩ → Plain js → owed t.command = false →
      Outcome s job js []

theorem Outcome.genuine {job : HostJob} (h : Outcome s job jobs messages) :
    ∀ j ∈ jobs, Genuine j := by
  cases h with
  | plain _ hj => exact hj.genuine
  | delay _ hj _ _ _ hg =>
    intro j hmem
    rcases List.mem_append.mp hmem with hmem | hmem
    · exact hj.genuine j hmem
    · rwa [List.mem_singleton.mp hmem]
  | close => simp
  | drop _ hj => exact hj.genuine

theorem Outcome.step {job : HostJob} {q : List HostJob} (hs : s.jobQ = job :: q)
    (ha : Adds { s with jobQ := q } u jobs messages) (h : Outcome s job jobs messages) :
    Step owed limit (book s) (messages.map Message.ticket) (book u) ∧
      ∀ m ∈ messages, owed m.ticket.command = true ∨ downloadFails s = true := by
  have hbook : HostBook.book u = ⟨s.commands, q.filterMap waitOf ++ jobs.filterMap waitOf,
      (book s).written ++ messages.map Message.ticket⟩ := ha.book
  have hwaits : (book s).waits = (job :: q).filterMap waitOf := by rw [← hs]; rfl
  rw [hbook]
  cases h with
  | plain hnone hj =>
    rw [List.filterMap_cons_none hnone] at hwaits
    refine ⟨?_, by simp⟩
    rw [hj.waits, ← hwaits]
    simpa [book] using Step.stay (book s)
  | delay hsome hj hagain h0 hl _ =>
    rw [List.filterMap_cons_some hsome] at hwaits
    refine ⟨?_, by simp⟩
    rw [List.filterMap_append, hj.waits, List.nil_append, List.filterMap_cons_some hagain]
    simpa [book] using Step.delay (book s) hwaits h0 hl
  | close hsome ho =>
    rw [List.filterMap_cons_some hsome] at hwaits
    refine ⟨?_, by simpa [Ticket.tried] using ho⟩
    simpa [book] using Step.close (book s) hwaits
  | drop hsome hj ho =>
    rw [List.filterMap_cons_some hsome] at hwaits
    refine ⟨?_, by simp⟩
    rw [hj.waits]
    simpa [book] using Step.drop (book s) hwaits ho

theorem waitForReply_cases {received : Bool} {answered : Option HostState} {pingTimer : ℕ}
    {again : ℕ → HostJob} {t : Ticket ManCommand} {timeOut : String}
    (h : waitForReply received answered pingTimer again t timeOut s = some u) :
    (received = true ∧ answered = some u) ∨
      (received = false ∧ 1 < pingTimer ∧ u = enqueue [again (pingTimer - 1)] s) ∨
      (received = false ∧ pingTimer ≤ 1 ∧ u = reply t timeOut s) := by
  unfold waitForReply at h
  split_ifs at h with hr ht
  · exact .inl ⟨hr, h⟩
  · cases h
    exact .inr (.inl ⟨by simpa using hr, ht, rfl⟩)
  · cases h
    exact .inr (.inr ⟨by simpa using hr, by omega, rfl⟩)

theorem waitForReply_outcome {job : HostJob} {received : Bool} {answered : Option HostState}
    {pingTimer k : ℕ} {again : ℕ → HostJob} {t : Ticket ManCommand} {timeOut : String}
    {r : HostState} (h : waitForReply received answered pingTimer again t.tried timeOut r = some u)
    (hw : waitOf job = some ⟨t, pingTimer + k⟩)
    (hagain : ∀ n, waitOf (again n) = some ⟨t.tried, n + k⟩)
    (hg : ∀ n, 0 < n → Genuine (again n))
    (hlate : received = false → pingTimer ≤ 1 → owed t.command = true ∨ downloadFails s = true)
    (hanswered : received = true → answered = some u →
      ∃ jobs messages, Adds r u jobs messages ∧ Outcome s job jobs messages) :
    ∃ jobs messages, Adds r u jobs messages ∧ Outcome s job jobs messages := by
  rcases waitForReply_cases h with ⟨hr, ha⟩ | ⟨-, ht, rfl⟩ | ⟨hr, ht, rfl⟩
  · exact hanswered hr ha
  · have hout : Outcome s job ([] ++ [again (pingTimer - 1)]) [] :=
      .delay hw (by simp [Plain]) (hagain (pingTimer - 1)) (by omega) (by omega)
        (hg (pingTimer - 1) (by omega))
    exact ⟨_, _, adds_enqueue _ _, hout⟩
  · exact ⟨_, _, adds_report _ _ r, .close hw (hlate hr ht)⟩

theorem closes {job : HostJob} {t : Ticket ManCommand} {left : ℕ} {r : HostState}
    {string : String} (hw : waitOf job = some ⟨t, left⟩)
    (ho : owed t.command = true ∨ downloadFails s = true)
    (hc : u.commands = r.commands) (hq : u.jobQ = r.jobQ)
    (hu : u.written = (reply t.tried string r).written) :
    ∃ jobs messages, Adds r u jobs messages ∧ Outcome s job jobs messages :=
  ⟨_, _, (adds_report _ _ r).same hc hq hu, .close hw ho⟩

theorem replies_outcome {job : HostJob} {received : Bool} {pingTimer : ℕ} {again : ℕ → HostJob}
    {t : Ticket ManCommand} {timeOut string : String} {r : HostState}
    (h : waitForReply received (some v) pingTimer again t.tried timeOut r = some u)
    (hw : waitOf job = some ⟨t, pingTimer⟩) (hagain : ∀ n, waitOf (again n) = some ⟨t.tried, n⟩)
    (hg : ∀ n, Genuine (again n)) (ho : owed t.command = true)
    (hc : v.commands = r.commands) (hq : v.jobQ = r.jobQ)
    (hv : v.written = (reply t.tried string r).written) :
    ∃ jobs messages, Adds r u jobs messages ∧ Outcome s job jobs messages := by
  refine waitForReply_outcome (k := 0) h hw hagain (fun n _ => hg n) (fun _ _ => .inl ho) ?_
  intro _ ha
  cases ha
  exact closes hw (.inl ho) hc hq hv

theorem pingWaitForReply_outcome {t : Ticket ManCommand} {timer : ℕ} {r : HostState}
    (hg : Genuine (.pingWaitForReply t timer)) (h : pingWaitForReply t.tried timer r = some u) :
    ∃ jobs messages, Adds r u jobs messages ∧
      Outcome s (.pingWaitForReply t timer) jobs messages := by
  have ho : owed t.command = true := by
    rcases hg with hg | hg <;> rw [hg] <;> rfl
  exact replies_outcome h rfl (fun _ => rfl) (fun _ => hg) ho rfl rfl rfl

theorem dnsRegisterWaitForReply_outcome {t : Ticket ManCommand} {timer : ℕ} {r : HostState}
    (hg : Genuine (.dnsRegisterWaitForReply t timer))
    (h : dnsRegisterWaitForReply t.tried timer r = some u) :
    ∃ jobs messages, Adds r u jobs messages ∧
      Outcome s (.dnsRegisterWaitForReply t timer) jobs messages := by
  have hc : t.command = .dnsRegister := hg
  have ho : owed t.command = true := by rw [hc]; rfl
  exact replies_outcome h rfl (fun _ => rfl) (fun _ => hg) ho rfl rfl rfl

theorem dnsLookupWaitForReply_outcome {t : Ticket ManCommand} {fname : List Int8} {timer : ℕ}
    {r : HostState} (hg : Genuine (.dnsLookupWaitForReply t fname timer))
    (h : dnsLookupWaitForReply t.tried fname timer r = some u) :
    ∃ jobs messages, Adds r u jobs messages ∧
      Outcome s (.dnsLookupWaitForReply t fname timer) jobs messages := by
  have hc : t.command = .dnsLookup := hg
  have ho : owed t.command = true := by rw [hc]; rfl
  exact replies_outcome h rfl (fun _ => rfl) (fun _ => hg) ho rfl rfl rfl

/-- The only wait that hands over to another one. -/
theorem dnsPingWaitForReply_outcome {t : Ticket ManCommand} {timer : ℕ} {blank : Packet}
    {r : HostState} (hg : Genuine (.dnsPingWaitForReply t timer))
    (h : dnsPingWaitForReply t.tried timer blank r = some u) :
    ∃ jobs messages, Adds r u jobs messages ∧
      Outcome s (.dnsPingWaitForReply t timer) jobs messages := by
  obtain ⟨hc, htimer⟩ := hg
  have ho : owed t.command = true := by rw [hc]; rfl
  refine waitForReply_outcome (k := 10) h rfl (fun _ => rfl) (fun _ hn => ⟨hc, hn⟩)
    (fun _ _ => .inl ho) ?_
  intro _ ha
  cases ha
  by_cases hf : starts r.dnsLookupBuffer failText
  · rw [if_pos hf]
    exact closes rfl (.inl ho) rfl rfl rfl
  · rw [if_neg hf]
    refine ⟨[.sendPktAllPorts _] ++ [.pingWaitForReply t.tried 10], [],
      (adds_enqueue _ _).same rfl rfl ?_, ?_⟩
    · simp [useUp, enqueue]
    · exact .delay rfl (plain_singleton rfl) rfl (by omega) (by omega) (.inr hc)

theorem dnsDownloadWaitForReply_outcome {t : Ticket ManCommand} {fname : List Int8} {timer : ℕ}
    {blank : Packet} {q : List HostJob} (hs : s.jobQ = .dnsDownloadWaitForReply t fname timer :: q)
    (hg : Genuine (.dnsDownloadWaitForReply t fname timer))
    (h : dnsDownloadWaitForReply t.tried fname timer blank { s with jobQ := q } = some u) :
    ∃ jobs messages, Adds { s with jobQ := q } u jobs messages ∧
      Outcome s (.dnsDownloadWaitForReply t fname timer) jobs messages := by
  have hc : t.command = .dnsFileDownload := hg
  refine waitForReply_outcome (k := 0) h rfl (fun _ => rfl) (fun _ _ => hg) ?_ ?_
  · intro hr ht
    right
    simp only at hr
    simp [downloadFails, hs, hr, ht]
  · intro hr ha
    simp only at hr
    by_cases hf : starts s.dnsLookupBuffer failText
    · rw [if_pos hf] at ha
      cases ha
      exact closes rfl (.inr (by simp [downloadFails, hs, hr, hf])) rfl rfl rfl
    · rw [if_neg hf] at ha
      obtain ⟨p, -, rfl⟩ := Option.map_eq_some_iff.mp ha
      refine ⟨[.sendPktAllPorts p], [], (adds_enqueue _ { s with jobQ := q }).same rfl rfl rfl, ?_⟩
      exact .drop rfl (plain_singleton rfl) (by rw [hc]; rfl)

theorem execute_outcome {canOpen : List Int8 → Bool} {mem : Scratch} {job : HostJob}
    {q : List HostJob} (hs : s.jobQ = job :: q) (hg : Genuine job)
    (h : execute canOpen mem s = some u) :
    ∃ jobs messages, Adds { s with jobQ := q } u jobs messages ∧ Outcome s job jobs messages := by
  simp only [execute, hs] at h
  cases job with
  | sendPktAllPorts p =>
    cases h
    exact ⟨[], [], adds_nothing rfl rfl rfl, .plain rfl (by simp [Plain])⟩
  | pingSendReply p =>
    cases h
    exact ⟨_, [], adds_enqueue _ _, .plain rfl (plain_singleton rfl)⟩
  | pingWaitForReply t timer => exact pingWaitForReply_outcome hg h
  | fileUploadSend fname dst =>
    obtain ⟨packets, -, rfl⟩ := Option.map_eq_some_iff.mp h
    refine ⟨packets.map .sendPktAllPorts, [], ⟨rfl, rfl, by simp [enqueue]⟩, .plain rfl ?_⟩
    intro job hjob
    obtain ⟨p, -, rfl⟩ := List.mem_map.mp hjob
    rfl
  | fileUploadRecvStart p =>
    obtain ⟨r, -, rfl⟩ := Option.map_eq_some_iff.mp h
    exact ⟨[], [], adds_nothing rfl rfl rfl, .plain rfl (by simp [Plain])⟩
  | fileUploadRecvMiddle p =>
    obtain ⟨r, -, rfl⟩ := Option.map_eq_some_iff.mp h
    exact ⟨[], [], adds_nothing rfl rfl rfl, .plain rfl (by simp [Plain])⟩
  | fileUploadRecvEnd p =>
    obtain ⟨r, -, rfl⟩ := Option.map_eq_some_iff.mp h
    exact ⟨[], [], adds_nothing rfl rfl rfl, .plain rfl (by simp [Plain])⟩
  | dnsRegisterWaitForReply t timer => exact dnsRegisterWaitForReply_outcome hg h
  | dnsLookupWaitForReply t fname timer => exact dnsLookupWaitForReply_outcome hg h
  | dnsPingWaitForReply t timer => exact dnsPingWaitForReply_outcome hg h
  | dnsDownloadWaitForReply t fname timer => exact dnsDownloadWaitForReply_outcome hs hg h

def AllGenuine (s : HostState) : Prop := ∀ job ∈ s.jobQ, Genuine job

theorem AllGenuine.adds (hg : AllGenuine s) (h : Adds s u jobs messages)
    (hj : ∀ job ∈ jobs, Genuine job) : AllGenuine u := by
  intro job hjob
  rw [h.jobQ] at hjob
  rcases List.mem_append.mp hjob with hjob | hjob
  · exact hg job hjob
  · exact hj job hjob

/-- A step of the book to u that accepts `new`. The messages it writes are owed, unless f. -/
structure Books (s u : HostState) (new : List ManCommand) (f : Prop) : Prop where
  genuine : AllGenuine u
  commands : u.commands = s.commands ++ new
  written : s.written <+: u.written
  step : ∃ ts, Step owed limit (book s) ts (book u) ∧ ∀ t ∈ ts, owed t.command = true ∨ f

theorem Books.quiet {f : Prop} (hg : AllGenuine s) (h : Adds s u jobs []) (hj : Plain jobs) :
    Books s u [] f := by
  constructor
  · exact hg.adds h hj.genuine
  · simpa using h.commands
  · exact ⟨_, h.written.symm⟩
  · refine ⟨[], ?_, by simp⟩
    rw [h.stay hj]
    exact .stay _

theorem Books.phase {f : Prop} {new : List ManCommand} (h : Books s u new f) (k : Phase) :
    Books s { u with phase := k } new f := by
  constructor
  · exact h.genuine
  · exact h.commands
  · exact h.written
  · exact h.step

def commandOf (bytes : List Int8) (s : HostState) : ManCommand :=
  manCommand (getManCommand bytes s.manMsg).1

theorem handleCommand_books {f : Prop} {bytes : List Int8} {blank : Packet} (hg : AllGenuine s)
    (h : handleCommand bytes blank s = some u) : Books s u [commandOf bytes s] f := by
  simp only [handleCommand, Option.ite_none_right_eq_some] at h
  obtain ⟨-, h⟩ := h
  obtain ⟨jobs, messages, ho⟩ := executeCommand_opens h rfl
  constructor
  · intro job hjob
    rw [ho.adds.jobQ] at hjob
    rcases List.mem_append.mp hjob with hjob | hjob
    · exact hg job hjob
    · exact ho.genuine job hjob
  · exact ho.adds.commands
  · exact ⟨_, ho.adds.written.symm⟩
  · refine ⟨_, Opens.step (s := s) ho rfl rfl rfl, ?_⟩
    intro t ht
    left
    unfold answeredAtOnce at ht
    split_ifs at ht with hc
    · rw [List.mem_singleton.mp ht, hc]
      rfl
    · simp at ht

theorem execute_books {canOpen : List Int8 → Bool} {mem : Scratch} (hg : AllGenuine s)
    (h : execute canOpen mem s = some u) : Books s u [] (downloadFails s = true) := by
  rcases hs : s.jobQ with _ | ⟨job, q⟩
  · simp only [execute, hs, Option.some.injEq] at h
    subst h
    exact .quiet hg (adds_nothing rfl rfl rfl) (by simp [Plain])
  · have hq : AllGenuine { s with jobQ := q } := by
      intro j hj
      exact hg j (by rw [hs]; exact List.mem_cons_of_mem job hj)
    obtain ⟨jobs, messages, ha, ho⟩ := execute_outcome hs (hg job (by simp [hs])) h
    obtain ⟨hstep, howed⟩ := ho.step hs ha
    constructor
    · exact hq.adds ha ho.genuine
    · simpa using ha.commands
    · exact ⟨_, ha.written.symm⟩
    · refine ⟨_, hstep, ?_⟩
      intro t ht
      obtain ⟨m, hm, rfl⟩ := List.mem_map.mp ht
      exact howed m hm

/-- The event executes a job, and the job is a failing download. -/
def FailedDownload (s : HostState) : HostEvent → Prop
  | .execute _ _ => downloadFails s = true
  | _ => False

instance (s : HostState) (e : HostEvent) : Decidable (FailedDownload s e) :=
  match e with
  | .execute _ _ => inferInstanceAs (Decidable (downloadFails s = true))
  | .control _ | .command _ _ | .receive _ _ => inferInstanceAs (Decidable False)

/-- The commands that the event brings. -/
def newCommands (s : HostState) : HostEvent → List ManCommand
  | .command (some bytes) _ => [commandOf bytes s]
  | _ => []

theorem hostStep_books {e : HostEvent} (hg : AllGenuine s) (h : hostStep s e = some u) :
    Books s u (newCommands s e) (FailedDownload s e) := by
  cases hostStep_part h with
  | @control blank =>
    unfold controlTimer
    split_ifs
    · exact .quiet hg ((adds_enqueue _ _).same rfl rfl rfl) (plain_singleton rfl)
    · exact .quiet hg (adds_nothing rfl rfl rfl) (by simp [Plain])
  | noCommand => exact .quiet hg (adds_nothing rfl rfl rfl) (by simp [Plain])
  | command _ hv => exact (handleCommand_books hg hv).phase _
  | receive _ _ hv =>
    obtain ⟨jobs, ha, hj⟩ := receive_adds hv
    exact .quiet hg (ha.same rfl rfl rfl) hj
  | execute _ hv => exact (execute_books hg hv).phase _

end

end HostWaits
