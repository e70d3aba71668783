import NetSim.HostProgress
import NetSim.ManagerConsole

/-! What display_host_state of man.c shows: the directory that was set last, and the id of the
host. -/
namespace ShownState

open PacketCodec HostNode HostBook HostWaits HostReplies HostProgress ManagerReplies CommandStream
open CommandDecoding ScanText ManagerConsole ReplyBook
open CStrings (text text_of_not_mem)
open EventRuns (Run)

/-- `sscanf(reply, "%s %d", dir, &host_id)` on the string at `reply`. -/
def shownState (reply : List Int8) : Option (List Int8 × ℤ) :=
  (scanfName (text reply)).bind fun dir => (scanInt dir.2).map fun id => (dir.1, id.1)

/-- The directory in the reply of a host, also of one that has none. -/
def dirText (dir : Option (List Int8)) : List Int8 := dir.getD (toBytes "None")

def stateText (dir : Option (List Int8)) (hostId : ℤ) : List Int8 :=
  dirText dir ++ (toBytes " " ++ toBytes (toString hostId))

theorem toBytes_append (a b : String) : toBytes (a ++ b) = toBytes a ++ toBytes b := by
  rw [toBytes, String.toList_append, List.map_append]
  rfl

theorem replyDisplayHostState_text {t : Ticket ManCommand} {s u : HostState}
    (h : replyDisplayHostState t s = some u) : u = report t (stateText s.dir s.hostId) s := by
  obtain ⟨-, h⟩ := Option.ite_none_right_eq_some.mp h
  cases h
  congr 1
  cases s.dir with
  | none => exact toBytes_append "None " (toString s.hostId)
  | some dir => exact congrArg (dir ++ ·) (toBytes_append " " (toString s.hostId))

def Showable (dir : Option (List Int8)) : Prop := ∀ d ∈ dir, Word d ∧ d.length < nameLength

theorem dirText_word {dir : Option (List Int8)} (h : Showable dir) :
    Word (dirText dir) ∧ (dirText dir).length < nameLength := by
  cases dir with
  | some d => exact h d rfl
  | none =>
    have hnone : dirText none = [78, 111, 110, 101] := by decide
    rw [hnone]
    refine ⟨⟨List.cons_ne_nil _ _, ?_⟩, by decide⟩
    simp only [List.forall_mem_cons, List.not_mem_nil, false_imp_iff, implies_true, and_true]
    decide

theorem shownState_stateText {dir : Option (List Int8)} (hdir : Showable dir) {hostId : ℤ}
    (hid : IsInt hostId) : shownState (stateText dir hostId) = some (dirText dir, hostId) := by
  obtain ⟨hword, hshort⟩ := dirText_word hdir
  have hzero : 0 ∉ stateText dir hostId := by
    simp only [stateText, List.mem_append, not_or]
    exact ⟨hword.no_zero, by decide, (word_toString hostId).no_zero⟩
  have hfirst : ReadsName (dirText dir) (stateText dir hostId)
      (toBytes " " ++ toBytes (toString hostId)) :=
    ⟨[], dirText dir, blank_nil, word_solid hword, hshort, stops_space (by decide) _, rfl,
      (text_of_not_mem hword.no_zero).symm⟩
  have hsecond : ReadsId hostId (toBytes " " ++ toBytes (toString hostId)) [] := by
    refine ⟨toBytes " ", toBytes (toString hostId), blank_space, ?_, stops_nil _, ?_⟩
    · exact (decimal_toString hostId).numeral hid
    · rw [List.append_nil]
  rw [shownState, text_of_not_mem hzero, scanfName_iff.mpr hfirst, Option.bind_some,
    scanInt_iff.mpr hsecond]
  rfl

def dirOf : Request → Option (List Int8)
  | .setHostDir name => some name
  | _ => none

/-- The directory that the last of the requests sets. -/
def lastDir (rs : List Request) : Option (List Int8) := (rs.filterMap dirOf).getLast?

theorem lastDir_append (rs : List Request) (r : Request) :
    lastDir (rs ++ [r]) = (dirOf r).or (lastDir rs) := by
  rw [lastDir, List.filterMap_append, List.getLast?_append]
  cases h : dirOf r with
  | none => simp [h, lastDir]
  | some dir => simp [h]

theorem dirOf_eq (r : Request) :
    dirOf r = if command r = .setHostDir then some (argument r) else none := by
  cases r <;> rfl

theorem showable_dirOf {r : Request} (h : Typed r) : Showable (dirOf r) := by
  intro d hd
  cases r with
  | setHostDir name =>
    cases hd
    obtain ⟨hmsg, hword⟩ := h
    obtain ⟨bytes, hbytes⟩ := Option.isSome_iff_exists.mp hmsg
    obtain ⟨hlen, -⟩ := Option.ite_none_right_eq_some.mp hbytes
    rw [List.length_append] at hlen
    exact ⟨hword, by omega⟩
  | displayHostState | ping | fileUpload | fileDownload | dnsRegister | dnsLookup | dnsPing
  | dnsFileDownload => cases hd

theorem showable_lastDir {rs : List Request} (h : ∀ r ∈ rs, Typed r) : Showable (lastDir rs) := by
  intro d hd
  obtain ⟨r, hr, hdir⟩ := List.mem_filterMap.mp (List.mem_of_getLast? hd)
  exact showable_dirOf (h r hr) d hdir

/-- What a host holds that has executed the requests `done`. -/
structure HostShows (id : ℤ) (done : List Request) (s : HostState) : Prop where
  kept : Kept s
  hostId : s.hostId = id
  commands : s.commands = done.map command
  dir : s.dir = lastDir done
  told : ∀ m ∈ s.written, m.ticket.command = .displayHostState →
    m.bytes = stateText (lastDir (done.take m.ticket.serial)) id

section

variable {s u : HostState} {id : ℤ} {done : List Request}

theorem HostShows.serial_lt (h : HostShows id done s) {m : Message} (hm : m ∈ s.written) :
    m.ticket.serial < done.length := by
  obtain ⟨hlt, -⟩ := List.getElem?_eq_some_iff.mp (h.kept.genuine_message hm)
  rwa [h.commands, List.length_map] at hlt

theorem hostShows_init (garbage : HostState) :
    HostShows garbage.hostId [] (hostInit garbage) := by
  constructor
  · exact kept_init garbage
  · rfl
  · rfl
  · rfl
  · simp [hostInit]

theorem executeCommand_told {c : ManCommand} {arg : List Int8} {blank : Packet}
    {t : Ticket ManCommand} (h : executeCommand c arg blank t s = some u) (hc : t.command = c) :
    u.commands = s.commands ∧ ∃ messages, u.written = s.written ++ messages ∧
      ∀ m ∈ messages, m = ⟨t, stateText s.dir s.hostId⟩ := by
  by_cases hstate : c = .displayHostState
  · subst hstate
    rw [replyDisplayHostState_text h]
    exact ⟨rfl, _, rfl, fun m hm => List.mem_singleton.mp hm⟩
  · obtain ⟨jobs, messages, ho⟩ := executeCommand_opens h hc
    refine ⟨ho.adds.commands, messages, ho.adds.written, ?_⟩
    have hnone : messages = [] := by
      have htold := ho.told
      rwa [answeredAtOnce, hc, if_neg hstate, List.map_eq_nil_iff] at htold
    rw [hnone]
    exact List.forall_mem_nil _

theorem hostShows_command (h : HostShows id done s) {r : Request} (hr : Typed r)
    {blank : Packet} (hs : HostStep s (.command (some (bytesOf r)) blank) u) :
    HostShows id (done ++ [r]) u := by
  have hkept := kept_step h.kept hs
  cases hostStep_part hs with
  | @command _ _ v _ hv =>
    obtain ⟨-, hv⟩ := Option.ite_none_right_eq_some.mp hv
    have hhand := hand_bytesOf hr s.manMsg
    rw [hand, spelled, Prod.mk.injEq] at hhand
    obtain ⟨hletter, htext⟩ := hhand
    simp only [hletter, htext, manCommand_letterByte] at hv
    have hsetup := executeCommand_setup hv
    obtain ⟨hcommands, messages, hwritten, htold⟩ := executeCommand_told hv rfl
    simp only [h.commands, h.dir, h.hostId] at hcommands htold
    constructor
    · exact hkept
    · exact hsetup.hostId.trans h.hostId
    · rw [List.map_append]
      exact hcommands
    · rw [lastDir_append, dirOf_eq, ← h.dir]
      refine hsetup.dir.trans ?_
      by_cases hset : command r = .setHostDir
      · simp [hset]
      · simp [hset]
    · intro m hm hstate
      have hmem : m ∈ s.written ++ messages := hwritten ▸ hm
      rcases List.mem_append.mp hmem with hold | hnew
      · rw [List.take_append_of_le_length (h.serial_lt hold).le]
        exact h.told m hold hstate
      · rw [htold m hnew]
        simp only [List.length_map, List.take_left]

theorem outcome_not_state {job : HostJob} {jobs : List HostJob} {messages : List Message}
    (h : Outcome s job jobs messages) (hg : Genuine job) :
    ∀ m ∈ messages, m.ticket.command ≠ .displayHostState := by
  cases h with
  | plain | delay | drop => exact List.forall_mem_nil _
  | @close bytes t left hwait =>
    intro m hm hstate
    rw [List.mem_singleton.mp hm] at hstate
    change t.command = .displayHostState at hstate
    cases job with
    | pingWaitForReply =>
      cases hwait
      rcases hg with hg | hg <;> rw [hstate] at hg <;> cases hg
    | dnsRegisterWaitForReply | dnsLookupWaitForReply | dnsDownloadWaitForReply =>
      cases hwait
      have hc := hstate.symm.trans hg
      cases hc
    | dnsPingWaitForReply =>
      cases hwait
      have hc := hstate.symm.trans hg.1
      cases hc
    | sendPktAllPorts | pingSendReply | fileUploadSend | fileUploadRecvStart | fileUploadRecvMiddle
    | fileUploadRecvEnd => cases hwait

theorem hostStep_quiet (hg : AllGenuine s) {e : HostEvent} (hs : HostStep s e u)
    (hno : newCommands s e = []) :
    SameSetup s u ∧ ∃ messages, u.written = s.written ++ messages ∧
      ∀ m ∈ messages, m.ticket.command ≠ .displayHostState := by
  cases hostStep_part hs with
  | control =>
    refine ⟨?_, [], ?_, List.forall_mem_nil _⟩
    · unfold controlTimer
      split <;> exact ⟨rfl, rfl, rfl⟩
    · unfold controlTimer
      split <;> simp [enqueue]
  | noCommand => exact ⟨⟨rfl, rfl, rfl⟩, [], (List.append_nil _).symm, List.forall_mem_nil _⟩
  | command => cases hno
  | receive _ _ hv =>
    obtain ⟨jobs, ha, -⟩ := receive_adds hv
    have hsetup := receive_setup hv
    exact ⟨⟨hsetup.nodePortNum, hsetup.hostId, hsetup.dir⟩, [], ha.written, List.forall_mem_nil _⟩
  | execute _ hv =>
    have hsetup := execute_setup hv
    refine ⟨⟨hsetup.nodePortNum, hsetup.hostId, hsetup.dir⟩, ?_⟩
    rcases hq : s.jobQ with _ | ⟨job, q⟩
    · simp only [execute, hq, Option.some.injEq] at hv
      rw [← hv]
      exact ⟨[], (List.append_nil _).symm, List.forall_mem_nil _⟩
    · have hjob : Genuine job := hg job (by rw [hq]; exact List.mem_cons_self)
      obtain ⟨jobs, messages, ha, ho⟩ := execute_outcome hq hjob hv
      exact ⟨messages, ha.written, outcome_not_state ho hjob⟩

theorem hostShows_quiet (h : HostShows id done s) {e : HostEvent} (hs : HostStep s e u)
    (hno : newCommands s e = []) : HostShows id done u := by
  have hcommands := (hostStep_books h.kept.genuine hs).commands
  rw [hno, List.append_nil] at hcommands
  obtain ⟨hsetup, messages, hwritten, hmessages⟩ := hostStep_quiet h.kept.genuine hs hno
  constructor
  · exact kept_step h.kept hs
  · exact hsetup.hostId.trans h.hostId
  · exact hcommands.trans h.commands
  · exact hsetup.dir.trans h.dir
  · intro m hm hstate
    rw [hwritten] at hm
    rcases List.mem_append.mp hm with hold | hnew
    · exact h.told m hold hstate
    · exact absurd hstate (hmessages m hnew)

end

/-- The requests that the events issue. -/
def requestsIn (es : List SystemEvent) : List Request :=
  es.filterMap fun
    | .issue r => some r
    | _ => none

/-- The requests `rs` are issued: the host has executed some, and the pipe holds the others. -/
structure Shows (id : ℤ) (rs : List Request) (s : System) : Prop where
  issued : s.issued = rs.map command
  split : ∃ done waiting, rs = done ++ waiting ∧ s.pipe = waiting.map bytesOf ∧
    HostShows id done s.host

theorem shows_init (garbage : HostState) : Shows garbage.hostId [] (systemInit garbage) :=
  ⟨rfl, [], [], rfl, rfl, hostShows_init garbage⟩

theorem shows_host {id : ℤ} {rs : List Request} {s u : System} {e : HostEvent}
    (h : Shows id rs s) (ht : ∀ r ∈ rs, Typed r) (hs : SystemStep s (.host e) u) :
    Shows id rs u := by
  obtain ⟨hissued, done, waiting, rfl, hpipe, hhost⟩ := h
  obtain ⟨pipe, htake, hs⟩ := Option.bind_eq_some_iff.mp hs
  obtain ⟨host, hstep, rfl⟩ := Option.map_eq_some_iff.mp hs
  refine ⟨hissued, ?_⟩
  cases e with
  | control | receive | execute =>
    cases htake
    exact ⟨done, waiting, rfl, hpipe, hostShows_quiet hhost hstep rfl⟩
  | command bytes blank =>
    cases bytes with
    | none =>
      obtain ⟨hempty, htake⟩ := Option.ite_none_right_eq_some.mp htake
      cases htake
      rw [hempty] at hpipe
      exact ⟨done, waiting, rfl, hpipe, hostShows_quiet hhost hstep rfl⟩
    | some bytes =>
      obtain ⟨hhead, htake⟩ := Option.ite_none_right_eq_some.mp htake
      cases htake
      cases waiting with
      | nil =>
        rw [hpipe] at hhead
        cases hhead
      | cons r waiting =>
        rw [hpipe] at hhead ⊢
        cases hhead
        have hr : Typed r := ht r (List.mem_append_right _ List.mem_cons_self)
        refine ⟨done ++ [r], waiting, ?_, rfl, hostShows_command hhost hr hstep⟩
        rw [List.append_assoc]
        rfl

theorem shows_step {id : ℤ} {rs : List Request} {s u : System} {e : SystemEvent}
    (h : Shows id rs s) (ht : ∀ r ∈ rs, Typed r) (hs : SystemStep s e u) :
    Shows id (rs ++ requestsIn [e]) u := by
  cases e with
  | issue r =>
    obtain ⟨hissued, done, waiting, rfl, hpipe, hhost⟩ := h
    obtain ⟨-, hs⟩ := Option.ite_none_right_eq_some.mp hs
    obtain ⟨bytes, hbytes, rfl⟩ := Option.map_eq_some_iff.mp hs
    have hr : bytesOf r = bytes := by rw [bytesOf, hbytes, Option.getD_some]
    refine ⟨?_, done, waiting ++ [r], ?_, ?_, hhost⟩
    · simp [hissued, requestsIn]
    · rw [List.append_assoc]
      rfl
    · simp [hpipe, hr]
  | host e =>
    have hhost := shows_host h ht hs
    rwa [← List.append_nil rs] at hhost
  | read =>
    obtain ⟨hissued, hsplit⟩ := h
    simp only [SystemStep, systemStep] at hs
    split at hs
    · cases hs
      refine ⟨?_, ?_⟩
      · rw [hissued, requestsIn]
        exact congrArg _ (List.append_nil rs).symm
      · rw [requestsIn]
        simpa using hsplit
    · cases hs

theorem shows_run {R : System → SystemEvent → System → Prop}
    (hR : ∀ s e u, R s e u → SystemStep s e u) {id : ℤ} {rs : List Request} {s u : System}
    {es : List SystemEvent} (hrun : Run R s es u) (h : Shows id rs s)
    (ht : ∀ r ∈ rs ++ requestsIn es, Typed r) : Shows id (rs ++ requestsIn es) u := by
  induction hrun generalizing rs with
  | nil =>
    rw [requestsIn, List.filterMap_nil, List.append_nil]
    exact h
  | @cons s e v es u hs _ ih =>
    have hsplit : requestsIn (e :: es) = requestsIn [e] ++ requestsIn es := by
      rw [requestsIn, ← List.singleton_append, List.filterMap_append]
      rfl
    rw [hsplit, ← List.append_assoc] at ht ⊢
    apply ih _ ht
    apply shows_step h _ (hR _ _ _ hs)
    intro r hr
    exact ht r (List.mem_append_left _ (List.mem_append_left _ hr))

/-- What the manager shows for a request is the state at the requests before it. -/
theorem Shows.shown {id : ℤ} {rs : List Request} {s : System} (h : Shows id rs s) (hp : Paired s)
    (ht : ∀ r ∈ rs, Typed r) (hid : IsInt id) {x : ℕ × Message} (hx : x ∈ s.read)
    (hasked : rs[x.1]? = some .displayHostState) :
    shownState x.2.bytes = some (dirText (lastDir (rs.take x.1)), id) := by
  obtain ⟨-, done, waiting, rfl, -, hhost⟩ := h
  have hmem : x.2 ∈ s.host.written := hp.first.subset (List.mem_map_of_mem hx)
  have hserial : x.2.ticket.serial = x.1 := hp.matched x hx
  have hlt : x.1 < done.length := hserial ▸ hhost.serial_lt hmem
  have hstate : x.2.ticket.command = .displayHostState := by
    have hgenuine := hp.host.genuine_message hmem
    rw [hserial, hhost.commands, List.getElem?_map] at hgenuine
    rw [List.getElem?_append_left hlt] at hasked
    rw [hasked] at hgenuine
    exact (Option.some.inj hgenuine).symm
  rw [List.take_append_of_le_length hlt.le, hhost.told x.2 hmem hstate, hserial]
  apply shownState_stateText _ hid
  apply showable_lastDir
  intro r hr
  exact ht r (List.mem_append_left _ (List.mem_of_mem_take hr))

/-- The state that the manager shows for a request is what the requests before it have made it:
the last directory that was set, or none, and the id of the host. -/
theorem state_is_shown {garbage : HostState} {s : System} {es : List SystemEvent}
    (hrun : Run (fun s e u => SystemStep s e u ∧ NoFailedDownload s e) (systemInit garbage) es s)
    (ht : ∀ r ∈ requestsIn es, Typed r) (hid : IsInt garbage.hostId) :
    ∀ x ∈ s.read, (requestsIn es)[x.1]? = some .displayHostState →
      shownState x.2.bytes =
        some (dirText (lastDir ((requestsIn es).take x.1)), garbage.hostId) := by
  intro x hx hasked
  have hpaired : Paired s := hrun.invariant (I := Paired)
    (fun _ _ _ hs hi => paired_step hi hs.1 hs.2) (paired_init garbage)
  have hshows : Shows garbage.hostId ([] ++ requestsIn es) s :=
    shows_run (fun _ _ _ h => h.1) hrun (shows_init garbage) ht
  exact hshows.shown hpaired ht hid hx hasked

def setThenShow : List SystemEvent :=
  [.issue (.setHostDir [97])] ++ (iteration (some [109, 32, 97]) (-1) noPacket).map .host ++
    [.issue .displayHostState] ++ (iteration (some [115]) (-1) noPacket).map .host ++ [.read]

theorem setThenShow_runs :
    (((setThenShow).foldlM guardedStep (systemInit quietHost)).map fun s =>
      s.read.map fun x => (x.1, x.2.ticket)) = some [(1, ⟨1, .displayHostState, 0⟩)] := by
  decide +kernel

theorem state_is_shown_set :
    ∃ s, Run (fun s e u => SystemStep s e u ∧ NoFailedDownload s e) (systemInit quietHost)
        setThenShow s ∧
      ∃ x ∈ s.read, x.1 = 1 ∧ shownState x.2.bytes = some ([97], 1) := by
  obtain ⟨s, hs, hread⟩ := Option.map_eq_some_iff.mp setThenShow_runs
  have hrun : Run (fun s e u => SystemStep s e u ∧ NoFailedDownload s e) (systemInit quietHost)
      setThenShow s := by
    refine (Run.of_foldlM hs).mono ?_
    intro a e b hstep
    simp only [guardedStep, Option.ite_none_right_eq_some] at hstep
    exact ⟨hstep.2, hstep.1⟩
  have htyped : ∀ r ∈ requestsIn setThenShow, Typed r := by
    intro r hr
    have hmem : r ∈ [Request.setHostDir [97], .displayHostState] := hr
    simp only [List.mem_cons, List.not_mem_nil, or_false] at hmem
    rcases hmem with rfl | rfl
    · refine ⟨by decide +kernel, by simp, ?_⟩
      exact List.forall_mem_singleton.mpr (by decide)
    · exact ⟨rfl, trivial⟩
  obtain ⟨x, hx, hkey⟩ : ∃ x ∈ s.read, (x.1, x.2.ticket) = (1, ⟨1, .displayHostState, 0⟩) := by
    have hmem : (1, (⟨1, .displayHostState, 0⟩ : Ticket ManCommand)) ∈
        s.read.map fun x => (x.1, x.2.ticket) := by
      rw [hread]
      exact List.mem_singleton.mpr rfl
    obtain ⟨x, hx, hkey⟩ := List.mem_map.mp hmem
    exact ⟨x, hx, hkey⟩
  rw [Prod.mk.injEq] at hkey
  refine ⟨s, hrun, x, hx, hkey.1, ?_⟩
  have hshown := state_is_shown hrun htyped (by decide) x hx
  rw [hkey.1] at hshown
  exact hshown rfl

end ShownState
