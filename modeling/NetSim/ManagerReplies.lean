import NetSim.HostReplies

/-! The manager of man.c with one host. A command reaches the host whole and by itself, and the
manager reads the messages of the host one at a time; CommandStream has the bytes in the pipe, of
which get_man_command takes all there are. What the user types is an argument of the request. -/
namespace ManagerReplies

open PacketCodec ReplyBook HostNode HostBook HostWaits HostReplies EventRuns
open DnsServer (strcpy charSpace)

def nameLength : ℕ := 100

inductive Request where
  | displayHostState
  | setHostDir (name : List Int8)
  | ping (hostToPing : ℤ)
  | fileUpload (hostId : ℤ) (name : List Int8)
  | fileDownload (hostId : ℤ) (name : List Int8)
  | dnsRegister (domainName : List Int8)
  | dnsLookup (domainName : List Int8)
  | dnsPing (domainName : List Int8)
  | dnsFileDownload (domainName fileName : List Int8)

/-- `sprintf` into a `msg` of `size` bytes. -/
def printMsg (size : ℕ) (msg : List Int8) : Option (List Int8) :=
  if msg.length < size then some msg else none

/-- The bytes written to the host. -/
def message : Request → Option (List Int8)
  | .displayHostState => some (toBytes "s")
  | .setHostDir name => printMsg nameLength (toBytes "m " ++ name)
  | .ping hostToPing => printMsg manMsgLength (toBytes "p " ++ toBytes (toString hostToPing))
  | .fileUpload hostId name =>
    printMsg nameLength (toBytes "u " ++ toBytes (toString hostId) ++ toBytes " " ++ name)
  | .fileDownload hostId name =>
    printMsg nameLength (toBytes "d " ++ toBytes (toString hostId) ++ toBytes " " ++ name)
  | .dnsRegister domainName => printMsg nameLength (toBytes "r " ++ domainName)
  | .dnsLookup domainName => printMsg manMsgLength (toBytes "l " ++ domainName)
  | .dnsPing domainName => printMsg manMsgLength (toBytes "P " ++ domainName)
  | .dnsFileDownload domainName fileName =>
    printMsg nameLength (toBytes "D " ++ domainName ++ toBytes " " ++ fileName)

/-- The functions that go on to read a reply. -/
def readsReply : Request → Bool
  | .displayHostState | .ping _ | .dnsRegister _ | .dnsLookup _ | .dnsPing _ => true
  | _ => false

def command : Request → ManCommand
  | .displayHostState => .displayHostState
  | .setHostDir _ => .setHostDir
  | .ping _ => .ping
  | .fileUpload _ _ => .fileUpload
  | .fileDownload _ _ => .fileDownload
  | .dnsRegister _ => .dnsRegister
  | .dnsLookup _ => .dnsLookup
  | .dnsPing _ => .dnsPing
  | .dnsFileDownload _ _ => .dnsFileDownload

def argument : Request → List Int8
  | .displayHostState => []
  | .setHostDir name => name
  | .ping hostToPing => toBytes (toString hostToPing)
  | .fileUpload hostId name => toBytes (toString hostId) ++ toBytes " " ++ name
  | .fileDownload hostId name => toBytes (toString hostId) ++ toBytes " " ++ name
  | .dnsRegister domainName => domainName
  | .dnsLookup domainName => domainName
  | .dnsPing domainName => domainName
  | .dnsFileDownload domainName fileName => domainName ++ toBytes " " ++ fileName

def letterByte : Request → Int8
  | .displayHostState => 115    -- 's'
  | .setHostDir _ => 109        -- 'm'
  | .ping _ => 112              -- 'p'
  | .fileUpload _ _ => 117      -- 'u'
  | .fileDownload _ _ => 100    -- 'd'
  | .dnsRegister _ => 114       -- 'r'
  | .dnsLookup _ => 108         -- 'l'
  | .dnsPing _ => 80            -- 'P'
  | .dnsFileDownload _ _ => 68  -- 'D'

/-- `pipe` holds the commands on their way. `serving` is the number of the command whose reply
the manager waits for, and `read` lists the messages it has read, each with the number of the
command it was serving. `issued` only records. -/
structure System where
  host : HostState
  pipe : List (List Int8)
  issued : List ManCommand
  serving : Option ℕ
  read : List (ℕ × Message)

def systemInit (garbage : HostState) : System := ⟨hostInit garbage, [], [], none, []⟩

inductive SystemEvent where
  | issue (r : Request)
  | host (e : HostEvent)
  | read

/-- The pipe after a read of the host, which finds the oldest command, or nothing when there is
none. -/
def takeCommand : HostEvent → List (List Int8) → Option (List (List Int8))
  | .command (some bytes) _, pipe => if pipe.head? = some bytes then some pipe.tail else none
  | .command none _, pipe => if pipe = [] then some [] else none
  | _, pipe => some pipe

def systemStep (s : System) : SystemEvent → Option System
  | .issue r =>
    if s.serving = none then
      (message r).map fun bytes =>
        { s with
          pipe := s.pipe ++ [bytes]
          issued := s.issued ++ [command r]
          serving := if readsReply r then some s.issued.length else none }
    else none
  | .host e =>
    (takeCommand e s.pipe).bind fun pipe =>
      (hostStep s.host e).map fun host => { s with host := host, pipe := pipe }
  | .read =>
    match s.serving, s.host.written[s.read.length]? with
    | some n, some m => some { s with serving := none, read := s.read ++ [(n, m)] }
    | _, _ => none

def SystemStep (s : System) (e : SystemEvent) (u : System) : Prop := systemStep s e = some u

/-- The step does not execute the wait of a download by name that fails or runs out of time. -/
def NoFailedDownload (s : System) : SystemEvent → Prop
  | .host e => ¬ FailedDownload s.host e
  | _ => True

instance (s : System) (e : SystemEvent) : Decidable (NoFailedDownload s e) :=
  match e with
  | .host e => inferInstanceAs (Decidable (¬ FailedDownload s.host e))
  | .issue _ | .read => inferInstanceAs (Decidable True)

def letter (bytes : List Int8) : ManCommand := manCommand (bytes.headD 0)

theorem getManCommand_head {c : Int8} (hc : c ≠ charSpace) (rest : List Int8) (stale : ℕ → Int8) :
    (getManCommand (c :: rest) stale).1 = c := by
  have h0 : overlay (c :: rest) stale 0 = c := rfl
  have hskip : skipBlanks (overlay (c :: rest) stale) (rest.length + 1) 0 = 0 := by
    rw [skipBlanks, h0, if_neg hc]
  rw [getManCommand, List.length_cons, hskip]
  exact h0

/-- The message is the letter and what is behind it, at most a blank and the argument. -/
structure Spells (bytes : List Int8) (r : Request) (tail : List Int8) : Prop where
  whole : bytes = letterByte r :: tail
  fits : bytes.length < manMsgLength
  behind : tail = [] ∧ argument r = [] ∨ tail = charSpace :: argument r

theorem printMsg_spells {size : ℕ} (hsize : size ≤ manMsgLength) {r : Request} {bytes : List Int8}
    (h : printMsg size (letterByte r :: charSpace :: argument r) = some bytes) :
    ∃ tail, Spells bytes r tail := by
  simp only [printMsg, Option.ite_none_right_eq_some, Option.some.injEq] at h
  obtain ⟨hlen, rfl⟩ := h
  exact ⟨_, rfl, by omega, .inr rfl⟩

theorem message_spells {r : Request} {bytes : List Int8} (h : message r = some bytes) :
    ∃ tail, Spells bytes r tail := by
  have hname : nameLength ≤ manMsgLength := by decide
  cases r with
  | displayHostState =>
    cases h
    exact ⟨[], rfl, by decide, .inl ⟨rfl, rfl⟩⟩
  | setHostDir name => exact printMsg_spells hname h
  | ping hostToPing => exact printMsg_spells le_rfl h
  | fileUpload hostId name => exact printMsg_spells hname h
  | fileDownload hostId name => exact printMsg_spells hname h
  | dnsRegister domainName => exact printMsg_spells hname h
  | dnsLookup domainName => exact printMsg_spells le_rfl h
  | dnsPing domainName => exact printMsg_spells le_rfl h
  | dnsFileDownload domainName fileName => exact printMsg_spells hname h

theorem letterByte_ne (r : Request) : letterByte r ≠ charSpace ∧ letterByte r ≠ 0 := by
  cases r <;> simp only [letterByte] <;> decide

theorem manCommand_letterByte (r : Request) : manCommand (letterByte r) = command r := by
  cases r <;> rfl

theorem letter_message {r : Request} {bytes : List Int8} (h : message r = some bytes) :
    letter bytes = command r := by
  obtain ⟨tail, hwhole, -⟩ := message_spells h
  rw [hwhole]
  exact manCommand_letterByte r

theorem commandOf_message {r : Request} {bytes : List Int8} (h : message r = some bytes)
    (s : HostState) : commandOf bytes s = letter bytes := by
  obtain ⟨tail, hwhole, -⟩ := message_spells h
  rw [hwhole, commandOf, getManCommand_head (letterByte_ne r).1]
  rfl

theorem readsReply_eq (r : Request) : readsReply r = owed (command r) := by
  cases r <;> rfl

theorem takeCommand_spec (host : HostState) {e : HostEvent} {pipe rest : List (List Int8)}
    (h : takeCommand e pipe = some rest) (hp : ∀ bytes ∈ pipe, ∃ r, message r = some bytes) :
    pipe.map letter = newCommands host e ++ rest.map letter ∧ ∀ bytes ∈ rest, bytes ∈ pipe := by
  cases e with
  | control =>
    cases h
    exact ⟨rfl, fun _ => id⟩
  | receive =>
    cases h
    exact ⟨rfl, fun _ => id⟩
  | execute =>
    cases h
    exact ⟨rfl, fun _ => id⟩
  | command bytes blank =>
    cases bytes with
    | none =>
      simp only [takeCommand, Option.ite_none_right_eq_some, Option.some.injEq] at h
      obtain ⟨rfl, rfl⟩ := h
      exact ⟨rfl, fun _ => id⟩
    | some bytes =>
      simp only [takeCommand, Option.ite_none_right_eq_some, Option.some.injEq] at h
      obtain ⟨hhead, rfl⟩ := h
      rcases pipe with _ | ⟨b, pipe⟩
      · cases hhead
      · cases hhead
        obtain ⟨r, hr⟩ := hp bytes List.mem_cons_self
        refine ⟨?_, fun x hx => List.mem_cons_of_mem bytes hx⟩
        simp [newCommands, commandOf_message hr]

def readKeys (s : System) : List (ManCommand × ℕ) := s.read.map fun x => x.2.ticket.key

/-- What holds while no download by name fails: every message is one that the manager reads, and
the commands owed a reply are those it has read one for, and the one it is serving. -/
structure Paired (s : System) : Prop where
  host : Kept s.host
  messages : ∀ m ∈ s.host.written, owed m.ticket.command = true
  pipe : ∀ bytes ∈ s.pipe, ∃ r, message r = some bytes
  issued : s.issued = s.host.commands ++ s.pipe.map letter
  first : s.read.map Prod.snd <+: s.host.written
  matched : ∀ x ∈ s.read, x.2.ticket.serial = x.1
  owing : ∃ ks, accepted owed s.issued = readKeys s ++ ks ∧ ks.map Prod.snd = s.serving.toList

theorem paired_init (garbage : HostState) : Paired (systemInit garbage) := by
  constructor
  · exact kept_init garbage
  · simp [systemInit, hostInit]
  · simp [systemInit]
  · rfl
  · exact List.nil_prefix
  · simp [systemInit]
  · exact ⟨[], rfl, rfl⟩

theorem keys_messages {s : HostState} (h : ∀ m ∈ s.written, owed m.ticket.command = true) :
    keys owed (book s).written = s.written.map fun m => m.ticket.key := by
  simp only [keys, book, List.map_map]
  apply List.filter_eq_self.mpr
  intro k hk
  obtain ⟨m, hm, rfl⟩ := List.mem_map.mp hk
  exact h m hm

theorem Paired.still_owed {s : System} (h : Paired s) {ks : List (ManCommand × ℕ)}
    (hks : accepted owed s.issued = readKeys s ++ ks) :
    ∃ more, ks.Perm
      (((s.host.written.drop s.read.length).map fun m => m.ticket.key) ++ more) := by
  obtain ⟨onTheWay, hway⟩ := accepted_initial owed s.host.commands (s.pipe.map letter)
  have hread : s.host.written = s.read.map Prod.snd ++ s.host.written.drop s.read.length := by
    have := List.prefix_iff_eq_append.mp h.first
    rw [List.length_map] at this
    exact this.symm
  have hperm := h.host.balanced.perm.append_right onTheWay
  change (accepted owed s.host.commands ++ onTheWay).Perm _ at hperm
  rw [hway, ← h.issued, hks, keys_messages h.messages, hread, List.map_append, List.map_map,
    List.append_assoc, List.append_assoc] at hperm
  exact ⟨_, (List.perm_append_left_iff _).mp hperm⟩

theorem Paired.next_message {s : System} (h : Paired s) {n : ℕ} {m : Message}
    (hn : s.serving = some n) (hm : s.host.written[s.read.length]? = some m) :
    accepted owed s.issued = readKeys s ++ [m.ticket.key] ∧ m.ticket.serial = n := by
  obtain ⟨ks, hks, hserving⟩ := h.owing
  obtain ⟨more, hperm⟩ := h.still_owed hks
  obtain ⟨k, rfl⟩ : ∃ k, ks = [k] := by
    rw [hn] at hserving
    obtain ⟨k, hk, -⟩ := List.map_eq_singleton_iff.mp hserving
    exact ⟨k, hk⟩
  have hdrop : m ∈ s.host.written.drop s.read.length :=
    List.mem_of_getElem? (i := 0) (by simpa using hm)
  have hmem : m.ticket.key ∈ [k] :=
    hperm.mem_iff.mpr (List.mem_append_left _ (List.mem_map_of_mem hdrop))
  have hkey : m.ticket.key = k := List.mem_singleton.mp hmem
  refine ⟨by rw [hkey, hks], ?_⟩
  rw [hn, ← hkey] at hserving
  simpa [Ticket.key] using hserving

theorem paired_issue {s u : System} {r : Request} (h : Paired s)
    (hs : SystemStep s (.issue r) u) : Paired u := by
  simp only [SystemStep, systemStep, Option.ite_none_right_eq_some, Option.map_eq_some_iff] at hs
  obtain ⟨hidle, bytes, hb, rfl⟩ := hs
  obtain ⟨ks, hks, hserving⟩ := h.owing
  constructor
  · exact h.host
  · exact h.messages
  · intro b hmem
    rcases List.mem_append.mp hmem with hmem | hmem
    · exact h.pipe b hmem
    · rw [List.mem_singleton.mp hmem]
      exact ⟨r, hb⟩
  · simp [h.issued, letter_message hb]
  · exact h.first
  · exact h.matched
  · refine ⟨if owed (command r) then [(command r, s.issued.length)] else [], ?_, ?_⟩
    · rw [hidle] at hserving
      rw [accepted_append, hks, List.map_eq_nil_iff.mp hserving, List.append_nil]
      rfl
    · rw [readsReply_eq]
      cases owed (command r) <;> rfl

theorem paired_host {s u : System} {e : HostEvent} (h : Paired s)
    (hs : SystemStep s (.host e) u) (hno : ¬ FailedDownload s.host e) : Paired u := by
  simp only [SystemStep, systemStep, Option.bind_eq_some_iff, Option.map_eq_some_iff] at hs
  obtain ⟨pipe, hpipe, host, hhost, rfl⟩ := hs
  obtain ⟨hletters, hsub⟩ := takeCommand_spec s.host hpipe h.pipe
  have hb := hostStep_books h.host.genuine hhost
  obtain ⟨ts, hstep, howed⟩ := hb.step
  constructor
  · exact kept_step h.host hhost
  · intro m hm
    have hmem := message_ticket hm
    rw [step_written hstep] at hmem
    rcases List.mem_append.mp hmem with hmem | hmem
    · obtain ⟨m', hm', heq⟩ := List.mem_map.mp hmem
      rw [← heq]
      exact h.messages m' hm'
    · exact (howed _ hmem).resolve_right hno
  · intro bytes hbytes
    exact h.pipe bytes (hsub bytes hbytes)
  · rw [h.issued, hletters, hb.commands, List.append_assoc]
  · exact h.first.trans hb.written
  · exact h.matched
  · exact h.owing

theorem paired_read {s u : System} (h : Paired s) (hs : SystemStep s .read u) : Paired u := by
  simp only [SystemStep, systemStep] at hs
  split at hs
  case h_2 => cases hs
  case h_1 n m hn hm =>
    cases hs
    obtain ⟨howing, hserial⟩ := h.next_message hn hm
    constructor
    · exact h.host
    · exact h.messages
    · exact h.pipe
    · exact h.issued
    · obtain ⟨rest, hrest⟩ := h.first
      have hlen : (s.read.map Prod.snd).length = s.read.length := List.length_map _
      rw [← hrest, ← hlen, List.getElem?_append_right le_rfl, Nat.sub_self] at hm
      obtain ⟨tail, htail⟩ : ∃ tail, rest = m :: tail := by
        cases rest with
        | nil => cases hm
        | cons x tail =>
          cases hm
          exact ⟨tail, rfl⟩
      refine ⟨tail, ?_⟩
      rw [← hrest, htail, List.map_append, List.append_assoc]
      rfl
    · intro x hx
      rcases List.mem_append.mp hx with hx | hx
      · exact h.matched x hx
      · rw [List.mem_singleton.mp hx]
        exact hserial
    · refine ⟨[], ?_, rfl⟩
      rw [List.append_nil]
      change accepted owed s.issued = (s.read ++ [(n, m)]).map _
      rw [howing, List.map_append]
      rfl

theorem paired_step {s u : System} {e : SystemEvent} (h : Paired s) (hs : SystemStep s e u)
    (hno : NoFailedDownload s e) : Paired u := by
  cases e with
  | issue r => exact paired_issue h hs
  | host e => exact paired_host h hs hno
  | read => exact paired_read h hs

/-- While no download by name fails or runs out of time, every message that the manager reads was
written for the command it is serving. -/
theorem reads_own_reply {garbage : HostState} {s : System} {es : List SystemEvent}
    (h : Run (fun s e u => SystemStep s e u ∧ NoFailedDownload s e) (systemInit garbage) es s) :
    ∀ x ∈ s.read, x.2.ticket.serial = x.1 ∧ s.issued[x.1]? = some x.2.ticket.command := by
  have hp : Paired s :=
    h.invariant (I := Paired) (fun _ _ _ hs hi => paired_step hi hs.1 hs.2) (paired_init garbage)
  intro x hx
  have hserial := hp.matched x hx
  refine ⟨hserial, ?_⟩
  have hmem : x.2 ∈ s.host.written := hp.first.subset (List.mem_map_of_mem hx)
  have hgen := hp.host.genuine_message hmem
  rw [hserial] at hgen
  obtain ⟨hlt, -⟩ := List.getElem?_eq_some_iff.mp hgen
  rw [hp.issued]
  rw [List.getElem?_append_left hlt]
  exact hgen

/-- The manager asks for the download of "b" from the host named "a", and then for the state of
the host. The payload is what the server answers. -/
def downloadThenState (payload : List Int8) : List SystemEvent :=
  [.issue (.dnsFileDownload [97] [98])] ++
    (iteration (some [68, 32, 97, 32, 98]) (-1) noPacket).map .host ++
    (iteration none (payload.length + 9) { noPacket with
      src := 100, dst := 1, type := pktDnsLookupReply, length := payload.length + 1
      payload := strcpy payload noPacket.payload }).map .host ++
    [.issue .displayHostState] ++ (iteration (some [115]) (-1) noPacket).map .host ++ [.read]

def guardedStep (s : System) (e : SystemEvent) : Option System :=
  if NoFailedDownload s e then systemStep s e else none

theorem foundName_runs :
    (((downloadThenState [3]).foldlM guardedStep (systemInit quietHost)).map fun s =>
      s.read.map fun x => (x.1, x.2.ticket)) = some [(1, ⟨1, .displayHostState, 0⟩)] := by
  decide +kernel

theorem reads_own_reply_download :
    ∃ s, Run (fun s e u => SystemStep s e u ∧ NoFailedDownload s e) (systemInit quietHost)
        (downloadThenState [3]) s ∧
      (s.read.map fun x => (x.1, x.2.ticket)) = [(1, ⟨1, .displayHostState, 0⟩)] ∧
      ∀ x ∈ s.read, x.2.ticket.serial = x.1 ∧ s.issued[x.1]? = some x.2.ticket.command := by
  obtain ⟨s, hs, hread⟩ := Option.map_eq_some_iff.mp foundName_runs
  have hrun : Run (fun s e u => SystemStep s e u ∧ NoFailedDownload s e) (systemInit quietHost)
      (downloadThenState [3]) s := by
    refine (Run.of_foldlM hs).mono ?_
    intro a e b hstep
    simp only [guardedStep, Option.ite_none_right_eq_some] at hstep
    exact ⟨hstep.2, hstep.1⟩
  exact ⟨s, hrun, hread, reads_own_reply hrun⟩

theorem unknownName_runs :
    (((downloadThenState failText).foldlM systemStep (systemInit quietHost)).map fun s =>
      s.read.map fun x => (x.1, x.2.ticket)) = some [(1, ⟨0, .dnsFileDownload, 1⟩)] := by
  decide +kernel

/-- The message on the failed download, number 0, is read as the state of the host, number 1. -/
theorem failed_download_answers_next :
    ¬ ∀ (garbage : HostState) (es : List SystemEvent) (s : System),
      Run SystemStep (systemInit garbage) es s → ∀ x ∈ s.read, x.2.ticket.serial = x.1 := by
  intro hall
  obtain ⟨s, hs, hread⟩ := Option.map_eq_some_iff.mp unknownName_runs
  have hrun : Run SystemStep (systemInit quietHost) (downloadThenState failText) s :=
    Run.of_foldlM hs
  obtain ⟨x, hx, hkey⟩ : ∃ x ∈ s.read, (x.1, x.2.ticket) = (1, ⟨0, .dnsFileDownload, 1⟩) := by
    have hmem : (1, (⟨0, .dnsFileDownload, 1⟩ : Ticket ManCommand)) ∈
        s.read.map fun x => (x.1, x.2.ticket) := by
      rw [hread]
      exact List.mem_singleton.mpr rfl
    obtain ⟨x, hx, hkey⟩ := List.mem_map.mp hmem
    exact ⟨x, hx, hkey⟩
  have hserial := hall quietHost _ s hrun x hx
  rw [Prod.mk.injEq] at hkey
  rw [hkey.1, hkey.2] at hserial
  exact absurd hserial (by decide)

end ManagerReplies
