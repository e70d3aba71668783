import NetSim.ReplyBook
import NetSim.DnsServer
import NetSim.FileUpload

/-! The main loop of a host, host_main of host.c. The job queue is a list, oldest job first;
JobQueues has its linked cells, and what a stale next field does to them.
What the program reads before it writes it (its own variables, memory from `malloc`) is any
value, and a step that leaves an array has no result. Tickets, `commands` and `written` only
record what happens: no branch reads them. -/
namespace HostNode

open PacketCodec FileBuffer FileSplit FileUpload CStrings ReplyBook
open DnsServer (payloadText strcpy serverId charSpace charF charA charI charL)

def manMsgLength : ℕ := 1000
def maxDirName : ℕ := 100
def maxDomainName : ℕ := 50
def controlCountMax : ℕ := 5

def toBytes (s : String) : List Int8 := s.toList.map fun c => Int8.ofInt c.toNat

inductive ManCommand where
  | displayHostState | setHostDir | ping | fileUpload | fileDownload
  | dnsRegister | dnsLookup | dnsPing | dnsFileDownload | unknown
  deriving DecidableEq, Repr

def manCommand (c : Int8) : ManCommand :=
  if c = 115 then .displayHostState      -- 's'
  else if c = 109 then .setHostDir       -- 'm'
  else if c = 112 then .ping             -- 'p'
  else if c = 117 then .fileUpload       -- 'u'
  else if c = 100 then .fileDownload     -- 'd'
  else if c = 114 then .dnsRegister      -- 'r'
  else if c = 108 then .dnsLookup        -- 'l'
  else if c = 80 then .dnsPing           -- 'P'
  else if c = 68 then .dnsFileDownload   -- 'D'
  else .unknown

/-- The loop over blanks from index i; the fuel is what is left of the n bytes read. -/
def skipBlanks (msg : ℕ → Int8) : ℕ → ℕ → ℕ
  | 0, i => i
  | fuel + 1, i => if msg i = charSpace then skipBlanks msg fuel (i + 1) else i

def shiftDown (i : ℕ) : ℕ → ℕ → (ℕ → Int8) → ℕ → Int8
  | 0, k, msg => Function.update msg k 0
  | fuel + 1, k, msg => shiftDown i fuel (k + 1) (Function.update msg k (msg (k + i)))

/-- get_man_command once n > 0 bytes are read over the old contents of `msg`. -/
def getManCommand (bytes : List Int8) (stale : ℕ → Int8) : Int8 × (ℕ → Int8) :=
  let msg := overlay bytes stale
  let n := bytes.length
  let i := skipBlanks msg n 0
  let j := skipBlanks msg (n - (i + 1)) (i + 1)
  (msg i, shiftDown j (n - j) 0 msg)

def manText (msg : ℕ → Int8) : List Int8 := text ((List.range manMsgLength).map msg)

def isSpace (b : Int8) : Bool := b = 32 || 9 ≤ b && b ≤ 13
def isDigit (b : Int8) : Bool := 48 ≤ b && b ≤ 57

def intMax : ℤ := 2 ^ 31 - 1
def longMax : ℤ := 2 ^ 63 - 1

/-- The digits as a `long`, clamped to its range, then cut to an `int`. -/
def toInt (negative : Bool) (digits : List Int8) : ℤ :=
  let n : ℤ := digits.foldl (fun n d => 10 * n + (d.toInt - 48)) 0
  let long := max (-longMax - 1) (min longMax (if negative then -n else n))
  (long + intMax + 1) % (2 * (intMax + 1)) - intMax - 1

def scanInt (s : List Int8) : Option (ℤ × List Int8) :=
  let s := s.dropWhile isSpace
  let signed := s.head? = some 45 ∨ s.head? = some 43
  let s' := if signed then s.tail else s
  let digits := s'.takeWhile isDigit
  if digits = [] then none else some (toInt (s.head? = some 45) digits, s'.dropWhile isDigit)

def scanWord (s : List Int8) : Option (List Int8 × List Int8) :=
  let s := s.dropWhile isSpace
  let word := s.takeWhile fun b => !isSpace b
  if word = [] then none else some (word, s.dropWhile fun b => !isSpace b)

/-- `%s` into an array of `size` bytes that holds `old`. -/
def scanName (size : ℕ) (s old : List Int8) : Option (List Int8 × List Int8) :=
  match scanWord s with
  | none => some (old, [])
  | some (word, rest) => if word.length < size then some (word, rest) else none

abbrev DnsBuffer := Fin (maxDomainName + 1) → Int8

/-- The jobs of host.h, each with the fields it uses. -/
inductive HostJob where
  | sendPktAllPorts (packet : Packet)
  | pingSendReply (packet : Packet)
  | pingWaitForReply (ticket : Ticket ManCommand) (pingTimer : ℕ)
  | fileUploadSend (fnameUpload : List Int8) (fileUploadDst : ℤ)
  | fileUploadRecvStart (packet : Packet)
  | fileUploadRecvEnd (packet : Packet)
  | fileUploadRecvMiddle (packet : Packet)
  | dnsRegisterWaitForReply (ticket : Ticket ManCommand) (pingTimer : ℕ)
  | dnsLookupWaitForReply (ticket : Ticket ManCommand) (fnameDownload : List Int8) (pingTimer : ℕ)
  | dnsPingWaitForReply (ticket : Ticket ManCommand) (pingTimer : ℕ)
  | dnsDownloadWaitForReply (ticket : Ticket ManCommand) (fnameDownload : List Int8)
      (pingTimer : ℕ)

/-- Bytes written to the manager, with the ticket of the command they answer. -/
structure Message where
  ticket : Ticket ManCommand
  bytes : List Int8

/-- Where the loop stands: `scan k` is before port k, and past the last port before the job. -/
inductive Phase where
  | top | command | scan (k : ℕ)
  deriving DecidableEq, Repr

structure HostState extends Receiver where
  nodePortNum : ℕ
  phase : Phase
  controlCount : ℕ
  manMsg : ℕ → Int8
  dst : ℤ
  name : List Int8
  domainName : List Int8
  pingReplyReceived : Bool
  dnsRegisterReceived : Bool
  dnsLookupReceived : Bool
  dnsRegisterBuffer : DnsBuffer
  dnsLookupBuffer : DnsBuffer
  jobQ : List HostJob
  sent : List Packet
  commands : List ManCommand
  written : List Message

/-- The start of host_main, over whatever its memory held. -/
def hostInit (garbage : HostState) : HostState :=
  { garbage with
    dir := none
    fBufUpload := fileBufInit garbage.fBufUpload
    phase := .top
    controlCount := 0
    dnsRegisterBuffer := fun _ => 0
    dnsLookupBuffer := fun _ => 0
    jobQ := []
    sent := []
    commands := []
    written := [] }

def enqueue (jobs : List HostJob) (s : HostState) : HostState := { s with jobQ := s.jobQ ++ jobs }

def report (t : Ticket ManCommand) (bytes : List Int8) (s : HostState) : HostState :=
  { s with written := s.written ++ [⟨t, bytes⟩] }

/-- `sprintf` into `man_reply_msg` and `write` with the NUL character. -/
def reply (t : Ticket ManCommand) (string : String) (s : HostState) : HostState :=
  report t (toBytes string ++ [0]) s

def controlPacket (hostId : ℤ) (blank : Packet) : Packet :=
  { blank with
    src := Int8.ofInt hostId
    type := pktControlPacket
    length := 0
    packetSenderType := charH
    packetSenderChild := charY
    dst := 0 }

def pingRequest (hostId dst : ℤ) (blank : Packet) : Packet :=
  { blank with
    src := Int8.ofInt hostId, dst := Int8.ofInt dst, type := pktPingReq, length := 0 }

def pingReply (hostId : ℤ) (dst : Int8) (blank : Packet) : Packet :=
  { blank with dst := dst, src := Int8.ofInt hostId, type := pktPingReply, length := 0 }

def namePacket (hostId dst : ℤ) (type : Int8) (name : List Int8) (blank : Packet) :
    Option Packet :=
  if name.length < payloadMax then
    some { blank with
      src := Int8.ofInt hostId
      dst := Int8.ofInt dst
      type := type
      payload := strcpy name blank.payload
      length := name.length }
  else none

def clear (buffer : DnsBuffer) : DnsBuffer := fun i => if i.val < maxDomainName then 0 else buffer i

def printPayload (p : Packet) (buffer : DnsBuffer) : Option DnsBuffer :=
  if (payloadText p).length ≤ maxDomainName then
    some fun i => (payloadText p ++ [0]).getD i (buffer i)
  else none

def starts (buffer : DnsBuffer) (literal : List Int8) : Bool :=
  strncmpZero (List.ofFn buffer) (literal ++ [0]) literal.length

def failText : List Int8 := [charF, charA, charI, charL]

def dnsLookupResponse (buffer : DnsBuffer) : ℤ := (buffer 0).toInt

def replyDisplayHostState (t : Ticket ManCommand) (s : HostState) : Option HostState :=
  let id := s.hostId
  let replyMsg := match s.dir with
    | some dir => dir ++ toBytes s!" {id}"
    | none => toBytes s!"None {id}"
  if replyMsg.length < maxMsgLength then some (report t replyMsg s) else none

def setHostDir (arg : List Int8) (s : HostState) : Option HostState :=
  if arg.length < maxDirName then some { s with dir := some arg } else none

def ping (arg : List Int8) (blank : Packet) (t : Ticket ManCommand) (s : HostState) : HostState :=
  let dst := match scanInt arg with
    | some (d, _) => d
    | none => s.dst
  enqueue [.sendPktAllPorts (pingRequest s.hostId dst blank), .pingWaitForReply t 10]
    { s with dst := dst, pingReplyReceived := false }

def scanDstName (arg : List Int8) (s : HostState) : Option HostState :=
  match scanInt arg with
  | none => some s
  | some (dst, rest) =>
    (scanName maxFileName rest s.name).map fun r => { s with dst := dst, name := r.1 }

def fileUpload (arg : List Int8) (s : HostState) : Option HostState :=
  (scanDstName arg s).bind fun s =>
    if s.name.length < maxFileName then some (enqueue [.fileUploadSend s.name s.dst] s) else none

def fileDownload (arg : List Int8) (blank : Packet) (s : HostState) : Option HostState :=
  (scanDstName arg s).bind fun s =>
    (namePacket s.hostId s.dst pktFileDownloadReq s.name blank).map fun p =>
      enqueue [.sendPktAllPorts p] s

def scanDomainName (arg : List Int8) (s : HostState) : Option HostState :=
  (scanName maxDomainName arg s.domainName).map fun r => { s with domainName := r.1 }

def scanDomainNameName (arg : List Int8) (s : HostState) : Option HostState :=
  (scanName maxDomainName arg s.domainName).bind fun r =>
    (scanName maxFileName r.2 s.name).map fun r' =>
      { s with domainName := r.1, name := r'.1 }

/-- A scan changes only what it reads into. -/
def Scanned (s u : HostState) : Prop :=
  ∃ dst domainName name, u = { s with dst := dst, domainName := domainName, name := name }

theorem scanDstName_scanned {arg : List Int8} {s u : HostState}
    (h : scanDstName arg s = some u) : Scanned s u := by
  unfold scanDstName at h
  split at h
  · cases h
    exact ⟨_, _, _, rfl⟩
  · obtain ⟨r, -, rfl⟩ := Option.map_eq_some_iff.mp h
    exact ⟨_, _, _, rfl⟩

theorem scanDomainName_scanned {arg : List Int8} {s u : HostState}
    (h : scanDomainName arg s = some u) : Scanned s u := by
  obtain ⟨r, -, rfl⟩ := Option.map_eq_some_iff.mp h
  exact ⟨_, _, _, rfl⟩

theorem scanDomainNameName_scanned {arg : List Int8} {s u : HostState}
    (h : scanDomainNameName arg s = some u) : Scanned s u := by
  obtain ⟨r, -, h⟩ := Option.bind_eq_some_iff.mp h
  obtain ⟨r', -, rfl⟩ := Option.map_eq_some_iff.mp h
  exact ⟨_, _, _, rfl⟩

def askServer (type : Int8) (wait : HostJob) (blank : Packet) (s : HostState) : Option HostState :=
  (namePacket s.hostId serverId type s.domainName blank).map fun p =>
    enqueue [.sendPktAllPorts p, wait] s

def dnsRegister (arg : List Int8) (blank : Packet) (t : Ticket ManCommand) (s : HostState) :
    Option HostState :=
  (scanDomainName arg s).bind fun s =>
    askServer pktDnsRegister (.dnsRegisterWaitForReply t 40) blank
      { s with dnsRegisterReceived := false, dnsRegisterBuffer := clear s.dnsRegisterBuffer }

def dnsLookup (arg : List Int8) (blank : Packet) (t : Ticket ManCommand) (s : HostState) :
    Option HostState :=
  (scanDomainName arg s).bind fun s =>
    askServer pktDnsLookup (.dnsLookupWaitForReply t s.domainName 40) blank
      { s with dnsLookupReceived := false, dnsLookupBuffer := clear s.dnsLookupBuffer }

def dnsPing (arg : List Int8) (blank : Packet) (t : Ticket ManCommand) (s : HostState) :
    Option HostState :=
  (scanDomainName arg s).bind fun s =>
    askServer pktDnsLookup (.dnsPingWaitForReply t 40) blank { s with dnsLookupReceived := false }

def dnsFileDownload (arg : List Int8) (blank : Packet) (t : Ticket ManCommand) (s : HostState) :
    Option HostState :=
  (scanDomainNameName arg s).bind fun s =>
    if s.name.length < maxFileName then
      askServer pktDnsLookup (.dnsDownloadWaitForReply t s.name 40) blank
        { s with dnsLookupReceived := false }
    else none

def executeCommand (c : ManCommand) (arg : List Int8) (blank : Packet) (t : Ticket ManCommand)
    (s : HostState) : Option HostState :=
  match c with
  | .displayHostState => replyDisplayHostState t s
  | .setHostDir => setHostDir arg s
  | .ping => some (ping arg blank t s)
  | .fileUpload => fileUpload arg s
  | .fileDownload => fileDownload arg blank s
  | .dnsRegister => dnsRegister arg blank t s
  | .dnsLookup => dnsLookup arg blank t s
  | .dnsPing => dnsPing arg blank t s
  | .dnsFileDownload => dnsFileDownload arg blank t s
  | .unknown => some s

inductive Commanded (arg : List Int8) (blank : Packet) (t : Ticket ManCommand) (s : HostState) :
    ManCommand → HostState → Prop where
  | displayHostState {text} : text.length < maxMsgLength →
      Commanded arg blank t s .displayHostState (report t text s)
  | setHostDir : arg.length < maxDirName →
      Commanded arg blank t s .setHostDir { s with dir := some arg }
  | ping : Commanded arg blank t s .ping (HostNode.ping arg blank t s)
  | fileUpload {v} : scanDstName arg s = some v → v.name.length < maxFileName →
      Commanded arg blank t s .fileUpload (enqueue [.fileUploadSend v.name v.dst] v)
  | fileDownload {v p} : scanDstName arg s = some v →
      namePacket v.hostId v.dst pktFileDownloadReq v.name blank = some p →
      Commanded arg blank t s .fileDownload (enqueue [.sendPktAllPorts p] v)
  | dnsRegister {v p} : scanDomainName arg s = some v →
      namePacket v.hostId serverId pktDnsRegister v.domainName blank = some p →
      Commanded arg blank t s .dnsRegister
        (enqueue [.sendPktAllPorts p, .dnsRegisterWaitForReply t 40]
          { v with dnsRegisterReceived := false, dnsRegisterBuffer := clear v.dnsRegisterBuffer })
  | dnsLookup {v p} : scanDomainName arg s = some v →
      namePacket v.hostId serverId pktDnsLookup v.domainName blank = some p →
      Commanded arg blank t s .dnsLookup
        (enqueue [.sendPktAllPorts p, .dnsLookupWaitForReply t v.domainName 40]
          { v with dnsLookupReceived := false, dnsLookupBuffer := clear v.dnsLookupBuffer })
  | dnsPing {v p} : scanDomainName arg s = some v →
      namePacket v.hostId serverId pktDnsLookup v.domainName blank = some p →
      Commanded arg blank t s .dnsPing
        (enqueue [.sendPktAllPorts p, .dnsPingWaitForReply t 40]
          { v with dnsLookupReceived := false })
  | dnsFileDownload {v p} : scanDomainNameName arg s = some v → v.name.length < maxFileName →
      namePacket v.hostId serverId pktDnsLookup v.domainName blank = some p →
      Commanded arg blank t s .dnsFileDownload
        (enqueue [.sendPktAllPorts p, .dnsDownloadWaitForReply t v.name 40]
          { v with dnsLookupReceived := false })
  | unknown : Commanded arg blank t s .unknown s

theorem executeCommand_commanded {c : ManCommand} {arg : List Int8} {blank : Packet}
    {t : Ticket ManCommand} {s u : HostState} (h : executeCommand c arg blank t s = some u) :
    Commanded arg blank t s c u := by
  cases c with
  | displayHostState =>
    obtain ⟨hlength, h⟩ := Option.ite_none_right_eq_some.mp h
    cases h
    exact .displayHostState hlength
  | setHostDir =>
    obtain ⟨hlength, h⟩ := Option.ite_none_right_eq_some.mp h
    cases h
    exact .setHostDir hlength
  | ping =>
    cases h
    exact .ping
  | fileUpload =>
    obtain ⟨v, hv, h⟩ := Option.bind_eq_some_iff.mp h
    obtain ⟨hlength, h⟩ := Option.ite_none_right_eq_some.mp h
    cases h
    exact .fileUpload hv hlength
  | fileDownload =>
    obtain ⟨v, hv, h⟩ := Option.bind_eq_some_iff.mp h
    obtain ⟨p, hp, rfl⟩ := Option.map_eq_some_iff.mp h
    exact .fileDownload hv hp
  | dnsRegister =>
    obtain ⟨v, hv, h⟩ := Option.bind_eq_some_iff.mp h
    obtain ⟨p, hp, rfl⟩ := Option.map_eq_some_iff.mp h
    exact .dnsRegister hv hp
  | dnsLookup =>
    obtain ⟨v, hv, h⟩ := Option.bind_eq_some_iff.mp h
    obtain ⟨p, hp, rfl⟩ := Option.map_eq_some_iff.mp h
    exact .dnsLookup hv hp
  | dnsPing =>
    obtain ⟨v, hv, h⟩ := Option.bind_eq_some_iff.mp h
    obtain ⟨p, hp, rfl⟩ := Option.map_eq_some_iff.mp h
    exact .dnsPing hv hp
  | dnsFileDownload =>
    obtain ⟨v, hv, h⟩ := Option.bind_eq_some_iff.mp h
    obtain ⟨hlength, h⟩ := Option.ite_none_right_eq_some.mp h
    obtain ⟨p, hp, rfl⟩ := Option.map_eq_some_iff.mp h
    exact .dnsFileDownload hv hlength hp
  | unknown =>
    cases h
    exact .unknown

/-- Everything from the read of a command to the end of its switch. -/
def handleCommand (bytes : List Int8) (blank : Packet) (s : HostState) : Option HostState :=
  if 0 < bytes.length ∧ bytes.length ≤ manMsgLength then
    let r := getManCommand bytes s.manMsg
    let c := manCommand r.1
    executeCommand c (manText r.2) blank ⟨s.commands.length, c, 0⟩
      { s with manMsg := r.2, commands := s.commands ++ [c] }
  else none

/-- `fname_upload` of a download request, copied up to its NUL character. -/
def requestedName (p : Packet) : Option (List Int8) :=
  if (payloadText p).length < payloadMax then some (payloadText p) else none

def translate (n : ℤ) (p : Packet) (s : HostState) : Option HostState :=
  if p.type = pktPingReq then some (enqueue [.pingSendReply p] s)
  else if p.type = pktPingReply then some { s with pingReplyReceived := true }
  else if p.type = pktFileUploadStart then some (enqueue [.fileUploadRecvStart p] s)
  else if p.type = pktFileUploadEnd then some (enqueue [.fileUploadRecvEnd p] s)
  else if p.type = pktFileUploadMiddle then some (enqueue [.fileUploadRecvMiddle p] s)
  else if p.type = pktFileDownloadReq then
    (requestedName p).map fun fname => enqueue [.fileUploadSend fname p.src.toInt] s
  else if p.type = pktDnsRegisterReply then
    (printPayload p s.dnsRegisterBuffer).bind fun buffer =>
      -- the NUL character goes behind the bytes read, not behind those printed
      if n ≤ maxDomainName then
        some { s with
          dnsRegisterReceived := true
          dnsRegisterBuffer := fun i => if (i.val : ℤ) = n then 0 else buffer i }
      else none
  else if p.type = pktDnsLookupReply then
    (printPayload p s.dnsLookupBuffer).map fun buffer =>
      { s with dnsLookupReceived := true, dnsLookupBuffer := buffer }
  else some s

/-- What a packet for this host does, by its type. -/
inductive Translated (n : ℤ) (p : Packet) (s : HostState) : HostState → Prop where
  | pingReq : p.type = pktPingReq → Translated n p s (enqueue [.pingSendReply p] s)
  | pingReply : p.type = pktPingReply → Translated n p s { s with pingReplyReceived := true }
  | fileUploadStart : p.type = pktFileUploadStart →
      Translated n p s (enqueue [.fileUploadRecvStart p] s)
  | fileUploadEnd : p.type = pktFileUploadEnd →
      Translated n p s (enqueue [.fileUploadRecvEnd p] s)
  | fileUploadMiddle : p.type = pktFileUploadMiddle →
      Translated n p s (enqueue [.fileUploadRecvMiddle p] s)
  | fileDownloadReq {fname} : p.type = pktFileDownloadReq → requestedName p = some fname →
      Translated n p s (enqueue [.fileUploadSend fname p.src.toInt] s)
  | dnsRegisterReply {buffer} : p.type = pktDnsRegisterReply →
      printPayload p s.dnsRegisterBuffer = some buffer → n ≤ maxDomainName →
      Translated n p s { s with
        dnsRegisterReceived := true
        dnsRegisterBuffer := fun i => if (i.val : ℤ) = n then 0 else buffer i }
  | dnsLookupReply {buffer} : p.type = pktDnsLookupReply →
      printPayload p s.dnsLookupBuffer = some buffer →
      Translated n p s { s with dnsLookupReceived := true, dnsLookupBuffer := buffer }
  | other : p.type ≠ pktPingReply → p.type ≠ pktDnsLookupReply → Translated n p s s

theorem translate_translated {n : ℤ} {p : Packet} {s u : HostState}
    (h : translate n p s = some u) : Translated n p s u := by
  unfold translate at h
  rcases ite_eq_iff.mp h with ⟨htype, h⟩ | ⟨-, h⟩
  · cases h
    exact .pingReq htype
  rcases ite_eq_iff.mp h with ⟨htype, h⟩ | ⟨hping, h⟩
  · cases h
    exact .pingReply htype
  rcases ite_eq_iff.mp h with ⟨htype, h⟩ | ⟨-, h⟩
  · cases h
    exact .fileUploadStart htype
  rcases ite_eq_iff.mp h with ⟨htype, h⟩ | ⟨-, h⟩
  · cases h
    exact .fileUploadEnd htype
  rcases ite_eq_iff.mp h with ⟨htype, h⟩ | ⟨-, h⟩
  · cases h
    exact .fileUploadMiddle htype
  rcases ite_eq_iff.mp h with ⟨htype, h⟩ | ⟨-, h⟩
  · obtain ⟨fname, hfname, rfl⟩ := Option.map_eq_some_iff.mp h
    exact .fileDownloadReq htype hfname
  rcases ite_eq_iff.mp h with ⟨htype, h⟩ | ⟨-, h⟩
  · obtain ⟨buffer, hbuffer, h⟩ := Option.bind_eq_some_iff.mp h
    obtain ⟨hn, h⟩ := Option.ite_none_right_eq_some.mp h
    cases h
    exact .dnsRegisterReply htype hbuffer hn
  rcases ite_eq_iff.mp h with ⟨htype, h⟩ | ⟨hlookup, h⟩
  · obtain ⟨buffer, hbuffer, rfl⟩ := Option.map_eq_some_iff.mp h
    exact .dnsLookupReply htype hbuffer
  · cases h
    exact .other hping hlookup

def receive (n : ℤ) (p : Packet) (s : HostState) : Option HostState :=
  if n > 0 ∧ p.type = pktControlPacket then some s
  else if n > 0 ∧ p.dst.toInt = s.hostId then translate n p s
  else some s

theorem receive_translate {n : ℤ} {p : Packet} {s : HostState} (hn : n > 0)
    (hdst : p.dst.toInt = s.hostId) (htype : p.type ≠ pktControlPacket) :
    receive n p s = translate n p s := by
  have hcontrol : ¬ (n > 0 ∧ p.type = pktControlPacket) := fun h => htype h.2
  rw [receive, if_neg hcontrol, if_pos ⟨hn, hdst⟩]

/-- What the four DNS waits and the ping wait share: an answer came, or the job goes back to the
queue, or its time is out. -/
def waitForReply (received : Bool) (answered : Option HostState) (pingTimer : ℕ)
    (again : ℕ → HostJob) (t : Ticket ManCommand) (timeOut : String) (s : HostState) :
    Option HostState :=
  if received then answered
  else if pingTimer > 1 then some (enqueue [again (pingTimer - 1)] s)
  else some (reply t timeOut s)

def pingWaitForReply (t : Ticket ManCommand) (pingTimer : ℕ) (s : HostState) : Option HostState :=
  waitForReply s.pingReplyReceived (some (reply t "Ping acked!" s)) pingTimer
    (.pingWaitForReply t) t "Ping time out!" s

def registerText (buffer : DnsBuffer) : String :=
  if starts buffer [charS] then "Successfully registered domain name"
  else if starts buffer [charF, charN] then "Failed to register: Name too long"
  else if starts buffer [charF, charI] then "Failed to register: Name is Invalid"
  else if starts buffer [charF, charA] then "Failed to register: Already registered"
  else "Failed to parse register response"

def dnsRegisterWaitForReply (t : Ticket ManCommand) (pingTimer : ℕ) (s : HostState) :
    Option HostState :=
  waitForReply s.dnsRegisterReceived
    (some { reply t (registerText s.dnsRegisterBuffer) s with
      dnsRegisterBuffer := clear s.dnsRegisterBuffer })
    pingTimer (.dnsRegisterWaitForReply t) t "DNS registration time out!" s

def lookupText (buffer : DnsBuffer) : String :=
  let response := dnsLookupResponse buffer
  if starts buffer failText then "DNS lookup failed." else s!"DNS lookup response {response}."

def dnsLookupWaitForReply (t : Ticket ManCommand) (fnameDownload : List Int8) (pingTimer : ℕ)
    (s : HostState) : Option HostState :=
  waitForReply s.dnsLookupReceived
    (some { reply t (lookupText s.dnsLookupBuffer) s with
      dnsLookupBuffer := clear s.dnsLookupBuffer })
    pingTimer (.dnsLookupWaitForReply t fnameDownload) t "DNS lookup time out!" s

def useUp (s : HostState) : HostState :=
  { s with dnsLookupBuffer := clear s.dnsLookupBuffer, dnsLookupReceived := false }

def dnsPingWaitForReply (t : Ticket ManCommand) (pingTimer : ℕ) (blank : Packet)
    (s : HostState) : Option HostState :=
  waitForReply s.dnsLookupReceived
    (some (useUp
      (if starts s.dnsLookupBuffer failText then reply t "DNS lookup failed." s
      else
        let dst := dnsLookupResponse s.dnsLookupBuffer
        enqueue [.sendPktAllPorts (pingRequest s.hostId dst blank), .pingWaitForReply t 10]
          { s with pingReplyReceived := false })))
    pingTimer (.dnsPingWaitForReply t) t "DNS lookup time out!" s

def dnsDownloadWaitForReply (t : Ticket ManCommand) (fnameDownload : List Int8) (pingTimer : ℕ)
    (blank : Packet) (s : HostState) : Option HostState :=
  waitForReply s.dnsLookupReceived
    (if starts s.dnsLookupBuffer failText then some (useUp (reply t "DNS lookup failed." s))
    else
      let dst := dnsLookupResponse s.dnsLookupBuffer
      (namePacket s.hostId dst pktFileDownloadReq fnameDownload blank).map fun p =>
        useUp (enqueue [.sendPktAllPorts p] s))
    pingTimer (.dnsDownloadWaitForReply t fnameDownload) t "DNS lookup time out!" s

/-- The path printed into `name` stays there. -/
def fileUploadSend (fnameUpload : List Int8) (fileUploadDst : ℤ) (mem : Scratch)
    (s : HostState) : Option HostState :=
  (uploadSend s.hostId fileUploadDst s.dir fnameUpload s.disk mem).map fun packets =>
    enqueue (packets.map .sendPktAllPorts)
      { s with name := match s.dir with
          | some dir => pathOf dir fnameUpload
          | none => s.name }

def fileUploadRecvEnd (canOpen : List Int8 → Bool) (p : Packet) (s : HostState) :
    Option HostState :=
  (recvEnd canOpen s.toReceiver p).map fun r =>
    { s with
      toReceiver := r
      name := match s.dir, fileBufGetName s.fBufUpload with
        | some dir, some string => pathOf dir (cString string)
        | _, _ => s.name }

/-- `canOpen` says which paths fopen opens for writing, `mem` what the job finds in memory. -/
def execute (canOpen : List Int8 → Bool) (mem : Scratch) (s : HostState) : Option HostState :=
  match s.jobQ with
  | [] => some s
  | job :: q =>
    let s := { s with jobQ := q }
    match job with
    | .sendPktAllPorts p => some { s with sent := s.sent ++ [p] }
    | .pingSendReply p =>
      some (enqueue [.sendPktAllPorts (pingReply s.hostId p.src (mem.blank 0))] s)
    | .pingWaitForReply t timer => pingWaitForReply t.tried timer s
    | .fileUploadSend fname dst => fileUploadSend fname dst mem s
    | .fileUploadRecvStart p => (recvStart s.toReceiver p).map fun r => { s with toReceiver := r }
    | .fileUploadRecvMiddle p => (recvMiddle s.toReceiver p).map fun r => { s with toReceiver := r }
    | .fileUploadRecvEnd p => fileUploadRecvEnd canOpen p s
    | .dnsRegisterWaitForReply t timer => dnsRegisterWaitForReply t.tried timer s
    | .dnsLookupWaitForReply t fname timer => dnsLookupWaitForReply t.tried fname timer s
    | .dnsPingWaitForReply t timer => dnsPingWaitForReply t.tried timer (mem.blank 0) s
    | .dnsDownloadWaitForReply t fname timer =>
      dnsDownloadWaitForReply t.tried fname timer (mem.blank 0) s

/-- `controlCount` reaches its limit and a control packet is queued. -/
def controlTimer (blank : Packet) (s : HostState) : HostState :=
  if s.controlCount + 1 ≥ controlCountMax then
    enqueue [.sendPktAllPorts (controlPacket s.hostId blank)] { s with controlCount := 0 }
  else { s with controlCount := s.controlCount + 1 }

/-- What one part of an iteration meets: memory for the control packet; the bytes of a command,
if any, and memory for its packet; what packet_recv returns for a port and leaves in
`in_packet`; what a job meets. -/
inductive HostEvent where
  | control (blank : Packet)
  | command (bytes : Option (List Int8)) (blank : Packet)
  | receive (n : ℤ) (p : Packet)
  | execute (canOpen : List Int8 → Bool) (mem : Scratch)

def hostStep (s : HostState) : HostEvent → Option HostState
  | .control blank =>
    if s.phase = .top then some { controlTimer blank s with phase := .command } else none
  | .command none _ =>
    if s.phase = .command then some { s with phase := .scan 0 } else none
  | .command (some bytes) blank =>
    if s.phase = .command then
      (handleCommand bytes blank s).map fun t => { t with phase := .scan 0 }
    else none
  | .receive n p =>
    match s.phase with
    | .scan k =>
      if k < s.nodePortNum then (receive n p s).map fun t => { t with phase := .scan (k + 1) }
      else none
    | _ => none
  | .execute canOpen mem =>
    if s.phase = .scan s.nodePortNum then
      (execute canOpen mem s).map fun t => { t with phase := .top }
    else none

/-- What a step of the loop can be: each part of an iteration, in its turn. -/
inductive Part (s : HostState) : HostEvent → HostState → Prop where
  | control {blank} : s.phase = .top →
      Part s (.control blank) { controlTimer blank s with phase := .command }
  | noCommand {blank} : s.phase = .command →
      Part s (.command none blank) { s with phase := .scan 0 }
  | command {bytes blank u} : s.phase = .command → handleCommand bytes blank s = some u →
      Part s (.command (some bytes) blank) { u with phase := .scan 0 }
  | receive {n p u k} : s.phase = .scan k → k < s.nodePortNum → receive n p s = some u →
      Part s (.receive n p) { u with phase := .scan (k + 1) }
  | execute {canOpen mem u} : s.phase = .scan s.nodePortNum → execute canOpen mem s = some u →
      Part s (.execute canOpen mem) { u with phase := .top }

theorem hostStep_part {s u : HostState} {e : HostEvent} (h : hostStep s e = some u) :
    Part s e u := by
  cases e with
  | control blank =>
    simp only [hostStep, Option.ite_none_right_eq_some, Option.some.injEq] at h
    obtain ⟨hphase, rfl⟩ := h
    exact .control hphase
  | command bytes blank =>
    cases bytes with
    | none =>
      simp only [hostStep, Option.ite_none_right_eq_some, Option.some.injEq] at h
      obtain ⟨hphase, rfl⟩ := h
      exact .noCommand hphase
    | some bytes =>
      simp only [hostStep, Option.ite_none_right_eq_some, Option.map_eq_some_iff] at h
      obtain ⟨hphase, v, hv, rfl⟩ := h
      exact .command hphase hv
  | receive n p =>
    simp only [hostStep] at h
    split at h
    case h_1 k hphase =>
      simp only [Option.ite_none_right_eq_some, Option.map_eq_some_iff] at h
      obtain ⟨hport, v, hv, rfl⟩ := h
      exact .receive hphase hport hv
    case h_2 => cases h
  | execute canOpen mem =>
    simp only [hostStep, Option.ite_none_right_eq_some, Option.map_eq_some_iff] at h
    obtain ⟨hphase, v, hv, rfl⟩ := h
    exact .execute hphase hv

end HostNode
