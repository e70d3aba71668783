import NetSim.ScanText
import NetSim.CommandStream

/-! What the host reads out of a command of the manager is what the user entered. -/
namespace CommandDecoding

open PacketCodec HostNode ManagerReplies CommandStream ScanText
open DnsServer (charSpace)
open FileBuffer (maxFileName)

/-- The text that the manager prints for a command with arguments. -/
def formatted (r : Request) : List Int8 := letterByte r :: charSpace :: argument r

/-- The ids and names that the user enters; "s" has none. -/
def Entered : Request → Prop
  | .displayHostState => False
  | .setHostDir name => Word name
  | .ping hostToPing => IsInt hostToPing
  | .fileUpload hostId name | .fileDownload hostId name =>
    IsInt hostId ∧ Word name ∧ name.length < maxFileName
  | .dnsRegister domainName | .dnsLookup domainName | .dnsPing domainName =>
    Word domainName ∧ domainName.length < maxDomainName
  | .dnsFileDownload domainName fileName =>
    Word domainName ∧ domainName.length < maxDomainName ∧
      Word fileName ∧ fileName.length < maxFileName

/-- The variables of the host hold what was entered. -/
def Holds (u : HostState) : Request → Prop
  | .displayHostState => True
  | .setHostDir name => u.dir = some name
  | .ping hostToPing => u.dst = hostToPing
  | .fileUpload hostId name | .fileDownload hostId name => u.dst = hostId ∧ u.name = name
  | .dnsRegister domainName | .dnsLookup domainName | .dnsPing domainName =>
    u.domainName = domainName
  | .dnsFileDownload domainName fileName => u.domainName = domainName ∧ u.name = fileName

theorem word_solid {name : List Int8} (h : Word name) : Solid name :=
  ⟨h.1, fun b hb => (h.2 b hb).2⟩

theorem scanName_solid {size : ℕ} {word : List Int8} (h : Solid word) (hl : word.length < size)
    {blank rest : List Int8} (hb : Blank blank) (hr : Stops (fun b => !isSpace b) rest)
    (old : List Int8) : scanName size (blank ++ (word ++ rest)) old = some (word, rest) := by
  have htake := takeWord_solid h hb hr
  rw [scanName, scanWord_eq, htake]
  exact if_pos hl

theorem scanName_word {size : ℕ} {word : List Int8} (h : Word word) (hl : word.length < size)
    (old : List Int8) : scanName size word old = some (word, []) := by
  have := scanName_solid (word_solid h) hl blank_nil (stops_nil _) old
  rwa [List.nil_append, List.append_nil] at this

theorem scanInt_toString {z : ℤ} (hz : IsInt z) {rest : List Int8} (hr : Stops isDigit rest) :
    scanInt (toBytes (toString z) ++ rest) = some (z, rest) := by
  have htake := takeInt_numeral ((decimal_toString z).numeral hz) blank_nil hr
  rw [List.nil_append] at htake
  rw [scanInt_eq, htake]
  rfl

theorem scanDstName_entered {hostId : ℤ} {name : List Int8} (hid : IsInt hostId) (hname : Word name)
    (hl : name.length < maxFileName) (s : HostState) :
    scanDstName (toBytes (toString hostId) ++ toBytes " " ++ name) s =
      some { s with dst := hostId, name := name } := by
  have hrest : Stops isDigit (toBytes " " ++ name) := stops_space (by decide) name
  have hscan : scanName maxFileName (toBytes " " ++ name) s.name = some (name, []) := by
    have := scanName_solid (word_solid hname) hl blank_space (stops_nil _) s.name
    rwa [List.append_nil] at this
  rw [List.append_assoc, scanDstName, scanInt_toString hid hrest]
  simp only [hscan, Option.map_some]

theorem scanDomainName_entered {domainName : List Int8} (h : Word domainName)
    (hl : domainName.length < maxDomainName) (s : HostState) :
    scanDomainName domainName s = some { s with domainName := domainName } := by
  rw [scanDomainName, scanName_word h hl, Option.map_some]

theorem scanDomainNameName_entered {domainName fileName : List Int8} (hd : Word domainName)
    (hdl : domainName.length < maxDomainName) (hf : Word fileName)
    (hfl : fileName.length < maxFileName) (s : HostState) :
    scanDomainNameName (domainName ++ toBytes " " ++ fileName) s =
      some { s with domainName := domainName, name := fileName } := by
  have hfirst : scanName maxDomainName (domainName ++ toBytes " " ++ fileName) s.domainName =
      some (domainName, toBytes " " ++ fileName) := by
    have := scanName_solid (word_solid hd) hdl blank_nil (stops_space (by decide) fileName)
      s.domainName
    rwa [List.nil_append, ← List.append_assoc] at this
  have hsecond : scanName maxFileName (toBytes " " ++ fileName) s.name = some (fileName, []) := by
    have := scanName_solid (word_solid hf) hfl blank_space (stops_nil _) s.name
    rwa [List.append_nil] at this
  rw [scanDomainNameName, hfirst, Option.bind_some, hsecond, Option.map_some]

theorem message_formatted {r : Request} (h : Entered r)
    (hl : (formatted r).length < nameLength) : message r = some (formatted r) := by
  have hman : (formatted r).length < manMsgLength := hl.trans (by decide)
  cases r with
  | displayHostState => exact absurd h id
  | setHostDir | fileUpload | fileDownload | dnsRegister | dnsFileDownload => exact if_pos hl
  | ping | dnsLookup | dnsPing => exact if_pos hman

theorem typed_entered {r : Request} (h : Entered r) (hl : (formatted r).length < nameLength) :
    Typed r := by
  refine ⟨by rw [message_formatted h hl]; rfl, ?_⟩
  cases r with
  | displayHostState | ping => exact trivial
  | setHostDir => exact h
  | fileUpload | fileDownload => exact h.2.1
  | dnsRegister | dnsLookup | dnsPing => exact h.1
  | dnsFileDownload => exact ⟨h.1, h.2.2.1⟩

theorem namePacket_some {name : List Int8} (hl : name.length < payloadMax) (hostId dst : ℤ)
    (type : Int8) (blank : Packet) : ∃ p, namePacket hostId dst type name blank = some p :=
  ⟨_, if_pos hl⟩

theorem askServer_some {s : HostState} (hl : s.domainName.length < maxDomainName) (type : Int8)
    (wait : HostJob) (blank : Packet) :
    ∃ jobs, askServer type wait blank s = some (enqueue jobs s) := by
  obtain ⟨p, hp⟩ := namePacket_some (hl.trans (by decide)) s.hostId DnsServer.serverId type blank
  exact ⟨_, Option.map_eq_some_iff.mpr ⟨p, hp, rfl⟩⟩

theorem executeCommand_entered {r : Request} (h : Entered r)
    (hl : (formatted r).length < nameLength) (blank : Packet) (t : ReplyBook.Ticket ManCommand)
    (s : HostState) :
    ∃ u, executeCommand (command r) (argument r) blank t s = some u ∧
      u.commands = s.commands ∧ Holds u r := by
  cases r with
  | displayHostState => exact absurd h id
  | setHostDir name =>
    have hfits : name.length < maxDirName := by
      simp only [formatted, argument, List.length_cons, nameLength, maxDirName] at hl ⊢
      omega
    exact ⟨_, if_pos hfits, rfl, rfl⟩
  | ping hostToPing =>
    have hscan := scanInt_toString h (stops_nil _)
    rw [List.append_nil] at hscan
    refine ⟨_, rfl, rfl, ?_⟩
    simp only [Holds, argument, HostNode.ping, hscan]
    rfl
  | fileUpload hostId name =>
    obtain ⟨hid, hname, hshort⟩ := h
    have hscan := scanDstName_entered hid hname hshort s
    exact ⟨_, Option.bind_eq_some_iff.mpr ⟨_, hscan, if_pos hshort⟩, rfl, rfl, rfl⟩
  | fileDownload hostId name =>
    obtain ⟨hid, hname, hshort⟩ := h
    have hscan := scanDstName_entered hid hname hshort s
    obtain ⟨p, hp⟩ := namePacket_some (show name.length < payloadMax from hshort) s.hostId hostId
      pktFileDownloadReq blank
    refine ⟨_, Option.bind_eq_some_iff.mpr ⟨_, hscan, Option.map_eq_some_iff.mpr ⟨p, hp, rfl⟩⟩, ?_⟩
    exact ⟨rfl, rfl, rfl⟩
  | dnsRegister domainName =>
    obtain ⟨hname, hshort⟩ := h
    have hscan := scanDomainName_entered hname hshort s
    obtain ⟨jobs, hask⟩ := askServer_some (s := { s with
      domainName := domainName
      dnsRegisterReceived := false
      dnsRegisterBuffer := clear s.dnsRegisterBuffer }) hshort pktDnsRegister
      (.dnsRegisterWaitForReply t 40) blank
    exact ⟨_, Option.bind_eq_some_iff.mpr ⟨_, hscan, hask⟩, rfl, rfl⟩
  | dnsLookup domainName =>
    obtain ⟨hname, hshort⟩ := h
    have hscan := scanDomainName_entered hname hshort s
    obtain ⟨jobs, hask⟩ := askServer_some (s := { s with
      domainName := domainName
      dnsLookupReceived := false
      dnsLookupBuffer := clear s.dnsLookupBuffer }) hshort pktDnsLookup
      (.dnsLookupWaitForReply t domainName 40) blank
    exact ⟨_, Option.bind_eq_some_iff.mpr ⟨_, hscan, hask⟩, rfl, rfl⟩
  | dnsPing domainName =>
    obtain ⟨hname, hshort⟩ := h
    have hscan := scanDomainName_entered hname hshort s
    obtain ⟨jobs, hask⟩ := askServer_some (s := { s with
      domainName := domainName
      dnsLookupReceived := false }) hshort pktDnsLookup (.dnsPingWaitForReply t 40) blank
    exact ⟨_, Option.bind_eq_some_iff.mpr ⟨_, hscan, hask⟩, rfl, rfl⟩
  | dnsFileDownload domainName fileName =>
    obtain ⟨hname, hshort, hfile, hfileShort⟩ := h
    have hscan := scanDomainNameName_entered hname hshort hfile hfileShort s
    obtain ⟨jobs, hask⟩ := askServer_some (s := { s with
      domainName := domainName
      name := fileName
      dnsLookupReceived := false }) hshort pktDnsLookup
      (.dnsDownloadWaitForReply t fileName 40) blank
    refine ⟨_, Option.bind_eq_some_iff.mpr ⟨_, hscan, (if_pos hfileShort).trans hask⟩, ?_⟩
    exact ⟨rfl, rfl, rfl⟩

/-- A command that the host reads as it was written sets the host's variables to what was entered,
over any contents of `man_msg`. -/
theorem commands_decode {r : Request} (h : Entered r) (hl : (formatted r).length < nameLength)
    (blank : Packet) (s : HostState) :
    message r = some (formatted r) ∧ (getManCommand (formatted r) s.manMsg).1 = letterByte r ∧
      ∃ u, handleCommand (formatted r) blank s = some u ∧
        u.commands = s.commands ++ [command r] ∧ Holds u r := by
  have hmessage := message_formatted h hl
  have hbytes : bytesOf r = formatted r := by rw [bytesOf, hmessage, Option.getD_some]
  have hhand := hand_bytesOf (typed_entered h hl) s.manMsg
  rw [hbytes, hand, spelled, Prod.mk.injEq] at hhand
  obtain ⟨hletter, htext⟩ := hhand
  have hread : 0 < (formatted r).length ∧ (formatted r).length ≤ manMsgLength :=
    ⟨Nat.zero_lt_succ _, (hl.trans (by decide)).le⟩
  obtain ⟨u, hu, hcommands, hholds⟩ := executeCommand_entered h hl blank
    ⟨s.commands.length, command r, 0⟩
    { s with
      manMsg := (getManCommand (formatted r) s.manMsg).2
      commands := s.commands ++ [command r] }
  refine ⟨hmessage, hletter, u, ?_, hcommands, hholds⟩
  rw [handleCommand, if_pos hread]
  simp only [hletter, htext, manCommand_letterByte]
  exact hu

/-- The command "u -7 7a" for a file whose name starts with a digit. -/
theorem commands_decode_upload :
    ∃ u, handleCommand (formatted (.fileUpload (-7) [55, 97])) HostReplies.noPacket
        HostReplies.quietHost = some u ∧ u.dst = -7 ∧ u.name = [55, 97] := by
  have hname : Word [55, 97] :=
    ⟨by simp, List.forall_mem_cons.mpr ⟨by decide, List.forall_mem_singleton.mpr (by decide)⟩⟩
  have hentered : Entered (.fileUpload (-7) [55, 97]) := ⟨by decide, hname, by decide⟩
  obtain ⟨-, -, u, hu, -, hholds⟩ :=
    commands_decode hentered (by decide +kernel) HostReplies.noPacket HostReplies.quietHost
  exact ⟨u, hu, hholds⟩

end CommandDecoding
