import NetSim.CStrings
import NetSim.SwitchNode
import Mathlib.Algebra.GroupWithZero.Nat
import Mathlib.Algebra.Group.Int.Defs

/-! The domain name server of server.c: the naming table, the two DNS jobs and the main loop.
The job queue is a list, oldest job first. Reads of uninitialised or foreign memory are
parameters: `blank` is what `malloc` returned for a packet, `stray` what lies around
`isRegistered`. -/
namespace DnsServer

open PacketCodec CStrings
open SwitchNode (YesNo)

def namingTableSize : ℕ := 256

instance : NeZero namingTableSize := ⟨by decide⟩

def maxNameLength : ℕ := 50
def serverId : ℤ := 100
def charSpace : Int8 := 32
def charF : Int8 := 70
def charA : Int8 := 65
def charI : Int8 := 73
def charL : Int8 := 76

/-- The string held by a row of `char namingTable[NAMING_TABLE_SIZE][MAX_NAME_LENGTH + 1]`. -/
structure Name where
  chars : List Int8
  terminated : 0 ∉ chars
  fits : chars.length ≤ maxNameLength
  deriving DecidableEq

def Name.none : Name := ⟨[], by simp, by simp⟩

inductive RegisterAttempt where
  | success | nameTooLong | invalidName | alreadyRegistered
  deriving DecidableEq, Repr

/-- `dnsHostIDReturn` is declared before the main loop and set only by a match. -/
structure Naming where
  namingTable : Fin namingTableSize → Name
  isRegistered : Fin namingTableSize → YesNo
  dnsHostIDReturn : ℤ

def namingInit (garbage : ℤ) : Naming where
  namingTable := fun _ => Name.none
  isRegistered := fun _ => .no
  dnsHostIDReturn := garbage

def payloadList (p : Packet) : List Int8 := List.ofFn p.payload

/-- The string at `payload`. A payload without NUL counts whole, and is too long as it is. -/
def payloadText (p : Packet) : List Int8 := text (payloadList p)

/-- `(int) packet->src` as an index of the table; a negative one lies before it. -/
def srcIndex (p : Packet) : Option (Fin namingTableSize) :=
  if h : 0 ≤ p.src.toInt ∧ p.src.toInt < namingTableSize then
    some ⟨p.src.toInt.toNat, by omega⟩
  else none

/-- The scan of the first `MAX_NAME_LENGTH` bytes, whether or not a NUL comes before them. -/
def hasSpace (p : Packet) : Bool := ((payloadList p).take maxNameLength).contains charSpace

def registerAttempt (s : Naming) (p : Packet) (src : Fin namingTableSize) : RegisterAttempt :=
  if (payloadText p).length > maxNameLength then .nameTooLong
  else if s.isRegistered src = .yes then .alreadyRegistered
  else if hasSpace p then .invalidName
  else .success

/-- `sprintf(namingTable[src], "%s", payload)`, undefined when it leaves the row. -/
def printName (p : Packet) : Option Name :=
  if h : (payloadText p).length ≤ maxNameLength then
    some ⟨payloadText p, zero_not_mem_text _, h⟩
  else none

def strcpy (literal : List Int8) (old : Fin payloadMax → Int8) (i : Fin payloadMax) : Int8 :=
  (literal ++ [0]).getD i (old i)

def registerReply (attempt : RegisterAttempt) (src : Int8) (blank : Packet) : Packet :=
  let reply := { blank with dst := src, src := Int8.ofInt serverId, type := pktDnsRegisterReply }
  match attempt with
  | .success => { reply with length := 1, payload := strcpy [charS] blank.payload }
  | .nameTooLong => { reply with length := 2, payload := strcpy [charF, charN] blank.payload }
  | .invalidName => { reply with length := 2, payload := strcpy [charF, charI] blank.payload }
  | .alreadyRegistered =>
    { reply with length := 2, payload := strcpy [charF, charA] blank.payload }

def registerNewDomain (s : Naming) (p blank : Packet) : Option (Naming × Packet) :=
  match srcIndex p with
  | none =>
    -- only a name that is too long is refused before the flag of the sender is read
    if (payloadText p).length > maxNameLength then
      some (s, registerReply .nameTooLong p.src blank)
    else none
  | some src =>
    let attempt := registerAttempt s p src
    if attempt = .success then
      (printName p).map fun name =>
        ({ s with
            namingTable := Function.update s.namingTable src name
            isRegistered := Function.update s.isRegistered src .yes },
          registerReply attempt p.src blank)
    else some (s, registerReply attempt p.src blank)

theorem registerNewDomain_index {s : Naming} {p : Packet} {src : Fin namingTableSize}
    (h : srcIndex p = some src) (blank : Packet) : registerNewDomain s p blank =
      if registerAttempt s p src = .success then
        (printName p).map fun name =>
          ({ s with
              namingTable := Function.update s.namingTable src name
              isRegistered := Function.update s.isRegistered src .yes },
            registerReply (registerAttempt s p src) p.src blank)
      else some (s, registerReply (registerAttempt s p src) p.src blank) := by
  rw [registerNewDomain, h]

theorem srcIndex_eq_some {p : Packet} {i : Fin namingTableSize} (h : srcIndex p = some i) :
    p.src.toInt = i.val := by
  unfold srcIndex at h
  split at h
  · next hp =>
    have hi := Option.some.inj h
    rw [← hi]
    simp only
    omega
  · simp at h

theorem registerNewDomain_cases {s t : Naming} {p blank reply : Packet}
    (h : registerNewDomain s p blank = some (t, reply)) :
    (∃ src, ∃ name : Name, srcIndex p = some src ∧ registerAttempt s p src = .success ∧
        reply = registerReply .success p.src blank ∧ name.chars = payloadText p ∧
        t = { s with
          namingTable := Function.update s.namingTable src name
          isRegistered := Function.update s.isRegistered src .yes }) ∨
      ∃ attempt, attempt ≠ .success ∧ reply = registerReply attempt p.src blank ∧ t = s ∧
        ∀ src, srcIndex p = some src → registerAttempt s p src = attempt := by
  cases hsrc : srcIndex p with
  | none =>
    rw [registerNewDomain, hsrc] at h
    obtain ⟨-, h⟩ := Option.ite_none_right_eq_some.mp h
    cases h
    exact Or.inr ⟨.nameTooLong, nofun, rfl, rfl, nofun⟩
  | some src =>
    rw [registerNewDomain_index hsrc] at h
    by_cases hs : registerAttempt s p src = .success
    · rw [if_pos hs, hs] at h
      obtain ⟨name, hname, h⟩ := Option.map_eq_some_iff.mp h
      obtain ⟨hfits, hprint⟩ := Option.dite_none_right_eq_some.mp hname
      cases h
      cases hprint
      exact Or.inl ⟨src, _, rfl, hs, rfl, rfl, rfl⟩
    · rw [if_neg hs] at h
      cases h
      refine Or.inr ⟨_, hs, rfl, rfl, ?_⟩
      intro i hi
      cases hi
      rfl

def sizeT (n : ℤ) : ℕ := (n % 2 ^ 64).toNat

def rowMatches (p : Packet) (name : Name) : Bool :=
  strncmpZero (payloadList p) (name.chars ++ [0]) (sizeT p.length)

/-- The first row that matches, or what the variable held before. -/
def findHost (s : Naming) (p : Packet) : ℤ :=
  match (List.finRange namingTableSize).find? fun i => rowMatches p (s.namingTable i) with
  | some i => i.val
  | none => s.dnsHostIDReturn

/-- `isRegistered[i]`, from around the array when `i` is no index of it. -/
def registeredAt (s : Naming) (stray : ℤ → YesNo) (i : ℤ) : YesNo :=
  if h : 0 ≤ i ∧ i < namingTableSize then s.isRegistered ⟨i.toNat, by omega⟩ else stray i

def lookupReply (s : Naming) (stray : ℤ → YesNo) (found : ℤ) (src : Int8) (blank : Packet) :
    Packet :=
  let reply := { blank with dst := src, src := Int8.ofInt serverId, type := pktDnsLookupReply }
  if found > namingTableSize ∨ registeredAt s stray found = .no then
    { reply with length := 5, payload := strcpy [charF, charA, charI, charL] blank.payload }
  else
    { reply with
      length := 1
      payload := fun i => if i.val = 0 then Int8.ofInt found else blank.payload i }

def dnsPingReq (s : Naming) (stray : ℤ → YesNo) (p blank : Packet) : Naming × Packet :=
  ({ s with dnsHostIDReturn := findHost s p },
    lookupReply s stray (findHost s p) p.src blank)

inductive ServerJob where
  | sendPktAllPorts (packet : Packet)
  | pingSendReply (packet : Packet)
  | registerNewDomain (packet : Packet)
  | dnsPingReq (packet : Packet)

/-- `sent` lists the packets sent on all ports, oldest first. -/
structure ServerState where
  naming : Naming
  controlCount : ℕ
  jobQ : List ServerJob
  sent : List Packet

def serverInit (garbage : ℤ) : ServerState := ⟨namingInit garbage, 0, [], []⟩

def controlCountMax : ℕ := 5

def controlPacket (blank : Packet) : Packet :=
  { blank with
    src := Int8.ofInt serverId
    type := pktControlPacket
    length := 0
    packetSenderType := charH
    packetSenderChild := charY
    dst := 0 }

def controlTimer (blank : Packet) (s : ServerState) : ServerState :=
  if s.controlCount + 1 > controlCountMax then
    { s with controlCount := 0, jobQ := s.jobQ ++ [.sendPktAllPorts (controlPacket blank)] }
  else { s with controlCount := s.controlCount + 1 }

def packetJob (p : Packet) : Option ServerJob :=
  if p.type = pktControlPacket then none
  else if p.dst.toInt = serverId then
    if p.type = pktPingReq then some (.pingSendReply p)
    else if p.type = pktDnsRegister then some (.registerNewDomain p)
    else if p.type = pktDnsLookup then some (.dnsPingReq p)
    else none
  else none

def receivePackets (ps : List Packet) (s : ServerState) : ServerState :=
  { s with jobQ := s.jobQ ++ ps.filterMap packetJob }

def pingReply (src : Int8) (blank : Packet) : Packet :=
  { blank with dst := src, src := Int8.ofInt serverId, type := pktPingReply, length := 0 }

def execute (stray : ℤ → YesNo) (blank : Packet) (s : ServerState) : Option ServerState :=
  match s.jobQ with
  | [] => some s
  | .sendPktAllPorts p :: q => some { s with jobQ := q, sent := s.sent ++ [p] }
  | .pingSendReply p :: q =>
    some { s with jobQ := q ++ [.sendPktAllPorts (pingReply p.src blank)] }
  | .registerNewDomain p :: q =>
    (DnsServer.registerNewDomain s.naming p blank).map fun r =>
      { s with naming := r.1, jobQ := q ++ [.sendPktAllPorts r.2] }
  | .dnsPingReq p :: q =>
    let r := DnsServer.dnsPingReq s.naming stray p blank
    some { s with naming := r.1, jobQ := q ++ [.sendPktAllPorts r.2] }

/-- What one iteration of the loop meets: the packets on the ports, in port order, and the
memory of the packets it creates. -/
structure Round where
  packets : List Packet
  controlBlank : Packet
  blank : Packet
  stray : ℤ → YesNo

def serverStep (s : ServerState) (r : Round) : Option ServerState :=
  execute r.stray r.blank (receivePackets r.packets (controlTimer r.controlBlank s))

end DnsServer
