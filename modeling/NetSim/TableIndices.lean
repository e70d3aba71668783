import NetSim.HostJobs
import NetSim.Simulation

/-! The indices that switches use on their lookup tables and the server on its naming table. They
are ids of the configuration, of the commands and of the peers on SOCKET links, narrowed to a
`char` in a packet and widened again. -/
namespace TableIndices

open PacketCodec FileSplit HostNode HostWaits HostJobs NetConfig Simulation
open PacketAddresses (Hop)
open PacketLinks (packetRecvOn packetSendOn_fits)
open NetworkWiring (LinkEnd farEnd)
open SwitchNode (SwitchState SwitchJob InTable YesNo)
open DnsServer (Naming ServerState ServerJob payloadText serverId namingTableSize maxNameLength
  findHost rowMatches registeredAt)
open EventRuns (Run)

inductive Table where
  | lookupTable | namingTable
  deriving DecidableEq, Repr

def Table.size : Table → ℤ
  | .lookupTable => 102
  | .namingTable => namingTableSize

/-- `isValid` and `portNumber` are used at the same index, and so are `isRegistered` and
`namingTable`. -/
structure Access where
  table : Table
  index : ℤ
  deriving DecidableEq, Repr

def Access.InBounds (a : Access) : Prop := 0 ≤ a.index ∧ a.index < a.table.size

instance (a : Access) : Decidable a.InBounds := inferInstanceAs (Decidable (_ ∧ _))

def switchAccesses (p : Packet) : List Access :=
  if p.type = pktControlPacket then [⟨.lookupTable, p.src.toInt⟩]
  else [⟨.lookupTable, p.dst.toInt⟩, ⟨.lookupTable, p.src.toInt⟩]

def registerAccesses (p : Packet) : List Access :=
  if (payloadText p).length > maxNameLength then [] else [⟨.namingTable, p.src.toInt⟩]

def rowsRead (s : Naming) (p : Packet) : ℕ :=
  match (List.finRange namingTableSize).find? fun i => rowMatches p (s.namingTable i) with
  | some i => i.val + 1
  | none => namingTableSize

/-- The loop, and then `isRegistered` for its result. -/
def lookupAccesses (s : Naming) (p : Packet) : List Access :=
  ((List.range (rowsRead s p)).map fun i => ⟨.namingTable, (i : ℤ)⟩) ++
    if findHost s p > namingTableSize then [] else [⟨.namingTable, findHost s p⟩]

def accesses (c : Config) (s : SimState) : SimEvent → List Access
  | .recv v k peer stale prior _ =>
    match c.typeOf v, (c.nodePort v)[k]? with
    | some .switch, some t =>
      let r := received c t peer stale prior s
      if r.1 > 0 then switchAccesses r.2 else []
    | _, _ => []
  | .serverExecute v _ _ =>
    match (s.server v).jobQ with
    | .registerNewDomain p :: _ => registerAccesses p
    | .dnsPingReq p :: _ => lookupAccesses (s.server v).naming p
    | _ => []
  | _ => []

/-- As a `char` the id is an index of a lookup table. -/
def Narrow (id : ℤ) : Prop := InTable (Int8.ofInt id).toInt

instance (id : ℤ) : Decidable (Narrow id) := inferInstanceAs (Decidable (InTable _))

/-- The ids in the packet are indices of a lookup table, and so is the one that it brings when it
answers a name query. -/
structure Good (p : Packet) : Prop where
  fits : Fits p
  src : InTable p.src.toInt
  dst : InTable p.dst.toInt
  answer : p.type = pktDnsLookupReply → 0 < p.length ∧ InTable ((payloadText p).headD 0).toInt

/-- A row matches, or what an earlier lookup left in `dnsHostIDReturn` is a row, or is refused. -/
def Answerable (s : Naming) (p : Packet) : Prop :=
  (∃ i, rowMatches p (s.namingTable i) = true) ∨
    (0 ≤ s.dnsHostIDReturn ∧ s.dnsHostIDReturn < namingTableSize) ∨
    s.dnsHostIDReturn > namingTableSize

/-- A p, u or d command has a destination of the table; a read of a pipe ends with a packet; a
peer sends a good packet, if any; and a lookup can be answered. -/
def Meets (c : Config) (s : SimState) : SimEvent → Prop
  | .host v (.command (some bytes) _) => ReadsDst (commandOf bytes (s.host v)) →
      Narrow (dstAfter (argumentOf bytes (s.host v)) (s.host v).dst)
  | .recv v k peer _ _ _ => ∀ t, (c.nodePort v)[k]? = some t →
      if c.linkType t = some .pipe then cut (payloadMax + 8) (s.wire t) <:+ s.wire t
      else peer = [] ∨ ∃ p, Good p ∧ peer = packetSend p
  | .serverExecute v _ _ => ∀ p q, (s.server v).jobQ = .dnsPingReq p :: q →
      Answerable (s.server v).naming p
  | _ => True

def GoodStep (c : Config) (s : SimState) (e : SimEvent) (u : SimState) : Prop :=
  Meets c s e ∧ SimStep c s e u

theorem narrow_toInt {b : Int8} : Narrow b.toInt ↔ InTable b.toInt := by
  rw [Narrow, Int8.ofInt_toInt]

theorem headD_payloadText (p : Packet) {i : Fin payloadMax} (hi : i.val = 0) :
    (payloadText p).headD 0 = p.payload i := by
  have hfirst : (List.ofFn p.payload)[0]? = some (p.payload i) := by
    rw [List.getElem?_ofFn, dif_pos (Nat.zero_lt_of_lt i.isLt)]
    congr 2
    exact Fin.ext hi.symm
  rw [payloadText, DnsServer.payloadList]
  cases hbytes : List.ofFn p.payload with
  | nil =>
    rw [hbytes] at hfirst
    cases hfirst
  | cons a l =>
    rw [hbytes] at hfirst
    rw [← Option.some.inj hfirst]
    by_cases ha : a = 0
    · rw [ha, CStrings.text_cons_zero]
      rfl
    · rw [CStrings.text_cons ha]
      rfl

theorem Good.deliver {p : Packet} (h : Good p) (prior : Fin payloadMax → Int8) :
    Good (p.deliver prior) := by
  have hlen : (p.deliver prior).length = p.length := h.fits.length_char
  refine ⟨?_, h.src, h.dst, ?_⟩
  · rw [Fits, hlen]
    exact h.fits
  · intro htype
    obtain ⟨hpos, hanswer⟩ := h.answer htype
    refine ⟨hlen ▸ hpos, ?_⟩
    obtain ⟨i, hi⟩ : ∃ i : Fin payloadMax, i.val = 0 := ⟨⟨0, by decide⟩, rfl⟩
    have hsame : (p.deliver prior).payload i = p.payload i := by
      refine if_pos ?_
      rw [h.fits.length_char, hi]
      exact hpos
    rw [headD_payloadText _ hi] at hanswer ⊢
    rwa [hsame]

theorem good_of_type {p : Packet} (hfits : Fits p) (hsrc : InTable p.src.toInt)
    (hdst : InTable p.dst.toInt) (htype : p.type ≠ pktDnsLookupReply) : Good p :=
  ⟨hfits, hsrc, hdst, fun h => absurd h htype⟩

theorem good_of_empty {p : Packet} (hlength : p.length = 0) (hsrc : InTable p.src.toInt)
    (hdst : InTable p.dst.toInt) (htype : p.type ≠ pktDnsLookupReply) : Good p :=
  good_of_type (fits_of_length hlength (Nat.zero_le _)) hsrc hdst htype

theorem recv_good {p : Packet} (h : Good p) (type : NetLinkType) (rest : List Int8)
    (stale : ℕ → Int8) (prior : Packet) :
    Good (packetRecvOn type (packetSend p ++ rest) stale prior).2.packet := by
  have hop : Hop p (packetRecvOn type (packetSend p ++ rest) stale prior).2.packet :=
    ⟨type, fun _ => 0, stale, packetSend p, rest, prior, packetSendOn_fits type h.fits _, rfl⟩
  obtain ⟨old, hold⟩ := hop.deliver h.fits
  rw [hold]
  exact h.deliver old

theorem made_good {hostId dst : ℤ} {p : Packet} (h : Made hostId dst p) (hid : Narrow hostId)
    (hdst : Narrow dst) : Good p := by
  refine good_of_type h.fits ?_ ?_ h.noAnswer
  · rw [h.src]
    exact hid
  · rw [h.dst]
    exact hdst

def GoodJob : HostJob → Prop
  | .sendPktAllPorts p => Good p
  | .pingSendReply p => InTable p.src.toInt
  | .fileUploadSend _ dst => Narrow dst
  | _ => True

structure GoodHost (s : HostState) : Prop where
  id : Narrow s.hostId
  jobs : ∀ job ∈ s.jobQ, GoodJob job
  answer : InTable (dnsLookupResponse s.dnsLookupBuffer)

theorem command_good {c : ManCommand} {hostId dst : ℤ} {job : HostJob}
    (h : CommandJob c hostId dst job) (hid : Narrow hostId) (hdst : ReadsDst c → Narrow dst) :
    GoodJob job := by
  cases h with
  | toDst hreads hmade => exact made_good hmade hid (hdst hreads)
  | toServer hmade => exact made_good hmade hid (by decide)
  | upload hreads => exact hdst hreads
  | wait hwait =>
    cases job with
    | sendPktAllPorts | pingSendReply | fileUploadSend => exact hwait.elim
    | _ => trivial

theorem packet_good {p : Packet} {job : HostJob} (h : PacketJob p job) (hp : Good p) :
    GoodJob job := by
  cases h with
  | ping => exact hp.src
  | download => exact narrow_toInt.mpr hp.src
  | _ => trivial

theorem next_good {hostId found : ℤ} {job next : HostJob} (h : NextJob hostId found job next)
    (hid : Narrow hostId) (hfound : Narrow found) (hjob : GoodJob job) : GoodJob next := by
  cases h with
  | reply heq =>
    subst heq
    exact good_of_empty rfl hid hjob (by decide : pktPingReply ≠ pktDnsLookupReply)
  | part heq hmade =>
    subst heq
    exact made_good hmade hid hjob
  | again hagain => cases hagain <;> trivial
  | toFound hmade => exact made_good hmade hid hfound
  | pingWait => trivial

theorem controlPacket_good {hostId : ℤ} (hid : Narrow hostId) (blank : Packet) :
    Good (controlPacket hostId blank) :=
  good_of_empty rfl hid (by decide : InTable (0 : Int8).toInt)
    (by decide : pktControlPacket ≠ pktDnsLookupReply)

theorem goodHost_step {s u : HostState} {e : HostEvent} (h : hostStep s e = some u)
    (hs : GoodHost s)
    (hcommand : ∀ bytes blank, e = .command (some bytes) blank → ReadsDst (commandOf bytes s) →
      Narrow (dstAfter (argumentOf bytes s) s.dst))
    (hreceive : ∀ n p, e = .receive n p → n > 0 → Good p) :
    GoodHost u ∧ ∀ p ∈ u.sent.drop s.sent.length, Good p := by
  have hdoes := hostStep_does h
  refine ⟨⟨?_, ?_, ?_⟩, ?_⟩
  · rw [hdoes.hostId]
    exact hs.id
  · intro job hjob
    rcases hdoes.jobQ job hjob with hold | hnew
    · exact hs.jobs job hold
    · cases hnew with
      | control => exact controlPacket_good hs.id _
      | command hjob => exact command_good hjob hs.id (hcommand _ _ rfl)
      | receive hn _ _ hpacket => exact packet_good hpacket (hreceive _ _ rfl hn)
      | @execute _ _ head _ q hq hnext =>
        refine next_good hnext hs.id (narrow_toInt.mpr hs.answer) (hs.jobs head ?_)
        rw [hq]
        exact List.mem_cons_self
  · rcases hdoes.answer with hsame | hzero | ⟨n, p, rfl, hcomes, hfound⟩
    · rw [hsame]
      exact hs.answer
    · rw [hzero]
      decide
    · rw [hfound]
      exact ((hreceive n p rfl hcomes.1).answer hcomes.2.2).2
  · rcases hdoes.sent with hsame | ⟨p, hp, hmore⟩
    · rw [hsame, List.drop_length]
      exact List.forall_mem_nil _
    · rw [hmore, List.drop_left]
      exact List.forall_mem_singleton.mpr (hs.jobs _ hp)

def GoodSwitch (sw : SwitchState) : Prop := ∀ job ∈ sw.jobQ, Good job.packet.toPacket

theorem switchControl_good {hostId : ℤ} (hid : Narrow hostId) (stamp : ℕ) {sw : SwitchState}
    (h : GoodSwitch sw) : GoodSwitch (SwitchNode.controlTimer hostId stamp sw) := by
  unfold SwitchNode.controlTimer
  split
  · refine List.forall_mem_append.mpr ⟨h, List.forall_mem_singleton.mpr ?_⟩
    exact good_of_empty rfl hid (by decide : InTable (0 : Int8).toInt)
      (by decide : pktControlPacket ≠ pktDnsLookupReply)
  · exact h

theorem switchReceive_good {k : ℕ} {f : SwitchNode.Frame} {stray : SwitchNode.Stray}
    {sw : SwitchState} (h : GoodSwitch sw) (hf : Good f.toPacket) :
    GoodSwitch (SwitchNode.receivePacket k f stray sw) := by
  rw [GoodSwitch, SwitchNode.receivePacket_jobQ]
  split
  · exact h
  · refine List.forall_mem_append.mpr ⟨h, List.forall_mem_singleton.mpr ?_⟩
    rwa [SwitchNode.dataJob_packet]

theorem jobSends_good {n : ℕ} {sw : SwitchState} {job : SwitchJob} (h : Good job.packet.toPacket) :
    ∀ out ∈ SwitchNode.jobSends n sw job, Good out.2.toPacket := by
  unfold SwitchNode.jobSends
  split
  · split
    · exact List.forall_mem_map.mpr fun k _ => ⟨h.fits, h.src, h.dst, h.answer⟩
    · exact List.forall_mem_map.mpr fun k _ => h
  · exact List.forall_mem_singleton.mpr h
  · exact List.forall_mem_nil _

theorem switchExecute_good (n : ℕ) {sw : SwitchState} (h : GoodSwitch sw) :
    GoodSwitch (SwitchNode.executeJob n sw).1 ∧
      ∀ out ∈ (SwitchNode.executeJob n sw).2, Good out.2.toPacket := by
  unfold SwitchNode.executeJob
  split
  · exact ⟨h, List.forall_mem_nil _⟩
  · next job rest hq =>
    rw [GoodSwitch, hq] at h
    obtain ⟨hjob, hrest⟩ := List.forall_mem_cons.mp h
    exact ⟨hrest, jobSends_good hjob⟩

theorem switchAccesses_within {p : Packet} (h : Good p) :
    ∀ a ∈ switchAccesses p, a.InBounds := by
  unfold switchAccesses
  split
  · exact List.forall_mem_singleton.mpr h.src
  · exact List.forall_mem_cons.mpr ⟨h.dst, List.forall_mem_singleton.mpr h.src⟩

def GoodServerJob : ServerJob → Prop
  | .sendPktAllPorts p => Good p
  | .pingSendReply p | .registerNewDomain p | .dnsPingReq p => InTable p.src.toInt

/-- Only hosts with an id of the lookup table are registered. -/
structure GoodServer (s : ServerState) : Prop where
  jobs : ∀ job ∈ s.jobQ, GoodServerJob job
  rows : ∀ i, s.naming.isRegistered i = .yes → InTable i.val

theorem serverId_inTable : InTable (Int8.ofInt serverId).toInt := by decide

theorem inTable_row {i : ℤ} (h : InTable i) : 0 ≤ i ∧ i < namingTableSize := by
  obtain ⟨hlow, hhigh⟩ := h
  exact ⟨hlow, hhigh.trans (by decide)⟩

theorem findHost_cases {s : Naming} {p : Packet} (h : Answerable s p) :
    (0 ≤ findHost s p ∧ findHost s p < namingTableSize) ∨ findHost s p > namingTableSize := by
  unfold findHost
  split
  · next i _ =>
    have := i.isLt
    exact .inl ⟨by omega, by omega⟩
  · next hnone =>
    rcases h with ⟨i, hi⟩ | hold
    · exact absurd hi (List.find?_eq_none.mp hnone i (List.mem_finRange i))
    · exact hold

theorem narrow_of_inTable {id : ℤ} (h : InTable id) : Narrow id := by
  have hsame : (Int8.ofInt id).toInt = id := by
    obtain ⟨hlow, hhigh⟩ := h
    exact char_of_small (by omega) (by omega)
  rwa [Narrow, hsame]

theorem good_of_first {r : Packet} (hfits : Fits r) (hsrc : InTable r.src.toInt)
    (hdst : InTable r.dst.toInt) (hpos : 0 < r.length)
    (hfirst : ∀ i : Fin payloadMax, i.val = 0 → InTable (r.payload i).toInt) : Good r := by
  refine ⟨hfits, hsrc, hdst, fun _ => ⟨hpos, ?_⟩⟩
  obtain ⟨i, hi⟩ : ∃ i : Fin payloadMax, i.val = 0 := ⟨⟨0, by decide⟩, rfl⟩
  rw [headD_payloadText r hi]
  exact hfirst i hi

theorem registered_inTable {s : Naming} {stray : ℤ → YesNo} {found : ℤ}
    (hrows : ∀ i, s.isRegistered i = .yes → InTable i.val)
    (hrange : 0 ≤ found ∧ found < namingTableSize) (hyes : registeredAt s stray found ≠ .no) :
    InTable found := by
  rw [registeredAt, dif_pos hrange] at hyes
  cases hrow : s.isRegistered ⟨found.toNat, by omega⟩ with
  | no => exact absurd hrow hyes
  | yes =>
    have hin := hrows _ hrow
    rwa [Int.toNat_of_nonneg hrange.1] at hin

theorem lookupReply_good {s : Naming} {p : Packet} (stray : ℤ → YesNo) (blank : Packet)
    (hrows : ∀ i, s.isRegistered i = .yes → InTable i.val) (hsrc : InTable p.src.toInt)
    (h : Answerable s p) : Good (DnsServer.lookupReply s stray (findHost s p) p.src blank) := by
  unfold DnsServer.lookupReply
  split
  · refine good_of_first (fits_of_length (n := 5) rfl (by decide)) serverId_inTable hsrc
      (show (0 : ℤ) < 5 by decide) ?_
    intro i hi
    have hF : DnsServer.strcpy failText blank.payload i = DnsServer.charF := by
      rw [DnsServer.strcpy, hi]
      rfl
    change InTable (DnsServer.strcpy failText blank.payload i).toInt
    rw [hF]
    decide
  · next hfound =>
    obtain ⟨hrow, hyes⟩ := not_or.mp hfound
    have hin := registered_inTable hrows ((findHost_cases h).resolve_right hrow) hyes
    refine good_of_first (fits_of_length (n := 1) rfl (by decide)) serverId_inTable hsrc
      (show (0 : ℤ) < 1 by decide) ?_
    intro i hi
    change InTable (if i.val = 0 then Int8.ofInt (findHost s p) else blank.payload i).toInt
    rw [if_pos hi]
    exact narrow_of_inTable hin

theorem registerReply_good (attempt : DnsServer.RegisterAttempt) {src : Int8} (blank : Packet)
    (hsrc : InTable src.toInt) : Good (DnsServer.registerReply attempt src blank) := by
  have hnot : pktDnsRegisterReply ≠ pktDnsLookupReply := by decide
  cases attempt with
  | success =>
    exact good_of_type (fits_of_length (n := 1) rfl (by decide)) serverId_inTable hsrc hnot
  | nameTooLong | invalidName | alreadyRegistered =>
    exact good_of_type (fits_of_length (n := 2) rfl (by decide)) serverId_inTable hsrc hnot

theorem registerNewDomain_good {s t : Naming} {p blank reply : Packet}
    (h : DnsServer.registerNewDomain s p blank = some (t, reply)) (hsrc : InTable p.src.toInt)
    (hrows : ∀ i, s.isRegistered i = .yes → InTable i.val) :
    Good reply ∧ ∀ i, t.isRegistered i = .yes → InTable i.val := by
  rcases DnsServer.registerNewDomain_cases h with
    ⟨src, name, hindex, _, rfl, _, rfl⟩ | ⟨attempt, _, rfl, rfl, _⟩
  · refine ⟨registerReply_good _ blank hsrc, ?_⟩
    intro i hi
    by_cases hrow : i = src
    · rwa [hrow, ← DnsServer.srcIndex_eq_some hindex]
    · have hold : s.isRegistered i = .yes := by
        rwa [← Function.update_of_ne hrow YesNo.yes s.isRegistered]
      exact hrows i hold
  · exact ⟨registerReply_good _ blank hsrc, hrows⟩

theorem serverControl_good (blank : Packet) {s : ServerState} (h : GoodServer s) :
    GoodServer (DnsServer.controlTimer blank s) := by
  unfold DnsServer.controlTimer
  split
  · refine ⟨List.forall_mem_append.mpr ⟨h.jobs, List.forall_mem_singleton.mpr ?_⟩, h.rows⟩
    exact good_of_empty rfl serverId_inTable (by decide : InTable (0 : Int8).toInt)
      (by decide : pktControlPacket ≠ pktDnsLookupReply)
  · exact ⟨h.jobs, h.rows⟩

theorem packetJob_good {p : Packet} (hp : Good p) {job : ServerJob}
    (h : DnsServer.packetJob p = some job) : GoodServerJob job := by
  unfold DnsServer.packetJob at h
  split_ifs at h <;> cases h <;> exact hp.src

theorem serverReceive_good {p : Packet} {s : ServerState} (h : GoodServer s) (hp : Good p) :
    GoodServer (DnsServer.receivePackets [p] s) := by
  refine ⟨List.forall_mem_append.mpr ⟨h.jobs, ?_⟩, h.rows⟩
  intro job hjob
  obtain ⟨q, hq, hsome⟩ := List.mem_filterMap.mp hjob
  rw [List.mem_singleton.mp hq] at hsome
  exact packetJob_good hp hsome

theorem serverExecute_good {around : ℤ → YesNo} {blank : Packet} {s u : ServerState}
    (h : DnsServer.execute around blank s = some u) (hs : GoodServer s)
    (hanswer : ∀ p q, s.jobQ = .dnsPingReq p :: q → Answerable s.naming p) :
    GoodServer u ∧ ∀ p ∈ u.sent.drop s.sent.length, Good p := by
  have hjobs := hs.jobs
  unfold DnsServer.execute at h
  split at h
  · cases h
    rw [List.drop_length]
    exact ⟨hs, List.forall_mem_nil _⟩
  · next p q hq =>
    cases h
    rw [hq] at hjobs
    obtain ⟨hp, hrest⟩ := List.forall_mem_cons.mp hjobs
    rw [List.drop_left]
    exact ⟨⟨hrest, hs.rows⟩, List.forall_mem_singleton.mpr hp⟩
  · next p q hq =>
    cases h
    rw [hq] at hjobs
    obtain ⟨hp, hrest⟩ := List.forall_mem_cons.mp hjobs
    rw [List.drop_length]
    refine ⟨⟨List.forall_mem_append.mpr ⟨hrest, List.forall_mem_singleton.mpr ?_⟩, hs.rows⟩,
      List.forall_mem_nil _⟩
    exact good_of_empty rfl serverId_inTable hp (by decide : pktPingReply ≠ pktDnsLookupReply)
  · next p q hq =>
    obtain ⟨⟨t, reply⟩, hr, rfl⟩ := Option.map_eq_some_iff.mp h
    rw [hq] at hjobs
    obtain ⟨hp, hrest⟩ := List.forall_mem_cons.mp hjobs
    obtain ⟨hreply, hrows⟩ := registerNewDomain_good hr hp hs.rows
    rw [List.drop_length]
    exact ⟨⟨List.forall_mem_append.mpr ⟨hrest, List.forall_mem_singleton.mpr hreply⟩, hrows⟩,
      List.forall_mem_nil _⟩
  · next p q hq =>
    cases h
    rw [hq] at hjobs
    obtain ⟨hp, hrest⟩ := List.forall_mem_cons.mp hjobs
    have hreply := lookupReply_good around blank hs.rows hp (hanswer p q hq)
    rw [List.drop_length]
    exact ⟨⟨List.forall_mem_append.mpr ⟨hrest, List.forall_mem_singleton.mpr hreply⟩, hs.rows⟩,
      List.forall_mem_nil _⟩

theorem registerAccesses_within {p : Packet} (h : InTable p.src.toInt) :
    ∀ a ∈ registerAccesses p, a.InBounds := by
  unfold registerAccesses
  split
  · exact List.forall_mem_nil _
  · exact List.forall_mem_singleton.mpr (inTable_row h)

theorem rowsRead_le (s : Naming) (p : Packet) : rowsRead s p ≤ namingTableSize := by
  unfold rowsRead
  split
  · next i _ => exact i.isLt
  · exact le_rfl

theorem lookupAccesses_within {s : Naming} {p : Packet} (h : Answerable s p) :
    ∀ a ∈ lookupAccesses s p, a.InBounds := by
  refine List.forall_mem_append.mpr ⟨List.forall_mem_map.mpr ?_, ?_⟩
  · intro i hi
    have hrow := (List.mem_range.mp hi).trans_le (rowsRead_le s p)
    exact ⟨Int.natCast_nonneg i, Int.ofNat_lt.mpr hrow⟩
  · split
    · exact List.forall_mem_nil _
    · next hrow => exact List.forall_mem_singleton.mpr ((findHost_cases h).resolve_right hrow)

def GoodWires (wire : LinkEnd → List (List Int8)) : Prop :=
  ∀ t, ∀ m ∈ wire t, ∃ p, Good p ∧ m = packetSend p

theorem put_good {c : Config} {v : ℕ} {wire : LinkEnd → List (List Int8)} {out : ℕ × Packet}
    (h : GoodWires wire) (hout : Good out.2) : GoodWires (put c v wire out) := by
  unfold put
  split
  · exact h
  · next t _ =>
    split
    · intro end' m hm
      by_cases hend : end' = farEnd t
      · subst hend
        rw [Function.update_self] at hm
        rcases List.mem_append.mp hm with hold | hnew
        · exact h _ m hold
        · exact ⟨out.2, hout, List.mem_singleton.mp hnew⟩
      · rw [Function.update_of_ne hend] at hm
        exact h end' m hm
    · exact h

theorem transmit_good {c : Config} {v : ℕ} {outs : List (ℕ × Packet)} {s : SimState}
    (h : GoodWires s.wire) (houts : ∀ out ∈ outs, Good out.2) :
    GoodWires (transmit c v outs s).wire := by
  change GoodWires (outs.foldl (put c v) s.wire)
  generalize s.wire = wire at h ⊢
  induction outs generalizing wire with
  | nil => exact h
  | cons out outs ih =>
    obtain ⟨hout, hrest⟩ := List.forall_mem_cons.mp houts
    exact ih hrest _ (put_good h hout)

theorem onAllPorts_good {c : Config} {v : ℕ} {packets : List Packet}
    (h : ∀ p ∈ packets, Good p) : ∀ out ∈ packets.flatMap (onAllPorts c v), Good out.2 := by
  intro out hout
  obtain ⟨p, hp, hport⟩ := List.mem_flatMap.mp hout
  obtain ⟨k, -, rfl⟩ := List.mem_map.mp hport
  exact h p hp

theorem takeOff_good {c : Config} {t : LinkEnd} {s : SimState} (h : GoodWires s.wire)
    (hcut : c.linkType t = some .pipe → cut (payloadMax + 8) (s.wire t) <:+ s.wire t) :
    GoodWires (takeOff c t s).wire := by
  unfold takeOff
  split
  · next hpipe =>
    intro end' m hm
    by_cases hend : end' = t
    · subst hend
      have hleft : m ∈ cut (payloadMax + 8) (s.wire end') := by
        rwa [← Function.update_self end' (cut (payloadMax + 8) (s.wire end')) s.wire]
      exact h _ m ((hcut hpipe).subset hleft)
    · have hold : m ∈ s.wire end' := by
        rwa [← Function.update_of_ne hend (cut (payloadMax + 8) (s.wire t)) s.wire]
      exact h end' m hold
  · exact h

theorem arrived_good {c : Config} {t : LinkEnd} {peer : List Int8} {s : SimState}
    (h : GoodWires s.wire)
    (hpeer : c.linkType t ≠ some .pipe → peer = [] ∨ ∃ p, Good p ∧ peer = packetSend p) :
    arrived c t peer s = [] ∨ ∃ p rest, Good p ∧ arrived c t peer s = packetSend p ++ rest := by
  unfold arrived
  split
  · cases hwire : s.wire t with
    | nil => exact .inl rfl
    | cons m q =>
      obtain ⟨p, hp, rfl⟩ := h t m (hwire ▸ List.mem_cons_self)
      exact .inr ⟨p, q.flatten, hp, List.flatten_cons⟩
  · next hsocket =>
    rcases hpeer hsocket with rfl | ⟨p, hp, rfl⟩
    · exact .inl rfl
    · exact .inr ⟨p, [], hp, (List.append_nil _).symm⟩

theorem received_good {c : Config} {t : LinkEnd} {peer : List Int8} {stale : ℕ → Int8}
    {prior : Packet} {s : SimState} (h : GoodWires s.wire)
    (hpeer : c.linkType t ≠ some .pipe → peer = [] ∨ ∃ p, Good p ∧ peer = packetSend p)
    (hn : (received c t peer stale prior s).1 > 0) :
    Good (received c t peer stale prior s).2 := by
  unfold received at hn ⊢
  split at hn
  · exact absurd hn (lt_irrefl 0)
  · next type htype =>
    dsimp only at hn ⊢
    rcases arrived_good h hpeer with hnone | ⟨p, rest, hp, hbytes⟩
    · rw [hnone] at hn
      exact absurd hn (lt_irrefl 0)
    · rw [hbytes]
      exact recv_good hp _ rest stale prior

/-- The ids of hosts and switches; a server has its own, or exits. -/
def NarrowIds (c : Config) : Prop :=
  ∀ node ∈ c.nodes, node.type = some .host ∨ node.type = some .switch → Narrow node.id

structure GoodSim (c : Config) (s : SimState) : Prop where
  host : ∀ v, c.typeOf v = some .host → GoodHost (s.host v)
  switch : ∀ v, GoodSwitch (s.switch v)
  server : ∀ v, GoodServer (s.server v)
  wire : GoodWires s.wire

theorem narrow_idOf {c : Config} (h : NarrowIds c) {v : ℕ}
    (htype : c.typeOf v = some .host ∨ c.typeOf v = some .switch) : Narrow (c.idOf v) := by
  unfold Config.typeOf at htype
  unfold Config.idOf
  cases hnode : c.nodes[v]? with
  | none =>
    rw [hnode] at htype
    exact (htype.elim nofun nofun : False).elim
  | some node =>
    rw [hnode] at htype
    exact h node (List.mem_of_getElem? hnode) htype

theorem goodSim_init {c : Config} (h : NarrowIds c) (memory : SimMemory) :
    GoodSim c (simInit c memory) where
  host v hv := ⟨narrow_idOf h (.inl hv), List.forall_mem_nil _, (by decide : InTable 0)⟩
  switch _ := List.forall_mem_nil _
  server _ := ⟨List.forall_mem_nil _, fun _ hi => nomatch hi⟩
  wire _ := List.forall_mem_nil _

theorem forall_update {α : Type*} {f : ℕ → α} {P : ℕ → α → Prop} {v : ℕ} {a : α}
    (h : ∀ w, P w (f w)) (ha : P v a) : ∀ w, P w (Function.update f v a w) := by
  intro w
  by_cases hw : w = v
  · subst hw
    rwa [Function.update_self]
  · rw [Function.update_of_ne hw]
    exact h w

theorem goodHosts_update {c : Config} {host : ℕ → HostState} {v : ℕ} {u : HostState}
    (h : ∀ w, c.typeOf w = some .host → GoodHost (host w)) (hu : GoodHost u) :
    ∀ w, c.typeOf w = some .host → GoodHost (Function.update host v u w) :=
  forall_update (P := fun w a => c.typeOf w = some .host → GoodHost a) h fun _ => hu

theorem goodSim_takeOff {c : Config} {t : LinkEnd} {s : SimState} (h : GoodSim c s)
    (hcut : c.linkType t = some .pipe → cut (payloadMax + 8) (s.wire t) <:+ s.wire t) :
    GoodSim c (takeOff c t s) := by
  have hwire := takeOff_good h.wire hcut
  by_cases hpipe : c.linkType t = some .pipe
  · rw [takeOff, if_pos hpipe] at hwire ⊢
    exact ⟨h.host, h.switch, h.server, hwire⟩
  · rwa [takeOff, if_neg hpipe]

theorem goodSim_handle {c : Config} {v k : ℕ} {n : ℤ} {p : Packet} {stray : SwitchNode.Stray}
    {s u : SimState} (h : GoodSim c s) (hp : n > 0 → Good p)
    (hstep : handle c v k n p stray s = some u) : GoodSim c u := by
  unfold handle at hstep
  split at hstep
  · cases hstep
  · next htype =>
    obtain ⟨-, hstep⟩ := Option.ite_none_right_eq_some.mp hstep
    obtain ⟨host, hhost, rfl⟩ := Option.map_eq_some_iff.mp hstep
    have hgood : GoodHost host := by
      refine (goodHost_step hhost (h.host v htype) nofun ?_).1
      intro m q heq hm
      cases heq
      exact hp hm
    exact ⟨goodHosts_update h.host hgood, h.switch, h.server, h.wire⟩
  · split at hstep
    · next hn =>
      cases hstep
      exact ⟨h.host, forall_update h.switch (switchReceive_good (h.switch v) (hp hn)), h.server,
        h.wire⟩
    · cases hstep
      exact h
  · obtain ⟨-, hstep⟩ := Option.ite_none_right_eq_some.mp hstep
    split at hstep
    · next hn =>
      cases hstep
      exact ⟨h.host, h.switch, forall_update h.server (serverReceive_good (h.server v) (hp hn)),
        h.wire⟩
    · cases hstep
      exact h

theorem meets_port {c : Config} {s : SimState} {v k : ℕ} {peer : List Int8} {stale : ℕ → Int8}
    {prior : Packet} {stray : SwitchNode.Stray} {t : LinkEnd}
    (h : Meets c s (.recv v k peer stale prior stray)) (ht : (c.nodePort v)[k]? = some t) :
    (c.linkType t = some .pipe → cut (payloadMax + 8) (s.wire t) <:+ s.wire t) ∧
      (c.linkType t ≠ some .pipe → peer = [] ∨ ∃ p, Good p ∧ peer = packetSend p) := by
  have hport := h t ht
  constructor
  · intro hpipe
    rwa [if_pos hpipe] at hport
  · intro hsocket
    rwa [if_neg hsocket] at hport

theorem goodSim_step {c : Config} (hids : NarrowIds c) {s u : SimState} {e : SimEvent}
    (h : GoodStep c s e u) (hs : GoodSim c s) : GoodSim c u := by
  obtain ⟨hmeets, hstep⟩ := h
  unfold SimStep simStep at hstep
  cases e with
  | host v e =>
    obtain ⟨⟨htype, hlocal⟩, hstep⟩ := Option.ite_none_right_eq_some.mp hstep
    obtain ⟨host, hhost, rfl⟩ := Option.map_eq_some_iff.mp hstep
    have hboth : GoodHost host ∧ ∀ p ∈ host.sent.drop (s.host v).sent.length, Good p := by
      refine goodHost_step hhost (hs.host v htype) ?_ ?_
      · rintro bytes blank rfl
        exact hmeets
      · rintro n p rfl
        cases hlocal
    exact ⟨goodHosts_update hs.host hboth.1, hs.switch, hs.server,
      transmit_good hs.wire (onAllPorts_good hboth.2)⟩
  | switchControl v =>
    obtain ⟨htype, hstep⟩ := Option.ite_none_right_eq_some.mp hstep
    cases hstep
    refine ⟨hs.host, forall_update hs.switch ?_, hs.server, hs.wire⟩
    exact switchControl_good (narrow_idOf hids (.inr htype)) 0 (hs.switch v)
  | switchExecute v =>
    obtain ⟨-, hstep⟩ := Option.ite_none_right_eq_some.mp hstep
    cases hstep
    obtain ⟨hnext, houts⟩ := switchExecute_good (c.nodePort v).length (hs.switch v)
    refine ⟨hs.host, forall_update hs.switch hnext, hs.server, transmit_good hs.wire ?_⟩
    exact List.forall_mem_map.mpr houts
  | serverControl v blank =>
    obtain ⟨-, hstep⟩ := Option.ite_none_right_eq_some.mp hstep
    cases hstep
    exact ⟨hs.host, hs.switch, forall_update hs.server (serverControl_good blank (hs.server v)),
      hs.wire⟩
  | serverExecute v around blank =>
    obtain ⟨-, hstep⟩ := Option.ite_none_right_eq_some.mp hstep
    obtain ⟨server, hserver, rfl⟩ := Option.map_eq_some_iff.mp hstep
    obtain ⟨hnext, hsent⟩ := serverExecute_good hserver (hs.server v) hmeets
    exact ⟨hs.host, hs.switch, forall_update hs.server hnext,
      transmit_good hs.wire (onAllPorts_good hsent)⟩
  | recv v k peer stale prior stray =>
    dsimp only at hstep
    split at hstep
    · cases hstep
    · next t ht =>
      obtain ⟨hcut, hpeer⟩ := meets_port hmeets ht
      exact goodSim_handle (goodSim_takeOff hs hcut) (received_good hs.wire hpeer) hstep

theorem accesses_within {c : Config} {s : SimState} {e : SimEvent} (hs : GoodSim c s)
    (hmeets : Meets c s e) : ∀ a ∈ accesses c s e, a.InBounds := by
  cases e with
  | host | switchControl | switchExecute | serverControl => exact List.forall_mem_nil _
  | serverExecute v around blank =>
    have hjobs := (hs.server v).jobs
    unfold accesses
    dsimp only
    split
    · next p q hq =>
      rw [hq] at hjobs
      exact registerAccesses_within (List.forall_mem_cons.mp hjobs).1
    · next p q hq => exact lookupAccesses_within (hmeets p q hq)
    · exact List.forall_mem_nil _
  | recv v k peer stale prior stray =>
    unfold accesses
    dsimp only
    split
    · next t _ ht =>
      split
      · next hn =>
        exact switchAccesses_within (received_good hs.wire (meets_port hmeets ht).2 hn)
      · exact List.forall_mem_nil _
    · exact List.forall_mem_nil _

theorem goodSim_run {c : Config} (hids : NarrowIds c) {memory : SimMemory} {es : List SimEvent}
    {s : SimState} (h : Run (GoodStep c) (simInit c memory) es s) : GoodSim c s :=
  h.invariant (fun _ _ _ hstep hs => goodSim_step hids hstep hs) (goodSim_init hids memory)

/-- For every configuration that is accepted: the accesses of any part of a loop, after any run,
as long as all meet the condition. -/
theorem table_indices_within (fopen : List Int8 → Option (List Int8)) (stdin : List Int8)
    (garbage : Garbage) (memory : SimMemory) {c : Config}
    (hload : configOf (loadNetDataFile fopen stdin garbage) = c) (hids : NarrowIds c)
    {es : List SimEvent} {s : SimState} (h : Run (GoodStep c) (simInit c memory) es s)
    {e : SimEvent} (hmeets : Meets c s e) : ∀ a ∈ accesses c s e, a.InBounds := by
  subst hload
  exact accesses_within (goodSim_run hids h) hmeets

def smallConfig : Config :=
  ⟨[⟨some .host, 0⟩, ⟨some .switch, 1⟩], [⟨some .pipe, 0, 1, [], [], []⟩]⟩

theorem smallConfig_loaded :
    configOf (loadNetDataFile (diskWith (toBytes "2\nH 0\nS 1\n1\nP 0 1\n")) [97] zeros) =
      smallConfig := by
  decide +kernel

def quietMemory : SimMemory := ⟨fun _ => HostReplies.quietHost, fun _ => 0⟩

def quietRecv (v : ℕ) : SimEvent :=
  .recv v 0 [] (fun _ => 0) HostReplies.noPacket ⟨.other, 0⟩

def commanded (bytes : List Int8) : List SimEvent :=
  [.host 0 (.control HostReplies.noPacket), .host 0 (.command (some bytes) HostReplies.noPacket),
    quietRecv 0,
    .host 0 (.execute (fun _ => true) ⟨fun _ => HostReplies.noPacket, fun _ => 0, fun _ _ => 0⟩)]

theorem meets_quietRecv {v : ℕ} {t : LinkEnd} {s : SimState} (ht : smallConfig.nodePort v = [t])
    (hpipe : smallConfig.linkType t = some .pipe)
    (hcut : cut (payloadMax + 8) (s.wire t) = []) : Meets smallConfig s (quietRecv v) := by
  intro end' hend
  rw [ht] at hend
  cases hend
  rw [if_pos hpipe, hcut]
  exact List.nil_suffix

/-- The command "p 1" meets the condition, and the switch gets the packet. -/
theorem table_indices_within_ping :
    ∃ s, Run (GoodStep smallConfig) (simInit smallConfig quietMemory)
        (commanded [112, 32, 49]) s ∧
      accesses smallConfig s (quietRecv 1) = [⟨.lookupTable, 1⟩, ⟨.lookupTable, 0⟩] ∧
      ∀ a ∈ accesses smallConfig s (quietRecv 1), a.InBounds := by
  have hids : NarrowIds smallConfig := by
    refine List.forall_mem_cons.mpr ⟨fun _ => ?_, List.forall_mem_singleton.mpr fun _ => ?_⟩ <;>
      decide
  have hdst : (((commanded [112, 32, 49]).take 1).foldlM (simStep smallConfig)
      (simInit smallConfig quietMemory)).map (fun s => dstAfter (argumentOf [112, 32, 49]
        (s.host 0)) (s.host 0).dst) = some 1 := by
    decide +kernel
  have hempty : (((commanded [112, 32, 49]).take 2).foldlM (simStep smallConfig)
      (simInit smallConfig quietMemory)).map (fun s => s.wire (0, false)) = some [] := by
    decide +kernel
  have hrun : ((commanded [112, 32, 49]).foldlM (simStep smallConfig)
      (simInit smallConfig quietMemory)).map (fun s => (s.wire (0, true),
        accesses smallConfig s (quietRecv 1))) =
        some ([[0, 1, 0, 0, 0, 0, 0, 0]], [⟨.lookupTable, 1⟩, ⟨.lookupTable, 0⟩]) := by
    decide +kernel
  obtain ⟨s, hs, hlast⟩ := Option.map_eq_some_iff.mp hrun
  obtain ⟨hwire, haccesses⟩ := Prod.mk.inj hlast
  simp only [commanded, List.foldlM_cons, Option.bind_eq_bind, Option.bind_eq_some_iff] at hs
  obtain ⟨s₁, h₁, s₂, h₂, s₃, h₃, s₄, h₄, hs⟩ := hs
  cases hs
  simp only [commanded, List.take, List.foldlM_cons, List.foldlM_nil, h₁, Option.bind_eq_bind,
    Option.bind_some, h₂, Option.pure_def, Option.map_some, Option.some.injEq] at hdst hempty
  have hcommand : Meets smallConfig s₁ (.host 0 (.command (some [112, 32, 49])
      HostReplies.noPacket)) := by
    intro _
    rw [hdst]
    decide
  have hread : Meets smallConfig s₂ (quietRecv 0) :=
    meets_quietRecv rfl (by decide) (by rw [hempty]; rfl)
  have hlook : Meets smallConfig s (quietRecv 1) :=
    meets_quietRecv rfl (by decide) (by rw [hwire]; rfl)
  have hgood : Run (GoodStep smallConfig) (simInit smallConfig quietMemory)
      (commanded [112, 32, 49]) s :=
    .cons ⟨trivial, h₁⟩ (.cons ⟨hcommand, h₂⟩ (.cons ⟨hread, h₃⟩
      (.cons ⟨trivial, h₄⟩ (.nil s))))
  exact ⟨s, hgood, haccesses, table_indices_within (diskWith
    (toBytes "2\nH 0\nS 1\n1\nP 0 1\n")) [97] zeros quietMemory smallConfig_loaded hids hgood
    hlook⟩

/-- The command "p 102": the switch uses 102 as an index. -/
theorem ping_102_outside :
    configOf (loadNetDataFile (diskWith (toBytes "2\nH 0\nS 1\n1\nP 0 1\n")) [97] zeros) =
        smallConfig ∧
      ∃ s u, Run (SimStep smallConfig) (simInit smallConfig quietMemory)
          (commanded [112, 32, 49, 48, 50]) s ∧ SimStep smallConfig s (quietRecv 1) u ∧
        ⟨.lookupTable, 102⟩ ∈ accesses smallConfig s (quietRecv 1) ∧
        ¬ Access.InBounds ⟨.lookupTable, 102⟩ := by
  have hrun : ((commanded [112, 32, 49, 48, 50]).foldlM (simStep smallConfig)
      (simInit smallConfig quietMemory)).map (fun s => ((simStep smallConfig s
        (quietRecv 1)).isSome, accesses smallConfig s (quietRecv 1))) =
        some (true, [⟨.lookupTable, 102⟩, ⟨.lookupTable, 0⟩]) := by
    decide +kernel
  obtain ⟨s, hs, hlast⟩ := Option.map_eq_some_iff.mp hrun
  obtain ⟨hnext, haccesses⟩ := Prod.mk.inj hlast
  obtain ⟨u, hu⟩ := Option.isSome_iff_exists.mp hnext
  refine ⟨smallConfig_loaded, s, u, Run.of_foldlM hs, hu, ?_, by decide⟩
  rw [haccesses]
  exact List.mem_cons_self

end TableIndices
