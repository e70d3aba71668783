import NetSim.ConfigChecks
import NetSim.PacketLinks
import Mathlib.Logic.Relation

/-! Ids are `int`s in the configuration, the commands and the comparison of a host, and `char`s in
a packet and on the wire. -/
namespace PacketAddresses

open PacketCodec PacketLinks FileSplit HostNode NetConfig
open Relation (ReflTransGen)

/-- A packet with these ids as `char`s that is neither a control packet nor too long. -/
structure Addressed (hostId dst : ℤ) (p : Packet) : Prop where
  src : p.src = Int8.ofInt hostId
  dst : p.dst = Int8.ofInt dst
  type : p.type ≠ pktControlPacket
  fits : Fits p

/-- The data packets that a host makes for the destination of a p, u or d command. -/
inductive CreatedFor (hostId dst : ℤ) : Packet → Prop where
  | ping {blank} : CreatedFor hostId dst (pingRequest hostId dst blank)
  | download {name blank p} :
      namePacket hostId dst pktFileDownloadReq name blank = some p → CreatedFor hostId dst p
  | upload {dir fname disk mem packets p} :
      uploadSend hostId dst dir fname disk mem = some packets → p ∈ packets →
      CreatedFor hostId dst p

/-- The packets that a host makes for the sender of a ping or download request. -/
inductive RepliesTo (hostId : ℤ) (request : Packet) : Packet → Prop where
  | ping {blank} : RepliesTo hostId request (pingReply hostId request.src blank)
  | file {dir fname disk mem packets p} :
      uploadSend hostId request.src.toInt dir fname disk mem = some packets → p ∈ packets →
      RepliesTo hostId request p

/-- One packet_send and the packet_recv at the other end, whatever follows on the link. -/
def Hop (p q : Packet) : Prop :=
  ∃ (t : NetLinkType) (msg stale : ℕ → Int8) (bytes rest : List Int8) (prior : Packet),
    packetSendOn t p msg = some bytes ∧ (packetRecvOn t (bytes ++ rest) stale prior).2.packet = q

/-- The check of host_main on a packet that came. -/
def Accepts (hostId : ℤ) (p : Packet) : Prop := p.type ≠ pktControlPacket ∧ p.dst.toInt = hostId

/-- Host `hostId` takes a packet that host `sender` made for `dst` exactly when it is the
destination, and only the sender takes a reply. -/
def Faithful (sender dst hostId : ℤ) : Prop :=
  ∀ p q, CreatedFor sender dst p → ReflTransGen Hop p q →
    (Accepts hostId q ↔ dst = hostId) ∧
      ∀ replier r r', RepliesTo replier q r → ReflTransGen Hop r r' →
        ∀ other, Accepts other r' ↔ other = sender

/-- The values of a signed `char`. -/
def IsChar (z : ℤ) : Prop := -128 ≤ z ∧ z ≤ 127

instance (z : ℤ) : Decidable (IsChar z) := inferInstanceAs (Decidable (_ ∧ _))

theorem receive_accepts {hostId : ℤ} {n : ℤ} {p : Packet} {s : HostState} (hn : n > 0)
    (hid : s.hostId = hostId) :
    (Accepts hostId p → receive n p s = translate n p s) ∧
      (¬ Accepts hostId p → receive n p s = some s) := by
  subst hid
  constructor
  · exact fun h => receive_translate hn h.2 h.1
  · intro h
    by_cases hcontrol : p.type = pktControlPacket
    · exact if_pos ⟨hn, hcontrol⟩
    · have hdst : ¬ (n > 0 ∧ p.dst.toInt = s.hostId) := fun hd => h ⟨hcontrol, hd.2⟩
      rw [receive, if_neg fun hc => hcontrol hc.2, if_neg hdst]

structure UploadPart (hostId dst : ℤ) (p : Packet) : Prop where
  src : p.src = Int8.ofInt hostId
  dst : p.dst = Int8.ofInt dst
  type : p.type = pktFileUploadStart ∨ p.type = pktFileUploadMiddle ∨ p.type = pktFileUploadEnd
  fits : Fits p

theorem UploadPart.type_ne {hostId dst : ℤ} {p : Packet} (h : UploadPart hostId dst p)
    {type : Int8} (htype : pktFileUploadStart ≠ type ∧ pktFileUploadMiddle ≠ type ∧
      pktFileUploadEnd ≠ type) : p.type ≠ type := by
  rcases h.type with hp | hp | hp <;> rw [hp]
  · exact htype.1
  · exact htype.2.1
  · exact htype.2.2

theorem UploadPart.addressed {hostId dst : ℤ} {p : Packet} (h : UploadPart hostId dst p) :
    Addressed hostId dst p :=
  ⟨h.src, h.dst, h.type_ne (by decide), h.fits⟩

theorem splitBuffer_parts {hostId dst : ℤ} {mem : Scratch} {k n : ℕ} {buffer : ℕ → Int8}
    {packets : List Packet} (h : splitBuffer hostId dst mem k n buffer = some packets) :
    ∀ p ∈ packets, UploadPart hostId dst p := by
  fun_induction splitBuffer hostId dst mem k n buffer generalizing packets with
  | case1 => cases h
  | case2 k n buffer _ shifted _ ih =>
    obtain ⟨rest, hrest, rfl⟩ := Option.map_eq_some_iff.mp h
    refine List.forall_mem_cons.mpr ⟨⟨rfl, rfl, .inr (.inl rfl), ?_⟩, ih hrest⟩
    exact fits_of_length rfl (by decide)
  | case3 k n buffer hshort =>
    cases h
    refine List.forall_mem_singleton.mpr ⟨rfl, rfl, .inr (.inr rfl), fits_of_length rfl ?_⟩
    simp only [maxMsgLength, payloadMax] at *
    omega

theorem uploadSend_parts {hostId dst : ℤ} {dir : Option (List Int8)} {fname : List Int8}
    {disk : Disk} {mem : Scratch} {packets : List Packet}
    (h : uploadSend hostId dst dir fname disk mem = some packets) :
    ∀ p ∈ packets, UploadPart hostId dst p := by
  cases dir with
  | none =>
    cases h
    exact List.forall_mem_nil _
  | some d =>
    obtain ⟨path, hpath, h⟩ := Option.bind_eq_some_iff.mp h
    have hshort := (Option.ite_none_right_eq_some.mp hpath).1
    split at h
    case h_1 =>
      cases h
      exact List.forall_mem_nil _
    case h_2 content hcontent =>
      obtain ⟨rest, hrest, rfl⟩ := Option.map_eq_some_iff.mp h
      refine List.forall_mem_cons.mpr ⟨⟨rfl, rfl, .inl rfl, ?_⟩, splitBuffer_parts hrest⟩
      refine fits_of_length rfl ?_
      simp only [pathOf, List.length_append, List.length_cons, FileBuffer.maxFileName,
        payloadMax] at *
      omega

theorem CreatedFor.addressed {hostId dst : ℤ} {p : Packet} (h : CreatedFor hostId dst p) :
    Addressed hostId dst p := by
  cases h with
  | ping =>
    refine ⟨rfl, rfl, ?_, fits_of_length rfl (Nat.zero_le _)⟩
    exact (by decide : pktPingReq ≠ pktControlPacket)
  | download h =>
    obtain ⟨hshort, h⟩ := Option.ite_none_right_eq_some.mp h
    cases h
    refine ⟨rfl, rfl, ?_, fits_of_length rfl hshort.le⟩
    exact (by decide : pktFileDownloadReq ≠ pktControlPacket)
  | upload h hp => exact (uploadSend_parts h p hp).addressed

theorem RepliesTo.addressed {hostId : ℤ} {request p : Packet} (h : RepliesTo hostId request p) :
    Addressed hostId request.src.toInt p := by
  cases h with
  | ping =>
    refine ⟨rfl, (Int8.ofInt_toInt _).symm, ?_, fits_of_length rfl (Nat.zero_le _)⟩
    exact (by decide : pktPingReply ≠ pktControlPacket)
  | file h hp => exact (uploadSend_parts h p hp).addressed

theorem Hop.deliver {p q : Packet} (hf : Fits p) (h : Hop p q) :
    ∃ prior, q = p.deliver prior := by
  obtain ⟨t, msg, stale, bytes, rest, prior, hsend, rfl⟩ := h
  rw [packetSendOn_fits t hf] at hsend
  cases hsend
  have hlen := packetSend_length hf
  have hmax := hf.2
  have htake : (packetSend p ++ rest).take (payloadMax + 8) =
      packetSend p ++ rest.take (payloadMax + 8 - (packetSend p).length) := by
    rw [List.take_append, List.take_of_length_le (by omega)]
  have hread : packetRecvOn t (packetSend p ++ rest) stale prior =
      packetRecvOn t ((packetSend p ++ rest).take (payloadMax + 8)) stale prior := by
    unfold packetRecvOn
    rw [List.take_take, min_self]
  have hne : (packetSend p ++ rest).take (payloadMax + 8) ≠ [] := by
    rw [htake]
    exact List.ne_nil_of_length_pos (by rw [List.length_append]; omega)
  refine ⟨prior.payload, ?_⟩
  rw [hread, recv_eq t hne (List.length_take_le _ _), htake]
  exact decode_packetSend hf _ stale prior.payload

theorem Hop.addressed {hostId dst : ℤ} {p q : Packet} (h : Hop p q) (hp : Addressed hostId dst p) :
    Addressed hostId dst q := by
  obtain ⟨prior, rfl⟩ := h.deliver hp.fits
  have hlen : (p.deliver prior).length = p.length := hp.fits.length_char
  refine ⟨hp.src, hp.dst, hp.type, ?_⟩
  rw [Fits, hlen]
  exact hp.fits

theorem addressed_hops {hostId dst : ℤ} {p q : Packet} (hp : Addressed hostId dst p)
    (h : ReflTransGen Hop p q) : Addressed hostId dst q := by
  induction h with
  | refl => exact hp
  | tail _ hop ih => exact hop.addressed ih

theorem Addressed.accepts_iff {hostId dst : ℤ} {p : Packet} (h : Addressed hostId dst p)
    (other : ℤ) : Accepts other p ↔ (Int8.ofInt dst).toInt = other := by
  rw [Accepts, h.dst, and_iff_right h.type]

theorem isChar_toInt (b : Int8) : IsChar b.toInt :=
  ⟨Int8.le_toInt b, Int.le_of_lt_add_one (Int8.toInt_lt b)⟩

theorem toInt_ofInt_eq_iff (z : ℤ) : (Int8.ofInt z).toInt = z ↔ IsChar z := by
  constructor
  · intro h
    rw [← h]
    exact isChar_toInt _
  · exact fun h => char_of_small h.1 h.2

theorem narrow_iff (dst hostId : ℤ) :
    ((Int8.ofInt dst).toInt = hostId ↔ dst = hostId) ↔
      IsChar dst ∨ (hostId ≠ dst ∧ hostId ≠ (Int8.ofInt dst).toInt) := by
  by_cases hchar : IsChar dst
  · rw [(toInt_ofInt_eq_iff dst).mpr hchar]
    exact iff_of_true Iff.rfl (.inl hchar)
  · have hne : (Int8.ofInt dst).toInt ≠ dst := mt (toInt_ofInt_eq_iff dst).mp hchar
    rw [or_iff_right hchar]
    constructor
    · intro h
      have hdst : hostId ≠ dst := fun hd => hne ((h.mpr hd.symm).trans hd)
      exact ⟨hdst, fun hn => hdst (h.mp hn.symm).symm⟩
    · rintro ⟨hdst, hnarrow⟩
      exact iff_of_false hnarrow.symm hdst.symm

theorem narrow_sender_iff (sender : ℤ) :
    (∀ other, (Int8.ofInt sender).toInt = other ↔ other = sender) ↔ IsChar sender := by
  rw [← toInt_ofInt_eq_iff]
  constructor
  · exact fun h => (h sender).mpr rfl
  · intro h other
    rw [h]
    exact eq_comm

/-- Addressing is faithful exactly when the destination fits a `char`, or the host is neither the
destination nor what it is narrowed to, and the sender's id fits a `char`. -/
theorem faithful_iff (sender dst hostId : ℤ) :
    Faithful sender dst hostId ↔
      (IsChar dst ∨ (hostId ≠ dst ∧ hostId ≠ (Int8.ofInt dst).toInt)) ∧ IsChar sender := by
  rw [← narrow_iff, ← narrow_sender_iff]
  constructor
  · intro h
    obtain ⟨haccepts, hreplies⟩ := h (pingRequest sender dst HostReplies.noPacket) _ .ping .refl
    refine ⟨?_, ?_⟩
    · rwa [CreatedFor.ping.addressed.accepts_iff] at haccepts
    · intro other
      have hr : RepliesTo 0 (pingRequest sender dst HostReplies.noPacket)
          (pingReply 0 (Int8.ofInt sender) HostReplies.noPacket) := .ping
      have hreply := hreplies 0 _ _ hr .refl other
      rwa [hr.addressed.accepts_iff, Int8.ofInt_toInt] at hreply
  · rintro ⟨hdst, hsender⟩ p q hp hq
    have hq := addressed_hops hp.addressed hq
    refine ⟨?_, ?_⟩
    · rw [hq.accepts_iff]
      exact hdst
    · intro replier r r' hr hr' other
      have hr' := addressed_hops hr.addressed hr'
      rw [hr'.accepts_iff, hq.src, Int8.ofInt_toInt]
      exact hsender other

/-- Host 200 is in a configuration that is loaded, and does not take what is sent to 200. -/
theorem host_200_unreachable :
    loadNetDataFile (diskWith (toBytes "2\nH 0\nH 200\n1\nP 0 200\n")) [97] zeros =
        .accepted true [⟨⟨some .host, 0⟩, true⟩, ⟨⟨some .host, 200⟩, true⟩]
          [⟨⟨some .pipe, 0, 200, [], [], []⟩, true⟩] ∧
      ¬ Faithful 0 200 200 := by
  refine ⟨by decide +kernel, ?_⟩
  intro h
  have hping : CreatedFor 0 200 (pingRequest 0 200 HostReplies.noPacket) := .ping
  have haccepts := (h _ _ hping .refl).1
  rw [hping.addressed.accepts_iff] at haccepts
  exact absurd (haccepts.mpr rfl) (by decide)

theorem ping_creates (arg : List Int8) (blank : Packet) (t : ReplyBook.Ticket ManCommand)
    (s : HostState) :
    ∃ p, (ping arg blank t s).jobQ = s.jobQ ++ [.sendPktAllPorts p, .pingWaitForReply t 10] ∧
      CreatedFor s.hostId (ping arg blank t s).dst p :=
  ⟨_, rfl, .ping⟩

theorem scanDstName_jobQ {arg : List Int8} {s u : HostState} (h : scanDstName arg s = some u) :
    u.jobQ = s.jobQ ∧ u.hostId = s.hostId := by
  obtain ⟨dst, domainName, name, rfl⟩ := scanDstName_scanned h
  exact ⟨rfl, rfl⟩

theorem fileDownload_creates {arg : List Int8} {blank : Packet} {s u : HostState}
    (h : fileDownload arg blank s = some u) :
    ∃ p, u.jobQ = s.jobQ ++ [.sendPktAllPorts p] ∧ CreatedFor s.hostId u.dst p := by
  obtain ⟨v, hv, h⟩ := Option.bind_eq_some_iff.mp h
  obtain ⟨p, hp, rfl⟩ := Option.map_eq_some_iff.mp h
  obtain ⟨hjobs, hid⟩ := scanDstName_jobQ hv
  refine ⟨p, congrArg (· ++ _) hjobs, ?_⟩
  rw [← hid]
  exact .download hp

theorem fileUpload_creates {arg : List Int8} {s u : HostState} (h : fileUpload arg s = some u) :
    u.jobQ = s.jobQ ++ [.fileUploadSend u.name u.dst] ∧ u.hostId = s.hostId := by
  obtain ⟨v, hv, h⟩ := Option.bind_eq_some_iff.mp h
  obtain ⟨-, h⟩ := Option.ite_none_right_eq_some.mp h
  cases h
  obtain ⟨hjobs, hid⟩ := scanDstName_jobQ hv
  exact ⟨congrArg (· ++ _) hjobs, hid⟩

theorem fileUploadSend_creates {fname : List Int8} {dst : ℤ} {mem : Scratch} {s u : HostState}
    (h : fileUploadSend fname dst mem s = some u) :
    ∃ packets : List Packet, u.jobQ = s.jobQ ++ packets.map .sendPktAllPorts ∧
      (∀ p ∈ packets, CreatedFor s.hostId dst p) ∧
      ∀ request : Packet, dst = request.src.toInt →
        ∀ p ∈ packets, RepliesTo s.hostId request p := by
  obtain ⟨packets, hpackets, rfl⟩ := Option.map_eq_some_iff.mp h
  refine ⟨packets, rfl, fun p hp => .upload hpackets hp, ?_⟩
  rintro request rfl p hp
  exact .file hpackets hp

theorem pingSendReply_creates {canOpen : List Int8 → Bool} {mem : Scratch} {s : HostState}
    {request : Packet} {q : List HostJob} (hq : s.jobQ = .pingSendReply request :: q) :
    ∃ p u, execute canOpen mem s = some u ∧ u.jobQ = q ++ [.sendPktAllPorts p] ∧
      RepliesTo s.hostId request p := by
  refine ⟨pingReply s.hostId request.src (mem.blank 0),
    enqueue [.sendPktAllPorts (pingReply s.hostId request.src (mem.blank 0))] { s with jobQ := q },
    ?_, rfl, .ping⟩
  simp only [execute, hq]

end PacketAddresses
