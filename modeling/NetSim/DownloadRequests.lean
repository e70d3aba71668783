import NetSim.LookupReplies

/-! A download request at the host that has the file: the name comes without its NUL character
into a recycled packet buffer. -/
namespace DownloadRequests

open PacketCodec CStrings DnsServer NamingTable DnsLookups RegisterRequests HostNode LookupReplies
open ReplyBook
open HostReplies (quietHost noPacket)

/-- The packet is a request of the host `id` for the file `name`. -/
def Requested (id : ℤ) (name : List Int8) (r : Packet) : Prop :=
  ∃ dst blank q, namePacket id dst pktFileDownloadReq name blank = some q ∧ r.src = q.src ∧
    SameReply r q

theorem fileDownload_requests {arg : List Int8} {blank : Packet} {s u : HostState}
    (h : fileDownload arg blank s = some u) :
    ∃ q, u.jobQ = s.jobQ ++ [.sendPktAllPorts q] ∧ Requested s.hostId u.name q := by
  obtain ⟨t, ht, hu⟩ := Option.bind_eq_some_iff.mp h
  obtain ⟨q, hq, rfl⟩ := Option.map_eq_some_iff.mp hu
  have hkept : t.jobQ = s.jobQ ∧ t.hostId = s.hostId := by
    unfold scanDstName at ht
    split at ht
    · cases ht
      exact ⟨rfl, rfl⟩
    · obtain ⟨r, -, rfl⟩ := Option.map_eq_some_iff.mp ht
      exact ⟨rfl, rfl⟩
  refine ⟨q, ?_, t.dst, blank, q, ?_, rfl, rfl, rfl, rfl, rfl⟩
  · change t.jobQ ++ _ = _
    rw [hkept.1]
  · rw [← hkept.2]
    exact hq

theorem downloadTreats_requests {i : ℤ} {s : HostState} (h : DownloadTreats (some i) s)
    (t : Ticket ManCommand) {fname : List Int8} (timer : ℕ) (blank : Packet)
    (hl : fname.length < payloadMax) :
    ∃ u q, dnsDownloadWaitForReply t fname timer blank s = some u ∧
      u.jobQ = s.jobQ ++ [.sendPktAllPorts q] ∧ Requested s.hostId fname q := by
  obtain ⟨u, hu, -, q, hq, hjobs⟩ := h t fname timer blank hl
  exact ⟨u, q, hu, hjobs, i, blank, q, hq, rfl, rfl, rfl, rfl, rfl⟩

theorem Requested.spec {id : ℤ} {name : List Int8} {r : Packet} (h : Requested id name r) :
    name.length < payloadMax ∧ r.src = Int8.ofInt id ∧ r.type = pktFileDownloadReq ∧
      r.length = name.length ∧ sentBytes r = name := by
  obtain ⟨dst, blank, q, hq, hsrc, -, htype, hlen, hsent⟩ := h
  simp only [namePacket, Option.ite_none_right_eq_some, Option.some.injEq] at hq
  obtain ⟨hl, rfl⟩ := hq
  refine ⟨hl, hsrc, htype, hlen, hsent.trans ?_⟩
  rw [sentBytes, payloadList]
  simp only [Int.toNat_natCast]
  rw [strcpy_take _ _ (by omega) hl.le, List.take_left' rfl]

theorem Requested.fits {id : ℤ} {name : List Int8} {r : Packet} (h : Requested id name r) :
    Fits r := by
  obtain ⟨hl, -, -, hlen, -⟩ := h.spec
  constructor <;> omega

theorem text_requested {id : ℤ} {name : List Int8} {r : Packet} (h : Requested id name r)
    (hname : 0 ∉ name) (prior : Fin payloadMax → Int8) :
    payloadText (r.deliver prior) = name ++ text ((List.ofFn prior).drop name.length) := by
  obtain ⟨-, -, -, hlen, hsent⟩ := h.spec
  rw [payloadText, payloadList_deliver h.fits, hsent, hlen, Int.toNat_natCast, text_append hname]

theorem text_leftovers_eq_nil {prior : Fin payloadMax → Int8} {k : Fin payloadMax} :
    text ((List.ofFn prior).drop k) = [] ↔ prior k = 0 := by
  rw [List.drop_eq_getElem_cons (by simp), List.getElem_ofFn]
  by_cases hz : prior k = 0
  · simp [hz]
  · simp [text_cons hz, hz]

theorem receive_request {p : Packet} (htype : p.type = pktFileDownloadReq) {n : ℤ} (hn : 0 < n)
    {s : HostState} (hdst : p.dst.toInt = s.hostId) :
    receive n p s =
      (requestedName p).map fun fname => enqueue [.fileUploadSend fname p.src.toInt] s := by
  rw [receive_translate hn hdst (by rw [htype]; decide)]
  simp only [HostNode.translate, htype]
  rfl

theorem char_iff (id : ℤ) : (Int8.ofInt id).toInt = id ↔ -128 ≤ id ∧ id ≤ 127 := by
  constructor
  · intro h
    have hlow := Int8.le_toInt (Int8.ofInt id)
    have hhigh := Int8.toInt_lt (Int8.ofInt id)
    omega
  · intro h
    exact char_of_small h.1 h.2

/-- The job that is queued is for the file that was requested, and for the host that requested
it, exactly when the packet buffer holds a NUL character right behind the name, and the id of
that host is a `char`. -/
theorem requested_file_iff {id : ℤ} {name : List Int8} {r : Packet} (hr : Requested id name r)
    (hname : 0 ∉ name) {stale : ℕ → Int8} {prior : Fin payloadMax → Int8} {p : Packet}
    (hp : packetRecv (packetSend r) stale prior = some p) {n : ℤ} (hn : 0 < n) {s : HostState}
    (hdst : r.dst.toInt = s.hostId) :
    (∃ u, receive n p s = some u ∧ u.jobQ = s.jobQ ++ [.fileUploadSend name id]) ↔
      (∃ k : Fin payloadMax, k.val = name.length ∧ prior k = 0) ∧ -128 ≤ id ∧ id ≤ 127 := by
  obtain ⟨hl, hsrc, htype, -, -⟩ := hr.spec
  rw [packetRecv_packetSend hr.fits] at hp
  cases hp
  have hreceive := receive_request (p := r.deliver prior) htype hn hdst
  have htext := text_requested hr hname prior
  have hend : (∃ k : Fin payloadMax, k.val = name.length ∧ prior k = 0) ↔
      payloadText (r.deliver prior) = name := by
    have hnil : text ((List.ofFn prior).drop name.length) = [] ↔ prior ⟨name.length, hl⟩ = 0 :=
      text_leftovers_eq_nil (k := ⟨name.length, hl⟩)
    rw [htext, List.append_right_eq_self, hnil]
    constructor
    · rintro ⟨k, hk, hz⟩
      rwa [show (⟨name.length, hl⟩ : Fin payloadMax) = k from Fin.ext hk.symm]
    · intro hz
      exact ⟨_, rfl, hz⟩
  rw [hend, ← char_iff, hreceive]
  have hsrc' : (r.deliver prior).src = Int8.ofInt id := hsrc
  constructor
  · rintro ⟨u, hu, hjobs⟩
    obtain ⟨fname, hf, rfl⟩ := Option.map_eq_some_iff.mp hu
    simp only [requestedName, Option.ite_none_right_eq_some, Option.some.injEq] at hf
    obtain ⟨-, rfl⟩ := hf
    have hjob := List.append_cancel_left hjobs
    simpa [hsrc'] using hjob
  · rintro ⟨hsame, hid⟩
    have hfits : requestedName (r.deliver prior) = some name := by
      rw [requestedName, hsame, if_pos hl]
    refine ⟨_, by rw [hfits]; rfl, ?_⟩
    rw [hsrc', hid]
    rfl

def requestForA : Packet :=
  { noPacket with
    src := 2, dst := 1, type := pktFileDownloadReq, payload := strcpy [97] noPacket.payload
    length := 1 }

theorem requestForA_requested : Requested 2 [97] requestForA :=
  ⟨1, noPacket, requestForA, rfl, rfl, rfl, rfl, rfl, rfl⟩

theorem requested_file_a : ∃ p u, packetRecv (packetSend requestForA) (fun _ => 0) (fun _ => 0) =
    some p ∧ receive 9 p quietHost = some u ∧ u.jobQ = [.fileUploadSend [97] 2] := by
  have hp := packetRecv_packetSend requestForA_requested.fits (fun _ => 0) (fun _ => 0)
  have hzero : ∃ k : Fin payloadMax, k.val = [(97 : Int8)].length ∧ (0 : Int8) = 0 :=
    ⟨⟨1, by decide⟩, rfl, rfl⟩
  obtain ⟨u, hu, hjobs⟩ := (requested_file_iff requestForA_requested (by decide) hp
    (by decide : (0 : ℤ) < 9) (s := quietHost) rfl).mpr ⟨hzero, by decide, by decide⟩
  exact ⟨_, u, hp, hu, hjobs⟩

/-- The letter x is left behind the name. -/
def leftoverX (i : Fin payloadMax) : Int8 := if i.val = 1 then 120 else 0

theorem receive_leftoverX : receive 9 (requestForA.deliver leftoverX) quietHost =
    some (enqueue [.fileUploadSend [97, 120] 2] quietHost) := by
  have htext : payloadText (requestForA.deliver leftoverX) = [97, 120] := by decide +kernel
  rw [receive_request rfl (by decide) rfl, requestedName, htext]
  rfl

/-- There the job is for the file ax. -/
theorem other_file_sent : ∃ p u,
    packetRecv (packetSend requestForA) (fun _ => 0) leftoverX = some p ∧
      receive 9 p quietHost = some u ∧ u.jobQ = [.fileUploadSend [97, 120] 2] ∧
      u.jobQ ≠ [.fileUploadSend [97] 2] := by
  refine ⟨_, _, packetRecv_packetSend requestForA_requested.fits (fun _ => 0) leftoverX,
    receive_leftoverX, rfl, ?_⟩
  intro h
  injection h with hjob
  injection hjob with hname
  exact absurd hname (by decide)

end DownloadRequests
