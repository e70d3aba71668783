import NetSim.HostReplies
import NetSim.DnsLookups
import NetSim.RegisterRequests

/-! A lookup reply as the waiting host reads it. The id of a host is one byte without a
terminator, so what follows it in the recycled packet buffer is read with it. -/
namespace LookupReplies

open PacketCodec CStrings DnsServer NamingTable DnsLookups RegisterRequests HostNode ReplyBook
open HostReplies (quietHost)
open SwitchNode (YesNo)

def lookupAnswer (buffer : DnsBuffer) : Option ℤ :=
  if starts buffer failText then none else some (dnsLookupResponse buffer)

structure FailureTold (s u : HostState) (t : Ticket ManCommand) : Prop where
  jobs : u.jobQ = s.jobQ
  written : u.written = s.written ++ [⟨t, toBytes "DNS lookup failed." ++ [0]⟩]

def LookupTreats (answer : Option ℤ) (s : HostState) : Prop :=
  ∀ t fname timer, ∃ u, dnsLookupWaitForReply t fname timer s = some u ∧
    match answer with
    | none => FailureTold s u t
    | some i => u.jobQ = s.jobQ ∧
        u.written = s.written ++ [⟨t, toBytes s!"DNS lookup response {i}." ++ [0]⟩]

def PingTreats (answer : Option ℤ) (s : HostState) : Prop :=
  ∀ t timer blank, ∃ u, dnsPingWaitForReply t timer blank s = some u ∧
    match answer with
    | none => FailureTold s u t
    | some i => u.written = s.written ∧
        u.jobQ = s.jobQ ++
          [.sendPktAllPorts (pingRequest s.hostId i blank), .pingWaitForReply t 10]

def DownloadTreats (answer : Option ℤ) (s : HostState) : Prop :=
  ∀ t fname timer blank, fname.length < payloadMax →
    ∃ u, dnsDownloadWaitForReply t fname timer blank s = some u ∧
      match answer with
      | none => FailureTold s u t
      | some i => u.written = s.written ∧
          ∃ p, namePacket s.hostId i pktFileDownloadReq fname blank = some p ∧
            u.jobQ = s.jobQ ++ [.sendPktAllPorts p]

structure TreatedAs (answer : Option ℤ) (s : HostState) : Prop where
  lookup : LookupTreats answer s
  ping : PingTreats answer s
  download : DownloadTreats answer s

theorem waitForReply_received {received : Bool} (h : received = true) (answered : Option HostState)
    (timer : ℕ) (again : ℕ → HostJob) (t : Ticket ManCommand) (timeOut : String)
    (s : HostState) : waitForReply received answered timer again t timeOut s = answered := if_pos h

theorem treatedAs_fail {s : HostState} (h : s.dnsLookupReceived = true)
    (hfail : starts s.dnsLookupBuffer failText = true) : TreatedAs none s := by
  constructor
  · intro t fname timer
    refine ⟨_, waitForReply_received h _ _ _ _ _ _, rfl, ?_⟩
    simp only [reply, report, lookupText, hfail, if_true]
  · intro t timer blank
    refine ⟨useUp (reply t "DNS lookup failed." s), ?_, rfl, rfl⟩
    rw [dnsPingWaitForReply, waitForReply_received h, if_pos hfail]
  · intro t fname timer blank _
    refine ⟨useUp (reply t "DNS lookup failed." s), ?_, rfl, rfl⟩
    rw [dnsDownloadWaitForReply, waitForReply_received h, if_pos hfail]

theorem treatedAs_found {s : HostState} (h : s.dnsLookupReceived = true)
    (hfound : starts s.dnsLookupBuffer failText = false) :
    TreatedAs (some (dnsLookupResponse s.dnsLookupBuffer)) s := by
  have hnot : ¬ starts s.dnsLookupBuffer failText = true := by simp [hfound]
  constructor
  · intro t fname timer
    refine ⟨_, waitForReply_received h _ _ _ _ _ _, rfl, ?_⟩
    simp only [reply, report, lookupText, hfound, Bool.false_eq_true, if_false]
  · intro t timer blank
    refine ⟨useUp (enqueue [.sendPktAllPorts (pingRequest s.hostId
        (dnsLookupResponse s.dnsLookupBuffer) blank), .pingWaitForReply t 10]
        { s with pingReplyReceived := false }), ?_, rfl, rfl⟩
    rw [dnsPingWaitForReply, waitForReply_received h, if_neg hnot]
  · intro t fname timer blank hl
    obtain ⟨p, hp⟩ : ∃ p, namePacket s.hostId (dnsLookupResponse s.dnsLookupBuffer)
        pktFileDownloadReq fname blank = some p := ⟨_, if_pos hl⟩
    refine ⟨useUp (enqueue [.sendPktAllPorts p] s), ?_, rfl, p, hp, rfl⟩
    rw [dnsDownloadWaitForReply, waitForReply_received h, if_neg hnot]
    simp only [hp, Option.map_some]

theorem treatedAs_lookupAnswer {s : HostState} (h : s.dnsLookupReceived = true) :
    TreatedAs (lookupAnswer s.dnsLookupBuffer) s := by
  cases hfail : starts s.dnsLookupBuffer failText with
  | true =>
    rw [lookupAnswer, if_pos hfail]
    exact treatedAs_fail h hfail
  | false =>
    rw [lookupAnswer, if_neg (by simp [hfail])]
    exact treatedAs_found h hfail

theorem PingTreats.unique {s : HostState} {a b : Option ℤ} (ha : PingTreats a s)
    (hb : PingTreats b s) (hra : ∀ i ∈ a, -128 ≤ i ∧ i ≤ 127)
    (hrb : ∀ i ∈ b, -128 ≤ i ∧ i ≤ 127) : a = b := by
  let blank : Packet := ⟨0, 0, 0, 0, fun _ => 0, 0, 0, 0, 0⟩
  obtain ⟨u, hu, hua⟩ := ha ⟨0, .dnsPing, 0⟩ 0 blank
  obtain ⟨v, hv, hvb⟩ := hb ⟨0, .dnsPing, 0⟩ 0 blank
  have huv : u = v := Option.some.inj (hu.symm.trans hv)
  subst huv
  cases a with
  | none =>
    cases b with
    | none => rfl
    | some j =>
      have hjobs := hua.jobs.symm.trans hvb.2
      simp at hjobs
  | some i =>
    cases b with
    | none =>
      have hjobs := hvb.jobs.symm.trans hua.2
      simp at hjobs
    | some j =>
      have hjobs := hua.2.symm.trans hvb.2
      have hdst : Int8.ofInt i = Int8.ofInt j := by
        simpa [pingRequest] using hjobs
      have hi := hra i rfl
      have hj := hrb j rfl
      have := congrArg Int8.toInt hdst
      rw [char_of_small hi.1 hi.2, char_of_small hj.1 hj.2] at this
      rw [this]

theorem treatedAs_iff {s : HostState} (h : s.dnsLookupReceived = true) {answer : Option ℤ}
    (hr : ∀ i ∈ answer, -128 ≤ i ∧ i ≤ 127) :
    TreatedAs answer s ↔ lookupAnswer s.dnsLookupBuffer = answer := by
  constructor
  · intro ht
    refine (treatedAs_lookupAnswer h).ping.unique ht.ping ?_ hr
    intro i hi
    unfold lookupAnswer at hi
    split at hi
    · cases hi
    · cases hi
      have hlow := Int8.le_toInt (s.dnsLookupBuffer 0)
      have hhigh := Int8.toInt_lt (s.dnsLookupBuffer 0)
      rw [dnsLookupResponse]
      omega
  · rintro rfl
    exact treatedAs_lookupAnswer h

theorem ofFn_getD {n : ℕ} {l : List Int8} (hl : l.length ≤ n) (old : Fin n → Int8) :
    List.ofFn (fun i : Fin n => l.getD i (old i)) = l ++ (List.ofFn old).drop l.length := by
  apply List.ext_getElem
  · simp only [List.length_append, List.length_drop, List.length_ofFn]
    omega
  · intro i hi hj
    rw [List.getElem_ofFn]
    by_cases hlt : i < l.length
    · rw [List.getD_eq_getElem _ _ hlt, List.getElem_append_left hlt]
    · rw [List.getD_eq_default _ _ (not_lt.mp hlt), List.getElem_append_right (not_lt.mp hlt),
        List.getElem_drop, List.getElem_ofFn]
      congr
      omega

section

variable {p : Packet} {old new : DnsBuffer} (h : printPayload p old = some new)

include h

theorem ofFn_printed :
    List.ofFn new = payloadText p ++ 0 :: (List.ofFn old).drop (payloadText p ++ [0]).length := by
  simp only [printPayload, Option.ite_none_right_eq_some, Option.some.injEq] at h
  obtain ⟨hlen, rfl⟩ := h
  rw [ofFn_getD (by simpa using hlen), List.append_assoc, List.singleton_append]

theorem text_printed : text (List.ofFn new) = payloadText p := by
  rw [ofFn_printed h, payloadText, text_append (zero_not_mem_text _), text_cons_zero,
    List.append_nil]

theorem starts_printed : starts new failText = true ↔ failText <+: payloadText p := by
  have hlong : failText.length < (List.ofFn new).length := by
    rw [List.length_ofFn]
    decide
  have hcmp := strncmpZero_iff (by decide) hlong failText.length
  rw [starts, hcmp, text_printed h, List.take_length, List.prefix_iff_eq_take, eq_comm]

theorem response_printed : dnsLookupResponse new = ((payloadText p).headD 0).toInt := by
  have hhead : (List.ofFn new).head? = some (new 0) := by
    rw [List.ofFn_succ]
    rfl
  rw [ofFn_printed h] at hhead
  rw [dnsLookupResponse]
  congr 1
  cases hp : payloadText p with
  | nil =>
    rw [hp] at hhead
    exact (Option.some.inj hhead).symm
  | cons a l =>
    rw [hp] at hhead
    exact (Option.some.inj hhead).symm

theorem answer_printed : lookupAnswer new =
    if failText <+: payloadText p then none else some ((payloadText p).headD 0).toInt := by
  simp only [lookupAnswer, starts_printed h, response_printed h]

end

/-- The packet is the server's reply: the id of the host it found, or the failure. -/
def Replied (answer : Option ℤ) (r : Packet) : Prop :=
  ∃ s stray found src blank, SameReply r (lookupReply s stray found src blank) ∧
    match answer with
    | some i => found = i ∧ ∃ h : Fin namingTableSize, i = h.val ∧ h.val ≤ 127 ∧
        s.isRegistered h = .yes
    | none => found > namingTableSize ∨ registeredAt s stray found = .no

/-- Where the leftovers of the packet buffer end the text in time, and do not spell the failure
with the id. -/
def Harmless (answer : Option ℤ) (prior : Fin payloadMax → Int8) : Prop :=
  match answer with
  | none => True
  | some i => i = 0 ∨
      (∃ k : Fin payloadMax, 1 ≤ k.val ∧ k.val ≤ maxDomainName ∧ prior k = 0) ∧
        ¬ failText <+: Int8.ofInt i :: (List.ofFn prior).drop 1

theorem lookupReply_type (s : Naming) (stray : ℤ → YesNo) (found : ℤ) (src : Int8)
    (blank : Packet) : (lookupReply s stray found src blank).type = pktDnsLookupReply := by
  unfold lookupReply
  split <;> rfl

theorem Replied.type {answer : Option ℤ} {r : Packet} (h : Replied answer r) :
    r.type = pktDnsLookupReply := by
  obtain ⟨s, stray, found, src, blank, ⟨-, htype, -⟩, -⟩ := h
  rw [htype, lookupReply_type]

theorem Replied.found {i : ℤ} {r : Packet} (h : Replied (some i) r) :
    0 ≤ i ∧ i ≤ 127 ∧ r.length = 1 ∧ sentBytes r = [Int8.ofInt i] := by
  obtain ⟨s, stray, found, src, blank, ⟨-, -, hlen, hsent⟩, rfl, k, rfl, hk, hreg⟩ := h
  have hbytes := lookupReply_found hreg stray src blank
  refine ⟨by omega, by omega, ?_, hsent.trans hbytes⟩
  have hyes : registeredAt s stray k.val = .yes := by simp [registeredAt, hreg]
  rw [hlen, lookupReply, if_neg]
  rw [not_or, hyes]
  exact ⟨by omega, by decide⟩

theorem Replied.fail {r : Packet} (h : Replied none r) :
    r.length = 5 ∧ sentBytes r = failText ++ [0] := by
  obtain ⟨s, stray, found, src, blank, ⟨-, -, hlen, hsent⟩, hnone⟩ := h
  refine ⟨?_, hsent.trans (lookupReply_fail hnone src blank)⟩
  rw [hlen, lookupReply, if_pos hnone]

theorem mem_leftovers (prior : Fin payloadMax → Int8) (c : Int8) (a b : ℕ) :
    c ∈ ((List.ofFn prior).drop a).take b ↔
      ∃ k : Fin payloadMax, a ≤ k.val ∧ k.val < a + b ∧ prior k = c := by
  simp only [List.mem_take_iff_getElem, List.getElem_drop, List.getElem_ofFn, List.length_drop,
    List.length_ofFn]
  constructor
  · rintro ⟨i, hi, rfl⟩
    exact ⟨⟨a + i, by omega⟩, Nat.le_add_right _ _, by simp only; omega, rfl⟩
  · rintro ⟨k, hak, hkb, rfl⟩
    refine ⟨k.val - a, by omega, ?_⟩
    congr
    omega

theorem receive_reply {p : Packet} (htype : p.type = pktDnsLookupReply) {n : ℤ} (hn : 0 < n)
    {s : HostState} (hdst : p.dst.toInt = s.hostId) :
    receive n p s = (printPayload p s.dnsLookupBuffer).map fun buffer =>
      { s with dnsLookupReceived := true, dnsLookupBuffer := buffer } := by
  rw [receive_translate hn hdst (by rw [htype]; decide)]
  simp only [HostNode.translate, htype]
  rfl

theorem treated_iff_printed {p : Packet} (htype : p.type = pktDnsLookupReply) {n : ℤ} (hn : 0 < n)
    {s : HostState} (hdst : p.dst.toInt = s.hostId) {answer : Option ℤ}
    (hr : ∀ i ∈ answer, -128 ≤ i ∧ i ≤ 127) :
    (∃ u, receive n p s = some u ∧ TreatedAs answer u) ↔
      (payloadText p).length ≤ maxDomainName ∧
        (if failText <+: payloadText p then none else some ((payloadText p).headD 0).toInt) =
          answer := by
  rw [receive_reply htype hn hdst]
  constructor
  · rintro ⟨u, hu, ht⟩
    obtain ⟨new, hnew, rfl⟩ := Option.map_eq_some_iff.mp hu
    rw [treatedAs_iff rfl hr, answer_printed hnew] at ht
    refine ⟨?_, ht⟩
    by_contra hlong
    rw [printPayload, if_neg hlong] at hnew
    cases hnew
  · rintro ⟨hlen, ha⟩
    obtain ⟨new, hnew⟩ : ∃ new, printPayload p s.dnsLookupBuffer = some new := ⟨_, if_pos hlen⟩
    refine ⟨_, by rw [hnew]; rfl, ?_⟩
    rw [treatedAs_iff rfl hr, answer_printed hnew, ha]

theorem text_fail {r : Packet} (h : Replied none r) (prior : Fin payloadMax → Int8) :
    payloadText (r.deliver prior) = failText := by
  obtain ⟨hlen, hsent⟩ := h.fail
  have hfits : Fits r := ⟨by omega, by rw [hlen]; decide⟩
  rw [payloadText, payloadList_deliver hfits, hsent, List.append_assoc,
    text_append (by decide), List.singleton_append, text_cons_zero, List.append_nil]

theorem list_found {i : ℤ} {r : Packet} (h : Replied (some i) r)
    (prior : Fin payloadMax → Int8) :
    payloadList (r.deliver prior) = Int8.ofInt i :: (List.ofFn prior).drop 1 := by
  obtain ⟨-, -, hlen, hsent⟩ := h.found
  have hfits : Fits r := ⟨by omega, by rw [hlen]; decide⟩
  rw [payloadList_deliver hfits, hsent, hlen]
  rfl

theorem found_iff {i : ℤ} {r : Packet} (h : Replied (some i) r) (prior : Fin payloadMax → Int8) :
    ((payloadText (r.deliver prior)).length ≤ maxDomainName ∧
      (if failText <+: payloadText (r.deliver prior) then none
        else some ((payloadText (r.deliver prior)).headD 0).toInt) = some i) ↔
      Harmless (some i) prior := by
  obtain ⟨hlow, hhigh, -, -⟩ := h.found
  have hlist := list_found h prior
  have hchar : (Int8.ofInt i).toInt = i := char_of_small (by omega) hhigh
  by_cases hzero : i = 0
  · subst hzero
    have htext : payloadText (r.deliver prior) = [] := by
      rw [payloadText, hlist]
      exact text_cons_zero _
    rw [htext]
    exact iff_of_true ⟨by decide, by decide⟩ (Or.inl rfl)
  · have hne : Int8.ofInt i ≠ 0 := by
      intro he
      rw [he] at hchar
      exact hzero hchar.symm
    have htext : payloadText (r.deliver prior) =
        Int8.ofInt i :: text ((List.ofFn prior).drop 1) := by
      rw [payloadText, hlist, text_cons hne]
    have hfail : failText <+: payloadText (r.deliver prior) ↔
        failText <+: Int8.ofInt i :: (List.ofFn prior).drop 1 := by
      rw [payloadText, prefix_text_iff (by decide), hlist]
    have hshort : (payloadText (r.deliver prior)).length ≤ maxDomainName ↔
        ∃ k : Fin payloadMax, 1 ≤ k.val ∧ k.val ≤ maxDomainName ∧ prior k = 0 := by
      rw [payloadText, text_length_le_iff _ (by rw [payloadList_length]; decide), hlist,
        List.take_succ_cons, List.mem_cons, or_iff_right hne.symm, mem_leftovers]
      simp only [Nat.lt_succ_iff, Nat.add_comm 1]
    rw [hshort, Harmless, or_iff_right hzero, ← hfail]
    refine and_congr_right fun _ => ?_
    by_cases hspelled : failText <+: payloadText (r.deliver prior)
    · simp [hspelled]
    · have hhead : (payloadText (r.deliver prior)).headD 0 = Int8.ofInt i := by
        rw [htext, List.headD_cons]
      rw [if_neg hspelled, hhead, hchar]
      exact iff_of_true rfl hspelled

/-- A failure is always understood; the id of a host is exactly when it is 0, or the leftovers of
the packet buffer end the text in time and do not spell the failure. -/
theorem reply_decoded_iff {answer : Option ℤ} {r : Packet} (hr : Replied answer r)
    {stale : ℕ → Int8} {prior : Fin payloadMax → Int8} {p : Packet}
    (hp : packetRecv (packetSend r) stale prior = some p) {n : ℤ} (hn : 0 < n) {s : HostState}
    (hdst : r.dst.toInt = s.hostId) :
    (∃ u, receive n p s = some u ∧ TreatedAs answer u) ↔ Harmless answer prior := by
  cases answer with
  | none =>
    have hfits : Fits r := ⟨by rw [hr.fail.1]; decide, by rw [hr.fail.1]; decide⟩
    rw [packetRecv_packetSend hfits] at hp
    cases hp
    rw [treated_iff_printed (p := r.deliver prior) hr.type hn hdst (by simp), text_fail hr prior]
    exact iff_of_true ⟨by decide, by decide⟩ trivial
  | some i =>
    obtain ⟨hlow, hhigh, hlen, -⟩ := hr.found
    have hfits : Fits r := ⟨by rw [hlen]; decide, by rw [hlen]; decide⟩
    rw [packetRecv_packetSend hfits] at hp
    cases hp
    have hrange : ∀ j ∈ some i, -128 ≤ j ∧ j ≤ 127 := by
      intro j hj
      cases hj
      omega
    rw [treated_iff_printed (p := r.deliver prior) hr.type hn hdst hrange]
    exact found_iff hr prior

/-- The table with only host 70 in it. -/
def onlySeventy : Naming where
  namingTable := fun _ => Name.none
  isRegistered := fun h => if h.val = 70 then .yes else .no
  dnsHostIDReturn := 0

/-- The server's reply to host 1 that the name is that of host 70. -/
def seventyReply : Packet := lookupReply onlySeventy (fun _ => .no) 70 1 (requestPacket 0 0 [])

theorem seventyReply_replied : Replied (some 70) seventyReply :=
  ⟨onlySeventy, fun _ => .no, 70, 1, requestPacket 0 0 [], ⟨rfl, rfl, rfl, rfl⟩, rfl, 70, rfl,
    by decide, rfl⟩

theorem seventyReply_fits : Fits seventyReply := by decide +kernel

theorem reply_decoded_seventy : ∃ p,
    packetRecv (packetSend seventyReply) (fun _ => 0) (fun _ => 0) = some p ∧
      ∃ u, receive 9 p quietHost = some u ∧ TreatedAs (some 70) u := by
  have hp := packetRecv_packetSend seventyReply_fits (fun _ => 0) (fun _ => 0)
  refine ⟨_, hp, (reply_decoded_iff seventyReply_replied hp (by decide) rfl).mpr (Or.inr ?_)⟩
  exact ⟨⟨⟨1, by decide⟩, le_rfl, by decide, rfl⟩, by decide⟩

/-- A packet buffer with the last three letters of an earlier failure in it. -/
def afterFailure (i : Fin payloadMax) : Int8 := (failText ++ [0]).getD i 0

/-- There the id 70, the letter F, reads as the failure. -/
theorem seventy_read_as_failure : ∃ p,
    packetRecv (packetSend seventyReply) (fun _ => 0) afterFailure = some p ∧
      ¬ ∃ u, receive 9 p quietHost = some u ∧ TreatedAs (some 70) u := by
  refine ⟨_, packetRecv_packetSend seventyReply_fits (fun _ => 0) afterFailure, ?_⟩
  have htype : (seventyReply.deliver afterFailure).type = pktDnsLookupReply :=
    seventyReply_replied.type
  rw [treated_iff_printed htype (by decide) rfl (by simp), found_iff seventyReply_replied]
  rintro (hzero | ⟨-, hspelled⟩)
  · exact absurd hzero (by decide)
  · exact hspelled (by decide)

end LookupReplies
