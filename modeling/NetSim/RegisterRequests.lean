import NetSim.NamingTable

/-! A register request as the server receives it: the bytes behind the sent name are what the
recycled packet buffer held before. -/
namespace RegisterRequests

open PacketCodec CStrings DnsServer NamingTable
open SwitchNode (YesNo)

theorem payloadList_deliver {p : Packet} (hf : Fits p) (prior : Fin payloadMax → Int8) :
    payloadList (p.deliver prior) = sentBytes p ++ (List.ofFn prior).drop p.length.toNat := by
  obtain ⟨h0, h1⟩ := id hf
  apply List.ext_getElem
  · rw [List.length_append, List.length_drop, List.length_ofFn, payloadList_length, sentBytes,
      List.length_take, payloadList_length]
    simp only [payloadMax] at h1 ⊢
    omega
  · intro i hi hj
    simp only [payloadList, List.getElem_ofFn, Packet.deliver, hf.length_char]
    by_cases hlt : (i : ℤ) < p.length
    · have hin : i < (sentBytes p).length := by
        rw [payloadList_length] at hi
        rw [sentBytes, List.length_take, payloadList_length]
        omega
      rw [if_pos hlt, List.getElem_append_left hin]
      simp [sentBytes, payloadList]
    · have hout : (sentBytes p).length = p.length.toNat := by
        simp only [payloadMax] at h1
        rw [sentBytes, List.length_take, payloadList_length]
        omega
      rw [if_neg hlt, List.getElem_append_right (by omega)]
      simp only [hout, List.getElem_drop, List.getElem_ofFn]
      congr
      omega

theorem mem_take_payload (p : Packet) (c : Int8) (n : ℕ) :
    c ∈ (payloadList p).take n ↔ ∃ i : Fin payloadMax, i.val < n ∧ p.payload i = c := by
  simp only [List.mem_take_iff_getElem, payloadList, List.getElem_ofFn, List.length_ofFn]
  constructor
  · intro h
    obtain ⟨i, hi, he⟩ := h
    exact ⟨⟨i, by omega⟩, by simp only; omega, he⟩
  · intro h
    obtain ⟨i, hi, he⟩ := h
    exact ⟨i, by omega, he⟩

theorem hasSpace_iff (p : Packet) :
    hasSpace p = true ↔
      ∃ i : Fin payloadMax, i.val < maxNameLength ∧ p.payload i = charSpace := by
  rw [hasSpace, List.contains_iff_mem, mem_take_payload]

theorem textLength_iff (p : Packet) :
    (payloadText p).length ≤ maxNameLength ↔
      ∃ i : Fin payloadMax, i.val ≤ maxNameLength ∧ p.payload i = 0 := by
  rw [payloadText, text_length_le_iff _ (by rw [payloadList_length]; decide), mem_take_payload]
  simp only [Nat.lt_succ_iff]

/-- A request for a name of 1 to 49 bytes without NUL or space, its length the name's. -/
structure NameRequest (p : Packet) (src : Fin namingTableSize) : Prop where
  sender : srcIndex p = some src
  pos : 0 < p.length
  short : p.length ≤ 49
  terminated : 0 ∉ sentBytes p
  noSpace : charSpace ∉ sentBytes p

namespace NameRequest

variable {p : Packet} {src : Fin namingTableSize}

theorem fits (h : NameRequest p src) : Fits p := by
  have h0 := h.pos
  have h1 := h.short
  constructor
  · omega
  · simp only [payloadMax]
    omega

theorem length_lt (h : NameRequest p src) : p.length.toNat < payloadMax := by
  have h1 := h.short
  simp only [payloadMax]
  omega

/-- The first byte that was not sent. -/
def next (h : NameRequest p src) : Fin payloadMax := ⟨p.length.toNat, h.length_lt⟩

theorem sent_ne (h : NameRequest p src) {i : Fin payloadMax} (hi : i < h.next) :
    p.payload i ≠ 0 ∧ p.payload i ≠ charSpace := by
  have hmem : p.payload i ∈ sentBytes p := by
    rw [sentBytes, mem_take_payload]
    exact ⟨i, hi, rfl⟩
  constructor
  · intro he
    exact h.terminated (he ▸ hmem)
  · intro he
    exact h.noSpace (he ▸ hmem)

theorem payload_deliver (h : NameRequest p src) (prior : Fin payloadMax → Int8)
    (i : Fin payloadMax) :
    (p.deliver prior).payload i = if i < h.next then p.payload i else prior i := by
  have h0 := h.pos
  have hiff : (i : ℤ) < p.length ↔ i < h.next := by
    simp only [Fin.lt_def, next]
    omega
  simp only [Packet.deliver, h.fits.length_char, hiff]

/-- A byte that is not in the name can only be among the leftovers. -/
theorem exists_deliver (h : NameRequest p src) (prior : Fin payloadMax → Int8) {c : Int8}
    (hc : c = 0 ∨ c = charSpace) (P : Fin payloadMax → Prop) :
    (∃ i, P i ∧ (p.deliver prior).payload i = c) ↔ ∃ i, P i ∧ h.next ≤ i ∧ prior i = c := by
  constructor
  · intro he
    obtain ⟨i, hP, hi⟩ := he
    rw [h.payload_deliver] at hi
    by_cases hlt : i < h.next
    · rw [if_pos hlt] at hi
      obtain ⟨hz, hs⟩ := h.sent_ne hlt
      rcases hc with rfl | rfl
      · exact absurd hi hz
      · exact absurd hi hs
    · rw [if_neg hlt] at hi
      exact ⟨i, hP, by omega, hi⟩
  · intro he
    obtain ⟨i, hP, hle, hi⟩ := he
    exact ⟨i, hP, by rw [h.payload_deliver, if_neg (by omega), hi]⟩

theorem text_deliver_iff (h : NameRequest p src) (prior : Fin payloadMax → Int8) :
    payloadText (p.deliver prior) = sentBytes p ↔ prior h.next = 0 := by
  have hlt := h.length_lt
  have hdrop : (List.ofFn prior).drop p.length.toNat =
      prior h.next :: (List.ofFn prior).drop (p.length.toNat + 1) := by
    rw [List.drop_eq_getElem_cons (by simpa using hlt), List.getElem_ofFn]
    rfl
  rw [payloadText, payloadList_deliver h.fits, text_append h.terminated, List.append_right_eq_self,
    hdrop]
  by_cases hz : prior h.next = 0
  · simp [hz]
  · simp [text_cons hz, hz]

/-- Where the leftovers end the name at once and hold no space before the scan ends. -/
def CleanAfter (h : NameRequest p src) (prior : Fin payloadMax → Int8) : Prop :=
  prior h.next = 0 ∧ ∀ i, h.next < i → i.val < maxNameLength → prior i ≠ charSpace

/-- Where the leftovers end the name somewhere in the first 51 bytes. -/
def EndedAfter (h : NameRequest p src) (prior : Fin payloadMax → Int8) : Prop :=
  ∃ i, h.next ≤ i ∧ i.val ≤ maxNameLength ∧ prior i = 0

theorem short_iff (h : NameRequest p src) (prior : Fin payloadMax → Int8) :
    (payloadText (p.deliver prior)).length ≤ maxNameLength ↔ h.EndedAfter prior := by
  rw [textLength_iff, h.exists_deliver prior (Or.inl rfl), EndedAfter]
  constructor
  · intro he
    obtain ⟨i, hi, hle, hz⟩ := he
    exact ⟨i, hle, hi, hz⟩
  · intro he
    obtain ⟨i, hle, hi, hz⟩ := he
    exact ⟨i, hi, hle, hz⟩

theorem clean_iff (h : NameRequest p src) (prior : Fin payloadMax → Int8) :
    h.CleanAfter prior ↔
      payloadText (p.deliver prior) = sentBytes p ∧ hasSpace (p.deliver prior) = false := by
  rw [h.text_deliver_iff, ← Bool.not_eq_true, hasSpace_iff, h.exists_deliver prior (Or.inr rfl),
    CleanAfter]
  constructor
  · intro hc
    refine ⟨hc.1, ?_⟩
    intro he
    obtain ⟨i, hi, hle, hs⟩ := he
    rcases eq_or_lt_of_le hle with rfl | hlt
    · rw [hc.1] at hs
      exact absurd hs (by decide)
    · exact hc.2 i hlt hi hs
  · intro hc
    refine ⟨hc.1, ?_⟩
    intro i hlt hi hs
    exact hc.2 ⟨i, hi, le_of_lt hlt, hs⟩

end NameRequest

theorem registerNewDomain_refused {s : Naming} {p : Packet} {src : Fin namingTableSize}
    (hsrc : srcIndex p = some src) (h : registerAttempt s p src ≠ .success) (blank : Packet) :
    registerNewDomain s p blank =
      some (s, registerReply (registerAttempt s p src) p.src blank) := by
  rw [registerNewDomain_index hsrc, if_neg h]

theorem registerNewDomain_success {s : Naming} {p : Packet} {src : Fin namingTableSize}
    (hsrc : srcIndex p = some src) (h : registerAttempt s p src = .success) {name : Name}
    (hname : payloadText p = name.chars) (blank : Packet) :
    registerNewDomain s p blank =
      some ({ s with
        namingTable := Function.update s.namingTable src name
        isRegistered := Function.update s.isRegistered src .yes },
        registerReply .success p.src blank) := by
  have hprint : printName p = some name := by
    obtain ⟨chars, hz, hl⟩ := name
    simp only at hname
    subst hname
    simp only [printName, dif_pos hl]
  rw [registerNewDomain_index hsrc, if_pos h, h, hprint, Option.map_some]

/-- The request is answered, and its name stored, as if the leftovers were zeros. -/
def Independent (s : Naming) (p : Packet) (src : Fin namingTableSize) (r r₀ blank : Packet) :
    Prop :=
  registerNewDomain s r blank = registerNewDomain s r₀ blank ∧
    ∀ t reply, registerNewDomain s r blank = some (t, reply) → sentBytes reply = [charS] →
      (t.namingTable src).chars = sentBytes p

theorem length_le_of_attempt {s : Naming} {p : Packet} {src : Fin namingTableSize}
    (h : registerAttempt s p src ≠ .nameTooLong) : (payloadText p).length ≤ maxNameLength := by
  by_contra hlong
  exact h (by simp [registerAttempt, not_le.mp hlong])

namespace NameRequest

variable {p : Packet} {src : Fin namingTableSize}

theorem length_sent_le (h : NameRequest p src) : (sentBytes p).length ≤ maxNameLength := by
  have hshort := h.short
  simp only [sentBytes, List.length_take, maxNameLength]
  omega

def name (h : NameRequest p src) : Name where
  chars := sentBytes p
  terminated := h.terminated
  fits := h.length_sent_le

theorem CleanAfter.ended {h : NameRequest p src} {prior : Fin payloadMax → Int8}
    (hc : h.CleanAfter prior) : h.EndedAfter prior := by
  have hshort := h.short
  refine ⟨h.next, le_rfl, ?_, hc.1⟩
  simp only [next, maxNameLength]
  omega

theorem clean_zero (h : NameRequest p src) : h.CleanAfter fun _ => 0 := by
  constructor
  · rfl
  · intro _ _ _
    exact show (0 : Int8) ≠ charSpace by decide

theorem outcome_registered (h : NameRequest p src) {s : Naming} (hreg : s.isRegistered src = .yes)
    {prior : Fin payloadMax → Int8} (he : h.EndedAfter prior) (blank : Packet) :
    registerNewDomain s (p.deliver prior) blank =
      some (s, registerReply .alreadyRegistered p.src blank) := by
  have hshort := (h.short_iff prior).mpr he
  have hatt : registerAttempt s (p.deliver prior) src = .alreadyRegistered := by
    simp [registerAttempt, not_lt.mpr hshort, hreg]
  rw [registerNewDomain_refused (p := p.deliver prior) h.sender (by simp [hatt]), hatt]
  rfl

theorem outcome_unregistered (h : NameRequest p src) {s : Naming}
    (hreg : s.isRegistered src = .no) {prior : Fin payloadMax → Int8} (hc : h.CleanAfter prior)
    (blank : Packet) :
    registerNewDomain s (p.deliver prior) blank =
      some ({ s with
        namingTable := Function.update s.namingTable src h.name
        isRegistered := Function.update s.isRegistered src .yes },
        registerReply .success p.src blank) := by
  obtain ⟨htext, hspace⟩ := (h.clean_iff prior).mp hc
  have hatt : registerAttempt s (p.deliver prior) src = .success :=
    registerAttempt_success.mpr ⟨(h.short_iff prior).mpr hc.ended, hreg, hspace⟩
  exact registerNewDomain_success (p := p.deliver prior) h.sender hatt htext blank

end NameRequest

section

variable {p : Packet} {src : Fin namingTableSize} {s : Naming}

/-- A host that has a name is refused either way, unless the leftovers make the name too long. -/
theorem independent_registered (h : NameRequest p src) (hreg : s.isRegistered src = .yes)
    (prior : Fin payloadMax → Int8) (blank : Packet) :
    Independent s p src (p.deliver prior) (p.deliver fun _ => 0) blank ↔ h.EndedAfter prior := by
  have hzero := h.outcome_registered hreg h.clean_zero.ended blank
  constructor
  · intro hi
    rw [Independent, hzero] at hi
    have hatt : registerAttempt s (p.deliver prior) src = .alreadyRegistered := by
      rcases registerNewDomain_cases hi.1 with
        ⟨_, _, _, _, hreply, _⟩ | ⟨attempt, _, hreply, _, hattempt⟩
      · exact absurd (registerReply_injective hreply) (by decide)
      · exact (hattempt src h.sender).trans (registerReply_injective hreply).symm
    have hshort : registerAttempt s (p.deliver prior) src ≠ .nameTooLong := by
      rw [hatt]
      decide
    exact (h.short_iff prior).mp (length_le_of_attempt hshort)
  · intro he
    have hsame := h.outcome_registered hreg he blank
    refine ⟨by rw [hsame, hzero], ?_⟩
    intro t reply hsome htext
    rw [hsame] at hsome
    cases hsome
    rw [registerReply_text] at htext
    exact absurd htext (by decide)

/-- A host that has none gets the name it sent, unless the leftovers lengthen or spoil it. -/
theorem independent_unregistered (h : NameRequest p src) (hreg : s.isRegistered src = .no)
    (prior : Fin payloadMax → Int8) (blank : Packet) :
    Independent s p src (p.deliver prior) (p.deliver fun _ => 0) blank ↔ h.CleanAfter prior := by
  have hzero := h.outcome_unregistered hreg h.clean_zero blank
  constructor
  · intro hi
    obtain ⟨hsame, hstored⟩ := hi
    rw [hzero] at hsame
    have hname := hstored _ _ hsame (registerReply_text _ _ _)
    rcases registerNewDomain_cases hsame with
      ⟨i, name, hisrc, hatt, _, hchars, ht⟩ | ⟨attempt, hbad, hreply, _⟩
    · have hi : i = src := Option.some.inj (hisrc.symm.trans h.sender)
      subst hi
      rw [ht] at hname
      simp only [Function.update_self] at hname
      exact (h.clean_iff prior).mpr
        ⟨hchars.symm.trans hname, (registerAttempt_success.mp hatt).2.2⟩
    · exact absurd (registerReply_injective hreply).symm hbad
  · intro hc
    have hsame := h.outcome_unregistered hreg hc blank
    refine ⟨by rw [hsame, hzero], ?_⟩
    intro t reply hsome _
    rw [hsame] at hsome
    cases hsome
    simp only [Function.update_self]
    rfl

end

/-- The outcome is a function of the bytes that were sent exactly when the leftovers end the
name in time for a host that has a name already, and end it at once and hold no space within
the scan for one that has none. -/
theorem registration_independent_iff {p : Packet} {src : Fin namingTableSize}
    (h : NameRequest p src) (s : Naming) (blank : Packet) (stale stale₀ : ℕ → Int8)
    (prior : Fin payloadMax → Int8) {r r₀ : Packet}
    (hr : packetRecv (packetSend p) stale prior = some r)
    (hr₀ : packetRecv (packetSend p) stale₀ (fun _ => 0) = some r₀) :
    Independent s p src r r₀ blank ↔
      (s.isRegistered src = .yes ∧ h.EndedAfter prior) ∨
        (s.isRegistered src = .no ∧ h.CleanAfter prior) := by
  rw [packetRecv_packetSend h.fits] at hr hr₀
  cases hr
  cases hr₀
  cases hreg : s.isRegistered src with
  | yes =>
    rw [independent_registered h hreg]
    simp
  | no =>
    rw [independent_unregistered h hreg]
    simp

theorem nameRequest_a : NameRequest (requestPacket 1 pktDnsRegister [97]) 1 := by
  constructor <;> decide

theorem registration_independent_clean : ∃ r r₀,
    packetRecv (packetSend (requestPacket 1 pktDnsRegister [97])) (fun _ => 0)
      (fun i => if i.val < 60 then 0 else 32) = some r ∧
    packetRecv (packetSend (requestPacket 1 pktDnsRegister [97])) (fun _ => 0)
      (fun _ => 0) = some r₀ ∧
    Independent (namingInit 0) (requestPacket 1 pktDnsRegister [97]) 1 r r₀
      (requestPacket 0 0 []) := by
  refine ⟨_, _, packetRecv_packetSend nameRequest_a.fits _ _,
    packetRecv_packetSend nameRequest_a.fits _ _, ?_⟩
  refine (registration_independent_iff nameRequest_a (namingInit 0) (requestPacket 0 0 [])
    (fun _ => 0) (fun _ => 0) (fun i => if i.val < 60 then 0 else 32)
    (packetRecv_packetSend nameRequest_a.fits _ _)
    (packetRecv_packetSend nameRequest_a.fits _ _)).mpr (Or.inr ⟨rfl, rfl, ?_⟩)
  intro i _ hi
  simp only [maxNameLength] at hi
  simp [charSpace, show i.val < 60 by omega]

/-- Host 1 sends `a` into a buffer that still holds four `x`: the server stores `axxxx`. -/
theorem leftover_bytes_registered : ∃ r r₀,
    packetRecv (packetSend (requestPacket 1 pktDnsRegister [97])) (fun _ => 0)
      (fun i => if i.val < 5 then 120 else 0) = some r ∧
    packetRecv (packetSend (requestPacket 1 pktDnsRegister [97])) (fun _ => 0)
      (fun _ => 0) = some r₀ ∧
    ¬Independent (namingInit 0) (requestPacket 1 pktDnsRegister [97]) 1 r r₀
      (requestPacket 0 0 []) := by
  refine ⟨_, _, packetRecv_packetSend nameRequest_a.fits _ _,
    packetRecv_packetSend nameRequest_a.fits _ _, ?_⟩
  intro h
  have hrow : (registerNewDomain (namingInit 0)
      ((requestPacket 1 pktDnsRegister [97]).deliver fun i => if i.val < 5 then 120 else 0)
      (requestPacket 0 0 [])).map (fun t => (t.1.namingTable 1).chars) ≠
    (registerNewDomain (namingInit 0)
      ((requestPacket 1 pktDnsRegister [97]).deliver fun _ => 0)
      (requestPacket 0 0 [])).map (fun t => (t.1.namingTable 1).chars) := by
    decide +kernel
  exact hrow (congrArg _ h.1)

end RegisterRequests
