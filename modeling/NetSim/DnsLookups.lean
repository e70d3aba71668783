import NetSim.NamingTable

/-! What a lookup request is answered: which of several matching rows is found, and what
survives from earlier lookups when none matches. -/
namespace DnsLookups

open PacketCodec CStrings EventRuns DnsServer NamingTable
open SwitchNode (YesNo)

/-- Rows without a registration are empty, and every registered host has an id that a reply
byte can carry. -/
structure Sound (s : Naming) : Prop where
  empty : ∀ h, s.isRegistered h = .no → (s.namingTable h).chars = []
  small : ∀ h, s.isRegistered h = .yes → h.val ≤ 127

theorem sound_step {s t : Naming} {e : Exchange} (hs : Serves s e t) (h : Sound s) : Sound t := by
  rcases serves_cases hs with ⟨p, src, name, _, hsrc, _, _, _, rfl⟩ | ⟨hsame, _⟩
  · constructor
    · intro k hk
      by_cases hks : k = src
      · subst hks
        simp at hk
      · simp only [Function.update_of_ne hks] at hk ⊢
        exact h.empty k hk
    · intro k hk
      by_cases hks : k = src
      · subst hks
        have hval := srcIndex_eq_some hsrc
        have hmax := Int8.toInt_lt p.src
        omega
      · simp only [Function.update_of_ne hks] at hk
        exact h.small k hk
  · constructor
    · intro k hk
      rw [← hsame.2] at hk
      rw [← hsame.1]
      exact h.empty k hk
    · intro k hk
      rw [← hsame.2] at hk
      exact h.small k hk

theorem served_sound {log : List Exchange} {s : Naming} (hs : Served log s) : Sound s := by
  obtain ⟨garbage, hr⟩ := hs
  refine hr.invariant (fun s e t hst h => sound_step hst h) ?_
  constructor
  · intro _ _
    rfl
  · intro _ h
    simp [namingInit] at h

theorem findHost_first {s : Naming} {p : Packet} {i : Fin namingTableSize}
    (hi : rowMatches p (s.namingTable i) = true)
    (hmin : ∀ k < i, rowMatches p (s.namingTable k) = false) : findHost s p = i.val := by
  have hfind : (List.finRange namingTableSize).find?
      (fun i => rowMatches p (s.namingTable i)) = some i := by
    rw [List.find?_eq_some_iff_getElem]
    refine ⟨hi, i.val, by simp, by simp, ?_⟩
    intro j hj
    simpa using hmin ⟨j, by omega⟩ hj
  rw [findHost, hfind]

theorem findHost_unmatched {s : Naming} {p : Packet}
    (h : ∀ i, rowMatches p (s.namingTable i) = false) : findHost s p = s.dnsHostIDReturn := by
  have hfind : (List.finRange namingTableSize).find?
      (fun i => rowMatches p (s.namingTable i)) = none := by
    rw [List.find?_eq_none]
    intro i _
    simp [h i]
  rw [findHost, hfind]

theorem exists_first {s : Naming} {p : Packet}
    (h : ∃ i, rowMatches p (s.namingTable i) = true) :
    ∃ i, rowMatches p (s.namingTable i) = true ∧
      ∀ k < i, rowMatches p (s.namingTable k) = false := by
  obtain ⟨i, hi⟩ := h
  induction i using WellFoundedLT.induction with
  | ind i ih =>
    by_cases hlow : ∃ k < i, rowMatches p (s.namingTable k) = true
    · obtain ⟨k, hk, hm⟩ := hlow
      exact ih k hk hm
    · refine ⟨i, hi, ?_⟩
      intro k hk
      simpa using fun hm => hlow ⟨k, hk, hm⟩

theorem sizeT_of_nonneg {n : ℤ} (h0 : 0 ≤ n) (h1 : n ≤ payloadMax) : sizeT n = n.toNat := by
  simp only [payloadMax] at h1
  rw [sizeT, Int.emod_eq_of_lt h0 (by omega)]

theorem rowMatches_iff {p : Packet} (h0 : 0 ≤ p.length) (h1 : p.length ≤ payloadMax)
    (hq : 0 ∉ sentBytes p) (name : Name) :
    rowMatches p name = true ↔ sentBytes p <+: name.chars := by
  have hsplit : payloadText p = sentBytes p ++ text ((payloadList p).drop p.length.toNat) := by
    rw [payloadText, ← text_append hq, sentBytes, List.take_append_drop]
  have hlen : (sentBytes p).length = p.length.toNat := by
    simp only [payloadMax] at h1
    rw [sentBytes, List.length_take, payloadList_length]
    omega
  rw [rowMatches, strncmpZero_iff name.terminated (name_length_lt p name),
    sizeT_of_nonneg h0 h1, List.prefix_iff_eq_take, hlen]
  change (payloadText p).take _ = _ ↔ _
  rw [hsplit, List.take_left' hlen]

theorem lookupReply_found {s : Naming} {i : Fin namingTableSize} (h : s.isRegistered i = .yes)
    (stray : ℤ → YesNo) (src : Int8) (blank : Packet) :
    sentBytes (lookupReply s stray i.val src blank) = [Int8.ofInt i.val] := by
  have hreg : registeredAt s stray i.val = .yes := by
    simp [registeredAt, h]
  have hle : ¬((i.val : ℤ) > namingTableSize ∨ registeredAt s stray i.val = .no) := by
    simp only [hreg, reduceCtorEq, or_false]
    omega
  simp only [lookupReply, if_neg hle, sentBytes, payloadList]
  rfl

theorem lookupReply_fail {s : Naming} {stray : ℤ → YesNo} {found : ℤ}
    (h : found > namingTableSize ∨ registeredAt s stray found = .no) (src : Int8)
    (blank : Packet) :
    sentBytes (lookupReply s stray found src blank) = [charF, charA, charI, charL, 0] := by
  simp only [lookupReply, if_pos h, sentBytes, payloadList]
  rw [strcpy_take _ _ (by decide) (by decide)]
  rfl

def RegisteredUnder (s : Naming) (name : List Int8) (h : Fin namingTableSize) : Prop :=
  s.isRegistered h = .yes ∧ (s.namingTable h).chars = name

instance (s : Naming) (name : List Int8) (h : Fin namingTableSize) :
    Decidable (RegisteredUnder s name h) := inferInstanceAs (Decidable (_ ∧ _))

def CarriesId (r : Packet) (h : Fin namingTableSize) : Prop :=
  ∃ c : Int8, sentBytes r = [c] ∧ c.toInt = h.val

theorem sentBytes_ne_nil {p : Packet} (h0 : 0 < p.length) (h1 : p.length ≤ payloadMax) :
    sentBytes p ≠ [] := by
  intro he
  have hlen := congrArg List.length he
  simp only [payloadMax] at h1
  simp only [sentBytes, List.length_take, payloadList_length, List.length_nil] at hlen
  omega

/-- The reply carries the id of the first row whose name starts with the name asked for, and of
no other. -/
theorem lookup_first {s : Naming} (hsound : Sound s) {p : Packet} (h0 : 0 < p.length)
    (h1 : p.length ≤ payloadMax) (hq : 0 ∉ sentBytes p)
    (hex : ∃ h, RegisteredUnder s (sentBytes p) h) (stray : ℤ → YesNo) (blank : Packet) :
    ∃ i, s.isRegistered i = .yes ∧ sentBytes p <+: (s.namingTable i).chars ∧
      (∀ k < i, ¬sentBytes p <+: (s.namingTable k).chars) ∧
      ∀ h, CarriesId (dnsPingReq s stray p blank).2 h ↔ h = i := by
  have hmatch : ∀ i, rowMatches p (s.namingTable i) = true ↔
      sentBytes p <+: (s.namingTable i).chars := fun i => rowMatches_iff (by omega) h1 hq _
  obtain ⟨i, hi, hmin⟩ : ∃ i, rowMatches p (s.namingTable i) = true ∧
      ∀ k < i, rowMatches p (s.namingTable k) = false := by
    obtain ⟨h, hh⟩ := hex
    exact exists_first ⟨h, (hmatch h).mpr (hh.2 ▸ List.prefix_rfl)⟩
  have hreg : s.isRegistered i = .yes := by
    cases hr : s.isRegistered i with
    | yes => rfl
    | no =>
      have hpre := (hmatch i).mp hi
      rw [hsound.empty i hr] at hpre
      exact absurd (List.prefix_nil.mp hpre) (sentBytes_ne_nil h0 h1)
  have hreply : sentBytes (dnsPingReq s stray p blank).2 = [Int8.ofInt i.val] := by
    rw [dnsPingReq, findHost_first hi hmin]
    exact lookupReply_found hreg stray p.src blank
  have hchar : (Int8.ofInt i.val).toInt = i.val := by
    have := hsound.small i hreg
    exact char_of_small (by omega) (by omega)
  refine ⟨i, hreg, (hmatch i).mp hi, ?_, ?_⟩
  · intro k hk hpre
    have := (hmatch k).mpr hpre
    rw [hmin k hk] at this
    cases this
  · intro h
    constructor
    · intro hcarries
      obtain ⟨c, hc, hid⟩ := hcarries
      rw [hreply, List.cons.injEq] at hc
      rw [← hc.1, hchar] at hid
      exact Fin.ext (by omega)
    · intro hhi
      subst hhi
      exact ⟨_, hreply, hchar⟩

/-- `strncmp` stops after the request's `length`, so a longer name in a lower row is found
first. An exact name is found exactly when no lower row holds a longer name that starts
with it. -/
theorem lookup_exact_iff {log : List Exchange} {s : Naming} (hs : Served log s) {p : Packet}
    (h0 : 0 < p.length) (h1 : p.length ≤ payloadMax) (hq : 0 ∉ sentBytes p)
    (hex : ∃ h, RegisteredUnder s (sentBytes p) h) (stray : ℤ → YesNo) (blank : Packet) :
    (∃ h, RegisteredUnder s (sentBytes p) h ∧ CarriesId (dnsPingReq s stray p blank).2 h) ↔
      ∃ h, RegisteredUnder s (sentBytes p) h ∧ ∀ k < h,
        ¬(sentBytes p <+: (s.namingTable k).chars ∧ (s.namingTable k).chars ≠ sentBytes p) := by
  obtain ⟨i, hreg, hpre, hmin, hcarries⟩ :=
    lookup_first (served_sound hs) h0 h1 hq hex stray blank
  constructor
  · intro h
    obtain ⟨h, hunder, hid⟩ := h
    have hih : h = i := (hcarries h).mp hid
    subst hih
    exact ⟨h, hunder, fun k hk hext => hmin k hk hext.1⟩
  · intro h
    obtain ⟨h, hunder, hlow⟩ := h
    refine ⟨i, ⟨hreg, ?_⟩, (hcarries i).mpr rfl⟩
    rcases lt_trichotomy i h with hlt | rfl | hgt
    · by_contra hother
      exact hlow i hlt ⟨hpre, hother⟩
    · exact hunder.2
    · exact absurd (hunder.2 ▸ List.prefix_rfl) (hmin h hgt)

theorem lookup_exact_alone : ∃ log s, Served log s ∧
    (∃ h, RegisteredUnder s [97] h ∧
      CarriesId (dnsPingReq s (fun _ => .no) (requestPacket 5 pktDnsLookup [97])
        (requestPacket 0 0 [])).2 h) := by
  obtain ⟨log, s, hs, -, hc⟩ := served_of_serveAll (fun _ => .no) (requestPacket 0 0 []) 0
    [.register (requestPacket 3 pktDnsRegister [97])]
    (fun r => decide (RegisteredUnder r.2 [97] 3) &&
      decide (∀ k < (3 : Fin namingTableSize), (r.2.namingTable k).chars = []))
    (by decide +kernel)
  simp only [Bool.and_eq_true, decide_eq_true_eq] at hc
  have hsent : sentBytes (requestPacket 5 pktDnsLookup [97]) = [97] := by decide
  refine ⟨log, s, hs, ?_⟩
  have hiff := lookup_exact_iff hs (p := requestPacket 5 pktDnsLookup [97]) (by decide)
    (by decide) (by decide) ⟨3, by rw [hsent]; exact hc.1⟩ (fun _ => .no) (requestPacket 0 0 [])
  rw [hsent] at hiff
  refine hiff.mpr ⟨3, hc.1, ?_⟩
  intro k hk hext
  rw [hc.2 k hk] at hext
  exact absurd (List.prefix_nil.mp hext.1) (by simp)

/-- Host 3 is `abc` and host 5 is `ab`; a lookup of `ab` is answered 3. -/
theorem longer_name_answered : ∃ log s, Served log s ∧ RegisteredUnder s [97, 98] 5 ∧
    ¬∃ h, RegisteredUnder s [97, 98] h ∧
      CarriesId (dnsPingReq s (fun _ => .no) (requestPacket 5 pktDnsLookup [97, 98])
        (requestPacket 0 0 [])).2 h := by
  obtain ⟨log, s, hs, -, hc⟩ := served_of_serveAll (fun _ => .no) (requestPacket 0 0 []) 0
    [.register (requestPacket 3 pktDnsRegister [97, 98, 99]),
      .register (requestPacket 5 pktDnsRegister [97, 98])]
    (fun r => decide (RegisteredUnder r.2 [97, 98] 5) &&
      decide (RegisteredUnder r.2 [97, 98, 99] 3) &&
      decide (sentBytes (dnsPingReq r.2 (fun _ => .no) (requestPacket 5 pktDnsLookup [97, 98])
        (requestPacket 0 0 [])).2 = [3])) (by decide +kernel)
  simp only [Bool.and_eq_true, decide_eq_true_eq] at hc
  obtain ⟨⟨h5, h3⟩, hreply⟩ := hc
  refine ⟨log, s, hs, h5, ?_⟩
  intro h
  obtain ⟨h, hunder, c, hc, hid⟩ := h
  rw [hreply, List.cons.injEq] at hc
  have hh : h = 3 := by
    rw [← hc.1] at hid
    have hbyte : (3 : Int8).toInt = 3 := rfl
    have hrow : ((3 : Fin namingTableSize) : ℕ) = 3 := rfl
    exact Fin.ext (by omega)
  subst hh
  exact absurd (h3.2.symm.trans hunder.2) (by decide)

/-- What a host sees of a reply. -/
def SameReply (r r' : Packet) : Prop :=
  r.dst = r'.dst ∧ r.type = r'.type ∧ r.length = r'.length ∧ sentBytes r = sentBytes r'

def IsFail (r : Packet) : Prop := sentBytes r = [charF, charA, charI, charL, 0]

theorem registerNewDomain_found (s : Naming) (found : ℤ) (p blank : Packet) :
    registerNewDomain { s with dnsHostIDReturn := found } p blank =
      (registerNewDomain s p blank).map fun r =>
        ({ r.1 with dnsHostIDReturn := found }, r.2) := by
  cases hsrc : srcIndex p with
  | none =>
    simp only [registerNewDomain, hsrc]
    split <;> rfl
  | some src =>
    have hatt : registerAttempt { s with dnsHostIDReturn := found } p src =
        registerAttempt s p src := rfl
    rw [registerNewDomain_index hsrc, registerNewDomain_index hsrc, hatt]
    split
    · cases printName p <;> rfl
    · rfl

theorem sameTable_iff {s t : Naming} :
    SameTable s t ↔ s = { t with dnsHostIDReturn := s.dnsHostIDReturn } := by
  obtain ⟨table, flags, found⟩ := s
  simp [SameTable]

/-- The registrations of a run alone lead to the same table, and leave the variable of the
search as it was at the start. -/
theorem registers_only {s t : Naming} {log : List Exchange} (hr : Run Serves s log t)
    {s' : Naming} (hsame : SameTable s' s) :
    ∃ log' t', Run Serves s' log' t' ∧ SameTable t' t ∧
      t'.dnsHostIDReturn = s'.dnsHostIDReturn := by
  induction hr generalizing s' with
  | nil s => exact ⟨[], s', .nil s', hsame, rfl⟩
  | @cons s e t es u hs _ ih =>
    obtain ⟨_, _, hans⟩ := hs
    cases hreq : e.request with
    | lookup p =>
      rw [hreq] at hans
      have hkept := lookup_same hans
      exact ih ⟨hsame.1.trans hkept.1, hsame.2.trans hkept.2⟩
    | register p =>
      rw [hreq] at hans
      cases hans with
      | @register p blank t r hreg =>
        have hreg' : registerNewDomain s' p blank =
            some ({ t with dnsHostIDReturn := s'.dnsHostIDReturn }, e.reply) := by
          rw [sameTable_iff.mp hsame, registerNewDomain_found, hreg]
          rfl
        have hkept : SameTable { t with dnsHostIDReturn := s'.dnsHostIDReturn } t := ⟨rfl, rfl⟩
        obtain ⟨log', t', hrun, htab, hfound⟩ := ih hkept
        exact ⟨⟨s', .register p, e.reply, _⟩ :: log', t',
          .cons ⟨rfl, rfl, .register hreg'⟩ hrun, htab, hfound⟩

theorem findHost_congr {s t : Naming} (h : SameTable s t) {p : Packet}
    (hm : ∃ i, rowMatches p (s.namingTable i) = true) : findHost s p = findHost t p := by
  obtain ⟨i, hi, hmin⟩ := exists_first hm
  rw [findHost_first hi hmin]
  rw [h.1] at hi hmin
  rw [findHost_first hi hmin]

theorem registeredAt_congr {s t : Naming} (h : SameTable s t) (stray stray' : ℤ → YesNo)
    (i : Fin namingTableSize) : registeredAt s stray i.val = registeredAt t stray' i.val := by
  simp [registeredAt, h.2]

theorem reply_congr {s t : Naming} (h : SameTable s t) (stray stray' : ℤ → YesNo)
    (i : Fin namingTableSize) (src : Int8) (blank blank' : Packet) :
    SameReply (lookupReply s stray i.val src blank) (lookupReply t stray' i.val src blank') := by
  have hreg := registeredAt_congr h stray stray' i
  have hin : ¬(i.val : ℤ) > namingTableSize := by omega
  cases hyes : s.isRegistered i with
  | no =>
    have hno : registeredAt s stray i.val = .no := by simp [registeredAt, hyes]
    refine ⟨?_, ?_, ?_, ?_⟩
    · simp [lookupReply, hno, ← hreg]
    · simp [lookupReply, hno, ← hreg]
    · simp [lookupReply, hno, ← hreg]
    · rw [lookupReply_fail (Or.inr hno), lookupReply_fail (Or.inr (hreg ▸ hno))]
  | yes =>
    have hyes' : registeredAt s stray i.val = .yes := by simp [registeredAt, hyes]
    refine ⟨?_, ?_, ?_, ?_⟩
    · simp [lookupReply, hyes', ← hreg, hin]
    · simp [lookupReply, hyes', ← hreg, hin]
    · simp [lookupReply, hyes', ← hreg, hin]
    · rw [lookupReply_found hyes, lookupReply_found (h.2 ▸ hyes)]

theorem matched_same_reply {s t : Naming} (h : SameTable s t) {p : Packet}
    (hm : ∃ i, rowMatches p (s.namingTable i) = true) (stray stray' : ℤ → YesNo)
    (blank blank' : Packet) :
    SameReply (dnsPingReq s stray p blank).2 (dnsPingReq t stray' p blank').2 := by
  obtain ⟨i, hi, hmin⟩ := exists_first hm
  have hs : findHost s p = i.val := findHost_first hi hmin
  have ht : findHost t p = i.val := by rw [← findHost_congr h hm, hs]
  simp only [dnsPingReq, hs, ht]
  exact reply_congr h stray stray' i p.src blank blank'

/-- A request that matches no row can be answered with something else than FAIL: the table can be
reached with any value in the variable of the search. -/
theorem unmatched_not_fail {log : List Exchange} {s : Naming} (hs : Served log s) {p : Packet}
    (hall : ∀ i, rowMatches p (s.namingTable i) = false) :
    ∃ log' s', Served log' s' ∧ SameTable s' s ∧
      ¬IsFail (dnsPingReq s' (fun _ => .yes) p p).2 := by
  obtain ⟨garbage, hr⟩ := hs
  have hstart : SameTable (namingInit (-1)) (namingInit garbage) := ⟨rfl, rfl⟩
  obtain ⟨log', s', hr', hsame, hfound⟩ := registers_only hr hstart
  have hid : findHost s' p = -1 := by
    rw [findHost_unmatched (fun i => by rw [hsame.1]; exact hall i), hfound]
    rfl
  have hsent : sentBytes (dnsPingReq s' (fun _ => .yes) p p).2 = [Int8.ofInt (-1)] := by
    simp only [dnsPingReq, hid]
    rfl
  refine ⟨log', s', ⟨-1, hr'⟩, hsame, ?_⟩
  intro hfail
  rw [IsFail, hsent] at hfail
  exact absurd hfail (by decide)

/-- When no row matches, the search leaves its variable as an earlier request left it, or as
the stack had it. The next reply depends on the table alone exactly when some row matches. -/
theorem lookup_independent_iff {log : List Exchange} {s : Naming} (hs : Served log s)
    (p : Packet) :
    (∀ log₁ s₁ log₂ s₂, Served log₁ s₁ → Served log₂ s₂ → SameTable s₁ s → SameTable s₂ s →
      ∀ stray₁ stray₂ blank₁ blank₂,
        SameReply (dnsPingReq s₁ stray₁ p blank₁).2 (dnsPingReq s₂ stray₂ p blank₂).2 ∧
        ((∀ i, rowMatches p (s.namingTable i) = false) →
          IsFail (dnsPingReq s₁ stray₁ p blank₁).2)) ↔
      ∃ i, rowMatches p (s.namingTable i) = true := by
  constructor
  · intro h
    by_contra hnone
    have hall : ∀ i, rowMatches p (s.namingTable i) = false := by
      intro i
      simpa using fun hi => hnone ⟨i, hi⟩
    obtain ⟨log', s', hserved, hsame, hnot⟩ := unmatched_not_fail hs hall
    have hboth := h log' s' log' s' hserved hserved hsame hsame (fun _ => .yes) (fun _ => .yes) p p
    exact hnot (hboth.2 hall)
  · intro hm log₁ s₁ log₂ s₂ _ _ h₁ h₂ stray₁ stray₂ blank₁ blank₂
    constructor
    · have hm₁ : ∃ i, rowMatches p (s₁.namingTable i) = true := by rwa [h₁.1]
      exact matched_same_reply ⟨h₁.1.trans h₂.1.symm, h₁.2.trans h₂.2.symm⟩ hm₁ stray₁ stray₂
        blank₁ blank₂
    · intro hall
      obtain ⟨i, hi⟩ := hm
      rw [hall i] at hi
      cases hi

/-- Hosts 2 and 3 are `ab` and `cd`. A lookup of `cd` is answered 3 after a lookup of `ab` and after
one of `zz`. -/
theorem lookup_independent_cd : ∃ log₁ s₁ log₂ s₂, Served log₁ s₁ ∧ Served log₂ s₂ ∧
    s₁.dnsHostIDReturn ≠ s₂.dnsHostIDReturn ∧
    SameReply
      (dnsPingReq s₁ (fun _ => .no) (requestPacket 5 pktDnsLookup [99, 100])
        (requestPacket 0 0 [])).2
      (dnsPingReq s₂ (fun _ => .yes) (requestPacket 5 pktDnsLookup [99, 100])
        (requestPacket 1 1 [])).2 ∧
    sentBytes (dnsPingReq s₁ (fun _ => .no) (requestPacket 5 pktDnsLookup [99, 100])
      (requestPacket 0 0 [])).2 = [3] := by
  obtain ⟨log, s, hs, -, hc⟩ := served_of_serveAll (fun _ => .no) (requestPacket 0 0 []) 300
    [.register (requestPacket 2 pktDnsRegister [97, 98]),
      .register (requestPacket 3 pktDnsRegister [99, 100])]
    (fun r =>
      rowMatches (requestPacket 5 pktDnsLookup [99, 100]) (r.2.namingTable 3) &&
      decide (findHost r.2 (requestPacket 5 pktDnsLookup [97, 98]) ≠
        findHost r.2 (requestPacket 5 pktDnsLookup [122, 122])) &&
      decide (sentBytes (dnsPingReq (dnsPingReq r.2 (fun _ => .no)
        (requestPacket 5 pktDnsLookup [97, 98]) (requestPacket 0 0 [])).1 (fun _ => .no)
        (requestPacket 5 pktDnsLookup [99, 100]) (requestPacket 0 0 [])).2 = [3]))
    (by decide +kernel)
  simp only [Bool.and_eq_true, decide_eq_true_eq] at hc
  obtain ⟨⟨hmatch, hdiffer⟩, hthree⟩ := hc
  obtain ⟨garbage, hr⟩ := hs
  have hab : Serves s ⟨s, .lookup (requestPacket 5 pktDnsLookup [97, 98]), _, _⟩ _ :=
    ⟨rfl, rfl, .lookup s (fun _ => .no) _ (requestPacket 0 0 [])⟩
  have hzz : Serves s ⟨s, .lookup (requestPacket 5 pktDnsLookup [122, 122]), _, _⟩ _ :=
    ⟨rfl, rfl, .lookup s (fun _ => .no) _ (requestPacket 0 0 [])⟩
  have hsame := (lookup_independent_iff ⟨garbage, hr⟩ (requestPacket 5 pktDnsLookup [99, 100])).mpr
    ⟨3, hmatch⟩ _ _ _ _ ⟨garbage, hr.snoc hab⟩ ⟨garbage, hr.snoc hzz⟩ ⟨rfl, rfl⟩ ⟨rfl, rfl⟩
    (fun _ => .no) (fun _ => .yes) (requestPacket 0 0 []) (requestPacket 1 1 [])
  exact ⟨_, _, _, _, ⟨garbage, hr.snoc hab⟩, ⟨garbage, hr.snoc hzz⟩, hdiffer, hsame.1, hthree⟩

/-- Host 2 is `ab`. After a lookup of `ab` a lookup of `zz` is answered 2; without it, FAIL. -/
theorem unmatched_name_answered : ∃ log₁ s₁ log₂ s₂, Served log₁ s₁ ∧ Served log₂ s₂ ∧
    SameTable s₁ s₂ ∧
    (∀ i, rowMatches (requestPacket 5 pktDnsLookup [122, 122]) (s₁.namingTable i) = false) ∧
    sentBytes (dnsPingReq s₁ (fun _ => .no) (requestPacket 5 pktDnsLookup [122, 122])
      (requestPacket 0 0 [])).2 = [2] ∧
    IsFail (dnsPingReq s₂ (fun _ => .no) (requestPacket 5 pktDnsLookup [122, 122])
      (requestPacket 0 0 [])).2 := by
  obtain ⟨log, s, hs, -, hc⟩ := served_of_serveAll (fun _ => .no) (requestPacket 0 0 []) 300
    [.register (requestPacket 2 pktDnsRegister [97, 98])]
    (fun r =>
      decide (∀ i, rowMatches (requestPacket 5 pktDnsLookup [122, 122])
        (r.2.namingTable i) = false) &&
      decide (sentBytes (dnsPingReq (dnsPingReq r.2 (fun _ => .no)
        (requestPacket 5 pktDnsLookup [97, 98]) (requestPacket 0 0 [])).1 (fun _ => .no)
        (requestPacket 5 pktDnsLookup [122, 122]) (requestPacket 0 0 [])).2 = [2]) &&
      decide (sentBytes (dnsPingReq r.2 (fun _ => .no)
        (requestPacket 5 pktDnsLookup [122, 122]) (requestPacket 0 0 [])).2 =
          [charF, charA, charI, charL, 0])) (by decide +kernel)
  simp only [Bool.and_eq_true, decide_eq_true_eq] at hc
  obtain ⟨⟨hall, hstale⟩, hfail⟩ := hc
  obtain ⟨garbage, hr⟩ := hs
  have hlookup : Serves s ⟨s, .lookup (requestPacket 5 pktDnsLookup [97, 98]), _, _⟩ _ :=
    ⟨rfl, rfl, .lookup s (fun _ => .no) _ (requestPacket 0 0 [])⟩
  exact ⟨_, _, log, s, ⟨garbage, hr.snoc hlookup⟩, ⟨garbage, hr⟩, ⟨rfl, rfl⟩, hall, hstale, hfail⟩

end DnsLookups
