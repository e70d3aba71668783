import NetSim.SentPackets

/-! No reply without a request. Every reply that a host or the server sends goes to a node that
has sent it the request, so a host only reads replies to what it has asked itself. And the server
only has the names that the hosts have sent it. -/
namespace RequestReplies

open PacketCodec Simulation SimulatedNetwork OwnPackets SentPackets
open FrameHistory (CopyOf)
open SimulationRefinement (ReadsWhole WholeStep wholeStep wholeStep_some)
open SwitchNode (YesNo Stray)
open NetworkWiring (LinkEnd)
open HostNode (HostState HostEvent HostJob hostStep)
open HostJobs (Made Queued)
open DnsServer (ServerState ServerJob Naming serverId namingTableSize payloadText)
open TableIndices (forall_update quietMemory quietRecv commanded)
open EventRuns (Run)

variable {c : Config}

/-- The type of the requests that a reply of this type answers. -/
def requestOf (type : Int8) : Option Int8 :=
  if type = pktPingReply then some pktPingReq
  else if type = pktDnsRegisterReply then some pktDnsRegister
  else if type = pktDnsLookupReply then some pktDnsLookup
  else none

def Asked (c : Config) (s : SimState) (type dst src : Int8) : Prop :=
  ∃ v, ∃ q ∈ sentBy c s v, Own (c.idOf v) q ∧ q.type = type ∧ q.dst = dst ∧ q.src = src

/-- Node i has sent the server a name to register. -/
def RegisteredBy (c : Config) (s : SimState) (i : ℤ) (name : List Int8) : Prop :=
  ∃ v, ∃ q ∈ sentBy c s v, c.idOf v = i ∧ q.type = pktDnsRegister ∧
    q.dst = Int8.ofInt serverId ∧ ∃ p, CopyOf q p ∧ payloadText p = name

def IsRow (i : ℤ) : Prop := 0 ≤ i ∧ i < namingTableSize

/-- What the answer to a lookup may name: a host with a name, or what `dnsHostIDReturn` held before
any row matched. -/
def Found (c : Config) (memory : SimMemory) (s : SimState) (i : ℤ) : Prop :=
  (∃ name, RegisteredBy c s i name) ∨ ¬ IsRow i ∧ ∃ v, i = memory.dnsHostIDReturn v

/-- If p is a reply, then its destination has asked its source; the answer to a lookup is "FAIL"
or the id of a host. -/
structure Answers (c : Config) (memory : SimMemory) (s : SimState) (p : Packet) : Prop where
  asked : ∀ type, requestOf p.type = some type → Asked c s type p.src p.dst
  found : p.type = pktDnsLookupReply → p.length = 5 ∨
    p.length = 1 ∧ ∃ i, Found c memory s i ∧ ∀ j, j.val = 0 → p.payload j = Int8.ofInt i

variable {memory : SimMemory}

def HostJobAnswers (c : Config) (memory : SimMemory) (s : SimState) (id : ℤ) : HostJob → Prop
  | .sendPktAllPorts p => Answers c memory s p
  | .pingSendReply p => Asked c s pktPingReq (Int8.ofInt id) p.src
  | _ => True

def ServerJobAnswers (c : Config) (memory : SimMemory) (s : SimState) : ServerJob → Prop
  | .sendPktAllPorts p => Answers c memory s p
  | .pingSendReply p => Asked c s pktPingReq (Int8.ofInt serverId) p.src
  | .registerNewDomain p => Asked c s pktDnsRegister (Int8.ofInt serverId) p.src ∧
      RegisteredBy c s p.src.toInt (payloadText p)
  | .dnsPingReq p => Asked c s pktDnsLookup (Int8.ofInt serverId) p.src

/-- The table of a server, and the last row that matched. -/
structure Listed (c : Config) (memory : SimMemory) (s : SimState) (naming : Naming) : Prop where
  rows : ∀ i, naming.isRegistered i = .yes →
    RegisteredBy c s i.val (naming.namingTable i).chars
  last : IsRow naming.dnsHostIDReturn ∨ ∃ v, naming.dnsHostIDReturn = memory.dnsHostIDReturn v

structure Answering (c : Config) (memory : SimMemory) (s : SimState) : Prop where
  host : ∀ v, c.typeOf v = some .host → ∀ job ∈ (s.host v).jobQ,
    HostJobAnswers c memory s (c.idOf v) job
  server : ∀ v, ∀ job ∈ (s.server v).jobQ, ServerJobAnswers c memory s job
  naming : ∀ v, Listed c memory s (s.server v).naming
  sent : ∀ v, ∀ p ∈ sentBy c s v, Answers c memory s p

theorem Asked.mono {s u : SimState} (h : Extends c s u) {type dst src : Int8}
    (ha : Asked c s type dst src) : Asked c u type dst src := by
  obtain ⟨v, q, hq, hrest⟩ := ha
  exact ⟨v, q, (h v).subset hq, hrest⟩

theorem RegisteredBy.mono {s u : SimState} (h : Extends c s u) {i : ℤ} {name : List Int8}
    (hr : RegisteredBy c s i name) : RegisteredBy c u i name := by
  obtain ⟨v, q, hq, hrest⟩ := hr
  exact ⟨v, q, (h v).subset hq, hrest⟩

theorem Found.mono {s u : SimState} (h : Extends c s u) {i : ℤ} (hf : Found c memory s i) :
    Found c memory u i := hf.imp (fun hr => hr.imp fun _ hname => hname.mono h) id

theorem Answers.mono {s u : SimState} (h : Extends c s u) {p : Packet}
    (ha : Answers c memory s p) : Answers c memory u p where
  asked type htype := (ha.asked type htype).mono h
  found htype := (ha.found htype).imp id fun hone =>
    ⟨hone.1, hone.2.imp fun _ hi => ⟨hi.1.mono h, hi.2⟩⟩

theorem Listed.mono {s u : SimState} (h : Extends c s u) {naming : Naming}
    (hl : Listed c memory s naming) : Listed c memory u naming :=
  ⟨fun i hi => (hl.rows i hi).mono h, hl.last⟩

theorem HostJobAnswers.mono {s u : SimState} (h : Extends c s u) {id : ℤ} {job : HostJob}
    (ha : HostJobAnswers c memory s id job) : HostJobAnswers c memory u id job := by
  cases job with
  | sendPktAllPorts p => exact Answers.mono h ha
  | pingSendReply p => exact Asked.mono h ha
  | _ => trivial

theorem ServerJobAnswers.mono {s u : SimState} (h : Extends c s u) {job : ServerJob}
    (ha : ServerJobAnswers c memory s job) : ServerJobAnswers c memory u job := by
  cases job with
  | sendPktAllPorts p => exact Answers.mono h ha
  | registerNewDomain p => exact ⟨ha.1.mono h, ha.2.mono h⟩
  | _ => exact Asked.mono h ha

theorem exists_sender {s : SimState} {v : ℕ} {p : Packet} (h : p ∈ sentBy c s v) :
    ∃ w : Node c, w.val = v := by
  unfold sentBy at h
  split at h
  · next htype => exact exists_node htype
  · next htype => exact exists_node htype
  · cases h

theorem id_char (hc : Piped c) (v : Node c) : (Int8.ofInt (c.idOf v)).toInt = c.idOf v := by
  obtain ⟨hlow, hhigh⟩ := idOf_range hc v
  exact char_of_small (by omega) (by omega)

theorem sender_id (hc : Piped c) {s : SimState} {v : ℕ} {p q : Packet} (hq : q ∈ sentBy c s v)
    (hown : Own (c.idOf v) q) (hcopy : CopyOf q p) : c.idOf v = p.src.toInt := by
  obtain ⟨w, rfl⟩ := exists_sender hq
  rw [hcopy.src, hown.src, id_char hc]

theorem asked_of_traced {s : SimState} {p : Packet} (hp : Traced c s p)
    (hd : p.type ≠ pktControlPacket) {id : ℤ} (hdst : p.dst.toInt = id) :
    Asked c s p.type (Int8.ofInt id) p.src := by
  obtain ⟨v, q, hq, hown, hcopy⟩ := hp.sent hd
  refine ⟨v, q, hq, hown, hcopy.type.symm, ?_, hcopy.src.symm⟩
  rw [← hdst, Int8.ofInt_toInt]
  exact hcopy.dst.symm

theorem registered_of_traced (hc : Piped c) {s : SimState} {p : Packet} (hp : Traced c s p)
    (htype : p.type = pktDnsRegister) (hdst : p.dst.toInt = serverId) :
    RegisteredBy c s p.src.toInt (payloadText p) := by
  have hd : p.type ≠ pktControlPacket := by
    rw [htype]
    decide
  obtain ⟨v, q, hq, hown, hcopy⟩ := hp.sent hd
  refine ⟨v, q, hq, sender_id hc hq hown hcopy, hcopy.type.symm.trans htype, ?_, p, hcopy, rfl⟩
  rw [← hdst, Int8.ofInt_toInt]
  exact hcopy.dst.symm

theorem answers_of_none {s : SimState} {p : Packet} (h : requestOf p.type = none) :
    Answers c memory s p := by
  constructor
  · intro type htype
    rw [h] at htype
    cases htype
  · intro hlookup
    rw [hlookup] at h
    exact absurd h (by decide : requestOf pktDnsLookupReply ≠ none)

theorem made_answers {s : SimState} {hostId dst : ℤ} {p : Packet} (h : Made hostId dst p) :
    Answers c memory s p := by
  refine answers_of_none ?_
  rw [requestOf, if_neg h.noReply.1, if_neg h.noReply.2, if_neg h.noAnswer]

theorem answers_reply {s : SimState} {type reply src dst : Int8} (ha : Asked c s type src dst)
    (hreply : requestOf reply = some type) (hnot : reply ≠ pktDnsLookupReply) {p : Packet}
    (htype : p.type = reply) (hsrc : p.src = src) (hdst : p.dst = dst) :
    Answers c memory s p := by
  subst htype hsrc hdst
  refine ⟨?_, fun hlookup => absurd hlookup hnot⟩
  intro t ht
  cases ht.symm.trans hreply
  exact ha

theorem queued_answers {s : SimState} {id : ℤ} {host : HostState} {e : HostEvent} {job : HostJob}
    (h : Queued host e job) (hid : host.hostId = id)
    (hold : ∀ job ∈ host.jobQ, HostJobAnswers c memory s id job)
    (hread : ∀ n p, e = .receive n p → n > 0 → Traced c s p) :
    HostJobAnswers c memory s id job := by
  subst hid
  cases h with
  | control => exact answers_of_none (by decide : requestOf pktControlPacket = none)
  | command hjob =>
    cases hjob with
    | toDst _ hmade => exact made_answers hmade
    | toServer hmade => exact made_answers hmade
    | upload => trivial
    | wait hwait =>
      cases job with
      | sendPktAllPorts | pingSendReply => exact hwait.elim
      | _ => trivial
  | receive hn hdst hd hjob =>
    have htraced := hread _ _ rfl hn
    cases hjob with
    | ping htype =>
      have hasked := asked_of_traced htraced hd hdst
      rwa [htype] at hasked
    | _ => trivial
  | @execute _ _ head _ q hq hjob =>
    have hhead : HostJobAnswers c memory s host.hostId head := hold head (hq ▸ List.mem_cons_self)
    cases hjob with
    | reply heq =>
      subst heq
      exact answers_reply hhead (by decide : requestOf pktPingReply = some pktPingReq)
        (by decide) rfl rfl rfl
    | part _ hmade => exact made_answers hmade
    | again hagain => cases hagain <;> trivial
    | toFound hmade => exact made_answers hmade
    | pingWait => trivial

/-- A step of a host, before its packets are in the pipes. -/
theorem answering_host {s : SimState} (hs : Answering c memory s) {v : ℕ}
    (hv : c.typeOf v = some .host) (hown : OwnHost (c.idOf v) (s.host v)) {e : HostEvent}
    {host : HostState} (h : hostStep (s.host v) e = some host)
    (hread : ∀ n p, e = .receive n p → n > 0 → Traced c s p) :
    Answering c memory { s with host := Function.update s.host v host } := by
  have hdoes := HostJobs.hostStep_does h
  have hext : Extends c s { s with host := Function.update s.host v host } :=
    extends_host (hostStep_sent h)
  have hjobs : ∀ job ∈ host.jobQ, HostJobAnswers c memory s (c.idOf v) job := by
    intro job hjob
    rcases hdoes.jobQ job hjob with hold | hnew
    · exact hs.host v hv job hold
    · exact queued_answers hnew hown.hostId (hs.host v hv) hread
  refine ⟨?_, fun w job hjob => (hs.server w job hjob).mono hext,
    fun w => (hs.naming w).mono hext, ?_⟩
  · exact forall_update (P := fun w (a : HostState) => c.typeOf w = some .host → ∀ job ∈ a.jobQ,
        HostJobAnswers c memory { s with host := Function.update s.host v host } (c.idOf w) job)
      (fun w hw job hjob => (hs.host w hw job hjob).mono hext)
      fun _ job hjob => (hjobs job hjob).mono hext
  · intro w p hp
    refine Answers.mono hext ?_
    rcases mem_sentBy_host hv hp with hold | ⟨rfl, hnew⟩
    · exact hs.sent w p hold
    · rcases hdoes.sent with hkept | ⟨q, hq, hmore⟩
      · exact hs.sent w p (sentBy_host hv ▸ hkept ▸ hnew)
      · rw [hmore] at hnew
        rcases List.mem_append.mp hnew with hold | hlast
        · exact hs.sent w p (sentBy_host hv ▸ hold)
        · rw [List.mem_singleton.mp hlast]
          exact hs.host w hv _ hq

theorem packetJob_answers (hc : Piped c) {s : SimState} {p : Packet} (hp : Traced c s p)
    {job : ServerJob} (h : DnsServer.packetJob p = some job) :
    ServerJobAnswers c memory s job := by
  unfold DnsServer.packetJob at h
  split_ifs at h with hcontrol hdst hping hregister hlookup
  all_goals
    have hasked := asked_of_traced hp hcontrol hdst
    cases h
  · rwa [hping] at hasked
  · rw [hregister] at hasked
    exact ⟨hasked, registered_of_traced hc hp hregister hdst⟩
  · rwa [hlookup] at hasked

theorem registerNewDomain_listed {s : SimState} {naming next : Naming} {p blank reply : Packet}
    (h : DnsServer.registerNewDomain naming p blank = some (next, reply))
    (hl : Listed c memory s naming) (hp : RegisteredBy c s p.src.toInt (payloadText p)) :
    Listed c memory s next := by
  rcases DnsServer.registerNewDomain_cases h with
    ⟨src, name, hindex, _, _, hchars, rfl⟩ | ⟨_, _, _, rfl, _⟩
  · refine ⟨?_, hl.last⟩
    intro i hi
    by_cases hsame : i = src
    · subst hsame
      simp only [Function.update_self]
      rwa [← DnsServer.srcIndex_eq_some hindex, hchars]
    · simp only [Function.update_of_ne hsame] at hi ⊢
      exact hl.rows i hi
  · exact hl

theorem findHost_listed {s : SimState} {naming : Naming} (hl : Listed c memory s naming)
    (p : Packet) : IsRow (DnsServer.findHost naming p) ∨
      ∃ v, DnsServer.findHost naming p = memory.dnsHostIDReturn v := by
  unfold DnsServer.findHost
  split
  · next i _ => exact .inl ⟨Int.natCast_nonneg _, Int.ofNat_lt.mpr i.isLt⟩
  · exact hl.last

/-- The server only answers with a row that is taken. -/
theorem registeredAt_found {s : SimState} {naming : Naming} (hl : Listed c memory s naming)
    {around : ℤ → YesNo} {p : Packet}
    (hyes : DnsServer.registeredAt naming around (DnsServer.findHost naming p) ≠ .no) :
    Found c memory s (DnsServer.findHost naming p) := by
  by_cases hrow : IsRow (DnsServer.findHost naming p)
  · obtain ⟨hlow, hhigh⟩ := hrow
    rw [DnsServer.registeredAt, dif_pos ⟨hlow, hhigh⟩] at hyes
    cases hentry : naming.isRegistered ⟨(DnsServer.findHost naming p).toNat, by omega⟩ with
    | no => exact absurd hentry hyes
    | yes =>
      have hname := hl.rows _ hentry
      rw [Int.toNat_of_nonneg hlow] at hname
      exact .inl ⟨_, hname⟩
  · exact .inr ⟨hrow, (findHost_listed hl p).resolve_left hrow⟩

theorem lookupReply_answers {s : SimState} {naming : Naming} (hl : Listed c memory s naming)
    (around : ℤ → YesNo) {p : Packet} (blank : Packet)
    (hp : Asked c s pktDnsLookup (Int8.ofInt serverId) p.src) :
    Answers c memory s (DnsServer.lookupReply naming around (DnsServer.findHost naming p) p.src
      blank) := by
  have hasked : ∀ type, requestOf pktDnsLookupReply = some type →
      Asked c s type (Int8.ofInt serverId) p.src := by
    intro type htype
    cases htype.symm.trans (by decide : requestOf pktDnsLookupReply = some pktDnsLookup)
    exact hp
  unfold DnsServer.lookupReply
  split
  · exact ⟨hasked, fun _ => .inl rfl⟩
  · next hfound =>
    refine ⟨hasked, fun _ => .inr ⟨rfl, _, registeredAt_found hl (not_or.mp hfound).2, ?_⟩⟩
    exact fun j hj => if_pos hj

theorem execute_answers {s : SimState} {around : ℤ → YesNo} {blank : Packet}
    {server next : ServerState} (h : DnsServer.execute around blank server = some next)
    (hold : ∀ job ∈ server.jobQ, ServerJobAnswers c memory s job)
    (hl : Listed c memory s server.naming) :
    (∀ job ∈ next.jobQ, ServerJobAnswers c memory s job) ∧ Listed c memory s next.naming ∧
      ∀ p ∈ next.sent, p ∈ server.sent ∨ Answers c memory s p := by
  have hreply : ∀ {q : List ServerJob} {reply : Packet},
      (∀ job ∈ q, ServerJobAnswers c memory s job) → Answers c memory s reply →
      ∀ job ∈ q ++ [.sendPktAllPorts reply], ServerJobAnswers c memory s job :=
    fun hq hr => List.forall_mem_append.mpr ⟨hq, List.forall_mem_singleton.mpr hr⟩
  unfold DnsServer.execute at h
  split at h
  · cases h
    exact ⟨hold, hl, fun _ => .inl⟩
  · next p q hq =>
    cases h
    rw [hq] at hold
    obtain ⟨hp, hrest⟩ := List.forall_mem_cons.mp hold
    refine ⟨hrest, hl, fun r hr => (List.mem_append.mp hr).imp id fun hlast => ?_⟩
    rwa [List.mem_singleton.mp hlast]
  · next p q hq =>
    cases h
    rw [hq] at hold
    obtain ⟨hp, hrest⟩ := List.forall_mem_cons.mp hold
    exact ⟨hreply hrest (answers_reply hp (by decide : requestOf pktPingReply = some pktPingReq)
      (by decide) rfl rfl rfl), hl, fun _ => .inl⟩
  · next p q hq =>
    obtain ⟨⟨naming, reply⟩, hr, rfl⟩ := Option.map_eq_some_iff.mp h
    rw [hq] at hold
    obtain ⟨hp, hrest⟩ := List.forall_mem_cons.mp hold
    have hlisted := registerNewDomain_listed hr hl hp.2
    obtain ⟨attempt, rfl⟩ := registerNewDomain_reply hr
    refine ⟨hreply hrest (answers_reply hp.1
      (by decide : requestOf pktDnsRegisterReply = some pktDnsRegister) (by decide) ?_ ?_ ?_),
      hlisted, fun _ => .inl⟩
    all_goals cases attempt <;> rfl
  · next p q hq =>
    cases h
    rw [hq] at hold
    obtain ⟨hp, hrest⟩ := List.forall_mem_cons.mp hold
    exact ⟨hreply hrest (lookupReply_answers hl around blank hp),
      ⟨hl.rows, findHost_listed hl p⟩, fun _ => .inl⟩

theorem answering_server {s : SimState} (hs : Answering c memory s) {v : ℕ}
    (hv : c.typeOf v = some .server) {next : ServerState}
    (hsent : (s.server v).sent <+: next.sent)
    (hjobs : ∀ job ∈ next.jobQ, ServerJobAnswers c memory s job)
    (hl : Listed c memory s next.naming)
    (hnew : ∀ p ∈ next.sent, p ∈ (s.server v).sent ∨ Answers c memory s p) :
    Answering c memory { s with server := Function.update s.server v next } := by
  have hext : Extends c s { s with server := Function.update s.server v next } :=
    extends_server hsent
  refine ⟨fun w hw job hjob => (hs.host w hw job hjob).mono hext, ?_, ?_, ?_⟩
  · exact forall_update (P := fun _ (a : ServerState) => ∀ job ∈ a.jobQ,
        ServerJobAnswers c memory { s with server := Function.update s.server v next } job)
      (fun w job hjob => (hs.server w job hjob).mono hext)
      fun job hjob => (hjobs job hjob).mono hext
  · exact forall_update (P := fun _ (a : ServerState) =>
        Listed c memory { s with server := Function.update s.server v next } a.naming)
      (fun w => (hs.naming w).mono hext) (hl.mono hext)
  · intro w p hp
    refine Answers.mono hext ?_
    rcases mem_sentBy_server hv hp with hold | ⟨rfl, hin⟩
    · exact hs.sent w p hold
    · rcases hnew p hin with hold | hanswers
      · exact hs.sent w p (sentBy_server hv ▸ hold)
      · exact hanswers

theorem answering_same {s u : SimState} (hs : Answering c memory s) (hhost : u.host = s.host)
    (hserver : u.server = s.server) : Answering c memory u := by
  have hext : Extends c s u := extends_same hhost hserver
  have hback : Extends c u s := extends_same hhost.symm hserver.symm
  refine ⟨?_, ?_, ?_, fun w p hp => (hs.sent w p ((hback w).subset hp)).mono hext⟩
  · intro w hw job hjob
    exact (hs.host w hw job (hhost ▸ hjob)).mono hext
  · intro w job hjob
    exact (hs.server w job (hserver ▸ hjob)).mono hext
  · intro w
    rw [hserver]
    exact (hs.naming w).mono hext

theorem answering_handle (hc : Piped c) {v k : ℕ} {n : ℤ} {p : Packet} {stray : Stray}
    {s u : SimState}
    (hs : Answering c memory s) (hown : OwnSim c s) (hp : n > 0 → Traced c s p)
    (h : handle c v k n p stray s = some u) : Answering c memory u := by
  unfold handle at h
  cases htype : c.typeOf v with
  | none =>
    rw [htype] at h
    cases h
  | some type =>
    rw [htype] at h
    cases type with
    | host =>
      obtain ⟨-, h⟩ := Option.ite_none_right_eq_some.mp h
      obtain ⟨host, hhost, rfl⟩ := Option.map_eq_some_iff.mp h
      refine answering_host hs htype (hown.host v htype) hhost ?_
      intro m q heq hm
      cases heq
      exact hp hm
    | switch =>
      dsimp only at h
      split_ifs at h <;> cases h <;> exact answering_same hs rfl rfl
    | server =>
      obtain ⟨-, h⟩ := Option.ite_none_right_eq_some.mp h
      split_ifs at h with hn
      · cases h
        refine answering_server hs htype (List.prefix_refl _) ?_ (hs.naming v) fun _ => .inl
        refine List.forall_mem_append.mpr ⟨hs.server v, ?_⟩
        intro job hjob
        obtain ⟨q, hq, hsome⟩ := List.mem_filterMap.mp hjob
        rw [List.mem_singleton.mp hq] at hsome
        exact packetJob_answers hc (hp hn) hsome
      · cases h
        exact hs

theorem answering_step (hc : Piped c) {s u : SimState} {e : SimEvent} (hstep : WholeStep c s e u)
    (ht : TracedSim c s) (hs : Answering c memory s) : Answering c memory u := by
  obtain ⟨hwhole, hstep⟩ := hstep
  unfold SimStep simStep at hstep
  cases e with
  | host v e =>
    obtain ⟨⟨htype, hlocal⟩, hstep⟩ := Option.ite_none_right_eq_some.mp hstep
    obtain ⟨host, hhost, rfl⟩ := Option.map_eq_some_iff.mp hstep
    refine answering_same (answering_host hs htype (ht.own.host v htype) hhost ?_) rfl rfl
    rintro n p rfl
    cases hlocal
  | switchControl v =>
    obtain ⟨-, hstep⟩ := Option.ite_none_right_eq_some.mp hstep
    cases hstep
    exact answering_same hs rfl rfl
  | switchExecute v =>
    obtain ⟨-, hstep⟩ := Option.ite_none_right_eq_some.mp hstep
    cases hstep
    exact answering_same hs rfl rfl
  | serverControl v blank =>
    obtain ⟨hserver, hstep⟩ := Option.ite_none_right_eq_some.mp hstep
    cases hstep
    have hold := hs.server v
    unfold DnsServer.controlTimer
    split
    · refine answering_server hs hserver.1 (List.prefix_refl _) ?_ (hs.naming v) fun _ => .inl
      refine List.forall_mem_append.mpr ⟨hold, List.forall_mem_singleton.mpr ?_⟩
      exact answers_of_none (by decide : requestOf pktControlPacket = none)
    · exact answering_server hs hserver.1 (List.prefix_refl _) hold (hs.naming v) fun _ => .inl
  | serverExecute v around blank =>
    obtain ⟨hserver, hstep⟩ := Option.ite_none_right_eq_some.mp hstep
    obtain ⟨next, hnext, rfl⟩ := Option.map_eq_some_iff.mp hstep
    obtain ⟨hjobs, hl, hsent⟩ := execute_answers hnext (hs.server v) (hs.naming v)
    exact answering_same (answering_server hs hserver.1 (execute_sent hnext) hjobs hl hsent)
      rfl rfl
  | recv v k peer stale prior stray =>
    dsimp only at hstep
    cases hport : (c.nodePort v)[k]? with
    | none =>
      rw [hport] at hstep
      cases hstep
    | some t =>
      rw [hport] at hstep
      obtain ⟨hhost, hserver⟩ := takeOff_nodes (c := c) t s
      have hext : Extends c s (takeOff c t s) := extends_same hhost hserver
      have hown : OwnSim c (takeOff c t s) := ⟨hhost ▸ ht.own.host, hserver ▸ ht.own.server⟩
      refine answering_handle hc (answering_same hs hhost hserver) hown ?_ hstep
      intro hn
      obtain ⟨-, type, htype, -⟩ := SimulationRefinement.handle_cases hstep
      obtain ⟨w, rfl⟩ := exists_node htype
      exact (traced_read hc ht.way hport hn).mono hext

theorem answering_init (c : Config) (memory : SimMemory) :
    Answering c memory (simInit c memory) := by
  refine ⟨fun _ _ => List.forall_mem_nil _, fun _ => List.forall_mem_nil _,
    fun v => ⟨nofun, .inr ⟨v, rfl⟩⟩, ?_⟩
  intro v
  unfold sentBy
  split <;> exact List.forall_mem_nil _

theorem answering_run (hc : Piped c) {memory : SimMemory} {es : List SimEvent} {s : SimState}
    (h : Run (WholeStep c) (simInit c memory) es s) : TracedSim c s ∧ Answering c memory s := by
  refine h.invariant (I := fun s => TracedSim c s ∧ Answering c memory s) ?_
    ⟨traced_init c memory, answering_init c memory⟩
  exact fun _ _ _ hstep hs => ⟨traced_step hc hstep hs.1, answering_step hc hstep hs.1 hs.2⟩

theorem packet_read (hc : Piped c) {s : SimState} (hs : TracedSim c s) {w : Node c} {k : ℕ}
    {t : LinkEnd} (ht : (c.nodePort w)[k]? = some t) {peer : List Int8} {stale : ℕ → Int8}
    {prior : Packet} {n : ℤ} {p : Packet} (hread : received c t peer stale prior s = (n, p))
    (hn : n > 0) : Traced c s p := by
  have hpos : 0 < (received c t peer stale prior s).1 := by rwa [hread]
  have hpacket := traced_read hc hs.way ht hpos
  rwa [hread] at hpacket

theorem requestOf_data {p : Packet} {type : Int8} (h : requestOf p.type = some type) :
    p.type ≠ pktControlPacket := by
  intro hcontrol
  rw [hcontrol, (by decide : requestOf pktControlPacket = none)] at h
  cases h

/-- A reply that a host reads answers a request that the host itself has sent to the sender of
the reply, whatever the switches and the other nodes have done. -/
theorem replies_read_were_asked (hc : Piped c) (memory : SimMemory) {es : List SimEvent}
    {s : SimState} (h : Run (WholeStep c) (simInit c memory) es s) {w : Node c} {k : ℕ}
    {t : LinkEnd} (ht : (c.nodePort w)[k]? = some t) {peer : List Int8} {stale : ℕ → Int8}
    {prior : Packet} {n : ℤ} {p : Packet} (hread : received c t peer stale prior s = (n, p))
    (hn : n > 0) (hdst : p.dst.toInt = c.idOf w) {type : Int8}
    (htype : requestOf p.type = some type) :
    ∃ q ∈ sentBy c s w, q.type = type ∧ q.dst = p.src ∧ q.src = p.dst := by
  obtain ⟨htraced, hanswers⟩ := answering_run hc h
  obtain ⟨v, r, hr, -, hcopy⟩ := (packet_read hc htraced ht hread hn).sent (requestOf_data htype)
  obtain ⟨x, q, hq, hown, hqtype, hqdst, hqsrc⟩ :=
    (hanswers.sent v r hr).asked type (hcopy.type ▸ htype)
  obtain ⟨x, rfl⟩ := exists_sender hq
  have hsame : x = w := by
    refine idOf_injective hc ?_
    change c.idOf x = c.idOf w
    rw [← id_char hc, ← hown.src, hqsrc, ← hcopy.dst, hdst]
  subst hsame
  exact ⟨q, hq, hqtype, hqdst.trans hcopy.src.symm, hqsrc.trans hcopy.dst.symm⟩

theorem replies_read_were_asked_pingReplied :
    ∃ s, Run (WholeStep hostPair) (simInit hostPair quietMemory) pingReplied s ∧
      (nextRead s).2.type = pktPingReply ∧
      ∃ q ∈ sentBy hostPair s 0, q.type = pktPingReq ∧ q.dst = (nextRead s).2.src ∧
        q.src = (nextRead s).2.dst := by
  obtain ⟨s, hs, hn, htype, -, hdst⟩ := pingReplied_run
  have hport : (hostPair.nodePort (⟨0, by decide⟩ : Node hostPair))[0]? = some (0, false) := by
    decide +kernel
  have hme : (nextRead s).2.dst.toInt = hostPair.idOf (⟨0, by decide⟩ : Node hostPair) := by
    rw [hdst]
    decide
  have hrequest : requestOf (nextRead s).2.type = some pktPingReq := by
    rw [htype]
    decide
  exact ⟨s, hs, htype, replies_read_were_asked hostPair_piped quietMemory hs hport rfl hn hme
    hrequest⟩

def namedHost : Config :=
  ⟨[⟨some .host, 0⟩, ⟨some .server, 100⟩], [⟨some .pipe, 0, 100, [], [], []⟩]⟩

theorem namedHost_piped : Piped namedHost := by decide +kernel

def served : List SimEvent :=
  [quietRecv 1, .serverExecute 1 (fun _ => .no) HostReplies.noPacket,
    .serverExecute 1 (fun _ => .no) HostReplies.noPacket]

def lookedUp : List SimEvent :=
  commanded [114, 32, 97] ++ served ++ quietRound 0 ++ commanded [108, 32, 97] ++ served

def answerRead (s : SimState) : ℤ × Packet :=
  received namedHost (0, false) [] (fun _ => 0) HostReplies.noPacket s

theorem lookedUp_run :
    ∃ s, Run (WholeStep namedHost) (simInit namedHost quietMemory) lookedUp s ∧
      0 < (answerRead s).1 ∧ (answerRead s).2.type = pktDnsLookupReply ∧
      (s.server 1).naming.isRegistered 0 = .yes := by
  have hrun : (lookedUp.foldlM (wholeStep namedHost) (simInit namedHost quietMemory)).map
      (fun s => ((answerRead s).1, (answerRead s).2.type,
        (s.server 1).naming.isRegistered 0)) = some (9, pktDnsLookupReply, .yes) := by
    decide +kernel
  obtain ⟨s, hs, hread⟩ := Option.map_eq_some_iff.mp hrun
  obtain ⟨hn, hread⟩ := Prod.mk.inj hread
  obtain ⟨htype, hyes⟩ := Prod.mk.inj hread
  refine ⟨s, (Run.of_foldlM hs).mono fun _ _ _ => wholeStep_some, ?_, htype, hyes⟩
  rw [hn]
  decide

end RequestReplies
