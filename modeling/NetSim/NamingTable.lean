import NetSim.DnsServer
import NetSim.EventRuns

/-! Sequences of register and lookup requests at the server, and what they make of the naming
table: who may write a row, when, and whether two hosts can end up with one name. -/
namespace NamingTable

open PacketCodec CStrings EventRuns DnsServer
open SwitchNode (YesNo)

inductive Request where
  | register (p : Packet)
  | lookup (p : Packet)

def Request.packet : Request → Packet
  | .register p => p
  | .lookup p => p

/-- One executed request: the tables around it and the reply queued for it. -/
structure Exchange where
  before : Naming
  request : Request
  reply : Packet
  after : Naming

inductive Answers : Naming → Request → Packet → Naming → Prop where
  | register {s p blank t r} : registerNewDomain s p blank = some (t, r) →
      Answers s (.register p) r t
  | lookup (s stray p blank) :
      Answers s (.lookup p) (dnsPingReq s stray p blank).2 (dnsPingReq s stray p blank).1

def Serves (s : Naming) (e : Exchange) (t : Naming) : Prop :=
  e.before = s ∧ e.after = t ∧ Answers s e.request e.reply t

/-- The server has come from its initial state to `s` over the exchanges of `log`. -/
def Served (log : List Exchange) (s : Naming) : Prop :=
  ∃ garbage, Run Serves (namingInit garbage) log s

def SameTable (s t : Naming) : Prop :=
  s.namingTable = t.namingTable ∧ s.isRegistered = t.isRegistered

/-- The bytes of a payload that go on the link. -/
def sentBytes (p : Packet) : List Int8 := (payloadList p).take p.length.toNat

def answer : RegisterAttempt → List Int8
  | .success => [charS]
  | .nameTooLong => [charF, charN]
  | .invalidName => [charF, charI]
  | .alreadyRegistered => [charF, charA]

theorem payloadList_length (p : Packet) : (payloadList p).length = 100 := by
  rw [payloadList, List.length_ofFn]
  rfl

theorem name_length_lt (p : Packet) (name : Name) :
    name.chars.length < (payloadList p).length := by
  have hfit := name.fits
  rw [payloadList_length]
  simp only [maxNameLength] at hfit
  omega

theorem strcpy_take (literal : List Int8) (old : Fin payloadMax → Int8) {n : ℕ}
    (hn : n ≤ literal.length + 1) (hmax : n ≤ payloadMax) :
    (List.ofFn (strcpy literal old)).take n = (literal ++ [0]).take n := by
  apply List.ext_getElem
  · simp only [List.length_take, List.length_ofFn, List.length_append, List.length_cons,
      List.length_nil]
    omega
  · intro i hi hj
    have hl : i < (literal ++ [0]).length := by
      simp only [List.length_take] at hj
      omega
    rw [List.getElem_take, List.getElem_ofFn, List.getElem_take, strcpy,
      List.getD_eq_getElem _ _ hl]

theorem registerReply_text (attempt : RegisterAttempt) (src : Int8) (blank : Packet) :
    sentBytes (registerReply attempt src blank) = answer attempt := by
  cases attempt
  all_goals
    simp only [sentBytes, payloadList, registerReply, answer]
    rw [strcpy_take _ _ (by decide) (by decide)]
    rfl

theorem answer_injective {a b : RegisterAttempt} (h : answer a = answer b) : a = b := by
  revert h
  cases a <;> cases b <;> decide

theorem registerReply_injective {a b : RegisterAttempt} {src src' : Int8} {blank blank' : Packet}
    (h : registerReply a src blank = registerReply b src' blank') : a = b := by
  apply answer_injective
  rw [← registerReply_text a src blank, h, registerReply_text]

theorem registerAttempt_success {s : Naming} {p : Packet} {src : Fin namingTableSize} :
    registerAttempt s p src = .success ↔ (payloadText p).length ≤ maxNameLength ∧
      s.isRegistered src = .no ∧ hasSpace p = false := by
  unfold registerAttempt
  split
  · next hl => simp [show ¬(payloadText p).length ≤ maxNameLength by omega]
  · next hl =>
    rw [not_lt] at hl
    cases hreg : s.isRegistered src
    · simp
    · by_cases hsp : hasSpace p = true <;> simp [hl, hsp]

theorem registerAttempt_of_registered {s : Naming} {p : Packet} {src : Fin namingTableSize}
    (h : s.isRegistered src = .yes) :
    registerAttempt s p src = .nameTooLong ∨ registerAttempt s p src = .alreadyRegistered := by
  by_cases hl : (payloadText p).length > maxNameLength
  · exact Or.inl (by simp [registerAttempt, hl])
  · exact Or.inr (by simp [registerAttempt, hl, h])

theorem registerNewDomain_defined (s : Naming) {p : Packet} (blank : Packet)
    {src : Fin namingTableSize} (h : srcIndex p = some src) :
    (registerNewDomain s p blank).isSome := by
  rw [registerNewDomain_index h]
  by_cases hs : registerAttempt s p src = .success
  · simp [hs, printName, (registerAttempt_success.mp hs).1]
  · simp [hs]

theorem space_not_mem {p : Packet} (hl : (payloadText p).length ≤ maxNameLength)
    (hs : hasSpace p = false) : charSpace ∉ payloadText p := by
  intro h
  have hpre : payloadText p <+: (payloadList p).take maxNameLength := by
    rw [List.prefix_take_iff]
    exact ⟨text_initial _, hl⟩
  have hmem : charSpace ∈ (payloadList p).take maxNameLength := hpre.subset h
  simp [hasSpace, hmem] at hs

theorem lookup_same {s t : Naming} {p r : Packet} (h : Answers s (.lookup p) r t) :
    SameTable s t := by
  cases h
  exact ⟨rfl, rfl⟩

def requestOf : ServerJob → Option Request
  | .sendPktAllPorts _ => none
  | .pingSendReply _ => none
  | .registerNewDomain p => some (.register p)
  | .dnsPingReq p => some (.lookup p)

/-- The requests among the packets of some rounds, in the order they came in. -/
def requestsIn (rounds : List Round) : List Request :=
  (rounds.flatMap Round.packets).filterMap fun p => (packetJob p).bind requestOf

def Rounds (s : ServerState) (r : Round) (t : ServerState) : Prop := serverStep s r = some t

theorem controlTimer_naming (blank : Packet) (s : ServerState) :
    (controlTimer blank s).naming = s.naming := by
  unfold controlTimer
  split <;> rfl

theorem controlTimer_requests (blank : Packet) (s : ServerState) :
    (controlTimer blank s).jobQ.filterMap requestOf = s.jobQ.filterMap requestOf := by
  unfold controlTimer
  split
  · simp [requestOf]
  · rfl

theorem execute_requests {stray : ℤ → YesNo} {blank : Packet} {s t : ServerState}
    (h : execute stray blank s = some t) :
    (t.naming = s.naming ∧ t.jobQ.filterMap requestOf = s.jobQ.filterMap requestOf) ∨
      ∃ req reply, Answers s.naming req reply t.naming ∧
        s.jobQ.filterMap requestOf = req :: t.jobQ.filterMap requestOf := by
  unfold execute at h
  split at h
  · cases h
    exact Or.inl ⟨rfl, rfl⟩
  · next hq =>
    cases h
    exact Or.inl ⟨rfl, by simp [hq, List.filterMap_cons, requestOf]⟩
  · next hq =>
    cases h
    exact Or.inl ⟨rfl, by simp [hq, List.filterMap_cons, requestOf]⟩
  · next hq =>
    obtain ⟨r, hr, rfl⟩ := Option.map_eq_some_iff.mp h
    exact Or.inr ⟨_, r.2, .register hr, by simp [hq, List.filterMap_cons, requestOf]⟩
  · next hq =>
    cases h
    exact Or.inr ⟨_, _, .lookup _ stray _ blank, by simp [hq, List.filterMap_cons, requestOf]⟩

theorem rounds_served {garbage : ℤ} {rounds : List Round} {s : ServerState}
    (h : Run Rounds (serverInit garbage) rounds s) :
    ∃ log, Served log s.naming ∧
      log.map Exchange.request ++ s.jobQ.filterMap requestOf = requestsIn rounds := by
  suffices aux : ∀ {a : ServerState} {rounds : List Round}, Run Rounds a rounds s →
      ∃ log, Run Serves a.naming log s.naming ∧
        log.map Exchange.request ++ s.jobQ.filterMap requestOf =
          a.jobQ.filterMap requestOf ++ requestsIn rounds by
    obtain ⟨log, hlog, hreq⟩ := aux h
    exact ⟨log, ⟨garbage, hlog⟩, hreq⟩
  intro a rounds hr
  induction hr with
  | nil a => exact ⟨[], .nil _, by simp [requestsIn]⟩
  | @cons a r b rs c hstep _ ih =>
    obtain ⟨log, hlog, hreq⟩ := ih h
    have hin : (receivePackets r.packets (controlTimer r.controlBlank a)).jobQ.filterMap
        requestOf = a.jobQ.filterMap requestOf ++ requestsIn [r] := by
      simp [receivePackets, controlTimer_requests, requestsIn, List.filterMap_filterMap]
    have hname : (receivePackets r.packets (controlTimer r.controlBlank a)).naming =
        a.naming := controlTimer_naming _ _
    have hrs : requestsIn (r :: rs) = requestsIn [r] ++ requestsIn rs := by
      simp [requestsIn]
    rcases execute_requests hstep with ⟨hn, hq⟩ | ⟨req, reply, hans, hq⟩
    · rw [hname] at hn
      refine ⟨log, hn ▸ hlog, ?_⟩
      rw [hreq, hq, hin, hrs, List.append_assoc]
    · rw [hname] at hans
      refine ⟨⟨a.naming, req, reply, b.naming⟩ :: log, .cons ⟨rfl, rfl, hans⟩ hlog, ?_⟩
      rw [List.map_cons, List.cons_append, hreq, hrs, ← List.append_assoc, ← hin, hq]
      rfl

/-- The server on a list of requests, with one memory for all packets it creates. -/
def serveAll (stray : ℤ → YesNo) (blank : Packet) :
    Naming → List Request → Option (List Exchange × Naming)
  | s, [] => some ([], s)
  | s, .register p :: reqs =>
    (registerNewDomain s p blank).bind fun r =>
      (serveAll stray blank r.1 reqs).map fun q => (⟨s, .register p, r.2, r.1⟩ :: q.1, q.2)
  | s, .lookup p :: reqs =>
    let r := dnsPingReq s stray p blank
    (serveAll stray blank r.1 reqs).map fun q => (⟨s, .lookup p, r.2, r.1⟩ :: q.1, q.2)

theorem serveAll_run {stray : ℤ → YesNo} {blank : Packet} {s t : Naming} {reqs : List Request}
    {log : List Exchange} (h : serveAll stray blank s reqs = some (log, t)) :
    Run Serves s log t := by
  induction reqs generalizing s log with
  | nil =>
    cases h
    exact .nil _
  | cons req reqs ih =>
    cases req with
    | register p =>
      obtain ⟨r, hr, h⟩ := Option.bind_eq_some_iff.mp h
      obtain ⟨q, hq, h⟩ := Option.map_eq_some_iff.mp h
      cases h
      exact .cons ⟨rfl, rfl, .register hr⟩ (ih hq)
    | lookup p =>
      obtain ⟨q, hq, h⟩ := Option.map_eq_some_iff.mp h
      cases h
      exact .cons ⟨rfl, rfl, Answers.lookup _ stray p blank⟩ (ih hq)

theorem serveAll_requests {stray : ℤ → YesNo} {blank : Packet} {s t : Naming}
    {reqs : List Request} {log : List Exchange} (h : serveAll stray blank s reqs = some (log, t)) :
    log.map Exchange.request = reqs := by
  induction reqs generalizing s log with
  | nil =>
    cases h
    rfl
  | cons req reqs ih =>
    cases req with
    | register p =>
      obtain ⟨r, -, h⟩ := Option.bind_eq_some_iff.mp h
      obtain ⟨q, hq, h⟩ := Option.map_eq_some_iff.mp h
      cases h
      rw [List.map_cons, ih hq]
    | lookup p =>
      obtain ⟨q, hq, h⟩ := Option.map_eq_some_iff.mp h
      cases h
      rw [List.map_cons, ih hq]

theorem served_of_serveAll (stray : ℤ → YesNo) (blank : Packet) (garbage : ℤ)
    (reqs : List Request) (check : List Exchange × Naming → Bool)
    (h : (serveAll stray blank (namingInit garbage) reqs).any check = true) :
    ∃ log s, Served log s ∧ log.map Exchange.request = reqs ∧ check (log, s) = true := by
  cases hr : serveAll stray blank (namingInit garbage) reqs with
  | none => simp [hr] at h
  | some r =>
    rw [hr] at h
    exact ⟨r.1, r.2, ⟨garbage, serveAll_run hr⟩, serveAll_requests hr, h⟩

/-- A packet for the server whose payload is zero behind `bytes`. -/
def requestPacket (src type : Int8) (bytes : List Int8) : Packet where
  src := src
  dst := Int8.ofInt serverId
  type := type
  length := bytes.length
  payload := fun i => bytes.getD i 0
  packetRootID := 0
  packetRootDist := 0
  packetSenderType := charH
  packetSenderChild := charY

def RegisterFrom (h : Fin namingTableSize) (e : Exchange) : Prop :=
  ∃ p, e.request = .register p ∧ srcIndex p = some h

theorem serves_cases {s t : Naming} {e : Exchange} (h : Serves s e t) :
    (∃ p src, ∃ name : Name, e.request = .register p ∧ srcIndex p = some src ∧
        registerAttempt s p src = .success ∧ sentBytes e.reply = answer .success ∧
        name.chars = payloadText p ∧
        t = { s with
          namingTable := Function.update s.namingTable src name
          isRegistered := Function.update s.isRegistered src .yes }) ∨
      (SameTable s t ∧ ∀ p, e.request = .register p → ∃ attempt, attempt ≠ .success ∧
        sentBytes e.reply = answer attempt ∧
        ∀ src, srcIndex p = some src → registerAttempt s p src = attempt) := by
  obtain ⟨before, request, reply, after⟩ := e
  obtain ⟨hb, ha, hans⟩ := h
  simp only at hb ha hans ⊢
  cases hans with
  | register hr =>
    rcases registerNewDomain_cases hr with
      ⟨src, name, hsrc, hs, rfl, hname, ht⟩ | ⟨attempt, hbad, rfl, hsame, hattempt⟩
    · exact Or.inl ⟨_, src, name, rfl, hsrc, hs, registerReply_text _ _ _, hname, ht⟩
    · refine Or.inr ⟨by rw [hsame]; exact ⟨rfl, rfl⟩, ?_⟩
      intro p hp
      cases hp
      exact ⟨attempt, hbad, registerReply_text _ _ _, hattempt⟩
  | lookup =>
    refine Or.inr ⟨⟨rfl, rfl⟩, ?_⟩
    intro p hp
    cases hp

theorem registered_step {s t : Naming} {e : Exchange} (hs : Serves s e t)
    (h : Fin namingTableSize) :
    t.isRegistered h = .yes ↔
      s.isRegistered h = .yes ∨ (RegisterFrom h e ∧ sentBytes e.reply = answer .success) := by
  rcases serves_cases hs with ⟨p, src, name, hreq, hsrc, _, htext, _, rfl⟩ | ⟨hsame, hbad⟩
  · by_cases hh : h = src
    · subst hh
      simp only [Function.update_self, true_iff]
      exact Or.inr ⟨⟨p, hreq, hsrc⟩, htext⟩
    · simp only [Function.update_of_ne hh]
      constructor
      · exact Or.inl
      · intro hor
        rcases hor with hyes | ⟨⟨q, hq, hqs⟩, _⟩
        · exact hyes
        · rw [hreq] at hq
          cases hq
          exact absurd (Option.some.inj (hqs.symm.trans hsrc)) hh
  · rw [hsame.2]
    constructor
    · exact Or.inl
    · intro hor
      rcases hor with hyes | ⟨⟨q, hq, _⟩, htext⟩
      · exact hyes
      · obtain ⟨attempt, hne, ht, _⟩ := hbad q hq
        exact absurd (answer_injective (ht.symm.trans htext)) hne

theorem kept_step {s t : Naming} {e : Exchange} (hs : Serves s e t) {h : Fin namingTableSize}
    (hreg : s.isRegistered h = .yes) :
    (t.isRegistered h = .yes ∧ t.namingTable h = s.namingTable h) ∧
      (RegisterFrom h e → sentBytes e.reply = answer .alreadyRegistered ∨
        sentBytes e.reply = answer .nameTooLong) := by
  refine ⟨⟨(registered_step hs h).mpr (Or.inl hreg), ?_⟩, ?_⟩
  · rcases serves_cases hs with ⟨p, src, name, _, _, hok, _, _, rfl⟩ | ⟨hsame, _⟩
    · have hne : h ≠ src := by
        intro he
        subst he
        have := (registerAttempt_success.mp hok).2.1
        simp [hreg] at this
      exact Function.update_of_ne hne _ _
    · rw [hsame.1]
  · intro hfrom
    obtain ⟨p, hp, hsrc⟩ := hfrom
    have hrefused := registerAttempt_of_registered (p := p) hreg
    rcases serves_cases hs with ⟨q, src, name, hq, hqs, hok, _⟩ | ⟨_, hbad⟩
    · rw [hp] at hq
      cases hq
      rw [hsrc] at hqs
      cases hqs
      rcases hrefused with hr | hr <;> simp [hr] at hok
    · obtain ⟨attempt, _, ht, hattempt⟩ := hbad p hp
      rw [ht, ← hattempt h hsrc]
      rcases hrefused with hr | hr
      · exact Or.inr (by rw [hr])
      · exact Or.inl (by rw [hr])

theorem written_step {s t : Naming} {e : Exchange} (hs : Serves s e t) {p : Packet}
    {h : Fin namingTableSize} (hreq : e.request = .register p) (hsrc : srcIndex p = some h)
    (htext : sentBytes e.reply = answer .success) :
    t.isRegistered h = .yes ∧ (t.namingTable h).chars = payloadText p ∧
      charSpace ∉ payloadText p := by
  rcases serves_cases hs with ⟨q, src, name, hq, hqs, hok, _, hname, rfl⟩ | ⟨_, hbad⟩
  · rw [hreq] at hq
    cases hq
    rw [hsrc] at hqs
    cases hqs
    obtain ⟨hl, _, hsp⟩ := registerAttempt_success.mp hok
    exact ⟨Function.update_self _ _ _, by simp [hname], space_not_mem hl hsp⟩
  · obtain ⟨attempt, hne, ht, _⟩ := hbad p hreq
    exact absurd (answer_injective (ht.symm.trans htext)) hne

theorem registered_run {s t : Naming} {log : List Exchange} (hr : Run Serves s log t)
    (h : Fin namingTableSize) :
    t.isRegistered h = .yes ↔ s.isRegistered h = .yes ∨
      ∃ e ∈ log, RegisterFrom h e ∧ sentBytes e.reply = answer .success := by
  induction hr with
  | nil s => simp
  | cons hs _ ih =>
    rw [ih, registered_step hs h]
    simp only [List.mem_cons, exists_eq_or_imp, or_assoc]

theorem kept_run {s t : Naming} {log : List Exchange} (hr : Run Serves s log t)
    {h : Fin namingTableSize} (hyes : s.isRegistered h = .yes) :
    t.namingTable h = s.namingTable h ∧
      ∀ f ∈ log, f.after.namingTable h = s.namingTable h ∧
        (RegisterFrom h f → sentBytes f.reply = [charF, charA] ∨
          sentBytes f.reply = [charF, charN]) := by
  have hkeep := hr.guarded (G := fun _ => True)
    (I := fun u => u.isRegistered h = .yes ∧ u.namingTable h = s.namingTable h)
    (Q := fun f => f.after.namingTable h = s.namingTable h ∧
      (RegisterFrom h f → sentBytes f.reply = [charF, charA] ∨
        sentBytes f.reply = [charF, charN])) ?_ ⟨hyes, rfl⟩ (fun _ _ => trivial)
  · exact ⟨hkeep.1.2, hkeep.2⟩
  · intro u f v hf hI _
    obtain ⟨⟨hyes, hrow⟩, hans⟩ := kept_step hf hI.1
    have hv : f.after = v := hf.2.1
    exact ⟨⟨hyes, hrow.trans hI.2⟩, by rw [hv, hrow, hI.2], hans⟩

theorem refused_same {s t : Naming} {e : Exchange} (he : Serves s e t)
    (hcase : (∃ p, e.request = .lookup p) ∨ sentBytes e.reply = [charF, charN] ∨
      sentBytes e.reply = [charF, charI] ∨ sentBytes e.reply = [charF, charA]) :
    SameTable s t := by
  rcases serves_cases he with ⟨p, _, _, hreq, _, _, htext, _⟩ | ⟨hsame, _⟩
  · rw [htext] at hcase
    rcases hcase with ⟨q, hq⟩ | hcase
    · rw [hreq] at hq
      cases hq
    · have hno : ¬(answer .success = [charF, charN] ∨ answer .success = [charF, charI] ∨
          answer .success = [charF, charA]) := by decide
      exact absurd hcase hno
  · exact hsame

/-- A row is set by the one successful request of its owner, to the string of its payload,
and by nothing else. -/
theorem naming_table_write_once {log : List Exchange} {s : Naming} (hs : Served log s)
    (h : Fin namingTableSize) :
    (s.isRegistered h = .yes ↔
      ∃ e ∈ log, RegisterFrom h e ∧ sentBytes e.reply = [charS]) ∧
    (∀ pre e post p, log = pre ++ e :: post → e.request = .register p → srcIndex p = some h →
      sentBytes e.reply = [charS] →
      (s.namingTable h).chars = payloadText p ∧ (payloadText p).length ≤ maxNameLength ∧
      charSpace ∉ payloadText p ∧
      ∀ f ∈ post, f.after.namingTable h = e.after.namingTable h ∧
        (RegisterFrom h f → sentBytes f.reply = [charF, charA] ∨
          sentBytes f.reply = [charF, charN])) ∧
    (∀ e ∈ log, (∃ p, e.request = .lookup p) ∨ sentBytes e.reply = [charF, charN] ∨
        sentBytes e.reply = [charF, charI] ∨ sentBytes e.reply = [charF, charA] →
      SameTable e.before e.after) := by
  obtain ⟨garbage, hr⟩ := hs
  refine ⟨?_, ?_, ?_⟩
  · rw [registered_run hr h]
    simp [namingInit, answer]
  · intro pre e post p hlog hreq hsrc htext
    subst hlog
    obtain ⟨a, b, _, he, hpost⟩ := hr.around
    obtain ⟨hb, hrow, hsp⟩ := written_step he hreq hsrc htext
    have hafter : e.after = b := he.2.1
    obtain ⟨hsame, hlater⟩ := kept_run hpost hb
    rw [hsame, hafter]
    exact ⟨hrow, hrow ▸ (b.namingTable h).fits, hsp, hlater⟩
  · refine hr.each (I := fun _ => True) ?_ trivial
    intro s e t he _
    refine ⟨trivial, ?_⟩
    intro hcase
    rw [he.1, he.2.1]
    exact refused_same he hcase

/-- Host 1 registers `a`, asks for `b` too, and looks `a` up: its row stays `a`. -/
theorem naming_table_write_once_twice : ∃ first second lookup s, Served [first, second, lookup] s ∧
    s.isRegistered 1 = .yes ∧ (s.namingTable 1).chars = [97] ∧
    second.request = .register (requestPacket 1 pktDnsRegister [98]) ∧
    (sentBytes second.reply = [charF, charA] ∨ sentBytes second.reply = [charF, charN]) ∧
    SameTable lookup.before lookup.after := by
  obtain ⟨log, s, hs, hreqs, hc⟩ := served_of_serveAll (fun _ => .no) (requestPacket 0 0 []) 300
    [.register (requestPacket 1 pktDnsRegister [97]),
      .register (requestPacket 1 pktDnsRegister [98]),
      .lookup (requestPacket 1 pktDnsLookup [97])]
    (fun r => decide ((r.1.head?.map fun e => sentBytes e.reply) = some [charS]))
    (by decide +kernel)
  obtain ⟨first, log, rfl, hfirst, hreqs⟩ := List.map_eq_cons_iff.mp hreqs
  obtain ⟨second, log, rfl, hsecond, hreqs⟩ := List.map_eq_cons_iff.mp hreqs
  obtain ⟨lookup, log, rfl, hlookup, hreqs⟩ := List.map_eq_cons_iff.mp hreqs
  obtain rfl := List.map_eq_nil_iff.mp hreqs
  have htext : sentBytes first.reply = [charS] := Option.some.inj (of_decide_eq_true hc)
  have hsrc : srcIndex (requestPacket 1 pktDnsRegister [97]) = some 1 := by decide
  obtain ⟨hflag, hrow, hrest⟩ := naming_table_write_once hs 1
  obtain ⟨hname, -, -, hlater⟩ := hrow [] first _ _ rfl hfirst hsrc htext
  refine ⟨first, second, lookup, s, hs, ?_, ?_, hsecond, ?_, ?_⟩
  · exact hflag.mpr ⟨first, List.mem_cons_self, ⟨_, hfirst, hsrc⟩, htext⟩
  · rw [hname]
    decide
  · exact (hlater second List.mem_cons_self).2 ⟨_, hsecond, by decide⟩
  · exact hrest lookup (by simp) (Or.inl ⟨_, hlookup⟩)

def Unique (s : Naming) : Prop :=
  ∀ h k, h ≠ k → s.isRegistered h = .yes → s.isRegistered k = .yes →
    s.namingTable h ≠ s.namingTable k

/-- A register request for a name that another host holds. -/
def Taken (e : Exchange) : Prop :=
  ∃ p src h, e.request = .register p ∧ srcIndex p = some src ∧ h ≠ src ∧
    e.before.isRegistered h = .yes ∧ (e.before.namingTable h).chars = payloadText p

def FromRegistered (e : Exchange) : Prop :=
  ∃ h, RegisterFrom h e ∧ e.before.isRegistered h = .yes

theorem registerAttempt_already {s : Naming} {p : Packet} {src : Fin namingTableSize}
    (h : registerAttempt s p src = .alreadyRegistered) : s.isRegistered src = .yes := by
  unfold registerAttempt at h
  split at h
  · cases h
  · split at h
    · assumption
    · split at h <;> cases h

theorem taken_refused {s t : Naming} {e : Exchange} (hs : Serves s e t) (htaken : Taken e)
    (hfrom : FromRegistered e) :
    sentBytes e.reply = [charF, charA] ∧ SameTable s t := by
  obtain ⟨p, src, h, hreq, hsrc, _, _, hname⟩ := htaken
  obtain ⟨k, ⟨q, hq, hk⟩, hreg⟩ := hfrom
  rw [hreq] at hq
  cases hq
  rw [hsrc] at hk
  cases hk
  have hl : (payloadText p).length ≤ maxNameLength := hname ▸ (e.before.namingTable h).fits
  rw [hs.1] at hreg
  have hatt : registerAttempt s p src = .alreadyRegistered := by
    simp [registerAttempt, hreg, hl]
  rcases serves_cases hs with ⟨q, i, _, hq, hi, hok, _⟩ | ⟨hsame, hbad⟩
  · rw [hreq] at hq
    cases hq
    rw [hsrc] at hi
    cases hi
    rw [hatt] at hok
    cases hok
  · obtain ⟨attempt, _, htext, hattempt⟩ := hbad p hreq
    exact ⟨by rw [htext, ← hattempt src hsrc, hatt]; rfl, hsame⟩

theorem unique_step {s t : Naming} {e : Exchange} (hs : Serves s e t) (hu : Unique s)
    (hg : Taken e → FromRegistered e) : Unique t := by
  rcases serves_cases hs with ⟨p, src, name, hreq, hsrc, hok, _, hname, rfl⟩ | ⟨hsame, _⟩
  · have hno : s.isRegistered src = .no := (registerAttempt_success.mp hok).2.1
    -- A holder of the new name would have made the request a taken one.
    have hfree : ∀ k, k ≠ src → s.isRegistered k = .yes → s.namingTable k ≠ name := by
      intro k hk hyes heq
      have htaken : Taken e :=
        ⟨p, src, k, hreq, hsrc, hk, by rw [hs.1]; exact hyes, by rw [hs.1, heq, hname]⟩
      obtain ⟨i, ⟨q, hq, hi⟩, hreg⟩ := hg htaken
      rw [hreq] at hq
      cases hq
      rw [hsrc] at hi
      cases hi
      rw [hs.1, hno] at hreg
      cases hreg
    intro h k hne hh hk
    by_cases hhs : h = src
    · subst hhs
      simp only [Function.update_of_ne hne.symm, Function.update_self] at hk ⊢
      exact Ne.symm (hfree k hne.symm hk)
    · simp only [Function.update_of_ne hhs] at hh ⊢
      by_cases hks : k = src
      · subst hks
        simpa only [Function.update_self] using hfree h hhs hh
      · simp only [Function.update_of_ne hks] at hk ⊢
        exact hu h k hne hh hk
  · intro h k hne hh hk
    rw [← hsame.2] at hh hk
    rw [← hsame.1]
    exact hu h k hne hh hk

/-- The guard looks at the row of the sender only. Names stay unique, and a name in use is
refused as such, exactly while every request for a name in use comes from a host that has a
name already. -/
theorem registered_names_unique_iff {log : List Exchange} {s : Naming} (hs : Served log s) :
    (Unique s ∧ ∀ e ∈ log, Unique e.before ∧
      (Taken e → sentBytes e.reply = [charF, charA] ∧ SameTable e.before e.after)) ↔
      ∀ e ∈ log, Taken e → FromRegistered e := by
  obtain ⟨garbage, hr⟩ := hs
  constructor
  · intro h e he htaken
    obtain ⟨htext, _⟩ := (h.2 e he).2 htaken
    refine hr.each (I := fun _ => True)
      (Q := fun e => Taken e → sentBytes e.reply = [charF, charA] → FromRegistered e)
      ?_ trivial e he htaken htext
    intro a e b hs _
    refine ⟨trivial, ?_⟩
    intro htaken htext
    obtain ⟨p, src, _, hreq, hsrc, _⟩ := htaken
    rcases serves_cases hs with ⟨_, _, _, _, _, _, hok, _⟩ | ⟨_, hbad⟩
    · rw [htext] at hok
      cases hok
    · obtain ⟨attempt, _, hans, hattempt⟩ := hbad p hreq
      have hatt : registerAttempt a p src = .alreadyRegistered :=
        (hattempt src hsrc).trans (answer_injective (hans.symm.trans htext))
      refine ⟨src, ⟨p, hreq, hsrc⟩, ?_⟩
      rw [hs.1]
      exact registerAttempt_already hatt
  · intro hg
    refine hr.guarded (I := Unique) (G := fun e => Taken e → FromRegistered e) ?_ ?_ hg
    · intro a e b hs hu hge
      refine ⟨unique_step hs hu hge, ?_, ?_⟩
      · rw [hs.1]
        exact hu
      · intro htaken
        rw [hs.1, hs.2.1]
        exact taken_refused hs htaken (hge htaken)
    · intro h k _ hh
      simp [namingInit] at hh

/-- Hosts 1 and 2 register different names. -/
theorem registered_names_unique_two : ∃ log s, Served log s ∧ log.length = 2 ∧ Unique s := by
  obtain ⟨log, s, hs, -, hc⟩ := served_of_serveAll (fun _ => .no) (requestPacket 0 0 []) 0
    [.register (requestPacket 1 pktDnsRegister [97]),
      .register (requestPacket 2 pktDnsRegister [98])]
    (fun r => decide (r.1.length = 2) && r.1.all fun e =>
      decide (∀ h, ¬(e.before.isRegistered h = .yes ∧
        (e.before.namingTable h).chars = payloadText e.request.packet))) (by decide +kernel)
  simp only [Bool.and_eq_true, decide_eq_true_eq, List.all_eq_true] at hc
  refine ⟨log, s, hs, hc.1, ((registered_names_unique_iff hs).mpr ?_).1⟩
  intro e he htaken
  obtain ⟨p, src, h, hreq, _, _, hyes, hname⟩ := htaken
  refine absurd ⟨hyes, ?_⟩ (hc.2 e he h)
  rw [hname, hreq]
  rfl

/-- Hosts 1 and 2 both register `a` and both are told `S`. -/
theorem duplicate_name_registered : ∃ log s, Served log s ∧ ¬Unique s ∧
    log.map (fun e => sentBytes e.reply) = [[charS], [charS]] := by
  obtain ⟨log, s, hs, -, hc⟩ := served_of_serveAll (fun _ => .no) (requestPacket 0 0 []) 0
    [.register (requestPacket 1 pktDnsRegister [97]),
      .register (requestPacket 2 pktDnsRegister [97])]
    (fun r => r.2.isRegistered 1 = .yes && r.2.isRegistered 2 = .yes &&
      r.2.namingTable 1 = r.2.namingTable 2 &&
      r.1.map (fun e => sentBytes e.reply) = [[charS], [charS]]) (by decide +kernel)
  simp only [Bool.and_eq_true, decide_eq_true_eq] at hc
  obtain ⟨⟨⟨h1, h2⟩, hsame⟩, htext⟩ := hc
  exact ⟨log, s, hs, fun hu => hu 1 2 (by decide) h1 h2 hsame, htext⟩

end NamingTable
