import NetSim.AnswerSlot
import NetSim.WatchedHost
import NetSim.LookupReplies

/-! Which reply a name query acts on. Lookups, pings by name and downloads by name share one flag
and one buffer, and a reply does not say which of their queries it answers. -/
namespace NameAnswers

open PacketCodec ReplyBook HostNode HostBook HostWaits HostQueries WatchedHost AnswerSlot
open LookupReplies DnsServer CStrings
open HostReplies (HostStep Kept kept_init kept_step quietHost noPacket iteration)

def nameAsked (s : HostState) : HostEvent → Option ℕ
  | .command (some bytes) _ => if asksName (commandOf bytes s) then some s.commands.length else none
  | _ => none

theorem nameAsked_sends {s u : HostState} {e : HostEvent} {n : ℕ} (h : hostStep s e = some u)
    (ha : nameAsked s e = some n) :
    ∃ q ps, outgoing u = outgoing s ++ q :: ps ∧ q.type = pktDnsLookup := by
  have hm := hostStep_moves h
  cases hm with
  | control => cases ha
  | noCommand => cases ha
  | @command bytes _ v _ hasks =>
    simp only [nameAsked, Option.ite_none_right_eq_some] at ha
    obtain ⟨hc, -⟩ := ha
    generalize commandOf bytes s = c at hasks hc
    cases hasks with
    | ping => cases hc
    | name _ hq htype => exact ⟨_, _, hq.outgoing, htype⟩
    | other hno => exact absurd (hc.symm.trans hno) (by decide)
  | receive => cases ha
  | execute => cases ha

def nameKind : Kind := ⟨nameAsked, pktDnsLookup, pktDnsLookupReply, nameAsked_sends⟩

/-- What a reply says: the host found, or the failure. -/
def packetAnswer (r : Packet) : Option ℤ :=
  if failText <+: payloadText r then none else some ((payloadText r).headD 0).toInt

def OwnReply (w : Watched) (serial : ℕ) (buffer : DnsBuffer) : Prop :=
  ∃ q r, Answered nameKind w serial q r ∧ lookupAnswer buffer = packetAnswer r

def nameAnswer (s : HostState) : Option DnsBuffer :=
  if s.dnsLookupReceived then some s.dnsLookupBuffer else none

def nameSlot (s : HostState) : Slot ℕ DnsBuffer := slot nameTicket nameAnswer s

/-- A lookup that is about to take an answer is the only query that waits. -/
def LastLookup (s : HostState) : Prop :=
  match s.jobQ with
  | .dnsLookupWaitForReply _ _ _ :: _ =>
    s.dnsLookupReceived = true → (serials nameTicket s).length = 1
  | _ => True

/-- A reply answers the query of the wait that is tried next, and a lookup takes its answer only
when no other query waits. -/
def InTurn (w : Watched) : HostEvent × ℕ → Prop
  | (.receive n p, k) =>
    Comes pktDnsLookupReply n p w.host → ∀ serial ∈ (serials nameTicket w.host).head?,
      (serial, k) ∈ w.asked ∧ k < w.host.sent.length
  | (.execute _ _, _) => LastLookup w.host
  | _ => True

instance (s : HostState) : Decidable (LastLookup s) := by
  unfold LastLookup
  split <;> infer_instance

instance (w : Watched) (e : HostEvent × ℕ) : Decidable (InTurn w e) :=
  match e with
  | (.receive _ _, _) => inferInstanceAs (Decidable (_ → _))
  | (.execute _ _, _) => inferInstanceAs (Decidable (LastLookup _))
  | (.command _ _, _) | (.control _, _) => inferInstanceAs (Decidable True)

def NameStep (w : Watched) (e : HostEvent × ℕ) (v : Watched) : Prop := watch nameKind w e = some v

def TurnStep (w : Watched) (e : HostEvent × ℕ) (v : Watched) : Prop := NameStep w e v ∧ InTurn w e

section

variable {s u : HostState} {js : List HostJob}

theorem names_untracked (h : Queues s u js) (hj : ∀ job ∈ js, Untracked job) :
    serials nameTicket u = serials nameTicket s := serials_same h fun job hjob => (hj job hjob).2

theorem name_stay {Own : ℕ → DnsBuffer → Prop} (hw : serials nameTicket u = serials nameTicket s)
    (hr : u.dnsLookupReceived = s.dnsLookupReceived) (hb : u.dnsLookupBuffer = s.dnsLookupBuffer) :
    Step Own (nameSlot s) (nameSlot u) :=
  slot_stay hw (by rw [nameAnswer, nameAnswer, hr, hb])

theorem flags_stay {Own : ℕ → DnsBuffer → Prop} (hw : serials nameTicket u = serials nameTicket s)
    (hf : flags u = flags s) : Step Own (nameSlot s) (nameSlot u) :=
  name_stay hw (congrArg (fun f => f.2.1) hf) (congrArg (fun f => f.2.2) hf)

theorem name_none (h : s.dnsLookupReceived = false) : nameAnswer s = none := by
  rw [nameAnswer, h, if_neg Bool.false_ne_true]

theorem name_some (h : s.dnsLookupReceived = true) : nameAnswer s = some s.dnsLookupBuffer :=
  if_pos h

theorem name_asks (Own : ℕ → DnsBuffer → Prop) {t : Ticket ManCommand} {c : ManCommand}
    (h : Asks t s u c) : Step Own (nameSlot s) (nameSlot u) := by
  cases h with
  | ping hq _ hf =>
    refine name_stay ?_ (congrArg (fun f => f.2.1) hf) (congrArg (fun f => f.2.2) hf)
    rw [serials_queues hq]
    exact List.append_nil _
  | @name _ q wait _ hq _ hn _ _ hr =>
    refine slot_ask (n := t.serial) ?_ (name_none hr)
    rw [serials_queues hq, List.filterMap_cons_none rfl, List.filterMap_cons_some hn]
    rfl
  | other _ _ hq hjobs hf => exact flags_stay (names_untracked hq hjobs) hf

theorem name_hears (Own : ℕ → DnsBuffer → Prop) {n : ℤ} {p : Packet} (h : Hears n p s u)
    (hown : Comes pktDnsLookupReply n p s → ∀ serial ∈ (serials nameTicket s).head?,
      lookupAnswer u.dnsLookupBuffer = packetAnswer p → Own serial u.dnsLookupBuffer) :
    Step Own (nameSlot s) (nameSlot u) := by
  cases h with
  | pingReply _ hq hf =>
    exact name_stay (names_untracked hq untracked_nil) (congrArg (fun f => f.2.1) hf)
      (congrArg (fun f => f.2.2) hf)
  | lookupReply hc hprint hq hf =>
    have hbuffer : u.dnsLookupBuffer = _ := congrArg (fun f => f.2.2) hf
    have hread : lookupAnswer u.dnsLookupBuffer = packetAnswer p := by
      rw [hbuffer]
      exact answer_printed hprint
    exact slot_arrive (names_untracked hq untracked_nil)
      (name_some (congrArg (fun f => f.2.1) hf)) fun serial hs => hown hc serial hs hread
  | other _ _ hq hjobs hf => exact flags_stay (names_untracked hq hjobs) hf

theorem name_turn (Own : ℕ → DnsBuffer → Prop) {job : HostJob} {t : Ticket ManCommand}
    {q : List HostJob} (hs : s.jobQ = job :: q) (hjob : nameTicket job = some t)
    (h : NameTurn job t.tried { s with jobQ := q } u)
    (hlast : LastLookup s) : Step Own (nameSlot s) (nameSlot u) := by
  cases h with
  | again hno hq hn hf =>
    have hback : [_].filterMap nameTicket = [t.tried] := List.filterMap_cons_some hn
    refine slot_again hs hjob hq hback rfl (name_none hno) (name_none ?_)
    exact (congrArg (fun f => f.2.1) hf).trans hno
  | expire hno hq hf =>
    refine slot_expire hs hjob hq (by simp) (name_none hno) (name_none ?_)
    exact (congrArg (fun f => f.2.1) hf).trans hno
  | use hyes hq hjobs _ hr =>
    exact slot_use hs hjob hq (fun j hj => (hjobs j hj).2) (name_some hyes) (name_none hr)
  | ping _ hyes _ hq _ _ hr =>
    refine slot_use hs hjob hq ?_ (name_some hyes) (name_none hr)
    intro j hj
    simp only [List.mem_cons, List.not_mem_nil, or_false] at hj
    rcases hj with rfl | rfl <;> rfl
  | leave hlookup hyes hq _ hr =>
    subst hlookup
    have hone : (serials nameTicket s).length = 1 := by
      rw [LastLookup, hs] at hlast
      exact hlast hyes
    rw [serials_head hs hjob] at hone
    refine slot_leave hs hjob hq (by simp) (name_some hyes) ?_ (name_some hr)
    simpa using hone

theorem name_executes (Own : ℕ → DnsBuffer → Prop) (h : Executes s u)
    (hlast : LastLookup s) : Step Own (nameSlot s) (nameSlot u) := by
  cases h with
  | idle _ hu =>
    subst hu
    exact .stay _
  | send hs hu =>
    subst hu
    exact name_stay (serials_tail hs rfl) rfl rfl
  | @pingWait t timer q hs h =>
    have htail : serials nameTicket { s with jobQ := q } = serials nameTicket s :=
      serials_tail hs rfl
    rcases waitForReply_cases h with ⟨-, ha⟩ | ⟨-, -, rfl⟩ | ⟨-, -, rfl⟩
    · cases ha
      exact name_stay htail rfl rfl
    · refine name_stay ?_ rfl rfl
      rw [serials_queues (queues_enqueue _ _), htail]
      exact List.append_nil _
    · exact name_stay htail rfl rfl
  | name hs hjob hturn => exact name_turn Own hs hjob hturn hlast
  | other hs hjob _ hq hjobs hf =>
    refine flags_stay ?_ hf
    exact (names_untracked hq hjobs).trans (serials_tail hs hjob.2)

end

section

variable {w v : Watched} {e : HostEvent × ℕ}

theorem OwnReply.mono (h : watch nameKind w e = some v) {n : ℕ} {buffer : DnsBuffer}
    (hr : OwnReply w n buffer) : OwnReply v n buffer := by
  obtain ⟨q, r, ha, hread⟩ := hr
  exact ⟨q, r, ha.mono h, hread⟩

theorem name_watch (h : watch nameKind w e = some v) (hp : Placed nameKind w) (hin : InTurn w e) :
    Step (OwnReply v) (nameSlot w.host) (nameSlot v.host) := by
  obtain ⟨e, k⟩ := e
  have hm : Moves w.host e v.host := hostStep_moves (watch_host h)
  generalize hv : v.host = u at hm
  cases hm with
  | control hq hjobs hf => exact flags_stay (names_untracked hq hjobs) hf
  | noCommand => exact name_stay rfl rfl rfl
  | command hasks =>
    have hslot := name_asks (OwnReply v) hasks
    exact hslot
  | execute hx =>
    have hslot := name_executes (OwnReply v) hx hin
    exact hslot
  | @receive n p u' phase hh =>
    have hslot := name_hears (OwnReply v) hh (by
      intro hc serial hserial hread
      obtain ⟨hasked, hk⟩ := hin hc serial hserial
      exact ⟨_, _, answered_receive h hp hc hasked (List.getElem?_eq_getElem hk), hread⟩)
    exact hslot

structure Naming (w : Watched) : Prop where
  placed : Placed nameKind w
  matched : Matched (OwnReply w) (nameSlot w.host)

/-- The flag may be set before the first query, but then nobody waits. -/
theorem naming_init (garbage : HostState) : Naming (watchInit garbage) := by
  constructor
  · exact placed_init garbage
  · intro a _ n hn
    cases hn

theorem naming_step (h : TurnStep w e v) (hw : Naming w) : Naming v := by
  obtain ⟨hwatch, hin⟩ := h
  have hwatch : watch nameKind w e = some v := hwatch
  constructor
  · exact placed_step hwatch hw.placed
  · have hold : Matched (OwnReply v) (nameSlot w.host) :=
      hw.matched.mono fun n buffer hr => hr.mono hwatch
    exact matched_step (name_watch hwatch hw.placed hin) hold

/-- In a run in which the replies come in turn, the wait of a name query that is about to take an
answer takes that of the server to its own query. -/
theorem name_answers_own {garbage : HostState} {es : List (HostEvent × ℕ)}
    (h : EventRuns.Run TurnStep (watchInit garbage) es w) {job : HostJob} {q : List HostJob}
    {t : Ticket ManCommand} (hs : w.host.jobQ = job :: q) (hjob : nameTicket job = some t)
    (hr : w.host.dnsLookupReceived = true) :
    ∃ query r, Answered nameKind w t.serial query r ∧
      TreatedAs (packetAnswer r) { w.host with jobQ := q } := by
  have hw := h.invariant (fun _ _ _ hs hw => naming_step hs hw) (naming_init garbage)
  have hhead : t.serial ∈ (nameSlot w.host).waiting.head? := by
    rw [nameSlot, slot, serials_head (f := nameTicket) hs hjob]
    rfl
  obtain ⟨query, r, ha, hread⟩ := hw.matched _ (name_some hr) _ hhead
  refine ⟨query, r, ha, ?_⟩
  rw [← hread]
  exact treatedAs_lookupAnswer (s := { w.host with jobQ := q }) hr

end

def foundFive : Packet :=
  { noPacket with
    src := 100, dst := 1, type := pktDnsLookupReply, payload := strcpy [5] noPacket.payload
    length := 1 }

def hearsFive : List HostEvent := (iteration none 9 foundFive).dropLast

def atFirst (es : List HostEvent) : List (HostEvent × ℕ) := es.map fun e => (e, 0)

def oneLookup : List (HostEvent × ℕ) :=
  atFirst (iteration (some [108, 32, 97]) (-1) noPacket ++ hearsFive)

theorem oneLookup_runs :
    ((oneLookup.foldlM (watchIf nameKind InTurn) (watchInit quietHost)).map fun w =>
      (w.host.jobQ.head?.bind nameTicket, w.host.dnsLookupReceived)) =
        some (some ⟨0, .dnsLookup, 0⟩, true) := by
  decide +kernel

theorem name_answers_own_five : ∃ w job q t,
    EventRuns.Run TurnStep (watchInit quietHost) oneLookup w ∧ w.host.jobQ = job :: q ∧
      nameTicket job = some t ∧ w.host.dnsLookupReceived = true ∧
      ∃ query r, Answered nameKind w t.serial query r ∧
        TreatedAs (packetAnswer r) { w.host with jobQ := q } := by
  obtain ⟨w, hw, hfacts⟩ := Option.map_eq_some_iff.mp oneLookup_runs
  simp only [Prod.mk.injEq] at hfacts
  obtain ⟨hticket, hr⟩ := hfacts
  obtain ⟨job, hhead, hjob⟩ := Option.bind_eq_some_iff.mp hticket
  obtain ⟨q, hs⟩ := List.head?_eq_some_iff.mp hhead
  have hrun : EventRuns.Run TurnStep (watchInit quietHost) oneLookup w :=
    run_of_watchIf hw fun hwatch hin => ⟨hwatch, hin⟩
  exact ⟨w, job, q, _, hrun, hs, hjob, hr, name_answers_own hrun hs hjob hr⟩

/-- The command "D a f", the command "l b" in the next iteration, and the reply to the first. -/
def twoQueries : List (HostEvent × ℕ) :=
  atFirst (iteration (some [68, 32, 97, 32, 102]) (-1) noPacket ++
    iteration (some [108, 32, 98]) (-1) noPacket ++ iteration none (-1) noPacket ++ hearsFive)

def quietJob (s : HostState) : Option HostState :=
  execute (fun _ => true) ⟨fun _ => noPacket, fun _ => 0, fun _ _ => 0⟩ s

theorem twoQueries_runs :
    ((twoQueries.foldlM (watch nameKind) (watchInit quietHost)).map fun w =>
      ((w.asked, w.heard.map Heard.place),
        w.host.jobQ.head?.bind nameTicket, w.host.dnsLookupReceived)) =
      some (([(0, 0), (1, 1)], [0]), some ⟨1, .dnsLookup, 0⟩, true) := by
  decide +kernel

theorem twoQueries_told :
    ((twoQueries.foldlM (watch nameKind) (watchInit quietHost)).bind fun w =>
      (quietJob w.host).map fun u => u.written.map Message.bytes) =
        some [toBytes "DNS lookup response 5." ++ [0]] := by
  decide +kernel

/-- The lookup of b is about to take, and does take, the answer that the server gave for a. -/
theorem other_answer_taken : ∃ w job q t,
    EventRuns.Run NameStep (watchInit quietHost) twoQueries w ∧ w.host.jobQ = job :: q ∧
      nameTicket job = some t ∧ t.serial = 1 ∧ w.host.dnsLookupReceived = true ∧
      (∃ u, quietJob w.host = some u ∧
        u.written.map Message.bytes = [toBytes "DNS lookup response 5." ++ [0]]) ∧
      ¬ ∃ query r, Answered nameKind w t.serial query r ∧
        TreatedAs (packetAnswer r) { w.host with jobQ := q } := by
  obtain ⟨w, hw, hfacts⟩ := Option.map_eq_some_iff.mp twoQueries_runs
  simp only [Prod.mk.injEq] at hfacts
  obtain ⟨⟨hasked, hheard⟩, hticket, hr⟩ := hfacts
  have htold := twoQueries_told
  rw [hw, Option.bind_some] at htold
  obtain ⟨job, hhead, hjob⟩ := Option.bind_eq_some_iff.mp hticket
  obtain ⟨q, hs⟩ := List.head?_eq_some_iff.mp hhead
  refine ⟨w, job, q, _, EventRuns.Run.of_foldlM hw, hs, hjob, rfl, hr,
    Option.map_eq_some_iff.mp htold, ?_⟩
  rintro ⟨query, r, ⟨k, sent, hk, -, -, hr, -⟩, -⟩
  rw [hasked] at hk
  have hplace : k ∈ w.heard.map Heard.place := List.mem_map_of_mem hr
  rw [hheard] at hplace
  simp at hk hplace
  omega

end NameAnswers
