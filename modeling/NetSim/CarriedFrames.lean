import NetSim.LinkSends

/-! Invariants about frames: a property of a frame and of the node that has it, which every
node that creates, relays or delivers the frame keeps. -/
namespace CarriedFrames

open PacketCodec SwitchNode NetworkTopology NetworkRuns LinkSends

variable {ι : Type} [DecidableEq ι] {net : Topology ι}

theorem mem_controlTimer {id : ℤ} {stamp : ℕ} {sw : SwitchState} {job : SwitchJob}
    (h : job ∈ (controlTimer id stamp sw).jobQ) :
    job ∈ sw.jobQ ∨ job.packet = ⟨controlPacket id sw, stamp⟩ ∧
      job.type = .sendPktAllPorts := by
  unfold controlTimer at h
  split at h
  · rcases List.mem_append.mp h with h | h
    · exact Or.inl h
    · exact Or.inr (by rw [List.mem_singleton.mp h]; exact ⟨rfl, rfl⟩)
  · exact Or.inl h

theorem mem_receivePacket {k : ℕ} {p : Frame} {stray : Stray} {sw : SwitchState}
    {job : SwitchJob} (h : job ∈ (receivePacket k p stray sw).jobQ) :
    job ∈ sw.jobQ ∨ p.type ≠ pktControlPacket ∧ job = dataJob k p stray sw.lookupTable := by
  rw [receivePacket_jobQ] at h
  split at h
  · exact Or.inl h
  · next hc =>
    rcases List.mem_append.mp h with h | h
    · exact Or.inl h
    · exact Or.inr ⟨hc, List.mem_singleton.mp h⟩

variable (net) in
theorem mem_act_jobQ {st : State ι} {a : Action ι} {s : ι} {job : SwitchJob}
    (hj : job ∈ ((act net st a).switch s).jobQ) : job ∈ (st.switch s).jobQ ∨
    (a = .control s ∧ job.packet = ⟨controlPacket (net.id s) (st.switch s), st.clock⟩ ∧
      job.type = .sendPktAllPorts) ∨
    ∃ p rx f, a = .receive p rx ∧ p.1 = s ∧ (st.channel p)[rx.index]? = some f ∧
      f.type ≠ pktControlPacket ∧
      job = dataJob p.2 (f.deliver rx.prior) rx.stray (st.switch s).lookupTable := by
  rcases act_switch net st a s with he | ⟨ha, he⟩ | ⟨p, rx, f, ha, hp, hf, he⟩ | ⟨_, _, _, hq, he⟩
  · exact Or.inl (he ▸ hj)
  · rw [he] at hj
    exact (mem_controlTimer hj).imp_right fun h => Or.inl ⟨ha, h⟩
  · rw [he] at hj
    exact (mem_receivePacket hj).imp_right fun h => Or.inr ⟨p, rx, f, ha, hp, hf, h⟩
  · rw [he] at hj
    rw [hq]
    exact Or.inl (List.mem_cons_of_mem _ hj)

/-- Q holds of every queued frame and its switch, and of every frame in a channel or taken
from one and the node that sent it. -/
structure Carried (net : Topology ι) (Q : ι → Frame → Prop) (st : State ι) : Prop where
  queued : ∀ s, net.IsSwitch s → ∀ job ∈ (st.switch s).jobQ, Q s job.packet
  inFlight : ∀ p, net.IsPort p → ∀ f ∈ st.channel p, Q (net.peer p).1 f
  taken : ∀ p, net.IsPort p → ∀ f ∈ st.received p, Q (net.peer p).1 f

structure Carriable (net : Topology ι) (Q : State ι → ι → Frame → Prop) (st : State ι)
    (a : Action ι) : Prop where
  mono : ∀ w f, Q st w f → Q (act net st a) w f
  created : ∀ s, a = .control s → net.IsSwitch s →
    Q (act net st a) s ⟨controlPacket (net.id s) (st.switch s), st.clock⟩
  hosted : ∀ h p, a = .send h p → ¬ net.IsSwitch h → HostPacket net h p →
    Q (act net st a) h ⟨p, st.clock⟩
  relayed : ∀ p rx f, a = .receive p rx → net.IsPort p → net.IsSwitch p.1 →
    f.type ≠ pktControlPacket → Q st (net.peer p).1 f →
    (act net st a).switch p.1 = receivePacket p.2 f rx.stray (st.switch p.1) →
    Q (act net st a) p.1 f
  marked : ∀ s k f, net.IsSwitch s → f.type = pktControlPacket → Q st s f →
    Q st s (childMark (st.switch s) k f)
  delivered : ∀ w f prior, Q st w f → Q st w (f.deliver prior)

omit [DecidableEq ι] in
theorem carried_initial (Q : ι → Frame → Prop) : Carried net Q (initial net) := by
  constructor <;> simp [initial, switchInit]

theorem Carried.act {Q : State ι → ι → Frame → Prop} {st : State ι} {a : Action ι}
    (h : Carried net (Q st) st) (hp : Permitted net a) (hQ : Carriable net Q st a) :
    Carried net (Q (act net st a)) (act net st a) := by
  have taken : ∀ p, net.IsPort p → ∀ (i : ℕ) (f : Frame) prior, (st.channel p)[i]? = some f →
      Q st (net.peer p).1 (f.deliver prior) := by
    intro p hpt i f prior hf
    exact hQ.delivered _ _ _ (h.inFlight p hpt f (List.mem_of_getElem? hf))
  constructor
  · intro s hs job hj
    rcases mem_act_jobQ net hj with hj | ⟨rfl, he, _⟩ | ⟨p, rx, f, rfl, rfl, hf, hd, rfl⟩
    · exact hQ.mono _ _ (h.queued s hs job hj)
    · rw [he]
      exact hQ.created s rfl hs
    · rw [dataJob_packet]
      exact hQ.relayed p rx _ rfl hp.2 hs hd (taken p hp.2 _ f _ hf) (receive_switch hf)
  · intro q hq g hg
    rcases mem_act_channel net hq hg with hg | ⟨job, rest, rfl, hj, hsend⟩ | ⟨p, rfl, rfl⟩
    · exact hQ.mono _ _ (h.inFlight q hq g hg)
    · have hjQ := h.queued _ hp job (by rw [hj]; exact List.mem_cons_self)
      rcases sendsOn_packet hsend with rfl | ⟨hc, rfl⟩
      · exact hQ.mono _ _ hjQ
      · exact hQ.mono _ _ (hQ.marked _ _ _ hp hc hjQ)
    · exact hQ.hosted _ p rfl hp.1 hp.2
  · intro q hq g hg
    rcases act_received net st a q with he | ⟨rx, f, _, hf, he⟩
    · exact hQ.mono _ _ (h.taken q hq g (he ▸ hg))
    · rw [he] at hg
      rcases List.mem_append.mp hg with hg | hg
      · exact hQ.mono _ _ (h.taken q hq g hg)
      · rw [List.mem_singleton.mp hg]
        exact hQ.mono _ _ (taken q hq _ f _ hf)

theorem Carried.runs {Q : State ι → ι → Frame → Prop} {D : Action ι → Prop} {st u : State ι}
    (hQ : ∀ st a, Permitted net a → Carriable net Q st a) (hr : ActionRuns net D st u)
    (h : Carried net (Q st) st) : Carried net (Q u) u :=
  hr.invariant (P := fun st => Carried net (Q st) st)
    (fun st a hp _ hs => hs.act hp (hQ st a hp)) h

def Stamped (st : State ι) (_ : ι) (f : Frame) : Prop := f.stamp < st.clock

theorem stamped_carriable (st : State ι) (a : Action ι) : Carriable net Stamped st a where
  mono _ _ h := lt_of_lt_of_le h (act_clock_le net st a)
  created s ha _ := by
    subst ha
    exact Nat.lt_succ_self _
  hosted h p ha _ _ := by
    subst ha
    exact Nat.lt_succ_self _
  relayed _ _ _ _ _ _ _ h _ := lt_of_lt_of_le h (act_clock_le net st a)
  marked _ _ _ _ _ h := h
  delivered _ _ _ h := h

theorem reachable_stamped {D : Action ι → Prop} {st : State ι} (h : ActionReachable net D st) :
    Carried net (Stamped st) st :=
  Carried.runs (fun st a _ => stamped_carriable st a) h (carried_initial _)

def Signed (net : Topology ι) (_ : State ι) (w : ι) (f : Frame) : Prop :=
  f.type = pktControlPacket → f.packetSenderType = if net.IsSwitch w then charS else charH

theorem signed_carriable (st : State ι) (a : Action ι) : Carriable net (Signed net) st a where
  mono _ _ h := h
  created s _ hs _ := (if_pos hs).symm
  hosted h p _ hs hh hc := by
    rw [if_neg hs]
    exact (hh.2 hc).1
  relayed _ _ _ _ _ _ hd _ _ hc := absurd hc hd
  marked _ _ _ _ _ h := h
  delivered _ _ _ h := h

theorem reachable_signed {D : Action ι → Prop} {st : State ι} (h : ActionReachable net D st) :
    Carried net (Signed net st) st :=
  Carried.runs (fun st a _ => signed_carriable st a) h (carried_initial _)

def ControlFloods (st : State ι) : Prop :=
  ∀ s, ∀ job ∈ (st.switch s).jobQ, job.packet.type = pktControlPacket →
    job.type = .sendPktAllPorts

theorem controlFloods_act {st : State ι} (a : Action ι) (h : ControlFloods st) :
    ControlFloods (act net st a) := by
  intro s job hj hc
  rcases mem_act_jobQ net hj with hj | ⟨_, _, ht⟩ | ⟨p, rx, f, _, _, _, hd, rfl⟩
  · exact h s job hj hc
  · exact ht
  · rw [dataJob_packet] at hc
    exact absurd hc hd

theorem reachable_controlFloods {D : Action ι → Prop} {st : State ι}
    (h : ActionReachable net D st) : ControlFloods st :=
  ActionRuns.invariant (fun _ a _ _ hst => controlFloods_act a hst) h fun _ _ hj => by cases hj

end CarriedFrames
