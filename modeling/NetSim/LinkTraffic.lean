import NetSim.CarriedFrames

/-! The traffic of one direction of a link: what the port at its end has taken, what is in the
channel, and what the sender still has queued for it. In a FIFO run an action adds to the end
of this trail or drops from it, and never reorders it. -/
namespace LinkTraffic

open PacketCodec SwitchNode NetworkTopology NetworkRuns LinkSends CarriedFrames

variable {ι : Type} [DecidableEq ι] {net : Topology ι}

def queuedFor (st : State ι) (p : Port ι) : List Frame :=
  ((st.switch p.1).jobQ.filter fun job => MayUse job p.2).map (·.packet)

omit [DecidableEq ι] in
theorem queuedFor_eq {st u : State ι} {p : Port ι}
    (h : (u.switch p.1).jobQ = (st.switch p.1).jobQ) : queuedFor u p = queuedFor st p := by
  rw [queuedFor, queuedFor, h]

omit [DecidableEq ι] in
theorem queuedFor_append {st u : State ι} {p : Port ι} {job : SwitchJob}
    (h : (u.switch p.1).jobQ = (st.switch p.1).jobQ ++ [job]) :
    queuedFor u p = queuedFor st p ++ if MayUse job p.2 then [job.packet] else [] := by
  rw [queuedFor, queuedFor, h, List.filter_append, List.map_append]
  by_cases hm : MayUse job p.2 <;> simp [hm]

omit [DecidableEq ι] in
theorem queuedFor_cons {st u : State ι} {p : Port ι} {job : SwitchJob} {rest : List SwitchJob}
    (h : (st.switch p.1).jobQ = job :: rest) (hu : (u.switch p.1).jobQ = rest) :
    queuedFor st p = (if MayUse job p.2 then [job.packet] else []) ++ queuedFor u p := by
  rw [queuedFor, queuedFor, h, hu, List.filter_cons]
  by_cases hm : MayUse job p.2 <;> simp [hm]

/-- Everything for port q, oldest first: taken, in the channel, queued at the other end. -/
def trail (net : Topology ι) (st : State ι) (q : Port ι) : List Header :=
  (st.received q ++ st.channel q).map header ++ (queuedFor st (net.peer q)).map header

omit [DecidableEq ι] in
theorem mem_trail {st : State ι} {q : Port ι} {x : Header} (h : x ∈ trail net st q) :
    ∃ f, header f = x ∧ (f ∈ st.received q ∨ f ∈ st.channel q ∨
      ∃ job ∈ (st.switch (net.peer q).1).jobQ, job.packet = f) := by
  rw [trail, List.mem_append, List.mem_map, List.mem_map] at h
  rcases h with ⟨f, hf, rfl⟩ | ⟨f, hf, rfl⟩
  · rcases List.mem_append.mp hf with hf | hf
    · exact ⟨f, rfl, Or.inl hf⟩
    · exact ⟨f, rfl, Or.inr (Or.inl hf)⟩
  · obtain ⟨job, hj, rfl⟩ := List.mem_map.mp hf
    exact ⟨_, rfl, Or.inr (Or.inr ⟨job, (List.mem_filter.mp hj).1, rfl⟩)⟩

def entering (net : Topology ι) (st : State ι) (a : Action ι) (q : Port ι) : List Header :=
  match a with
  | .control s =>
    if (net.peer q).1 = s ∧ (st.switch s).controlCount + 1 ≥ controlCountMax then
      [header ⟨controlPacket (net.id s) (st.switch s), st.clock⟩]
    else []
  | .receive p rx =>
    match (st.channel p)[rx.index]? with
    | none => []
    | some f =>
      if (net.peer q).1 = p.1 ∧ f.type ≠ pktControlPacket ∧
          MayUse (dataJob p.2 (f.deliver rx.prior) rx.stray (st.switch p.1).lookupTable)
            (net.peer q).2 then
        [header f]
      else []
  | .send h p => if (net.peer q).1 = h then [header ⟨p, st.clock⟩] else []
  | .execute _ | .poll _ _ | .lose _ _ => []

variable (net) in
/-- At most one packet enters: a new control packet, a data packet the sender has just taken, or
a packet of a host. -/
theorem entering_cases (st : State ι) (a : Action ι) (q : Port ι) :
    entering net st a q = [] ∨ ∃ x, entering net st a q = [x] ∧
      ((∃ s, a = .control s ∧ (net.peer q).1 = s ∧
          x = header ⟨controlPacket (net.id s) (st.switch s), st.clock⟩) ∨
        (∃ p rx f, a = .receive p rx ∧ (st.channel p)[rx.index]? = some f ∧
          (net.peer q).1 = p.1 ∧ f.type ≠ pktControlPacket ∧
          MayUse (dataJob p.2 (f.deliver rx.prior) rx.stray (st.switch p.1).lookupTable)
            (net.peer q).2 ∧ x = header f) ∨
        (∃ h p, a = .send h p ∧ (net.peer q).1 = h ∧ x = header ⟨p, st.clock⟩)) := by
  cases a with
  | control s =>
    simp only [entering]
    split
    · next h => exact Or.inr ⟨_, rfl, Or.inl ⟨s, rfl, h.1, rfl⟩⟩
    · exact Or.inl rfl
  | receive p rx =>
    simp only [entering]
    cases hf : (st.channel p)[rx.index]? with
    | none => exact Or.inl rfl
    | some f =>
      dsimp only
      split
      · next h =>
        exact Or.inr ⟨_, rfl, Or.inr (Or.inl ⟨p, rx, f, rfl, hf, h.1, h.2.1, h.2.2, rfl⟩)⟩
      · exact Or.inl rfl
  | send v p =>
    simp only [entering]
    split
    · next h => exact Or.inr ⟨_, rfl, Or.inr (Or.inr ⟨v, p, rfl, h, rfl⟩)⟩
    · exact Or.inl rfl
  | execute s => exact Or.inl rfl
  | poll p rx => exact Or.inl rfl
  | lose p i => exact Or.inl rfl

theorem entering_control {st : State ι} {a : Action ι} {q : Port ι} {x : Header}
    (h : x ∈ entering net st a q) (hc : x.type = pktControlPacket) : x.stamp = st.clock := by
  rcases entering_cases net st a q with he | ⟨y, he, hy⟩
  · rw [he] at h
    cases h
  · rw [he, List.mem_singleton] at h
    subst h
    rcases hy with ⟨_, _, _, rfl⟩ | ⟨_, _, _, _, _, _, hd, _, rfl⟩ | ⟨_, _, _, _, rfl⟩
    · rfl
    · exact absurd hc hd
    · rfl

def Idle (net : Topology ι) (st : State ι) : Prop :=
  ∀ v, ¬ net.IsSwitch v → (st.switch v).jobQ = []

omit [DecidableEq ι] in
theorem carried_trail {Q : ι → Frame → Prop} {st : State ι} (hc : Carried net Q st)
    (hid : Idle net st) {q : Port ι} (hq : net.IsPort q) {x : Header} (hx : x ∈ trail net st q) :
    ∃ f, header f = x ∧ Q (net.peer q).1 f := by
  obtain ⟨f, rfl, hf | hf | ⟨job, hj, rfl⟩⟩ := mem_trail hx
  · exact ⟨f, rfl, hc.taken q hq f hf⟩
  · exact ⟨f, rfl, hc.inFlight q hq f hf⟩
  · refine ⟨_, rfl, hc.queued _ ?_ job hj⟩
    by_contra hs
    rw [hid _ hs] at hj
    cases hj

theorem idle_act {st : State ι} {a : Action ι} (hp : Permitted net a) (h : Idle net st) :
    Idle net (act net st a) := by
  intro v hv
  rcases act_switch net st a v with he | ⟨rfl, _⟩ | ⟨p, _, _, rfl, rfl, _⟩ | ⟨_, _, rfl, _⟩
  · rw [he]
    exact h v hv
  · exact absurd hp hv
  · exact absurd hp.1 hv
  · exact absurd hp hv

theorem reachable_idle {D : Action ι → Prop} {st : State ι} (h : ActionReachable net D st) :
    Idle net st :=
  ActionRuns.invariant (fun _ _ hp _ hst => idle_act hp hst) h fun _ _ => rfl

variable (net) in
theorem control_jobQ (st : State ι) (s : ι) :
    ((act net st (.control s)).switch s).jobQ = (st.switch s).jobQ ++
      if (st.switch s).controlCount + 1 ≥ controlCountMax then
        [⟨.sendPktAllPorts, ⟨controlPacket (net.id s) (st.switch s), st.clock⟩, 0, 0⟩]
      else [] := by
  by_cases hc : (st.switch s).controlCount + 1 ≥ controlCountMax <;>
    simp [act, setSwitch, controlTimer, hc]

variable (net) in
theorem receive_jobQ {st : State ι} {p : Port ι} {rx : Rx} {f : Frame}
    (h : (st.channel p)[rx.index]? = some f) :
    ((act net st (.receive p rx)).switch p.1).jobQ = (st.switch p.1).jobQ ++
      if f.type = pktControlPacket then []
      else [dataJob p.2 (f.deliver rx.prior) rx.stray (st.switch p.1).lookupTable] := by
  rw [receive_switch h, receivePacket_jobQ]
  change (if f.type = _ then _ else _) = _
  split
  · exact (List.append_nil _).symm
  · rfl

theorem act_jobQ_ne {st : State ι} {v s : ι} (h : v ≠ s) :
    ((act net st (.control s)).switch v).jobQ = (st.switch v).jobQ ∧
      (∀ k rx, ((act net st (.receive (s, k) rx)).switch v).jobQ = (st.switch v).jobQ) ∧
      ((act net st (.execute s)).switch v).jobQ = (st.switch v).jobQ := by
  refine ⟨?_, fun k rx => ?_, ?_⟩
  · rcases act_switch net st (.control s) v with he | ⟨ha, _⟩ | ⟨_, _, _, ha, _⟩ | ⟨_, _, ha, _⟩
    · rw [he]
    · cases ha
      exact absurd rfl h
    · cases ha
    · cases ha
  · rcases act_switch net st (.receive (s, k) rx) v with he | ⟨ha, _⟩ | ⟨_, _, _, ha, hv, _⟩ |
      ⟨_, _, ha, _⟩
    · rw [he]
    · cases ha
    · cases ha
      exact absurd hv.symm h
    · cases ha
  · rcases act_switch net st (.execute s) v with he | ⟨ha, _⟩ | ⟨_, _, _, ha, _⟩ | ⟨_, _, ha, _⟩
    · rw [he]
    · cases ha
    · cases ha
    · cases ha
      exact absurd rfl h

theorem pull_trail {st : State ι} {p q : Port ι} {f g : Frame}
    (h : (st.channel p)[0]? = some f) (hg : header g = header f) :
    ((pull st p 0 g).received q ++ (pull st p 0 g).channel q).map header =
      (st.received q ++ st.channel q).map header := by
  by_cases hq : q = p
  · subst q
    cases hc : st.channel p with
    | nil => simp [hc] at h
    | cons f' rest =>
      rw [hc] at h
      cases h
      simp [pull, hc, hg]
  · simp [pull, hq]

theorem control_trail (st : State ι) (s : ι) (q : Port ι) :
    trail net (act net st (.control s)) q =
      trail net st q ++ entering net st (.control s) q := by
  rw [trail, trail, entering, List.append_assoc]
  apply congrArg
  by_cases hs : (net.peer q).1 = s
  · subst hs
    by_cases hc : (st.switch (net.peer q).1).controlCount + 1 ≥ controlCountMax
    · have hj := control_jobQ net st (net.peer q).1
      rw [if_pos hc] at hj
      rw [if_pos ⟨rfl, hc⟩, queuedFor_append hj, if_pos (mayUse_control rfl rfl _),
        List.map_append]
      rfl
    · have hj := control_jobQ net st (net.peer q).1
      rw [if_neg hc, List.append_nil] at hj
      rw [if_neg fun h => hc h.2, queuedFor_eq hj, List.append_nil]
  · rw [if_neg fun h => hs h.1, queuedFor_eq (act_jobQ_ne hs).1, List.append_nil]

theorem receive_trail {st : State ι} {p : Port ι} {rx : Rx} (hi : rx.index = 0) (q : Port ι) :
    trail net (act net st (.receive p rx)) q =
      trail net st q ++ entering net st (.receive p rx) q := by
  cases hf : (st.channel p)[rx.index]? with
  | none => rw [act_receive_none hf, entering, hf, List.append_nil]
  | some f =>
    have hpull : ((act net st (.receive p rx)).received q ++
        (act net st (.receive p rx)).channel q).map header =
        (st.received q ++ st.channel q).map header := by
      rw [act_receive_some hf, hi]
      exact pull_trail (f := f) (hi ▸ hf) rfl
    rw [trail, trail, hpull, List.append_assoc]
    apply congrArg
    simp only [entering, hf]
    by_cases hs : (net.peer q).1 = p.1
    · have hj := receive_jobQ net hf
      rw [← hs] at hj
      by_cases hc : f.type = pktControlPacket
      · rw [if_pos hc, List.append_nil] at hj
        rw [if_neg fun h => h.2.1 hc, List.append_nil, queuedFor_eq hj]
      · rw [if_neg hc] at hj
        rw [queuedFor_append hj, List.map_append, hs]
        apply congrArg
        split
        · next hm => rw [if_pos ⟨rfl, hc, hm⟩, List.map_singleton, dataJob_packet, header_deliver]
        · next hm => rw [if_neg fun h => hm h.2.2, List.map_nil]
    · rw [if_neg fun h => hs h.1, List.append_nil, queuedFor_eq ((act_jobQ_ne hs).2.1 p.2 rx)]

theorem poll_trail {st : State ι} {p : Port ι} {rx : Rx} (hi : rx.index = 0) (q : Port ι) :
    trail net (act net st (.poll p rx)) q = trail net st q := by
  cases hf : (st.channel p)[rx.index]? with
  | none => rw [act_poll_none hf]
  | some f =>
    rw [act_poll_some hf, hi, trail, trail, pull_trail (hi ▸ hf) (header_deliver f rx.prior)]
    rfl

theorem send_trail {st : State ι} (hid : Idle net st) {h : ι} (hh : ¬ net.IsSwitch h) (p : Packet)
    {q : Port ι} (hq : net.IsPort q) :
    trail net (act net st (.send h p)) q = trail net st q ++ entering net st (.send h p) q := by
  rw [trail, trail, entering]
  change List.map header (st.received q ++ (st.channel q ++ sentTo net h _ q)) ++
    List.map header (queuedFor st (net.peer q)) = _
  rw [onAllPorts_sentTo hq]
  by_cases hs : (net.peer q).1 = h
  · have hempty : queuedFor st (net.peer q) = [] := by
      rw [queuedFor, hs, hid h hh]
      rfl
    simp [hs, hempty]
  · simp [hs]

theorem execute_trail {st : State ι} {s : ι} {job : SwitchJob} {rest : List SwitchJob}
    (hj : (st.switch s).jobQ = job :: rest) {q : Port ι} (hq : net.IsPort q) :
    (trail net (act net st (.execute s)) q).Sublist (trail net st q) ∧
      (((net.peer q).1 = s → MayUse job (net.peer q).2 →
        sendsOn (st.switch s) job (net.peer q).2 ≠ none) →
        trail net (act net st (.execute s)) q = trail net st q) := by
  have hchan : (act net st (.execute s)).channel q = st.channel q ++
      if (net.peer q).1 = s then (sendsOn (st.switch s) job (net.peer q).2).toList else [] := by
    rw [act_execute_cons hj, ← sentTo_jobSends hq]
    rfl
  have hrec : (act net st (.execute s)).received q = st.received q := by
    rw [act_execute_cons hj]
    rfl
  rw [trail, trail, hchan, hrec]
  by_cases hs : (net.peer q).1 = s
  · have hrest : ((act net st (.execute s)).switch (net.peer q).1).jobQ = rest := by
      rw [act_execute_cons hj, hs]
      simp [transmit, setSwitch]
    have hold : queuedFor st (net.peer q) = (if MayUse job (net.peer q).2 then [job.packet] else [])
        ++ queuedFor (act net st (.execute s)) (net.peer q) := queuedFor_cons (hs ▸ hj) hrest
    rw [hold, if_pos hs]
    cases ho : sendsOn (st.switch s) job (net.peer q).2 with
    | none =>
      refine ⟨?_, fun h => ?_⟩
      · simp only [Option.toList_none, List.append_nil, List.map_append, List.append_assoc]
        apply List.Sublist.append_left
        exact List.Sublist.append_left (List.sublist_append_right _ _) _
      · have hm : ¬ MayUse job (net.peer q).2 := fun hm => h hs hm rfl
        rw [if_neg hm]
        simp
    | some f =>
      obtain ⟨hm, hf⟩ := sendsOn_mayUse ho
      rw [if_pos hm]
      simp [hf]
  · rw [if_neg hs, List.append_nil, queuedFor_eq (act_jobQ_ne hs).2.2]
    exact ⟨List.Sublist.refl _, fun _ => rfl⟩

theorem lose_trail (st : State ι) (p : Port ι) (i : ℕ) (q : Port ι) :
    (trail net (act net st (.lose p i)) q).Sublist (trail net st q) := by
  refine List.Sublist.append_right (List.Sublist.map _ (List.Sublist.append_left ?_ _)) _
  change (Function.update st.channel p _ q).Sublist _
  by_cases hq : q = p
  · subst q
    rw [Function.update_self]
    exact List.eraseIdx_sublist _ _
  · rw [Function.update_of_ne hq]

/-- In a FIFO run an action only adds to the end of a trail and drops from it. -/
theorem trail_act {st : State ι} {a : Action ι} (hid : Idle net st) (hp : Permitted net a)
    (hf : fifo a) {q : Port ι} (hq : net.IsPort q) :
    (trail net (act net st a) q).Sublist (trail net st q ++ entering net st a q) := by
  cases a with
  | control s => rw [control_trail]
  | receive p rx => rw [receive_trail hf]
  | send h p => rw [send_trail hid hp.1 p hq]
  | poll p rx =>
    rw [poll_trail hf]
    exact List.sublist_append_left _ _
  | lose p i => exact (lose_trail st p i q).trans (List.sublist_append_left _ _)
  | execute s =>
    cases hj : (st.switch s).jobQ with
    | nil =>
      rw [act_execute_nil hj]
      exact List.sublist_append_left _ _
    | cons job rest => exact (execute_trail hj hq).1.trans (List.sublist_append_left _ _)

theorem trail_act_lossless {st : State ι} {a : Action ι} (hid : Idle net st)
    (hp : Permitted net a) (hl : lossless a) {q : Port ι} (hq : net.IsPort q)
    (huse : a = .execute (net.peer q).1 → ∀ job ∈ (st.switch (net.peer q).1).jobQ,
      MayUse job (net.peer q).2 → sendsOn (st.switch (net.peer q).1) job (net.peer q).2 ≠ none) :
    trail net (act net st a) q = trail net st q ++ entering net st a q := by
  cases a with
  | control s => exact control_trail st s q
  | receive p rx => exact receive_trail hl q
  | send h p => exact send_trail hid hp.1 p hq
  | poll p rx => rw [poll_trail hl, entering, List.append_nil]
  | lose p i => exact absurd hl id
  | execute s =>
    rw [entering, List.append_nil]
    cases hj : (st.switch s).jobQ with
    | nil => rw [act_execute_nil hj]
    | cons job rest =>
      apply (execute_trail hj hq).2
      rintro rfl hm
      apply huse rfl job _ hm
      rw [hj]
      exact List.mem_cons_self

/-- What is ordered along a trail stays so if it lets the entering packet come last. -/
theorem pairwise_trail_act {R : Header → Header → Prop} {st : State ι} {a : Action ι}
    (hid : Idle net st) (hp : Permitted net a) (hf : fifo a) {q : Port ι} (hq : net.IsPort q)
    (h : (trail net st q).Pairwise R)
    (hnew : ∀ x ∈ trail net st q, ∀ y ∈ entering net st a q, R x y) :
    (trail net (act net st a) q).Pairwise R := by
  refine List.Pairwise.sublist (trail_act hid hp hf hq) (List.pairwise_append.mpr ⟨h, ?_, hnew⟩)
  rcases entering_cases net st a q with he | ⟨y, he, _⟩
  · rw [he]
    exact List.Pairwise.nil
  · rw [he]
    exact List.pairwise_singleton _ _

end LinkTraffic
