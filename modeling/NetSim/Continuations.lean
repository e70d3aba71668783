import NetSim.PortFlags

/-! What can still happen from any state: a queued job can be executed, a frame in a channel can
be taken, and every link can be heard once more. These runs read one port at a time and lose
nothing. -/
namespace Continuations

open PacketCodec SwitchNode NetworkTopology NetworkRuns LinkSends CarriedFrames LinkTraffic FlagTree
  PortFlags

variable {ι : Type} {net : Topology ι}

/-- An iteration that finds a packet on port p only. -/
def listen (p : Port ι) : Event ι :=
  .iterate p.1 fun k => if k = p.2 then some takeOldest else none

theorem actions_quiet (s : ι) : actions net (quiet s) = [.control s, .execute s] := by
  have hnone : (List.range (net.nodePortNum s)).filterMap
      (fun k => Option.map (Action.receive (s, k)) (none : Option Rx)) = [] := by simp
  simp only [quiet, actions, hnone]
  rfl

theorem actions_listen {p : Port ι} (hp : net.IsPort p) :
    actions net (listen p) = [.control p.1, .receive p takeOldest, .execute p.1] := by
  have hone : (List.range (net.nodePortNum p.1)).filterMap
      (fun k => Option.map (Action.receive (p.1, k)) (if k = p.2 then some takeOldest else none)) =
      [.receive p takeOldest] := by
    have hpick := filterMap_pick (List.nodup_range (n := net.nodePortNum p.1)) p.2
      fun k => Action.receive (p.1, k) takeOldest
    rw [if_pos (List.mem_range.mpr hp)] at hpick
    rw [← hpick]
    apply List.filterMap_congr
    intro k _
    split <;> rfl
  simp only [listen, actions, hone]
  rfl

variable [DecidableEq ι]

theorem runs_quiet (st : State ι) {s : ι} (hs : net.IsSwitch s) :
    Runs net lossless st (act net (act net st (.control s)) (.execute s)) := by
  have hrun : Runs net lossless st (next net st (quiet s)) := by
    apply Runs.single (show Enabled net (quiet s) from hs)
    rw [actions_quiet]
    simp [lossless]
  rwa [next, actions_quiet] at hrun

theorem runs_listen (st : State ι) {p : Port ι} (hp : net.IsPort p) (hs : net.IsSwitch p.1) :
    Runs net lossless st (act net (act net (act net st (.control p.1)) (.receive p takeOldest))
      (.execute p.1)) := by
  have hrun : Runs net lossless st (next net st (listen p)) := by
    apply Runs.single (show Enabled net (listen p) from hs)
    rw [actions_listen hp]
    simp [lossless, takeOldest]
  rwa [next, actions_listen hp] at hrun

variable (net) in
theorem execute_channel (st : State ι) (s : ι) (q : Port ι) :
    ∃ l, (act net st (.execute s)).channel q = st.channel q ++ l := by
  cases hj : (st.switch s).jobQ with
  | nil => exact ⟨[], by rw [act_execute_nil hj, List.append_nil]⟩
  | cons job rest => exact ⟨_, by rw [act_execute_cons hj]; rfl⟩

variable (net) in
theorem listen_channel {st : State ι} {p : Port ι} {f : Frame} {rest : List Frame}
    (h : st.channel p = f :: rest) :
    ∃ l, (act net (act net (act net st (.control p.1)) (.receive p takeOldest))
      (.execute p.1)).channel p = rest ++ l := by
  have hf : ((act net st (.control p.1)).channel p)[takeOldest.index]? = some f := by
    change (st.channel p)[0]? = some f
    rw [h]
    rfl
  obtain ⟨l, hl⟩ := execute_channel net
    (act net (act net st (.control p.1)) (.receive p takeOldest)) p.1 p
  refine ⟨l, ?_⟩
  rw [hl, act_receive_some hf]
  change (Function.update st.channel p ((st.channel p).eraseIdx 0) p) ++ l = _
  rw [Function.update_self, h]
  rfl

theorem channel_front {p : Port ι} (hp : net.IsPort p) (hs : net.IsSwitch p.1) (i : ℕ)
    {st : State ι} {f : Frame} (hf : (st.channel p)[i]? = some f) :
    ∃ u, Runs net lossless st u ∧ ∃ l, u.channel p = f :: l := by
  induction i generalizing st with
  | zero =>
    cases hc : st.channel p with
    | nil => simp [hc] at hf
    | cons g l =>
      rw [hc] at hf
      cases hf
      exact ⟨st, .refl, l, hc⟩
  | succ i ih =>
    cases hc : st.channel p with
    | nil => simp [hc] at hf
    | cons g l =>
      obtain ⟨l', hl'⟩ := listen_channel net hc
      have hi : ((act net (act net (act net st (.control p.1)) (.receive p takeOldest))
          (.execute p.1)).channel p)[i]? = some f := by
        rw [hc, List.getElem?_cons_succ] at hf
        obtain ⟨hlt, _⟩ := List.getElem?_eq_some_iff.mp hf
        rwa [hl', List.getElem?_append_left hlt]
      obtain ⟨u, hu, hfront⟩ := ih hi
      exact ⟨u, (runs_listen st hp hs).trans hu, hfront⟩

/-- What a job sends depends on the parent and the flags only. -/
theorem sendsOn_congr {sw sw' : SwitchState} (hp : sw.localParent = sw'.localParent)
    (ht : sw.localPortTree = sw'.localPortTree) (job : SwitchJob) (k : ℕ) :
    sendsOn sw job k = sendsOn sw' job k := by
  have hfl : FloodsOn sw job k ↔ FloodsOn sw' job k := by rw [FloodsOn, FloodsOn, hp, ht]
  have hmark : childMark sw k job.packet = childMark sw' k job.packet := by
    rw [childMark, childMark, hp]
  simp only [sendsOn, hfl, hmark]

theorem controlTimer_keeps (id : ℤ) (stamp : ℕ) (sw : SwitchState) :
    (controlTimer id stamp sw).localParent = sw.localParent ∧
      (controlTimer id stamp sw).localPortTree = sw.localPortTree := by
  rw [controlTimer]
  split <;> exact ⟨rfl, rfl⟩

variable (net) in
theorem control_switch (st : State ι) (s : ι) : (act net st (.control s)).switch s =
    controlTimer (net.id s) st.clock (st.switch s) := Function.update_self _ _ _

variable (net) in
theorem execute_switch {st : State ι} {s : ι} {job : SwitchJob} {rest : List SwitchJob}
    (hj : (st.switch s).jobQ = job :: rest) :
    (act net st (.execute s)).switch s = { st.switch s with jobQ := rest } := by
  rw [act_execute_cons hj]
  exact Function.update_self _ _ _

def Sent (net : Topology ι) (s : ι) (sw : SwitchState) (job : SwitchJob) (u : State ι) : Prop :=
  ∀ q, net.IsPort q → (net.peer q).1 = s → ∀ f, sendsOn sw job (net.peer q).2 = some f →
    f ∈ u.channel q

theorem execute_reaches {s : ι} (hs : net.IsSwitch s) (i : ℕ) {v : State ι} {job : SwitchJob}
    (hj : (v.switch s).jobQ[i]? = some job) :
    ∃ u, Runs net lossless (act net v (.execute s)) u ∧ Sent net s (v.switch s) job u := by
  induction i generalizing v with
  | zero =>
    cases hq : (v.switch s).jobQ with
    | nil => simp [hq] at hj
    | cons j rest =>
      rw [hq] at hj
      cases hj
      refine ⟨_, .refl, ?_⟩
      intro q hp hw f hf
      rw [act_execute_cons hq]
      refine List.mem_append_right _ ?_
      rw [sentTo_jobSends hp, if_pos hw, hf]
      exact List.mem_singleton.mpr rfl
  | succ i ih =>
    cases hq : (v.switch s).jobQ with
    | nil => simp [hq] at hj
    | cons j rest =>
      have hsw := execute_switch net hq
      have hctl := control_switch net (act net v (.execute s)) s
      have hnext : ((act net (act net v (.execute s)) (.control s)).switch s).jobQ[i]? =
          some job := by
        rw [hq, List.getElem?_cons_succ] at hj
        obtain ⟨hlt, _⟩ := List.getElem?_eq_some_iff.mp hj
        rw [control_jobQ, hsw, List.getElem?_append_left hlt]
        exact hj
      obtain ⟨u, hu, hsent⟩ := ih hnext
      refine ⟨u, (runs_quiet _ hs).trans hu, ?_⟩
      intro q hp hw f hf
      apply hsent q hp hw f
      rw [← hf]
      have hkeep := controlTimer_keeps (net.id s) (act net v (.execute s)).clock
        ((act net v (.execute s)).switch s)
      rw [← hctl] at hkeep
      rw [hsw] at hkeep
      exact sendsOn_congr hkeep.1 hkeep.2 job _

/-- Ports only take more frames, and stamps only go up. -/
theorem actionRuns_received {D : Action ι → Prop} {st u : State ι} (h : ActionRuns net D st u)
    (q : Port ι) : st.received q <+: u.received q := by
  refine h.invariant (P := fun v => st.received q <+: v.received q) ?_ List.prefix_rfl
  intro v a _ _ hv
  rcases act_received net v a q with he | ⟨_, _, _, _, he⟩
  · rw [he]
    exact hv
  · rw [he]
    exact hv.trans (List.prefix_append _ _)

theorem runs_clock {D : Action ι → Prop} {st u : State ι} (h : Runs net D st u) :
    st.clock ≤ u.clock :=
  h.actionRuns.invariant (P := fun v => st.clock ≤ v.clock)
    (fun v a _ _ hv => hv.trans (act_clock_le net v a)) le_rfl

variable (net) in
theorem quiet_controlCount {st : State ι} {s : ι}
    (hc : (st.switch s).controlCount + 1 < controlCountMax) :
    ((act net (act net st (.control s)) (.execute s)).switch s).controlCount =
      (st.switch s).controlCount + 1 := by
  have hctl : ((act net st (.control s)).switch s).controlCount =
      (st.switch s).controlCount + 1 := by
    rw [control_switch, controlTimer, if_neg (by omega)]
  cases hj : ((act net st (.control s)).switch s).jobQ with
  | nil => rw [act_execute_nil hj, hctl]
  | cons job rest => rw [execute_switch net hj, hctl]

/-- A port can be offered a control packet that is made from now on, if a switch is at the
other end: its timer runs out after n quiet iterations. -/
theorem announce_reaches {q : Port ι} (hq : net.IsPort q) (hs : net.IsSwitch (net.peer q).1)
    (n : ℕ) {st : State ι}
    (hn : controlCountMax ≤ (st.switch (net.peer q).1).controlCount + 1 + n) :
    ∃ u, Runs net lossless st u ∧ ∃ f ∈ u.channel q, Fresh st (header f) := by
  induction n generalizing st with
  | zero =>
    have hjob := control_jobQ net st (net.peer q).1
    rw [if_pos hn] at hjob
    obtain ⟨u, hu, hsent⟩ := execute_reaches hs (st.switch (net.peer q).1).jobQ.length
      (v := act net st (.control (net.peer q).1)) (by rw [hjob, List.getElem?_concat_length])
    refine ⟨u, (runs_quiet st hs).trans hu, _, hsent q hq rfl _ rfl, rfl, le_rfl⟩
  | succ n ih =>
    by_cases hc : (st.switch (net.peer q).1).controlCount + 1 < controlCountMax
    · obtain ⟨u, hu, f, hf, hfr⟩ := ih (by rw [quiet_controlCount net hc]; omega)
      have hrun := runs_quiet st hs
      exact ⟨u, hrun.trans hu, f, hf, hfr.1, (runs_clock hrun).trans hfr.2⟩
    · exact ih (by omega)

def hostControl (id : ℤ) : Packet where
  src := Int8.ofInt id
  dst := 0
  type := pktControlPacket
  length := 0
  payload := fun _ => 0
  packetRootID := 0
  packetRootDist := 0
  packetSenderType := charH
  packetSenderChild := charY

theorem fresh_offered {q : Port ι} (hq : net.IsPort q) (st : State ι) :
    ∃ u, Runs net lossless st u ∧ ∃ f ∈ u.channel q, Fresh st (header f) := by
  by_cases hs : net.IsSwitch (net.peer q).1
  · exact announce_reaches hq hs controlCountMax (by omega)
  · let e : Event ι := .send (net.peer q).1 (hostControl (net.id (net.peer q).1))
    have hrun : Runs net lossless st (next net st e) :=
      Runs.single ⟨hs, rfl, fun _ => ⟨rfl, rfl⟩⟩ fun a ha => by
        rw [List.mem_singleton.mp ha]
        trivial
    refine ⟨_, hrun, ⟨hostControl (net.id (net.peer q).1), st.clock⟩, ?_, rfl, le_rfl⟩
    refine List.mem_append_right _ ?_
    rw [onAllPorts_sentTo hq, if_pos rfl]
    exact List.mem_singleton.mpr rfl

theorem taken_reaches {q : Port ι} (hq : net.IsPort q) (hs : net.IsSwitch q.1) {st : State ι}
    {f : Frame} (hf : f ∈ st.channel q) :
    ∃ u, Runs net lossless st u ∧ ∃ g ∈ u.received q, header g = header f := by
  obtain ⟨i, hi⟩ := List.mem_iff_getElem?.mp hf
  obtain ⟨v, hv, l, hl⟩ := channel_front hq hs i hi
  have hrun := runs_listen v hq hs
  have h0 : ((act net v (.control q.1)).channel q)[takeOldest.index]? = some f := by
    change (v.channel q)[0]? = some f
    rw [hl]
    rfl
  refine ⟨_, hv.trans hrun, f.deliver takeOldest.prior, ?_, rfl⟩
  have hrec : ∀ w : State ι, (act net w (.execute q.1)).received q = w.received q := by
    intro w
    rcases act_received net w (.execute q.1) q with he | ⟨_, _, ha, _⟩
    · exact he
    · rcases ha with ha | ha <;> cases ha
  rw [hrec, act_receive_some h0]
  simp [setSwitch, pull]

theorem all_heard (T : State ι) (l : List (Port ι))
    (hl : ∀ q ∈ l, net.IsPort q ∧ net.IsSwitch q.1) {st : State ι} (hc : T.clock ≤ st.clock) :
    ∃ u, Runs net lossless st u ∧ ∀ q ∈ l, ∃ f ∈ u.received q, Fresh T (header f) := by
  induction l generalizing st with
  | nil => exact ⟨st, .refl, fun q hq => by cases hq⟩
  | cons q l ih =>
    obtain ⟨hq, hs⟩ := hl q (by simp)
    obtain ⟨v, hv, f, hf, hfr⟩ := fresh_offered hq st
    obtain ⟨w, hw, g, hg, hgf⟩ := taken_reaches hq hs hf
    have hcw : T.clock ≤ w.clock := hc.trans (runs_clock (hv.trans hw))
    obtain ⟨u, hu, hall⟩ := ih (fun p hp => hl p (by simp [hp])) hcw
    refine ⟨u, (hv.trans hw).trans hu, ?_⟩
    intro p hp
    rcases List.mem_cons.mp hp with rfl | hp
    · refine ⟨g, (actionRuns_received hu.actionRuns p).subset hg, ?_⟩
      rw [hgf]
      exact ⟨hfr.1, hc.trans hfr.2⟩
    · exact hall p hp

omit [DecidableEq ι] in
/-- Ids are distinct and in 0..101, so there are finitely many nodes. -/
theorem finite_nodes (net : Topology ι) : Finite ι := by
  apply Finite.of_injective (fun v => (⟨net.id v, net.id_range v⟩ : Set.Icc (0 : ℤ) 101))
  intro v w h
  exact net.id_injective (congrArg Subtype.val h)

omit [DecidableEq ι] in
variable (net) in
theorem exists_ports : ∃ l : List (Port ι), ∀ q, q ∈ l ↔ net.IsPort q ∧ net.IsSwitch q.1 := by
  classical
  have := finite_nodes net
  have := Fintype.ofFinite ι
  refine ⟨(Finset.univ.toList.filter net.IsSwitch).flatMap fun v =>
    (List.range (net.nodePortNum v)).map fun k => (v, k), ?_⟩
  rintro ⟨v, k⟩
  simp [Topology.IsPort, and_comm]

variable (net) in
theorem exists_heard (st : State ι) : ∃ u, Runs net lossless st u ∧ Heard net st u := by
  obtain ⟨l, hl⟩ := exists_ports net
  obtain ⟨u, hu, hall⟩ := all_heard st l (fun q hq => (hl q).mp hq) le_rfl
  refine ⟨u, hu, ?_, ?_⟩
  · exact fun q hq => hall q ((hl q).mpr ⟨hq.1, hq.2.1⟩)
  · intro q hq hs _
    obtain ⟨f, hf, hfr⟩ := hall q ((hl q).mpr ⟨hq, hs⟩)
    exact ⟨f, hf, hfr.1⟩

end Continuations
