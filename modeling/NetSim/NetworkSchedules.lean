import NetSim.EventRuns
import NetSim.InfiniteRuns
import NetSim.Continuations

/-! Infinite schedules of the network. If every switch keeps going through its loop, timers run
out again and again and every queued job is executed; without loss and with every port polled
again and again, every frame on a link is taken. -/
namespace NetworkSchedules

open Filter PacketCodec SwitchNode NetworkTopology NetworkRuns LinkSends LinkTraffic FlagTree
  PortFlags Continuations InfiniteRuns
open EventRuns (Run)

variable {ι : Type} [DecidableEq ι] {net : Topology ι} {D : Action ι → Prop}

/-- One action of a run, with the action as its label. -/
def ActionStep (net : Topology ι) (D : Action ι → Prop) (st : State ι) (a : Action ι)
    (u : State ι) : Prop := Permitted net a ∧ D a ∧ u = act net st a

instance permittedDecidable (net : Topology ι) : DecidablePred (Permitted net)
  | .control s | .execute s => inferInstanceAs (Decidable (net.IsSwitch s))
  | .receive p _ => inferInstanceAs (Decidable (net.IsSwitch p.1 ∧ net.IsPort p))
  | .send h p => inferInstanceAs (Decidable (¬ net.IsSwitch h ∧ HostPacket net h p))
  | .poll p _ => inferInstanceAs (Decidable (¬ net.IsSwitch p.1 ∧ net.IsPort p))
  | .lose p _ => inferInstanceAs (Decidable (net.IsPort p))

/-- The packets that node h sends in a list of actions, oldest first. -/
def sentIn (h : ι) : List (Action ι) → List Packet
  | [] => []
  | .send v p :: as => if v = h then p :: sentIn h as else sentIn h as
  | _ :: as => sentIn h as

theorem sentIn_append (h : ι) (as bs : List (Action ι)) :
    sentIn h (as ++ bs) = sentIn h as ++ sentIn h bs := by
  induction as with
  | nil => rfl
  | cons a as ih =>
    cases a with
    | send v p =>
      simp only [List.cons_append, sentIn, ih]
      split
      · rfl
      · rfl
    | control s => exact ih
    | receive p rx => exact ih
    | execute s => exact ih
    | poll p rx => exact ih
    | lose p i => exact ih

theorem sentIn_singleton (h : ι) (a : Action ι) :
    sentIn h [a] = [] ∧ (∀ p, a ≠ .send h p) ∨ ∃ p, a = .send h p ∧ sentIn h [a] = [p] := by
  cases a with
  | send v p =>
    by_cases hv : v = h
    · subst hv
      exact Or.inr ⟨p, rfl, if_pos rfl⟩
    · refine Or.inl ⟨if_neg hv, ?_⟩
      rintro r he
      cases he
      exact hv rfl
  | _ => exact Or.inl ⟨rfl, nofun⟩

theorem run_foldl {D : Action ι → Prop} {as : List (Action ι)}
    (h : ∀ a ∈ as, Permitted net a ∧ D a) (st : State ι) :
    Run (ActionStep net D) st as (as.foldl (act net) st) := by
  induction as generalizing st with
  | nil => exact .nil st
  | cons a as ih =>
    obtain ⟨ha, hrest⟩ := List.forall_mem_cons.mp h
    exact .cons ⟨ha.1, ha.2, rfl⟩ (ih hrest _)

theorem actionRuns_of_run {st u : State ι} {as : List (Action ι)}
    (h : Run (ActionStep net D) st as u) : ActionRuns net D st u := by
  refine h.invariant (I := ActionRuns net D st) ?_ .refl
  rintro v a w hstep hv
  exact hv.tail ⟨a, hstep⟩

def relax {E : Action ι → Prop} (e : Execution (ActionStep net D)) (h : ∀ a, D a → E a) :
    Execution (ActionStep net E) := e.mono fun _ a _ hs => ⟨hs.1, h a hs.2.1, hs.2.2⟩

theorem actionRuns_between (e : Execution (ActionStep net D)) {t u : ℕ} (htu : t ≤ u) :
    ActionRuns net D (e.state t) (e.state u) :=
  e.relates (fun _ => .refl) (fun _ a _ _ h hs => h.tail ⟨a, hs⟩) htu

theorem reachable_at (e : Execution (ActionStep net D)) (h0 : e.state 0 = initial net) (t : ℕ) :
    ActionReachable net D (e.state t) := by
  have hrun := actionRuns_between e (Nat.zero_le t)
  rwa [h0] at hrun

theorem clock_mono (e : Execution (ActionStep net D)) {t u : ℕ} (htu : t ≤ u) :
    (e.state t).clock ≤ (e.state u).clock := by
  refine e.relates (R := fun s v => s.clock ≤ v.clock) (fun _ => le_rfl) ?_ htu
  rintro s a u v h ⟨_, _, rfl⟩
  exact h.trans (act_clock_le net u a)

theorem received_mono (e : Execution (ActionStep net D)) {t u : ℕ} (htu : t ≤ u) (q : Port ι) :
    (e.state t).received q <+: (e.state u).received q :=
  actionRuns_received (actionRuns_between e htu) q

variable (net) in
/-- The job queue of a switch grows at its end unless the switch executes a job. -/
theorem act_jobQ (st : State ι) (a : Action ι) (s : ι) :
    (a ≠ .execute s → (st.switch s).jobQ <+: ((act net st a).switch s).jobQ) ∧
      ((act net st (.execute s)).switch s).jobQ = (st.switch s).jobQ.tail := by
  constructor
  · intro ha
    rcases act_switch net st a s with he | ⟨rfl, _⟩ | ⟨p, rx, f, rfl, rfl, hf, _⟩ | ⟨_, _, rfl, _⟩
    · rw [he]
    · rw [control_jobQ]
      exact List.prefix_append _ _
    · rw [receive_jobQ net hf]
      exact List.prefix_append _ _
    · exact absurd rfl ha
  · cases hj : (st.switch s).jobQ with
    | nil => rw [act_execute_nil hj, hj]; rfl
    | cons job rest =>
      rw [act_execute_cons hj]
      change (Function.update st.switch s _ s).jobQ = _
      rw [Function.update_self]
      rfl

theorem job_queue (e : Execution (ActionStep net D)) (s : ι) :
    Queue (fun t => ((e.state t).switch s).jobQ) (fun t => e.label t = .execute s) where
  waits t ht := by
    rw [(e.valid t).2.2]
    exact (act_jobQ net _ _ s).1 ht
  leaves t ht := by
    rw [(e.valid t).2.2, ht, (act_jobQ net _ (.execute s) s).2]

theorem control_timer (e : Execution (ActionStep net D)) (s : ι) :
    Timer (fun t => ((e.state t).switch s).controlCount) (fun t => e.label t = .control s)
      controlCountMax where
  keeps t ht := by
    rw [(e.valid t).2.2]
    rcases act_switch net (e.state t) (e.label t) s with he | ⟨ha, _⟩ | ⟨p, rx, f, _, _, _, he⟩ |
      ⟨_, _, _, _, he⟩
    · rw [he]
    · exact absurd ha ht
    · rw [he, receivePacket_controlCount]
    · rw [he]
  counts t ht hlt := by
    rw [(e.valid t).2.2, ht, control_switch, controlTimer, if_neg (by omega)]

theorem job_sent (e : Execution (ActionStep net D)) {s : ι}
    (hjobs : ∃ᶠ t in atTop, e.label t = .execute s) {t : ℕ} {job : SwitchJob}
    (hj : job ∈ ((e.state t).switch s).jobQ) :
    ∃ u, t ≤ u ∧ Sent net s ((e.state u).switch s) job (e.state (u + 1)) := by
  obtain ⟨u, htu, hu, hfront⟩ := (job_queue e s).mem_served hjobs hj
  refine ⟨u, htu, ?_⟩
  cases hq : ((e.state u).switch s).jobQ with
  | nil => simp [hq] at hfront
  | cons j rest =>
    rw [hq] at hfront
    cases hfront
    intro q hp hw f hf
    rw [(e.valid u).2.2, hu, act_execute_cons hq]
    refine List.mem_append_right _ ?_
    rw [sentTo_jobSends hp, if_pos hw, hf]
    exact List.mem_singleton.mpr rfl

def Reads (q : Port ι) (a : Action ι) : Prop := ∃ rx, a = .receive q rx ∨ a = .poll q rx

variable (net) in
/-- Without loss a channel grows at its end unless its port is read. -/
theorem act_channel {st : State ι} {a : Action ι} (hl : lossless a) (q : Port ι) :
    (¬ Reads q a → st.channel q <+: (act net st a).channel q) ∧
      (Reads q a → (act net st a).channel q = (st.channel q).tail) := by
  constructor
  · intro hno
    cases a with
    | control s => exact List.prefix_rfl
    | receive p rx =>
      have hne : q ≠ p := by
        rintro rfl
        exact hno ⟨rx, Or.inl rfl⟩
      cases hf : (st.channel p)[rx.index]? with
      | none => rw [act_receive_none hf]
      | some f => simp [act_receive_some hf, setSwitch, pull, hne]
    | execute s =>
      obtain ⟨l, hl⟩ := execute_channel net st s q
      exact ⟨l, hl.symm⟩
    | send h p => exact List.prefix_append _ _
    | poll p rx =>
      have hne : q ≠ p := by
        rintro rfl
        exact hno ⟨rx, Or.inr rfl⟩
      cases hf : (st.channel p)[rx.index]? with
      | none => rw [act_poll_none hf]
      | some f => simp [act_poll_some hf, pull, hne]
    | lose p i => exact hl.elim
  · rintro ⟨rx, ha⟩
    have hi : rx.index = 0 := by
      rcases ha with rfl | rfl
      · exact hl
      · exact hl
    cases hc : st.channel q with
    | nil =>
      have hf : (st.channel q)[rx.index]? = none := by simp [hc]
      rcases ha with rfl | rfl
      · rw [act_receive_none hf, hc]
        rfl
      · rw [act_poll_none hf, hc]
        rfl
    | cons f rest =>
      have hf : (st.channel q)[rx.index]? = some f := by simp [hc, hi]
      rcases ha with rfl | rfl
      · simp [act_receive_some hf, setSwitch, pull, hc, hi]
      · simp [act_poll_some hf, pull, hc, hi]

theorem channel_queue (e : Execution (ActionStep net lossless)) (q : Port ι) :
    Queue (fun t => (e.state t).channel q) (fun t => Reads q (e.label t)) where
  waits t ht := by
    obtain ⟨_, hl, hu⟩ := e.valid t
    rw [hu]
    exact (act_channel net hl q).1 ht
  leaves t ht := by
    obtain ⟨_, hl, hu⟩ := e.valid t
    rw [hu, (act_channel net hl q).2 ht]

def Polled (e : Execution (ActionStep net D)) (q : Port ι) : Prop :=
  ∃ᶠ t in atTop, Reads q (e.label t)

theorem frame_read (e : Execution (ActionStep net lossless)) {q : Port ι} (hpolls : Polled e q)
    {t : ℕ} {f : Frame} (hf : f ∈ (e.state t).channel q) :
    ∃ u rx, t ≤ u ∧ (e.label u = .receive q rx ∨ e.label u = .poll q rx) ∧
      ((e.state u).channel q)[rx.index]? = some f := by
  obtain ⟨u, htu, ⟨rx, hrx⟩, hfront⟩ := (channel_queue e q).mem_served hpolls hf
  refine ⟨u, rx, htu, hrx, ?_⟩
  have hl := (e.valid u).2.1
  have hi : rx.index = 0 := by
    rcases hrx with h | h
    · rw [h] at hl
      exact hl
    · rw [h] at hl
      exact hl
  rw [hi]
  exact hfront

theorem frame_taken (e : Execution (ActionStep net lossless)) {q : Port ι} (hpolls : Polled e q)
    {t : ℕ} {f : Frame} (hf : f ∈ (e.state t).channel q) :
    ∃ u, t ≤ u ∧ ∃ g ∈ (e.state u).received q, header g = header f := by
  obtain ⟨u, rx, htu, hrx, hget⟩ := frame_read e hpolls hf
  refine ⟨u + 1, by omega, f.deliver rx.prior, ?_, rfl⟩
  rw [(e.valid u).2.2]
  rcases hrx with h | h
  · rw [h, act_receive_some hget]
    simp [setSwitch, pull]
  · rw [h, act_poll_some hget]
    simp [pull]

theorem announced (e : Execution (ActionStep net D)) {q : Port ι} (hq : net.IsPort q)
    (htimer : ∃ᶠ t in atTop, e.label t = .control (net.peer q).1)
    (hjobs : ∃ᶠ t in atTop, e.label t = .execute (net.peer q).1) (t : ℕ) :
    ∃ u, t ≤ u ∧ ∃ f ∈ (e.state u).channel q, Fresh (e.state t) (header f) := by
  obtain ⟨u, htu, hu, hlim⟩ := frequently_atTop.mp ((control_timer e _).fires htimer) t
  let job : SwitchJob := ⟨.sendPktAllPorts, ⟨controlPacket (net.id (net.peer q).1)
    ((e.state u).switch (net.peer q).1), (e.state u).clock⟩, 0, 0⟩
  have hjob : job ∈ ((e.state (u + 1)).switch (net.peer q).1).jobQ := by
    rw [(e.valid u).2.2, hu, control_jobQ, if_pos hlim]
    exact List.mem_append_right _ (List.mem_singleton.mpr rfl)
  obtain ⟨v, huv, hsent⟩ := job_sent e hjobs hjob
  exact ⟨v + 1, by omega, _, hsent q hq rfl _ rfl, rfl, clock_mono e htu⟩

/-- Every switch keeps going through its loop: its timer counts and it executes jobs. -/
structure Live (e : Execution (ActionStep net D)) : Prop where
  timers : ∀ s, net.IsSwitch s → ∃ᶠ t in atTop, e.label t = .control s
  jobs : ∀ s, net.IsSwitch s → ∃ᶠ t in atTop, e.label t = .execute s

def Recent (n : ℕ) (f : Frame) : Prop := f.type = pktControlPacket ∧ n ≤ f.stamp

/-- A host or the DNS server announces itself at time t. -/
def AnnouncesAt (e : Execution (ActionStep net D)) (h : ι) (t : ℕ) : Prop :=
  ∃ p : Packet, p.type = pktControlPacket ∧ e.label t = .send h p

theorem announced_channel {e : Execution (ActionStep net D)} {q : Port ι} (hq : net.IsPort q)
    {t : ℕ} (h : AnnouncesAt e (net.peer q).1 t) :
    ∃ f ∈ (e.state (t + 1)).channel q, Recent 0 f := by
  obtain ⟨p, hp, hlabel⟩ := h
  refine ⟨⟨p, (e.state t).clock⟩, ?_, hp, Nat.zero_le _⟩
  rw [(e.valid t).2.2, hlabel]
  refine List.mem_append_right _ ?_
  rw [onAllPorts_sentTo hq, if_pos rfl]
  exact List.mem_singleton.mpr rfl

def turns : List (Action (Fin 3)) :=
  [.control 0, .control 1, .execute 0, .execute 1, .receive (0, 0) takeOldest,
    .receive (0, 1) takeOldest, .receive (1, 0) takeOldest, .send 2 hostHello]

theorem turns_permitted : ∀ a ∈ turns, Permitted hostedPair a ∧ lossless a := by
  decide +kernel

def takingTurns : Execution (ActionStep hostedPair lossless) :=
  Execution.cycle (f := act hostedPair) (l := turns) (by decide) (initial hostedPair)
    fun _ a ha => ⟨(turns_permitted a ha).1, (turns_permitted a ha).2, rfl⟩

theorem takingTurns_often {a : Action (Fin 3)} (ha : a ∈ turns) :
    ∃ᶠ t in atTop, takingTurns.label t = a := Execution.cycle_often _ _ _ ha

theorem takingTurns_live : Live takingTurns where
  timers s hs := by
    apply takingTurns_often
    fin_cases s
    · simp [turns]
    · simp [turns]
    · exact absurd hs (by decide)
  jobs s hs := by
    apply takingTurns_often
    fin_cases s
    · simp [turns]
    · simp [turns]
    · exact absurd hs (by decide)

theorem takingTurns_polls : ∀ q, hostedPair.IsPort q → hostedPair.IsSwitch q.1 →
    Polled takingTurns q := by
  have hports : ∀ v : Fin 3, hostedPair.IsSwitch v → ∀ k < hostedPair.nodePortNum v,
      v = 0 ∧ k = 0 ∨ v = 0 ∧ k = 1 ∨ v = 1 ∧ k = 0 := by decide
  rintro ⟨v, k⟩ hq hs
  have hturn : Action.receive (v, k) takeOldest ∈ turns := by
    rcases hports v hs k hq with ⟨rfl, rfl⟩ | ⟨rfl, rfl⟩ | ⟨rfl, rfl⟩ <;> simp [turns]
  exact (takingTurns_often hturn).mono fun t ht => ⟨takeOldest, Or.inl ht⟩

theorem takingTurns_announces : ∀ h, ¬ hostedPair.IsSwitch h →
    ∃ᶠ t in atTop, AnnouncesAt takingTurns h t := by
  intro h hh
  have hhost : ∀ v : Fin 3, ¬ hostedPair.IsSwitch v → v = 2 := by decide
  have hturn : Action.send h hostHello ∈ turns := by
    rw [hhost h hh]
    simp [turns]
  exact (takingTurns_often hturn).mono fun t ht => ⟨hostHello, rfl, ht⟩

end NetworkSchedules
