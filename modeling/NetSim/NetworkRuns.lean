import NetSim.SwitchNode
import NetSim.NetworkTopology
import Mathlib.Logic.Relation

/-! The whole network. A switch takes one iteration of its loop at a time: control timer, one
poll of every port, one job. Hosts and the DNS server send packets of their own and read
their ports. A poll may miss a packet that is already in the channel, so an iteration whose
parts are spread over time is covered, and any frame of a channel may be taken: `fifo` and
`lossless` name the runs where only the oldest is, and where none is dropped. -/
namespace NetworkRuns

open PacketCodec SwitchNode NetworkTopology

variable {ι : Type}

/-- `channel p` holds what travels toward port p, oldest first. `received` and `clock` are
ghosts: the frames each port has taken, and the number of stamps given out. -/
structure State (ι : Type) where
  switch : ι → SwitchState
  channel : Port ι → List Frame
  received : Port ι → List Frame
  clock : ℕ

/-- One successful poll: which frame of the channel is taken, what the packet buffer held,
and what an unset or stray read makes of the job. -/
structure Rx where
  index : ℕ
  prior : Fin payloadMax → Int8
  stray : Stray

def takeOldest : Rx := ⟨0, fun _ => 0, ⟨.other, 0⟩⟩

inductive Action (ι : Type) where
  | control (s : ι)
  | receive (p : Port ι) (rx : Rx)
  | execute (s : ι)
  | send (h : ι) (p : Packet)
  | poll (p : Port ι) (rx : Rx)
  | lose (p : Port ι) (i : ℕ)

inductive Event (ι : Type) where
  | iterate (s : ι) (rx : ℕ → Option Rx)
  | send (h : ι) (p : Packet)
  | poll (p : Port ι) (rx : Rx)
  | lose (p : Port ι) (i : ℕ)

def quiet (s : ι) : Event ι := .iterate s fun _ => none

def sweep (s : ι) : Event ι := .iterate s fun _ => some takeOldest

/-- An iteration whose reads of `isValid` and `portNumber` outside the table give `True` and k. -/
def strayForward (s : ι) (k : ℕ) : Event ι :=
  .iterate s fun _ => some ⟨0, fun _ => 0, ⟨.forwardPacket, k⟩⟩

variable (net : Topology ι)

def actions : Event ι → List (Action ι)
  | .iterate s rx =>
    .control s ::
      ((List.range (net.nodePortNum s)).filterMap fun k => (rx k).map (.receive (s, k)))
      ++ [.execute s]
  | .send h p => [.send h p]
  | .poll p rx => [.poll p rx]
  | .lose p i => [.lose p i]

/-- What a host or the DNS server sends: its own id as source, and in a control packet the
sender type 'H'. -/
def HostPacket (h : ι) (p : Packet) : Prop :=
  p.src = Int8.ofInt (net.id h) ∧
    (p.type = pktControlPacket → p.packetSenderType = charH ∧ p.packetSenderChild = charY)

def Permitted : Action ι → Prop
  | .control s | .execute s => net.IsSwitch s
  | .receive p _ => net.IsSwitch p.1 ∧ net.IsPort p
  | .send h p => ¬ net.IsSwitch h ∧ HostPacket net h p
  | .poll p _ => ¬ net.IsSwitch p.1 ∧ net.IsPort p
  | .lose p _ => net.IsPort p

def Enabled : Event ι → Prop
  | .iterate s _ => net.IsSwitch s
  | .send h p => ¬ net.IsSwitch h ∧ HostPacket net h p
  | .poll p _ => ¬ net.IsSwitch p.1 ∧ net.IsPort p
  | .lose p _ => net.IsPort p

instance (h : ι) (p : Packet) : Decidable (HostPacket net h p) :=
  inferInstanceAs (Decidable (_ ∧ (_ → _ ∧ _)))

instance : DecidablePred (Enabled net)
  | .iterate s _ => inferInstanceAs (Decidable (net.IsSwitch s))
  | .send h p => inferInstanceAs (Decidable (¬ net.IsSwitch h ∧ HostPacket net h p))
  | .poll p _ => inferInstanceAs (Decidable (¬ net.IsSwitch p.1 ∧ net.IsPort p))
  | .lose p _ => inferInstanceAs (Decidable (net.IsPort p))

def anyOrder : Action ι → Prop := fun _ => True

def fifo : Action ι → Prop
  | .receive _ rx | .poll _ rx => rx.index = 0
  | _ => True

def lossless : Action ι → Prop
  | .receive _ rx | .poll _ rx => rx.index = 0
  | .lose _ _ => False
  | _ => True

instance : DecidablePred (anyOrder (ι := ι)) := fun _ => inferInstanceAs (Decidable True)

instance : DecidablePred (fifo (ι := ι))
  | .receive _ rx | .poll _ rx => inferInstanceAs (Decidable (rx.index = 0))
  | .control _ | .execute _ | .send _ _ | .lose _ _ => inferInstanceAs (Decidable True)

instance : DecidablePred (lossless (ι := ι))
  | .receive _ rx | .poll _ rx => inferInstanceAs (Decidable (rx.index = 0))
  | .lose _ _ => inferInstanceAs (Decidable False)
  | .control _ | .execute _ | .send _ _ => inferInstanceAs (Decidable True)

theorem lossless_fifo {a : Action ι} (h : lossless a) : fifo a := by
  cases a <;> first | exact h | trivial

variable {net} in
theorem mem_actions_permitted {e : Event ι} (he : Enabled net e) {a : Action ι}
    (ha : a ∈ actions net e) : Permitted net a := by
  cases e with
  | iterate s rx =>
    simp only [actions, List.mem_append, List.mem_cons, List.mem_filterMap, List.mem_range,
      Option.map_eq_some_iff, List.not_mem_nil, or_false] at ha
    rcases ha with (rfl | ⟨k, hk, r, _, rfl⟩) | rfl
    · exact he
    · exact ⟨he, hk⟩
    · exact he
  | send h p => exact (List.mem_singleton.mp ha) ▸ he
  | poll p rx => exact (List.mem_singleton.mp ha) ▸ he
  | lose p i => exact (List.mem_singleton.mp ha) ▸ he

variable [DecidableEq ι]

def initial : State ι := ⟨fun v => switchInit (net.id v), fun _ => [], fun _ => [], 0⟩

/-- The frames that `s` puts on the link ending at port q. -/
def sentTo (s : ι) (outs : List (ℕ × Frame)) (q : Port ι) : List Frame :=
  outs.filterMap fun o => if net.IsPort (s, o.1) ∧ net.peer (s, o.1) = q then some o.2 else none

def setSwitch (st : State ι) (s : ι) (sw : SwitchState) : State ι :=
  { st with switch := Function.update st.switch s sw }

def transmit (st : State ι) (s : ι) (outs : List (ℕ × Frame)) : State ι :=
  { st with channel := fun q => st.channel q ++ sentTo net s outs q }

def pull (st : State ι) (p : Port ι) (i : ℕ) (f : Frame) : State ι :=
  { st with
    channel := Function.update st.channel p ((st.channel p).eraseIdx i)
    received := Function.update st.received p (st.received p ++ [f]) }

def onAllPorts (v : ι) (f : Frame) : List (ℕ × Frame) :=
  (List.range (net.nodePortNum v)).map fun k => (k, f)

def act (st : State ι) : Action ι → State ι
  | .control s =>
    { setSwitch st s (controlTimer (net.id s) st.clock (st.switch s)) with clock := st.clock + 1 }
  | .receive p rx =>
    match (st.channel p)[rx.index]? with
    | none => st
    | some f => setSwitch (pull st p rx.index (f.deliver rx.prior)) p.1
        (receivePacket p.2 (f.deliver rx.prior) rx.stray (st.switch p.1))
  | .execute s =>
    let r := executeJob (net.nodePortNum s) (st.switch s)
    transmit net (setSwitch st s r.1) s r.2
  | .send h p => { transmit net st h (onAllPorts net h ⟨p, st.clock⟩) with clock := st.clock + 1 }
  | .poll p rx =>
    match (st.channel p)[rx.index]? with
    | none => st
    | some f => pull st p rx.index (f.deliver rx.prior)
  | .lose p i => { st with channel := Function.update st.channel p ((st.channel p).eraseIdx i) }

def next (st : State ι) (e : Event ι) : State ι := (actions net e).foldl (act net) st

def Step (st : State ι) (e : Event ι) (u : State ι) : Prop := Enabled net e ∧ u = next net st e

/-- Runs all of whose actions obey D. -/
def Runs (D : Action ι → Prop) : State ι → State ι → Prop :=
  Relation.ReflTransGen fun st u => ∃ e, (∀ a ∈ actions net e, D a) ∧ Step net st e u

def Reachable (D : Action ι → Prop) (st : State ι) : Prop := Runs net D (initial net) st

def ActionRuns (D : Action ι → Prop) : State ι → State ι → Prop :=
  Relation.ReflTransGen fun st u => ∃ a, Permitted net a ∧ D a ∧ u = act net st a

def ActionReachable (D : Action ι → Prop) (st : State ι) : Prop := ActionRuns net D (initial net) st

variable {net}

theorem actionRuns_foldl {D : Action ι → Prop} (l : List (Action ι)) (st : State ι)
    (h : ∀ a ∈ l, Permitted net a ∧ D a) : ActionRuns net D st (l.foldl (act net) st) := by
  induction l generalizing st with
  | nil => exact .refl
  | cons a l ih =>
    obtain ⟨hp, hd⟩ := h a (by simp)
    exact .head ⟨a, hp, hd, rfl⟩ (ih _ (fun b hb => h b (by simp [hb])))

theorem Runs.actionRuns {D : Action ι → Prop} {st u : State ι} (h : Runs net D st u) :
    ActionRuns net D st u := by
  induction h with
  | refl => exact .refl
  | tail _ h ih =>
    obtain ⟨e, hd, he, rfl⟩ := h
    exact ih.trans (actionRuns_foldl _ _ fun a ha => ⟨mem_actions_permitted he ha, hd a ha⟩)

theorem ActionRuns.invariant {D : Action ι → Prop} {P : State ι → Prop}
    (hact : ∀ st a, Permitted net a → D a → P st → P (act net st a)) {st u : State ι}
    (h : ActionRuns net D st u) (hs : P st) : P u := by
  induction h with
  | refl => exact hs
  | tail _ h ih =>
    obtain ⟨a, hp, hd, rfl⟩ := h
    exact hact _ a hp hd ih

theorem Reachable.actions {D : Action ι → Prop} {st : State ι} (h : Reachable net D st) :
    ActionReachable net D st := Runs.actionRuns h

theorem Runs.mono {D E : Action ι → Prop} (hde : ∀ a, D a → E a) {st u : State ι}
    (h : Runs net D st u) : Runs net E st u := by
  induction h with
  | refl => exact .refl
  | tail _ h ih =>
    obtain ⟨e, hd, hs⟩ := h
    exact ih.tail ⟨e, fun a ha => hde a (hd a ha), hs⟩

theorem Runs.fifo {st u : State ι} (h : Runs net lossless st u) : Runs net fifo st u :=
  h.mono fun _ => lossless_fifo

theorem Runs.single {D : Action ι → Prop} {st : State ι} {e : Event ι} (he : Enabled net e)
    (hd : ∀ a ∈ actions net e, D a) : Runs net D st (next net st e) :=
  Relation.ReflTransGen.single ⟨e, hd, he, rfl⟩

theorem Runs.send {st : State ι} {h : ι} {p : Packet} (he : Enabled net (.send h p)) :
    Runs net lossless st (next net st (.send h p)) :=
  Runs.single he fun _ ha => (List.mem_singleton.mp ha) ▸ trivial

/-- Every event of a list may happen, one after the other. -/
def AllEnabled (net : Topology ι) (D : Action ι → Prop) : List (Event ι) → Prop
  | [] => True
  | e :: es => (Enabled net e ∧ ∀ a ∈ actions net e, D a) ∧ AllEnabled net D es

instance decidableAllEnabled (D : Action ι → Prop) [DecidablePred D] :
    (es : List (Event ι)) → Decidable (AllEnabled net D es)
  | [] => inferInstanceAs (Decidable True)
  | e :: es =>
    have := decidableAllEnabled D es
    inferInstanceAs (Decidable ((Enabled net e ∧ ∀ a ∈ actions net e, D a) ∧ AllEnabled net D es))

theorem Runs.events {D : Action ι → Prop} (es : List (Event ι)) {st : State ι}
    (h : AllEnabled net D es) : Runs net D st (es.foldl (next net) st) := by
  induction es generalizing st with
  | nil => exact .refl
  | cons e es ih => exact (Runs.single h.1.1 h.1.2).trans (ih h.2)

theorem executeJob_nil {n : ℕ} {sw : SwitchState} (h : sw.jobQ = []) :
    executeJob n sw = (sw, []) := by
  unfold executeJob
  split
  · rfl
  · next hc => rw [h] at hc; cases hc

theorem executeJob_cons {n : ℕ} {sw : SwitchState} {job : SwitchJob} {rest : List SwitchJob}
    (h : sw.jobQ = job :: rest) :
    executeJob n sw = ({ sw with jobQ := rest }, jobSends n sw job) := by
  unfold executeJob
  split
  · next hc => rw [h] at hc; cases hc
  · next hc =>
    rw [h] at hc
    cases hc
    rfl

theorem setSwitch_self (st : State ι) (s : ι) : setSwitch st s (st.switch s) = st := by
  simp [setSwitch]

theorem transmit_nil (st : State ι) (s : ι) : transmit net st s [] = st := by
  simp [transmit, sentTo]

theorem act_execute_nil {st : State ι} {s : ι} (h : (st.switch s).jobQ = []) :
    act net st (.execute s) = st := by
  simp only [act, executeJob_nil h, setSwitch_self, transmit_nil]

theorem act_execute_cons {st : State ι} {s : ι} {job : SwitchJob} {rest : List SwitchJob}
    (h : (st.switch s).jobQ = job :: rest) :
    act net st (.execute s) = transmit net (setSwitch st s { st.switch s with jobQ := rest }) s
      (jobSends (net.nodePortNum s) (st.switch s) job) := by
  simp only [act, executeJob_cons h]

theorem act_receive_none {st : State ι} {p : Port ι} {rx : Rx}
    (h : (st.channel p)[rx.index]? = none) : act net st (.receive p rx) = st := by
  simp only [act, h]

theorem act_receive_some {st : State ι} {p : Port ι} {rx : Rx} {f : Frame}
    (h : (st.channel p)[rx.index]? = some f) :
    act net st (.receive p rx) = setSwitch (pull st p rx.index (f.deliver rx.prior)) p.1
      (receivePacket p.2 (f.deliver rx.prior) rx.stray (st.switch p.1)) := by
  simp only [act, h]

theorem receive_switch {st : State ι} {p : Port ι} {rx : Rx} {f : Frame}
    (h : (st.channel p)[rx.index]? = some f) : (act net st (.receive p rx)).switch p.1 =
      receivePacket p.2 (f.deliver rx.prior) rx.stray (st.switch p.1) := by
  rw [act_receive_some h]
  exact Function.update_self _ _ _

theorem act_poll_none {st : State ι} {p : Port ι} {rx : Rx}
    (h : (st.channel p)[rx.index]? = none) : act net st (.poll p rx) = st := by
  simp only [act, h]

theorem act_poll_some {st : State ι} {p : Port ι} {rx : Rx} {f : Frame}
    (h : (st.channel p)[rx.index]? = some f) :
    act net st (.poll p rx) = pull st p rx.index (f.deliver rx.prior) := by
  simp only [act, h]

variable (net) in
theorem act_switch (st : State ι) (a : Action ι) (s : ι) :
    (act net st a).switch s = st.switch s ∨
    (a = .control s ∧
      (act net st a).switch s = controlTimer (net.id s) st.clock (st.switch s)) ∨
    (∃ p rx f, a = .receive p rx ∧ p.1 = s ∧ (st.channel p)[rx.index]? = some f ∧
      (act net st a).switch s = receivePacket p.2 (f.deliver rx.prior) rx.stray (st.switch s)) ∨
    (∃ job rest, a = .execute s ∧ (st.switch s).jobQ = job :: rest ∧
      (act net st a).switch s = { st.switch s with jobQ := rest }) := by
  cases a with
  | control v =>
    by_cases hv : s = v
    · subst v
      exact Or.inr (Or.inl ⟨rfl, by simp [act, setSwitch]⟩)
    · exact Or.inl (by simp [act, setSwitch, hv])
  | receive p rx =>
    cases hf : (st.channel p)[rx.index]? with
    | none => exact Or.inl (by rw [act_receive_none hf])
    | some f =>
      rw [act_receive_some hf]
      by_cases hv : s = p.1
      · exact Or.inr (Or.inr (Or.inl ⟨p, rx, f, rfl, hv.symm, hf, by simp [setSwitch, hv]⟩))
      · exact Or.inl (by simp [setSwitch, pull, hv])
  | execute v =>
    cases hj : (st.switch v).jobQ with
    | nil => exact Or.inl (by rw [act_execute_nil hj])
    | cons job rest =>
      rw [act_execute_cons hj]
      by_cases hv : s = v
      · subst v
        exact Or.inr (Or.inr (Or.inr ⟨job, rest, rfl, hj, by simp [transmit, setSwitch]⟩))
      · exact Or.inl (by simp [transmit, setSwitch, hv])
  | send h p => exact Or.inl rfl
  | poll p rx =>
    cases hf : (st.channel p)[rx.index]? with
    | none => exact Or.inl (by rw [act_poll_none hf])
    | some f => exact Or.inl (by rw [act_poll_some hf]; rfl)
  | lose p i => exact Or.inl rfl

theorem controlTimer_lookupTable (id : ℤ) (stamp : ℕ) (sw : SwitchState) :
    (controlTimer id stamp sw).lookupTable = sw.lookupTable := by
  unfold controlTimer
  split <;> rfl

variable (net) in
/-- Tables change only when a switch takes a frame, and then they learn its source. -/
theorem act_lookupTable (st : State ι) (a : Action ι) (s : ι) :
    ((act net st a).switch s).lookupTable = (st.switch s).lookupTable ∨
    ∃ p rx f, a = .receive p rx ∧ p.1 = s ∧ (st.channel p)[rx.index]? = some f ∧
      ((act net st a).switch s).lookupTable =
        (st.switch s).lookupTable.learn f.src.toInt p.2 := by
  rcases act_switch net st a s with h | ⟨_, h⟩ | ⟨p, rx, f, ha, hp, hf, h⟩ | ⟨_, _, _, _, h⟩
  · exact Or.inl (by rw [h])
  · exact Or.inl (by rw [h, controlTimer_lookupTable])
  · exact Or.inr ⟨p, rx, f, ha, hp, hf, by rw [h, receivePacket_lookupTable]; rfl⟩
  · exact Or.inl (by rw [h])

variable (net) in
/-- Ports take frames in reads of their own node only. -/
theorem act_received (st : State ι) (a : Action ι) (q : Port ι) :
    (act net st a).received q = st.received q ∨
    ∃ rx f, (a = .receive q rx ∨ a = .poll q rx) ∧ (st.channel q)[rx.index]? = some f ∧
      (act net st a).received q = st.received q ++ [f.deliver rx.prior] := by
  cases a with
  | receive p rx =>
    cases hf : (st.channel p)[rx.index]? with
    | none => exact Or.inl (by rw [act_receive_none hf])
    | some f =>
      rw [act_receive_some hf]
      by_cases hq : q = p
      · subst q
        exact Or.inr ⟨rx, f, Or.inl rfl, hf, by simp [setSwitch, pull]⟩
      · exact Or.inl (by simp [setSwitch, pull, hq])
  | poll p rx =>
    cases hf : (st.channel p)[rx.index]? with
    | none => exact Or.inl (by rw [act_poll_none hf])
    | some f =>
      rw [act_poll_some hf]
      by_cases hq : q = p
      · subst q
        exact Or.inr ⟨rx, f, Or.inr rfl, hf, by simp [pull]⟩
      · exact Or.inl (by simp [pull, hq])
  | execute s =>
    cases hj : (st.switch s).jobQ with
    | nil => exact Or.inl (by rw [act_execute_nil hj])
    | cons job rest => exact Or.inl (by rw [act_execute_cons hj]; rfl)
  | control s => exact Or.inl rfl
  | send h p => exact Or.inl rfl
  | lose p i => exact Or.inl rfl

variable (net) in
theorem act_clock_le (st : State ι) (a : Action ι) : st.clock ≤ (act net st a).clock := by
  cases a with
  | receive p rx =>
    cases hf : (st.channel p)[rx.index]? with
    | none => rw [act_receive_none hf]
    | some f => rw [act_receive_some hf]; exact le_rfl
  | poll p rx =>
    cases hf : (st.channel p)[rx.index]? with
    | none => rw [act_poll_none hf]
    | some f => rw [act_poll_some hf]; exact le_rfl
  | execute s =>
    cases hj : (st.switch s).jobQ with
    | nil => rw [act_execute_nil hj]
    | cons job rest => rw [act_execute_cons hj]; exact le_rfl
  | control s => exact Nat.le_succ _
  | send h p => exact Nat.le_succ _
  | lose p i => exact le_rfl

variable (net) in
/-- The flag of a port changes only when the port takes a control packet. -/
theorem act_localPortTree (st : State ι) (a : Action ι) (q : Port ι) :
    ((act net st a).switch q.1).localPortTree q.2 = (st.switch q.1).localPortTree q.2 ∨
    ∃ rx f, a = .receive q rx ∧ (st.channel q)[rx.index]? = some f ∧
      f.type = pktControlPacket ∧ ((act net st a).switch q.1).localPortTree q.2 =
        portFlag q.2 (f.deliver rx.prior).toPacket
          (electRoot q.2 (f.deliver rx.prior).toPacket (st.switch q.1)) := by
  rcases act_switch net st a q.1 with h | ⟨_, h⟩ | ⟨p, rx, f, ha, hp, hf, h⟩ | ⟨_, _, _, _, h⟩
  · exact Or.inl (by rw [h])
  · refine Or.inl ?_
    rw [h, controlTimer]
    split <;> rfl
  · rw [h, receivePacket_localPortTree]
    by_cases hc : (f.deliver rx.prior).type = pktControlPacket
    · by_cases hk : q.2 = p.2
      · have hq : q = p := Prod.ext hp.symm hk
        subst q
        exact Or.inr ⟨rx, f, ha, hf, hc, by rw [if_pos hc, Function.update_self]⟩
      · exact Or.inl (by rw [if_pos hc, Function.update_of_ne hk])
    · exact Or.inl (by rw [if_neg hc])
  · exact Or.inl (by rw [h])

theorem receive_flag {st : State ι} {q : Port ι} {rx : Rx} {f : Frame}
    (h : (st.channel q)[rx.index]? = some f) (hc : f.type = pktControlPacket) :
    ((act net st (.receive q rx)).switch q.1).localPortTree q.2 =
      portFlag q.2 (f.deliver rx.prior).toPacket
        (electRoot q.2 (f.deliver rx.prior).toPacket (st.switch q.1)) := by
  have hc' : (f.deliver rx.prior).type = pktControlPacket := hc
  rw [receive_switch h, receivePacket_localPortTree, if_pos hc', Function.update_self]

end NetworkRuns
