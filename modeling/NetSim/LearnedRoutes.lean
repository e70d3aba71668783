import NetSim.CarriedFrames
import NetSim.NetworkWiring
import Mathlib.Data.Fin.VecNotation

/-! The routes that lookup tables learn. An entry for a node is set once, from a frame of that
node that came through the port, and whoever sent the frame is the node or knew it already.
So every route runs through entries that were set earlier and earlier. -/
namespace LearnedRoutes

open PacketCodec SwitchNode NetworkTopology NetworkRuns CarriedFrames

variable {ι : Type}

def Knows (st : State ι) (s : ι) (a : ℤ) : Prop := (st.switch s).lookupTable.isValid a = true

instance (st : State ι) (s : ι) (a : ℤ) : Decidable (Knows st s a) :=
  inferInstanceAs (Decidable (_ = _))

/-- The port on which s forwards packets for the id a. -/
def outPort (st : State ι) (s : ι) (a : ℤ) : Port ι := (s, (st.switch s).lookupTable.portNumber a)

def nextHop (net : Topology ι) (st : State ι) (s : ι) (a : ℤ) : ι := (net.peer (outPort st s a)).1

/-- The switches that the entries for node A lead through, from s to the last one before A. -/
inductive Route (net : Topology ι) (st : State ι) (A : ι) : ι → List ι → Prop where
  | last {s} : net.IsSwitch s → Knows st s (net.id A) → net.IsPort (outPort st s (net.id A)) →
      nextHop net st s (net.id A) = A → Route net st A s [s]
  | step {s l} : net.IsSwitch s → Knows st s (net.id A) →
      net.IsPort (outPort st s (net.id A)) →
      Route net st A (nextHop net st s (net.id A)) l → Route net st A s (s :: l)

theorem Route.knows {net : Topology ι} {st : State ι} {A s : ι} {l : List ι}
    (h : Route net st A s l) : ∀ t ∈ l, net.IsSwitch t ∧ Knows st t (net.id A) := by
  induction h with
  | last hs hk _ _ =>
    intro t ht
    rw [List.mem_singleton.mp ht]
    exact ⟨hs, hk⟩
  | step hs hk _ _ ih =>
    intro t ht
    rcases List.mem_cons.mp ht with rfl | ht
    · exact ⟨hs, hk⟩
    · exact ih t ht

theorem Route.head_mem {net : Topology ι} {st : State ι} {A s : ι} {l : List ι}
    (h : Route net st A s l) : s ∈ l := by
  cases h with
  | last => exact List.mem_singleton.mpr rfl
  | step => exact List.mem_cons_self

def KeepsEntries (st u : State ι) : Prop :=
  ∀ s a, Knows st s a → Knows u s a ∧ outPort u s a = outPort st s a

theorem KeepsEntries.refl (st : State ι) : KeepsEntries st st := fun _ _ h => ⟨h, rfl⟩

theorem KeepsEntries.trans {st u v : State ι} (h : KeepsEntries st u) (k : KeepsEntries u v) :
    KeepsEntries st v := fun s a hk =>
  ⟨(k s a (h s a hk).1).1, ((k s a (h s a hk).1).2).trans (h s a hk).2⟩

theorem Route.mono {net : Topology ι} {st u : State ι} (hu : KeepsEntries st u) {A s : ι}
    {l : List ι} (h : Route net st A s l) : Route net u A s l := by
  induction h with
  | last hs hk hp hn =>
    obtain ⟨hk', ho⟩ := hu _ _ hk
    exact .last hs hk' (ho ▸ hp) (by rw [nextHop, ho]; exact hn)
  | step hs hk hp _ ih =>
    obtain ⟨hk', ho⟩ := hu _ _ hk
    exact .step hs hk' (ho ▸ hp) (by rw [nextHop, ho]; exact ih)

theorem id_inTable {net : Topology ι} (A : ι) : InTable (net.id A) := by
  have := net.id_range A
  exact ⟨this.1, by omega⟩

theorem dataJob_known {st : State ι} {t : ι} {f : Frame} (hk : Knows st t f.dst.toInt)
    (ht : InTable f.dst.toInt) (k : ℕ) (stray : Stray) :
    dataJob k f stray (st.switch t).lookupTable =
      ⟨.forwardPacket, f, k, (outPort st t f.dst.toInt).2⟩ := by
  rw [dataJob, if_pos ht, if_pos (show _ = true from hk)]
  rfl

theorem dataJob_unknown {st : State ι} {t : ι} {f : Frame} (hno : ¬ Knows st t f.dst.toInt)
    (ht : InTable f.dst.toInt) (k : ℕ) (stray : Stray) :
    dataJob k f stray (st.switch t).lookupTable =
      ⟨.sendPktAllPorts, f, k, stray.outPortIndex⟩ := by
  rw [dataJob, if_pos ht, if_neg (show ¬ _ = true from hno)]

theorem receivePacket_known {st : State ι} {t : ι} {f : Frame} (hk : Knows st t f.dst.toInt)
    (ht : InTable f.dst.toInt) (hd : f.type ≠ pktControlPacket) (k : ℕ) (stray : Stray) :
    (receivePacket k f stray (st.switch t)).jobQ = (st.switch t).jobQ ++
      [⟨.forwardPacket, f, k, (outPort st t f.dst.toInt).2⟩] := by
  rw [receivePacket_jobQ, if_neg hd, dataJob_known hk ht]

variable [DecidableEq ι] {net : Topology ι}

variable (net) in
theorem act_keepsEntries (st : State ι) (a : Action ι) : KeepsEntries st (act net st a) := by
  intro s b hk
  rcases act_lookupTable net st a s with h | ⟨p, _, f, _, _, _, h⟩
  · simp only [Knows, outPort, h]
    exact ⟨hk, trivial⟩
  · simp only [Knows, outPort, h]
    exact ⟨(learn_isValid _ _ _ _).mpr (Or.inl hk), by rw [learn_portNumber hk]⟩

theorem actionRuns_keepEntries {D : Action ι → Prop} {st u : State ι}
    (h : ActionRuns net D st u) : KeepsEntries st u :=
  h.invariant (P := KeepsEntries st) (fun v a _ _ hv => hv.trans (act_keepsEntries net v a))
    (.refl st)

def SourceKnown (net : Topology ι) (st : State ι) (w : ι) (f : Frame) : Prop :=
  f.src.toInt = net.id w ∨ net.IsSwitch w ∧ Knows st w f.src.toInt

theorem sourceKnown_carriable (st : State ι) (a : Action ι) :
    Carriable net (SourceKnown net) st a where
  mono w f h := h.imp id fun ⟨hs, hk⟩ => ⟨hs, (act_keepsEntries net st a w _ hk).1⟩
  created s _ _ := Or.inl (Topology.id_toInt s)
  hosted h p _ _ hh := Or.inl (by rw [show p.src = _ from hh.1, Topology.id_toInt])
  relayed p rx f _ _ hs _ _ hsw := by
    refine Or.inr ⟨hs, ?_⟩
    rw [Knows, hsw, receivePacket_lookupTable]
    exact (learn_isValid _ _ _ _).mpr (Or.inr rfl)
  marked _ _ _ _ _ h := h
  delivered _ _ _ h := h

def Routed (net : Topology ι) (st : State ι) : Prop :=
  ∀ A s, net.IsSwitch s → Knows st s (net.id A) → ∃ l, Route net st A s l ∧ l.Nodup

theorem new_entry {st : State ι} {a : Action ι} {s : ι} {b : ℤ} (hold : ¬ Knows st s b)
    (hk : Knows (act net st a) s b) : ∃ p rx f, a = .receive p rx ∧ p.1 = s ∧
      (st.channel p)[rx.index]? = some f ∧ f.src.toInt = b ∧ outPort (act net st a) s b = p := by
  rcases act_lookupTable net st a s with ht | ⟨p, rx, f, ha, rfl, hf, ht⟩
  · rw [Knows, ht] at hk
    exact absurd hk hold
  · have hsrc : b = f.src.toInt := by
      rw [Knows, ht] at hk
      exact ((learn_isValid _ _ _ _).mp hk).resolve_left hold
    refine ⟨p, rx, f, ha, rfl, hf, hsrc.symm, ?_⟩
    have hnew : (st.switch p.1).lookupTable.isValid f.src.toInt = false := by
      simpa [Knows, hsrc] using hold
    rw [outPort, ht, hsrc, learn_new hnew]

theorem routed_act {st : State ι} {a : Action ι} (hp : Permitted net a)
    (hc : Carried net (SourceKnown net st) st) (h : Routed net st) :
    Routed net (act net st a) := by
  have hkeep := act_keepsEntries net st a
  intro A s hs hk
  by_cases hold : Knows st s (net.id A)
  · obtain ⟨l, hl, hnd⟩ := h A s hs hold
    exact ⟨l, hl.mono hkeep, hnd⟩
  obtain ⟨p, rx, f, rfl, rfl, hf, hsrc, hout⟩ := new_entry hold hk
  have hport : net.IsPort (outPort (act net st (.receive p rx)) p.1 (net.id A)) := by
    rw [hout]
    exact hp.2
  rcases hc.inFlight p hp.2 f (List.mem_of_getElem? hf) with hw | ⟨hw, hkw⟩
  · refine ⟨[p.1], .last hs hk hport ?_, List.nodup_singleton _⟩
    rw [nextHop, hout]
    exact net.id_injective (hw.symm.trans hsrc)
  · rw [hsrc] at hkw
    obtain ⟨l, hl, hnd⟩ := h A _ hw hkw
    refine ⟨p.1 :: l, .step hs hk hport ?_, List.nodup_cons.mpr ⟨?_, hnd⟩⟩
    · rw [nextHop, hout]
      exact hl.mono hkeep
    · exact fun hm => hold (hl.knows _ hm).2

theorem reachable_sourceKnown {D : Action ι → Prop} {st : State ι} (h : ActionReachable net D st) :
    Carried net (SourceKnown net st) st :=
  Carried.runs (fun st a _ => sourceKnown_carriable st a) h (carried_initial _)

theorem reachable_routed {D : Action ι → Prop} {st : State ι} (h : ActionReachable net D st) :
    Routed net st := by
  have hinv : Carried net (SourceKnown net st) st ∧ Routed net st := by
    refine ActionRuns.invariant (P := fun st => Carried net (SourceKnown net st) st ∧ Routed net st)
      (fun st a hp _ hst => ⟨hst.1.act hp (sourceKnown_carriable st a),
        routed_act hp hst.1 hst.2⟩) h ⟨carried_initial _, ?_⟩
    intro A s _ hk
    simp [Knows, initial, switchInit] at hk
  exact hinv.2

def Taught (net : Topology ι) (st : State ι) : Prop :=
  ∀ s, net.IsSwitch s → ∀ a, Knows st s a → net.IsPort (outPort st s a) ∧
    ∃ f ∈ st.received (outPort st s a), f.src.toInt = a

theorem taught_act {st : State ι} {a : Action ι} (hp : Permitted net a) (h : Taught net st) :
    Taught net (act net st a) := by
  intro s hs b hk
  by_cases hold : Knows st s b
  · obtain ⟨hport, f, hf, hsrc⟩ := h s hs b hold
    rw [(act_keepsEntries net st a s b hold).2]
    refine ⟨hport, f, ?_, hsrc⟩
    rcases act_received net st a (outPort st s b) with he | ⟨_, _, _, _, he⟩
    · exact he ▸ hf
    · rw [he]
      exact List.mem_append_left _ hf
  · obtain ⟨p, rx, f, rfl, rfl, hf, hsrc, hout⟩ := new_entry hold hk
    rw [hout]
    refine ⟨hp.2, f.deliver rx.prior, ?_, hsrc⟩
    rw [act_receive_some hf]
    simp [setSwitch, pull]

theorem reachable_taught {D : Action ι → Prop} {st : State ι} (h : ActionReachable net D st) :
    Taught net st := by
  refine ActionRuns.invariant (fun _ _ hp _ hst => taught_act hp hst) h ?_
  intro s _ a hk
  simp [Knows, initial, switchInit] at hk

def Named (net : Topology ι) (_ : State ι) (_ : ι) (f : Frame) : Prop :=
  ∃ v, f.src.toInt = net.id v

theorem named_carriable (st : State ι) (a : Action ι) : Carriable net (Named net) st a where
  mono _ _ h := h
  created s _ _ := ⟨s, Topology.id_toInt s⟩
  hosted h p _ _ hh := ⟨h, by rw [show p.src = _ from hh.1, Topology.id_toInt]⟩
  relayed _ _ _ _ _ _ _ h _ := h
  marked _ _ _ _ _ h := h
  delivered _ _ _ h := h

/-- Entries are for ids of nodes only. -/
theorem knows_named {D : Action ι → Prop} {st : State ι} (h : ActionReachable net D st) {s : ι}
    (hs : net.IsSwitch s) {a : ℤ} (hk : Knows st s a) : ∃ v, a = net.id v := by
  obtain ⟨hport, f, hf, hsrc⟩ := reachable_taught h s hs a hk
  have hnamed : Carried net (Named net st) st :=
    Carried.runs (fun st a _ => named_carriable st a) h (carried_initial _)
  obtain ⟨v, hv⟩ := hnamed.taken _ hport f hf
  exact ⟨v, hsrc.symm.trans hv⟩

/-- From a switch with an entry for node A the entries lead through distinct switches, all with
an entry for A, to A itself; and from then on each of them forwards every data packet for A
along this route. -/
theorem learned_routes_loop_free {st : State ι} (h : Reachable net anyOrder st) {A s : ι}
    (hs : net.IsSwitch s) (hk : Knows st s (net.id A)) :
    ∃ l, Route net st A s l ∧ l.Nodup ∧
      ∀ u, Runs net anyOrder st u → ∀ t ∈ l, ∀ (k : ℕ) (f : Frame) (stray : Stray),
        f.type ≠ pktControlPacket → f.dst.toInt = net.id A →
          (receivePacket k f stray (u.switch t)).jobQ = (u.switch t).jobQ ++
            [⟨.forwardPacket, f, k, (outPort st t (net.id A)).2⟩] := by
  obtain ⟨l, hl, hnd⟩ := reachable_routed h.actions A s hs hk
  refine ⟨l, hl, hnd, ?_⟩
  intro u hu t ht k f stray hd hdst
  obtain ⟨hk', ho⟩ := actionRuns_keepEntries hu.actionRuns t _ (hl.knows t ht).2
  rw [receivePacket_known (hdst ▸ hk') (hdst ▸ id_inTable A) hd, hdst, ho]

/-- Host 0 on switch 1, and switch 2 behind it. -/
def hostOnLine : Topology (Fin 3) :=
  NetworkWiring.ofConfig [(0, 1), (1, 2)] ![.host, .switch, .switch] ![0, 1, 2]
    NetworkWiring.ids_three NetworkWiring.ids_three_range

def pingFifty : Packet := ⟨0, 50, pktPingReq, 0, fun _ => 0, 0, 0, 0, 0⟩

def hostLearned : State (Fin 3) :=
  [.send 0 pingFifty, sweep 1, sweep 2].foldl (next hostOnLine) (initial hostOnLine)

theorem hostLearned_reachable : Reachable hostOnLine anyOrder hostLearned :=
  Runs.events [.send 0 pingFifty, sweep 1, sweep 2] (by decide)

theorem learned_routes_hostOnLine : Route hostOnLine hostLearned 0 2 [2, 1] ∧
    ∀ u, Runs hostOnLine anyOrder hostLearned u → ∀ t ∈ [2, 1], ∀ (k : ℕ) (f : Frame)
      (stray : Stray), f.type ≠ pktControlPacket → f.dst.toInt = hostOnLine.id 0 →
        (receivePacket k f stray (u.switch t)).jobQ = (u.switch t).jobQ ++
          [⟨.forwardPacket, f, k, (outPort hostLearned t (hostOnLine.id 0)).2⟩] := by
  obtain ⟨l, hl, -, hforward⟩ :=
    learned_routes_loop_free hostLearned_reachable (A := 0) (s := 2) (by decide) (by decide)
  have hroute : l = [2, 1] := by
    cases hl with
    | last _ _ _ hhop => exact absurd hhop (by decide)
    | step _ _ _ hrest =>
      have hnext : nextHop hostOnLine hostLearned 2 (hostOnLine.id 0) = 1 := by decide
      rw [hnext] at hrest
      cases hrest with
      | last => rfl
      | step _ _ _ hhost =>
        have hself : nextHop hostOnLine hostLearned 1 (hostOnLine.id 0) = 0 := by decide
        rw [hself] at hhost
        exact absurd (hhost.knows 0 hhost.head_mem).1 (by decide)
  subst hroute
  exact ⟨hl, hforward⟩

end LearnedRoutes
