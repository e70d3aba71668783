import NetSim.OrderedDelivery
import NetSim.SentPackets

/-! The order of packets in the whole simulation. If the links of the configuration close no
cycle, a node reads what another has sent it in the order in which it was sent. -/
namespace OrderedReads

open PacketCodec Simulation SimulatedNetwork SimulationRefinement SentPackets OwnPackets
open OrderedDelivery NetworkRuns LinkSends NetworkSchedules
open FrameHistory (CopyOf)
open TableIndices (quietMemory quietRecv commanded)
open NetworkWiring (LinkEnd)
open SwitchNode (Frame)
open EventRuns (Run)

theorem sublistForall₂_filter {α β : Type*} {R : α → β → Prop} {P : α → Bool} {Q : β → Bool}
    (hR : ∀ a b, R a b → P a = Q b) {l : List α} {m : List β} (h : List.SublistForall₂ R l m) :
    List.SublistForall₂ R (l.filter P) (m.filter Q) := by
  induction h with
  | nil => exact .nil
  | @cons a b l m hab _ ih =>
    have hsame := hR a b hab
    cases hb : Q b with
    | true =>
      rw [List.filter_cons_of_pos (hsame.trans hb), List.filter_cons_of_pos hb]
      exact .cons hab ih
    | false =>
      have ha : ¬ P a = true := by simp [hsame, hb]
      have hb' : ¬ Q b = true := by simp [hb]
      rw [List.filter_cons_of_neg ha, List.filter_cons_of_neg hb']
      exact ih
  | @cons_right b l m _ ih =>
    cases hb : Q b with
    | true =>
      rw [List.filter_cons_of_pos hb]
      exact .cons_right ih
    | false =>
      rw [List.filter_cons_of_neg (by simp [hb])]
      exact ih

theorem filter_onPort {P : Packet → Bool} {k : ℕ} {reads : List (ℕ × Packet)}
    (h : ∀ read ∈ reads, P read.2 = true → read.1 = k) :
    (reads.map Prod.snd).filter P = (onPort k reads).filter P := by
  rw [onPort, List.filter_map, List.filter_map, List.filter_filter]
  apply congrArg
  apply List.filter_congr
  intro read hread
  cases hP : P read.2 with
  | true => simp [h read hread hP, hP]
  | false => simp [hP]

variable {c : Config}

/-- A data packet from the node with one id to the node with another. -/
def Between (src dst : ℤ) (p : Packet) : Prop :=
  p.type ≠ pktControlPacket ∧ p.src.toInt = src ∧ p.dst.toInt = dst

instance (src dst : ℤ) : DecidablePred (Between src dst) :=
  fun _ => inferInstanceAs (Decidable (_ ∧ _ ∧ _))

theorem between_copy {src dst : ℤ} {p g : Packet} (h : CopyOf g p) :
    Between src dst p ↔ Between src dst g := by
  rw [Between, Between, h.type, h.src, h.dst]

theorem readNow_port {s : SimState} {v : ℕ} {e : SimEvent} {read : ℕ × Packet}
    (h : read ∈ readNow c s v e) : ∃ t, (c.nodePort v)[read.1]? = some t := by
  cases e with
  | recv w k peer stale prior stray =>
    unfold readNow at h
    cases ht : (c.nodePort w)[k]? with
    | none => simp [ht] at h
    | some t =>
      simp only [ht] at h
      split at h
      · next hw =>
        rw [List.mem_singleton.mp h, hw.1]
        exact ⟨t, ht⟩
      · cases h
  | _ => cases h

theorem readings_port {v : ℕ} {s : SimState} {es : List SimEvent} {read : ℕ × Packet}
    (h : read ∈ readings c v s es) : ∃ t, (c.nodePort v)[read.1]? = some t := by
  induction es generalizing s with
  | nil => cases h
  | cons e es ih =>
    rcases List.mem_append.mp h with h | h
    · exact readNow_port h
    · cases hstep : simStep c s e with
      | none =>
        rw [hstep] at h
        cases h
      | some u =>
        rw [hstep] at h
        exact ih h

/-- What a host or the server has sent since the start. -/
theorem emits_sentBy (hc : Piped c) {memory : SimMemory} {s : SimState}
    {sent : Node c → List Packet}
    (h : Emits c (simInit c memory) s sent) {v : Node c} (hv : c.typeOf v ≠ some .switch) :
    sentBy c s v = sent v := by
  have htype := typeOf_node hc v
  cases hnode : (topology hc).type v with
  | host =>
    rw [hnode] at htype
    rw [sentBy_host htype, h.host v htype]
    rfl
  | switch =>
    rw [hnode] at htype
    exact absurd htype hv
  | server =>
    rw [hnode] at htype
    rw [sentBy_server htype, h.server v htype]
    rfl

theorem read_frames (hc : Piped c) (memory : SimMemory) {es : List SimEvent} {s : SimState}
    (h : Run (WholeStep c) (simInit c memory) es s) :
    ∃ as st, Run (ActionStep (topology hc) fifo) (initial (topology hc)) as st ∧
      (∀ v : Node c, c.typeOf v ≠ some .switch → sentIn v as = sentBy c s v) ∧
      ∀ v k, (st.received (v, k)).map Frame.toPacket =
        onPort k (readings c v (simInit c memory) es) := by
  obtain ⟨sent, st, ⟨as, hrun, hsent, htaken⟩, hemits, -, -⟩ :=
    run_mirrors h (ownSim_init c memory) (matches_init hc memory)
  refine ⟨as, st, hrun, ?_, ?_⟩
  · intro v hv
    rw [hsent, emits_sentBy hc hemits hv]
  · intro v k
    exact htaken (v, k)

theorem mem_frames {st : NetworkRuns.State (Node c)} {b : Node c} {reads : List (ℕ × Packet)}
    (hframes : ∀ k, (st.received (b, k)).map Frame.toPacket = onPort k reads) {read : ℕ × Packet}
    (hread : read ∈ reads) : ∃ f ∈ st.received (b, read.1), f.toPacket = read.2 := by
  have hmem : read.2 ∈ onPort read.1 reads :=
    List.mem_map_of_mem (List.mem_filter.mpr ⟨hread, by simp⟩)
  rw [← hframes] at hmem
  exact List.mem_map.mp hmem

theorem readings_isPort (hc : Piped c) {b : Node c} {s : SimState} {es : List SimEvent}
    {read : ℕ × Packet} (h : read ∈ readings c b s es) :
    (topology hc).IsPort (b, read.1) := by
  obtain ⟨t, ht⟩ := readings_port h
  exact (show EndOf c (b, read.1) t from ht).isPort hc

theorem between_dataOf (hc : Piped c) {a b : Node c} (hb : c.typeOf b ≠ some .switch) {f : Frame}
    (h : Between (c.idOf a) (c.idOf b) f.toPacket) : DataOf (topology hc) a (header f) where
  data := h.1
  source := h.2.1
  inTable := by
    rw [show (header f).dst.toInt = (topology hc).id b from h.2.2]
    exact LearnedRoutes.id_inTable b
  noSwitch w hw hid := by
    have hwb : w = b := (topology hc).id_injective (hid.trans h.2.2)
    exact hb ((isSwitch_iff hc b).mp (hwb ▸ hw))

theorem reads_ordered (hc : Piped c) (hf : (topology hc).Forest) {memory : SimMemory}
    {es : List SimEvent} {s : SimState} (h : Run (WholeStep c) (simInit c memory) es s)
    {a b : Node c} (ha : c.typeOf a ≠ some .switch) (hb : c.typeOf b ≠ some .switch)
    (hab : a ≠ b) :
    (∃ k, ∀ read ∈ readings c b (simInit c memory) es,
      Between (c.idOf a) (c.idOf b) read.2 → read.1 = k) ∧
    List.SublistForall₂ (fun p g => CopyOf g p)
      (((readings c b (simInit c memory) es).map Prod.snd).filter
        (Between (c.idOf a) (c.idOf b))) (sentBy c s a) := by
  obtain ⟨as, st, hrun, hsent, hframes⟩ := read_frames hc memory h
  have hsender : ¬ (topology hc).IsSwitch a := fun hs => ha ((isSwitch_iff hc a).mp hs)
  have hi := inOrder_run hf hsender hrun
  have hports : ∀ read ∈ readings c b (simInit c memory) es, (topology hc).IsPort (b, read.1) :=
    fun read hread => readings_isPort hc hread
  replace hframes := hframes b
  generalize readings c b (simInit c memory) es = reads at hframes hports ⊢
  have hsame : ∃ k, ∀ read ∈ reads, Between (c.idOf a) (c.idOf b) read.2 → read.1 = k := by
    by_cases hany : ∃ read ∈ reads, Between (c.idOf a) (c.idOf b) read.2
    · obtain ⟨first, hfirst, hfrom⟩ := hany
      obtain ⟨f, hfm, hp⟩ := mem_frames hframes hfirst
      refine ⟨first.1, ?_⟩
      intro read hread hfrom'
      obtain ⟨g, hgm, hq⟩ := mem_frames hframes hread
      exact hi.one_port hf hab.symm (hports read hread) (hports first hfirst) hgm hfm
        (between_dataOf hc hb (hq ▸ hfrom')) (between_dataOf hc hb (hp ▸ hfrom))
    · exact ⟨0, fun read hread hfrom => absurd ⟨read, hread, hfrom⟩ hany⟩
  refine ⟨hsame, ?_⟩
  obtain ⟨k, hk⟩ := hsame
  have hall : (reads.map Prod.snd).filter (Between (c.idOf a) (c.idOf b)) =
      ((st.received (b, k)).filter fun f => Between (c.idOf a) (c.idOf b) f.toPacket).map
        Frame.toPacket := by
    rw [filter_onPort (k := k) fun read hread hP => hk read hread (of_decide_eq_true hP),
      ← hframes, List.filter_map]
    rfl
  rw [hall, List.sublistForall₂_map_left_iff, ← hsent a ha]
  by_cases hport : (topology hc).IsPort (b, k)
  · apply received_sublist hf hrun hsender hport hab.symm List.filter_sublist
    intro f hf
    exact between_dataOf hc hb (of_decide_eq_true (List.mem_filter.mp hf).2)
  · have hnone : onPort k reads = [] := by
      rw [onPort, List.map_eq_nil_iff, List.filter_eq_nil_iff]
      intro read hread hk
      exact hport (of_decide_eq_true hk ▸ hports read hread)
    rw [← hframes, List.map_eq_nil_iff] at hnone
    rw [hnone]
    exact .nil

/-- In a configuration of PIPE links without cycles the data packets that a node reads from
another come by one port, and in the order in which the other has sent them, some of them lost. -/
theorem reads_in_order (hc : Piped c) (hf : (topology hc).Forest) (memory : SimMemory)
    {es : List SimEvent} {s : SimState} (h : Run (WholeStep c) (simInit c memory) es s)
    {a b : Node c} (ha : c.typeOf a ≠ some .switch) (hb : c.typeOf b ≠ some .switch)
    (hab : a ≠ b) :
    (∃ k, ∀ read ∈ readings c b (simInit c memory) es,
      Between (c.idOf a) (c.idOf b) read.2 → read.1 = k) ∧
    List.SublistForall₂ (fun p g => CopyOf g p)
      (((readings c b (simInit c memory) es).map Prod.snd).filter
        (Between (c.idOf a) (c.idOf b)))
      ((sentBy c s a).filter (Between (c.idOf a) (c.idOf b))) := by
  obtain ⟨hport, horder⟩ := reads_ordered hc hf h ha hb hab
  refine ⟨hport, ?_⟩
  have hfiltered := sublistForall₂_filter (P := Between (c.idOf a) (c.idOf b))
    (Q := Between (c.idOf a) (c.idOf b))
    (fun p g hcopy => decide_eq_decide.mpr (between_copy hcopy)) horder
  simpa only [List.filter_filter, Bool.and_self] using hfiltered

def hostsOnSwitch : Config :=
  ⟨[⟨some .host, 0⟩, ⟨some .switch, 1⟩, ⟨some .host, 2⟩],
    [⟨some .pipe, 0, 1, [], [], []⟩, ⟨some .pipe, 1, 2, [], [], []⟩]⟩

theorem hostsOnSwitch_piped : Piped hostsOnSwitch := by decide +kernel

def passedOn : List SimEvent :=
  [quietRecv 1, .switchExecute 1]

def twoPings : List SimEvent :=
  commanded [112, 32, 50] ++ passedOn ++ quietRound 2 ++ commanded [112, 32, 50] ++
    quietRound 0 ++ passedOn ++ quietRound 2

theorem twoPings_run : ∃ s, Run (WholeStep hostsOnSwitch) (simInit hostsOnSwitch quietMemory)
    twoPings s := by
  have hrun : (twoPings.foldlM (wholeStep hostsOnSwitch)
      (simInit hostsOnSwitch quietMemory)).isSome = true := by
    decide +kernel
  obtain ⟨s, hs⟩ := Option.isSome_iff_exists.mp hrun
  exact ⟨s, (Run.of_foldlM hs).mono fun _ _ _ => wholeStep_some⟩

theorem hostsOnSwitch_forest : (topology hostsOnSwitch_piped).Forest :=
  NetworkTopology.Topology.forest_of_rank (fun v => if v.val = 1 then 0 else 1)
    (by decide +kernel) (by decide +kernel)

theorem reads_in_order_twoPings :
    (((readings hostsOnSwitch 2 (simInit hostsOnSwitch quietMemory) twoPings).map
        Prod.snd).filter (Between 0 2)).length = 2 ∧
      ∃ s, Run (WholeStep hostsOnSwitch) (simInit hostsOnSwitch quietMemory) twoPings s ∧
        List.SublistForall₂ (fun p g => CopyOf g p)
          (((readings hostsOnSwitch 2 (simInit hostsOnSwitch quietMemory) twoPings).map
            Prod.snd).filter (Between 0 2))
          ((sentBy hostsOnSwitch s 0).filter (Between 0 2)) := by
  refine ⟨by decide +kernel, ?_⟩
  obtain ⟨s, hs⟩ := twoPings_run
  have horder := reads_in_order hostsOnSwitch_piped hostsOnSwitch_forest quietMemory hs
    (a := ⟨0, by decide⟩) (b := ⟨2, by decide⟩) (by decide) (by decide) (by decide)
  exact ⟨s, hs, horder.2⟩

end OrderedReads
