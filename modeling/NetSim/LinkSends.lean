import NetSim.NetworkRuns
import Mathlib.Data.List.Nodup

/-! What a job puts on each link of its switch, and where the frames of a channel come from. -/
namespace LinkSends

open PacketCodec SwitchNode NetworkTopology NetworkRuns

/-- What relaying and delivering leave of a frame. -/
structure Header where
  type : Int8
  src : Int8
  dst : Int8
  stamp : ℕ
  deriving DecidableEq

def header (f : Frame) : Header := ⟨f.type, f.src, f.dst, f.stamp⟩

@[simp] theorem header_deliver (f : Frame) (prior : Fin payloadMax → Int8) :
    header (f.deliver prior) = header f := rfl

def MayUse (job : SwitchJob) (k : ℕ) : Prop :=
  match job.type with
  | .sendPktAllPorts => job.packet.type = pktControlPacket ∨ k ≠ job.inPortIndex
  | .forwardPacket => job.outPortIndex = k
  | .other => False

instance : (job : SwitchJob) → (k : ℕ) → Decidable (MayUse job k)
  | ⟨.sendPktAllPorts, _, _, _⟩, _ => inferInstanceAs (Decidable (_ ∨ _))
  | ⟨.forwardPacket, _, _, _⟩, _ => inferInstanceAs (Decidable (_ = _))
  | ⟨.other, _, _, _⟩, _ => inferInstanceAs (Decidable False)

theorem mayUse_control {job : SwitchJob} (ht : job.type = .sendPktAllPorts)
    (hc : job.packet.type = pktControlPacket) (k : ℕ) : MayUse job k := by
  simp only [MayUse, ht]
  exact Or.inl hc

def sendsOn (sw : SwitchState) (job : SwitchJob) (k : ℕ) : Option Frame :=
  match job.type with
  | .sendPktAllPorts =>
    if job.packet.type = pktControlPacket then some (childMark sw k job.packet)
    else if FloodsOn sw job k then some job.packet
    else none
  | .forwardPacket => if job.outPortIndex = k then some job.packet else none
  | .other => none

theorem sendsOn_mayUse {sw : SwitchState} {job : SwitchJob} {k : ℕ} {f : Frame}
    (h : sendsOn sw job k = some f) : MayUse job k ∧ header f = header job.packet := by
  unfold sendsOn at h
  unfold MayUse
  split at h
  · split at h
    · next hc =>
      cases h
      exact ⟨Or.inl hc, rfl⟩
    · split at h
      · next hk =>
        cases h
        exact ⟨Or.inr hk.2, rfl⟩
      · cases h
  · split at h
    · next hk =>
      cases h
      exact ⟨hk, rfl⟩
    · cases h
  · cases h

theorem sendsOn_packet {sw : SwitchState} {job : SwitchJob} {k : ℕ} {f : Frame}
    (h : sendsOn sw job k = some f) :
    f = job.packet ∨ job.packet.type = pktControlPacket ∧ f = childMark sw k job.packet := by
  unfold sendsOn at h
  split at h
  · split at h
    · next hc => exact Or.inr ⟨hc, (Option.some.inj h).symm⟩
    · exact Or.inl (Option.some.inj (Option.ite_none_right_eq_some.mp h).2).symm
  · exact Or.inl (Option.some.inj (Option.ite_none_right_eq_some.mp h).2).symm
  · cases h

theorem sendsOn_of_yes {sw : SwitchState} {job : SwitchJob} {k : ℕ}
    (hy : sw.localPortTree k = .yes) (hm : MayUse job k) : sendsOn sw job k ≠ none := by
  unfold sendsOn
  unfold MayUse at hm
  split at hm
  · by_cases hc : job.packet.type = pktControlPacket
    · simp [hc]
    · have hk : FloodsOn sw job k := ⟨Or.inl hy, hm.resolve_left hc⟩
      simp [hc, hk]
  · simp [hm]
  · exact absurd hm id

theorem filterMap_pick {α : Type} {l : List ℕ} (hl : l.Nodup) (k : ℕ) (g : ℕ → α) :
    (l.filterMap fun i => if i = k then some (g i) else none) = if k ∈ l then [g k] else [] := by
  induction l with
  | nil => rfl
  | cons i l ih =>
    obtain ⟨hi, hl⟩ := List.nodup_cons.mp hl
    rw [List.filterMap_cons, ih hl]
    by_cases hk : i = k
    · subst hk
      simp [hi]
    · have hk' : k ≠ i := fun h => hk h.symm
      simp [hk, hk']

variable {ι : Type} [DecidableEq ι] {net : Topology ι}

theorem sentTo_map {q : Port ι} (hq : net.IsPort q) (s : ι) (l : List ℕ) (hl : l.Nodup)
    (hn : ∀ k ∈ l, net.IsPort (s, k)) (g : ℕ → Frame) :
    sentTo net s (l.map fun k => (k, g k)) q =
      if (net.peer q).1 = s ∧ (net.peer q).2 ∈ l then [g (net.peer q).2] else [] := by
  have hpick : sentTo net s (l.map fun k => (k, g k)) q =
      l.filterMap fun k =>
        if (net.peer q).1 = s ∧ k = (net.peer q).2 then some (g k) else none := by
    rw [sentTo, List.filterMap_map]
    apply List.filterMap_congr
    intro k hk
    have hiff : net.IsPort (s, k) ∧ net.peer (s, k) = q ↔
        (net.peer q).1 = s ∧ k = (net.peer q).2 := by
      rw [(hn k hk).peer_eq_iff hq, Prod.ext_iff]
      constructor
      · exact fun h => ⟨h.2.1.symm, h.2.2⟩
      · exact fun h => ⟨hn k hk, h.1.symm, h.2⟩
    simp only [Function.comp_apply, hiff]
  rw [hpick]
  by_cases hs : (net.peer q).1 = s
  · simp only [hs, true_and]
    exact filterMap_pick hl _ g
  · simp [hs]

/-- A job puts at most one frame on each link. -/
theorem sentTo_jobSends {q : Port ι} (hq : net.IsPort q) (s : ι) (sw : SwitchState)
    (job : SwitchJob) : sentTo net s (jobSends (net.nodePortNum s) sw job) q =
      if (net.peer q).1 = s then (sendsOn sw job (net.peer q).2).toList else [] := by
  have hrange : ∀ k ∈ List.range (net.nodePortNum s), net.IsPort (s, k) :=
    fun k hk => List.mem_range.mp hk
  have hmem : (net.peer q).1 = s → (net.peer q).2 < net.nodePortNum s := by
    rintro rfl
    exact hq.peer
  unfold jobSends sendsOn
  cases job.type with
  | sendPktAllPorts =>
    by_cases hc : job.packet.type = pktControlPacket
    · simp only [hc, if_true]
      rw [sentTo_map hq s _ List.nodup_range hrange]
      by_cases hs : (net.peer q).1 = s
      · rw [if_pos hs, if_pos ⟨hs, List.mem_range.mpr (hmem hs)⟩]
        rfl
      · rw [if_neg hs, if_neg fun h => hs h.1]
    · simp only [hc, if_false]
      rw [sentTo_map hq s _ (List.nodup_range.filter _)
        fun k hk => hrange k (List.mem_filter.mp hk).1]
      by_cases hs : (net.peer q).1 = s
      · rw [if_pos hs]
        by_cases hk : FloodsOn sw job (net.peer q).2
        · rw [if_pos ⟨hs, List.mem_filter.mpr ⟨List.mem_range.mpr (hmem hs), by simpa using hk⟩⟩,
            if_pos hk]
          rfl
        · rw [if_neg fun h => hk (by simpa using (List.mem_filter.mp h.2).2), if_neg hk]
          rfl
      · rw [if_neg hs, if_neg fun h => hs h.1]
  | forwardPacket =>
    by_cases hs : (net.peer q).1 = s
    · simp only [sentTo, List.filterMap_cons, List.filterMap_nil, if_pos hs]
      by_cases hk : job.outPortIndex = (net.peer q).2
      · have hp : (s, job.outPortIndex) = net.peer q := Prod.ext hs.symm hk
        rw [hp, if_pos ⟨hq.peer, hq.peer_peer⟩, if_pos hk]
        rfl
      · rw [if_neg hk]
        have hno : ¬ (net.IsPort (s, job.outPortIndex) ∧ net.peer (s, job.outPortIndex) = q) := by
          rintro ⟨hp, he⟩
          rw [hp.peer_eq_iff hq] at he
          exact hk (congrArg Prod.snd he)
        rw [if_neg hno]
        rfl
    · simp only [sentTo, List.filterMap_cons, List.filterMap_nil, if_neg hs]
      have hno : ¬ (net.IsPort (s, job.outPortIndex) ∧ net.peer (s, job.outPortIndex) = q) := by
        rintro ⟨hp, he⟩
        rw [hp.peer_eq_iff hq] at he
        exact hs (congrArg Prod.fst he).symm
      rw [if_neg hno]
  | other => by_cases hs : (net.peer q).1 = s <;> simp [sentTo, hs]

theorem onAllPorts_sentTo {q : Port ι} (hq : net.IsPort q) (h : ι) (f : Frame) :
    sentTo net h (onAllPorts net h f) q = if (net.peer q).1 = h then [f] else [] := by
  rw [onAllPorts, sentTo_map hq h _ List.nodup_range (fun k hk => List.mem_range.mp hk)]
  by_cases hs : (net.peer q).1 = h
  · have hmem : (net.peer q).2 ∈ List.range (net.nodePortNum h) := by
      rw [List.mem_range, ← hs]
      exact hq.peer
    rw [if_pos hs, if_pos ⟨hs, hmem⟩]
  · rw [if_neg hs, if_neg fun hh => hs hh.1]

theorem mem_pull_channel {st : State ι} {p q : Port ι} {i : ℕ} {f g : Frame}
    (h : g ∈ (pull st p i f).channel q) : g ∈ st.channel q := by
  by_cases hq : q = p
  · subst q
    simp only [pull, Function.update_self] at h
    exact List.mem_of_mem_eraseIdx h
  · simpa [pull, hq] using h

theorem mem_lose_channel {st : State ι} {p q : Port ι} {i : ℕ} {g : Frame}
    (h : g ∈ (act net st (.lose p i)).channel q) : g ∈ st.channel q := by
  by_cases hq : q = p
  · subst q
    simp only [act, Function.update_self] at h
    exact List.mem_of_mem_eraseIdx h
  · simpa [act, hq] using h

variable (net) in
theorem mem_act_channel {st : State ι} {a : Action ι} {q : Port ι} (hq : net.IsPort q) {f : Frame}
    (hf : f ∈ (act net st a).channel q) : f ∈ st.channel q ∨
    (∃ job rest, a = .execute (net.peer q).1 ∧ (st.switch (net.peer q).1).jobQ = job :: rest ∧
      sendsOn (st.switch (net.peer q).1) job (net.peer q).2 = some f) ∨
    ∃ p, a = .send (net.peer q).1 p ∧ f = ⟨p, st.clock⟩ := by
  cases a with
  | control s => exact Or.inl hf
  | receive p rx =>
    cases hc : (st.channel p)[rx.index]? with
    | none => exact Or.inl (by rwa [act_receive_none hc] at hf)
    | some g =>
      rw [act_receive_some hc] at hf
      exact Or.inl (mem_pull_channel (f := g.deliver rx.prior) hf)
  | poll p rx =>
    cases hc : (st.channel p)[rx.index]? with
    | none => exact Or.inl (by rwa [act_poll_none hc] at hf)
    | some g =>
      rw [act_poll_some hc] at hf
      exact Or.inl (mem_pull_channel (f := g.deliver rx.prior) hf)
  | lose p i => exact Or.inl (mem_lose_channel hf)
  | send v p =>
    rcases List.mem_append.mp hf with hf | hf
    · exact Or.inl hf
    · rw [onAllPorts_sentTo hq] at hf
      split at hf
      · next hv => exact Or.inr (Or.inr ⟨p, by rw [hv], List.mem_singleton.mp hf⟩)
      · cases hf
  | execute s =>
    cases hj : (st.switch s).jobQ with
    | nil => exact Or.inl (by rwa [act_execute_nil hj] at hf)
    | cons job rest =>
      rw [act_execute_cons hj] at hf
      rcases List.mem_append.mp hf with hf | hf
      · exact Or.inl hf
      rw [sentTo_jobSends hq] at hf
      split at hf
      · next hs =>
        subst hs
        exact Or.inr (Or.inl ⟨job, rest, rfl, hj, Option.mem_toList.mp hf⟩)
      · cases hf

end LinkSends
