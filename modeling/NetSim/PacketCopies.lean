import NetSim.LinkTraffic
import NetSim.LearnedRoutes
import Mathlib.Algebra.BigOperators.Group.Finset.Basic
import Mathlib.Algebra.Order.BigOperators.Group.Finset

/-! Counting the copies of one packet, known by its stamp. A switch that takes a copy adds at
most one to the trail of each of its links, so a link carries no more copies than the switch has
taken from the ports that feed it. -/
namespace PacketCopies

open PacketCodec SwitchNode NetworkTopology NetworkRuns LinkSends CarriedFrames LinkTraffic
  LearnedRoutes

variable {ι : Type} {net : Topology ι}

/-- How many copies of packet n port q has taken. -/
def taken (st : State ι) (n : ℕ) (q : Port ι) : ℕ := (st.received q).countP fun f => f.stamp = n

def takenFrom (st : State ι) (n : ℕ) (s : ι) (A : Finset ℕ) : ℕ := ∑ k ∈ A, taken st n (s, k)

/-- How many copies of packet n node s has handled. -/
def handled (net : Topology ι) (st : State ι) (n : ℕ) (s : ι) : ℕ :=
  takenFrom st n s (Finset.range (net.nodePortNum s))

def copies (n : ℕ) (l : List Header) : ℕ := l.countP fun x => x.stamp = n

theorem copies_append (n : ℕ) (l m : List Header) :
    copies n (l ++ m) = copies n l + copies n m := List.countP_append

theorem copies_pos {n : ℕ} {l : List Header} : 0 < copies n l ↔ ∃ x ∈ l, x.stamp = n := by
  rw [copies, List.countP_pos_iff]
  simp

theorem copies_eq_zero {n : ℕ} {l : List Header} (h : ∀ x ∈ l, x.stamp ≠ n) : copies n l = 0 := by
  by_contra hne
  obtain ⟨x, hx, hn⟩ := copies_pos.mp (Nat.pos_of_ne_zero hne)
  exact h x hx hn

theorem copies_map (n : ℕ) (l : List Frame) :
    copies n (l.map header) = l.countP fun f => f.stamp = n := List.countP_map

variable (net) in
theorem copies_trail (st : State ι) (n : ℕ) (q : Port ι) :
    copies n (trail net st q) = taken st n q + (st.channel q).countP (fun f => f.stamp = n) +
      (queuedFor st (net.peer q)).countP fun f => f.stamp = n := by
  rw [trail, List.map_append, copies_append, copies_append, copies_map, copies_map, copies_map]
  rfl

variable (net) in
theorem taken_le_copies (st : State ι) (n : ℕ) (q : Port ι) :
    taken st n q ≤ copies n (trail net st q) := by
  rw [copies_trail]
  omega

theorem taken_pos {st : State ι} {n : ℕ} {q : Port ι} :
    0 < taken st n q ↔ ∃ f ∈ st.received q, f.stamp = n := by
  rw [taken, List.countP_pos_iff]
  simp

theorem mem_trail_received {st : State ι} {q : Port ι} {f : Frame} (h : f ∈ st.received q) :
    header f ∈ trail net st q :=
  List.mem_append_left _ (List.mem_map_of_mem (List.mem_append_left _ h))

theorem mem_trail_channel {st : State ι} {q : Port ι} {f : Frame} (h : f ∈ st.channel q) :
    header f ∈ trail net st q :=
  List.mem_append_left _ (List.mem_map_of_mem (List.mem_append_right _ h))

theorem taken_le_takenFrom (st : State ι) (n : ℕ) (s : ι) {A : Finset ℕ} {k : ℕ} (hk : k ∈ A) :
    taken st n (s, k) ≤ takenFrom st n s A :=
  Finset.single_le_sum (f := fun k => taken st n (s, k)) (fun _ _ => Nat.zero_le _) hk

theorem takenFrom_le {st : State ι} {n : ℕ} {s : ι} {A : Finset ℕ} {b : ℕ}
    (hone : ∀ j ∈ A, ∀ k ∈ A, 0 < taken st n (s, j) → 0 < taken st n (s, k) → j = k)
    (hle : ∀ k ∈ A, taken st n (s, k) ≤ b) : takenFrom st n s A ≤ b := by
  by_cases hz : ∃ k ∈ A, 0 < taken st n (s, k)
  · obtain ⟨k, hk, hpos⟩ := hz
    rw [takenFrom, Finset.sum_eq_single_of_mem k hk]
    · exact hle k hk
    · intro j hj hne
      by_contra h
      exact hne (hone j hj k hk (Nat.pos_of_ne_zero h) hpos)
  · rw [takenFrom, Finset.sum_eq_zero]
    · exact Nat.zero_le b
    · intro k hk
      by_contra h
      exact hz ⟨k, hk, Nat.pos_of_ne_zero h⟩

def Takes (st : State ι) (n : ℕ) (a : Action ι) (s : ι) (k : ℕ) : Prop :=
  ∃ rx f, (a = .receive (s, k) rx ∨ a = .poll (s, k) rx) ∧
    (st.channel (s, k))[rx.index]? = some f ∧ f.stamp = n

def Passes (net : Topology ι) (st : State ι) (n : ℕ) (a : Action ι) (k : ℕ) (q : Port ι) : Prop :=
  ∃ rx f, a = .receive ((net.peer q).1, k) rx ∧
    (st.channel ((net.peer q).1, k))[rx.index]? = some f ∧ f.stamp = n ∧
    f.type ≠ pktControlPacket ∧
    MayUse (dataJob k (f.deliver rx.prior) rx.stray (st.switch (net.peer q).1).lookupTable)
      (net.peer q).2

theorem mayUse_dataJob (st : State ι) (s : ι) {f : Frame} (hin : InTable f.dst.toInt)
    (hd : f.type ≠ pktControlPacket) (k : ℕ) (stray : Stray) (j : ℕ) :
    MayUse (dataJob k f stray (st.switch s).lookupTable) j ↔
      (Knows st s f.dst.toInt ∧ outPort st s f.dst.toInt = (s, j)) ∨
        (¬ Knows st s f.dst.toInt ∧ j ≠ k) := by
  by_cases hk : Knows st s f.dst.toInt
  · rw [dataJob_known hk hin]
    simp [MayUse, outPort, hk]
  · rw [dataJob_unknown hk hin]
    simp [MayUse, hk, hd]

theorem Passes.takes {st : State ι} {n : ℕ} {a : Action ι} {k : ℕ} {q : Port ι}
    (h : Passes net st n a k q) : Takes st n a (net.peer q).1 k := by
  obtain ⟨rx, f, ha, hf, hn, _⟩ := h
  exact ⟨rx, f, Or.inl ha, hf, hn⟩

theorem Takes.unique {st : State ι} {n : ℕ} {a : Action ι} {s : ι} {j k : ℕ}
    (h : Takes st n a s j) (h' : Takes st n a s k) : j = k := by
  obtain ⟨_, _, ha, _⟩ := h
  obtain ⟨_, _, ha', _⟩ := h'
  rcases ha with rfl | rfl <;> rcases ha' with h | h <;> cases h <;> rfl

variable [DecidableEq ι]

variable (net) in
/-- Control packets and packets of hosts come with new stamps, so copies enter a trail only by
way of a switch that takes one. -/
theorem copies_entering {st : State ι} {n : ℕ} (hn : n < st.clock) (a : Action ι) (q : Port ι) :
    copies n (entering net st a q) = 0 ∨
      copies n (entering net st a q) = 1 ∧ ∃ k, Passes net st n a k q := by
  rcases entering_cases net st a q with he | ⟨x, he, hx⟩
  · exact Or.inl (by rw [he]; rfl)
  by_cases hs : x.stamp = n
  · refine Or.inr ⟨by rw [he]; simp [copies, hs], ?_⟩
    rcases hx with ⟨_, _, _, rfl⟩ | ⟨p, rx, f, ha, hf, hp, hd, hm, rfl⟩ | ⟨_, _, _, _, rfl⟩
    · exact absurd hs hn.ne'
    · have hpair : ((net.peer q).1, p.2) = p := Prod.ext hp rfl
      exact ⟨p.2, rx, f, by rw [hpair, ha], by rw [hpair, hf], hs, hd, hp ▸ hm⟩
    · exact absurd hs hn.ne'
  · refine Or.inl (copies_eq_zero ?_)
    intro y hy
    rw [he, List.mem_singleton] at hy
    exact hy ▸ hs

theorem passes_entering {st : State ι} {n : ℕ} {a : Action ι} {k : ℕ} {q : Port ι}
    (h : Passes net st n a k q) : copies n (entering net st a q) = 1 := by
  obtain ⟨rx, f, rfl, hf, hn, hd, hm⟩ := h
  simp only [entering, hf]
  rw [if_pos ⟨trivial, hd, hm⟩]
  simp [copies, header, hn]

variable (net) in
theorem taken_act (st : State ι) (n : ℕ) (a : Action ι) (q : Port ι) :
    (¬ Takes st n a q.1 q.2 ∧ taken (act net st a) n q = taken st n q) ∨
      Takes st n a q.1 q.2 ∧ taken (act net st a) n q = taken st n q + 1 := by
  rcases act_received net st a q with he | ⟨rx, f, ha, hf, he⟩
  · refine Or.inl ⟨?_, by rw [taken, taken, he]⟩
    rintro ⟨rx, f, ha, hf, _⟩
    have hlen : (act net st a).received q = st.received q ++ [f.deliver rx.prior] := by
      rcases ha with rfl | rfl
      · rw [act_receive_some hf]
        simp [setSwitch, pull]
      · rw [act_poll_some hf]
        simp [pull]
    rw [hlen] at he
    exact absurd (List.append_right_eq_self.mp he) (by simp)
  · by_cases hn : f.stamp = n
    · refine Or.inr ⟨⟨rx, f, ha, hf, hn⟩, ?_⟩
      rw [taken, taken, he, List.countP_append]
      simp [Frame.deliver, hn]
    · refine Or.inl ⟨?_, ?_⟩
      · rintro ⟨rx', f', ha', hf', hn'⟩
        rcases ha with rfl | rfl <;> rcases ha' with h | h <;> cases h <;>
          (rw [hf] at hf'; cases hf'; exact hn hn')
      · rw [taken, taken, he, List.countP_append]
        simp [Frame.deliver, hn]

theorem taken_mono {D : Action ι → Prop} {st u : State ι} (h : ActionRuns net D st u) (n : ℕ)
    (q : Port ι) : taken st n q ≤ taken u n q := by
  refine h.invariant (P := fun v => taken st n q ≤ taken v n q) ?_ le_rfl
  intro v a _ _ hv
  rcases taken_act net v n a q with ⟨_, he⟩ | ⟨_, he⟩ <;> omega

variable (net) in
theorem takenFrom_act (st : State ι) (n : ℕ) (a : Action ι) (s : ι) (A : Finset ℕ) :
    ((∀ k ∈ A, ¬ Takes st n a s k) ∧ takenFrom (act net st a) n s A = takenFrom st n s A) ∨
      (∃ k ∈ A, Takes st n a s k) ∧ takenFrom (act net st a) n s A = takenFrom st n s A + 1 := by
  by_cases h : ∃ k ∈ A, Takes st n a s k
  · refine Or.inr ⟨h, ?_⟩
    obtain ⟨k, hk, ht⟩ := h
    have hrest : ∀ j ∈ A.erase k, taken (act net st a) n (s, j) = taken st n (s, j) := by
      intro j hj
      rcases taken_act net st n a (s, j) with ⟨_, he⟩ | ⟨ht', _⟩
      · exact he
      · exact absurd (ht'.unique ht) (Finset.ne_of_mem_erase hj)
    have hk1 : taken (act net st a) n (s, k) = taken st n (s, k) + 1 := by
      rcases taken_act net st n a (s, k) with ⟨hno, _⟩ | ⟨_, he⟩
      · exact absurd ht hno
      · exact he
    rw [takenFrom, takenFrom, ← Finset.add_sum_erase A _ hk, ← Finset.add_sum_erase A _ hk, hk1,
      Finset.sum_congr rfl hrest]
    omega
  · have hno : ∀ k ∈ A, ¬ Takes st n a s k := fun k hk ht => h ⟨k, hk, ht⟩
    refine Or.inl ⟨hno, Finset.sum_congr rfl ?_⟩
    intro k hk
    rcases taken_act net st n a (s, k) with ⟨_, he⟩ | ⟨ht, _⟩
    · exact he
    · exact absurd ht (hno k hk)

theorem copies_act_le {st : State ι} {a : Action ι} {q : Port ι} (hid : Idle net st)
    (hp : Permitted net a) (hf : fifo a) (hq : net.IsPort q) (n : ℕ) :
    copies n (trail net (act net st a) q) ≤
      copies n (trail net st q) + copies n (entering net st a q) := by
  rw [← copies_append]
  exact (trail_act hid hp hf hq).countP_le

theorem fed_act {st : State ι} {n : ℕ} {a : Action ι} {q : Port ι} {A : Finset ℕ}
    (hid : Idle net st) (hp : Permitted net a) (hf : fifo a) (hq : net.IsPort q)
    (hn : n < st.clock) (hpass : ∀ k, Passes net st n a k q → k ∈ A)
    (h : copies n (trail net st q) ≤ takenFrom st n (net.peer q).1 A) :
    copies n (trail net (act net st a) q) ≤ takenFrom (act net st a) n (net.peer q).1 A := by
  have hle := copies_act_le hid hp hf hq n
  rcases copies_entering net hn a q with he | ⟨he, k, hk⟩
  · rcases takenFrom_act net st n a (net.peer q).1 A with ⟨_, ht⟩ | ⟨_, ht⟩ <;> omega
  · rcases takenFrom_act net st n a (net.peer q).1 A with ⟨hno, _⟩ | ⟨_, ht⟩
    · exact absurd hk.takes (hno k (hpass k hk))
    · omega

/-- Without loss, and if every copy taken from the ports that feed a link is passed on, the link
carries exactly these copies. -/
theorem fed_act_lossless {st : State ι} {n : ℕ} {a : Action ι} {q : Port ι} {A : Finset ℕ}
    (htrail : trail net (act net st a) q = trail net st q ++ entering net st a q)
    (hn : n < st.clock) (hpass : ∀ k, Passes net st n a k q → k ∈ A)
    (hall : ∀ k ∈ A, Takes st n a (net.peer q).1 k → Passes net st n a k q)
    (h : copies n (trail net st q) = takenFrom st n (net.peer q).1 A) :
    copies n (trail net (act net st a) q) = takenFrom (act net st a) n (net.peer q).1 A := by
  rw [htrail, copies_append]
  rcases takenFrom_act net st n a (net.peer q).1 A with ⟨hno, ht⟩ | ⟨⟨k, hk, hk'⟩, ht⟩
  · rcases copies_entering net hn a q with he | ⟨_, k, hk⟩
    · omega
    · exact absurd hk.takes (hno k (hpass k hk))
  · have := passes_entering (hall k hk hk')
    omega

end PacketCopies
