import NetSim.NetworkSchedules
import NetSim.ForestDelivery

/-! Where data packets come from. Switches only pass frames on, so every data packet that any
node ever takes was sent by the node its source field names, with the same contents. -/
namespace FrameHistory

open Filter PacketCodec SwitchNode NetworkTopology NetworkRuns LinkSends CarriedFrames
  LearnedRoutes InfiniteRuns NetworkSchedules

variable {ι : Type} [DecidableEq ι] {net : Topology ι} {D : Action ι → Prop}

/-- g says what p says: the addresses, the type and, where its length is one that packet_send can
handle, the payload. -/
structure CopyOf (p g : Packet) : Prop where
  src : g.src = p.src
  dst : g.dst = p.dst
  type : g.type = p.type
  length : Fits p → g.length = p.length
  payload : Fits p → ∀ i : Fin payloadMax, (i : ℤ) < p.length → g.payload i = p.payload i

theorem CopyOf.refl (p : Packet) : CopyOf p p := ⟨rfl, rfl, rfl, fun _ => rfl, fun _ _ _ => rfl⟩

theorem CopyOf.deliver {p g : Packet} (h : CopyOf p g) (prior : Fin payloadMax → Int8) :
    CopyOf p (g.deliver prior) where
  src := h.src
  dst := h.dst
  type := h.type
  length hf := by
    change (Int8.ofInt g.length).toInt = p.length
    rw [h.length hf, hf.length_char]
  payload hf i hi := by
    change (if (i : ℤ) < (Int8.ofInt g.length).toInt then g.payload i else prior i) = _
    rw [h.length hf, hf.length_char, if_pos hi]
    exact h.payload hf i hi

/-- Node h sent packet p at time t, as packet number n. -/
structure SentAt (e : Execution (ActionStep net D)) (t : ℕ) (h : ι) (p : Packet) (n : ℕ) :
    Prop where
  label : e.label t = .send h p
  stamp : (e.state t).clock = n

def SentBefore (e : Execution (ActionStep net D)) (u : ℕ) (_ : ι) (f : Frame) : Prop :=
  f.type ≠ pktControlPacket →
    ∃ t h p, t < u ∧ SentAt e t h p f.stamp ∧ CopyOf p f.toPacket

theorem sentBefore_carriable (e : Execution (ActionStep net D)) (u : ℕ) :
    Carriable net (fun _ => SentBefore e (u + 1)) (e.state u) (e.label u) where
  mono _ _ h := h
  created s _ _ hd := absurd rfl hd
  hosted h p ha _ _ _ := ⟨u, h, p, Nat.lt_succ_self u, ⟨ha, rfl⟩, .refl p⟩
  relayed _ _ _ _ _ _ _ h _ := h
  marked _ _ f _ hc _ hd := absurd hc hd
  delivered _ f prior h hd := by
    obtain ⟨t, v, p, htu, hs, hcopy⟩ := h hd
    exact ⟨t, v, p, htu, hs, hcopy.deliver prior⟩

theorem carried_sentBefore (e : Execution (ActionStep net D)) (h0 : e.state 0 = initial net)
    (u : ℕ) : Carried net (SentBefore e u) (e.state u) := by
  induction u with
  | zero =>
    rw [h0]
    exact carried_initial _
  | succ u ih =>
    have later : ∀ w f, SentBefore e u w f → SentBefore e (u + 1) w f := by
      intro w f h hd
      obtain ⟨t, v, p, htu, hs⟩ := h hd
      exact ⟨t, v, p, Nat.lt_succ_of_lt htu, hs⟩
    have hmid : Carried net (SentBefore e (u + 1)) (e.state u) :=
      ⟨fun s hs job hj => later _ _ (ih.queued s hs job hj),
        fun q hq f hf => later _ _ (ih.inFlight q hq f hf),
        fun q hq f hf => later _ _ (ih.taken q hq f hf)⟩
    rw [(e.valid u).2.2]
    exact hmid.act (Q := fun _ => SentBefore e (u + 1)) (e.valid u).1 (sentBefore_carriable e u)

theorem SentAt.unique {e : Execution (ActionStep net D)} {t u : ℕ} {h v : ι} {p r : Packet}
    {n : ℕ} (ht : SentAt e t h p n) (hu : SentAt e u v r n) : t = u ∧ h = v ∧ p = r := by
  have ticks : ∀ {t u h p}, SentAt e t h p n → t < u → n < (e.state u).clock := by
    intro t u h p hs htu
    have hstep : (e.state (t + 1)).clock = (e.state t).clock + 1 := by
      rw [(e.valid t).2.2, hs.label]
      rfl
    have hmono := clock_mono e (show t + 1 ≤ u from htu)
    rw [hstep, hs.stamp] at hmono
    exact hmono
  have hsame : t = u := by
    rcases lt_trichotomy t u with hlt | heq | hgt
    · exact absurd hu.stamp (ticks ht hlt).ne'
    · exact heq
    · exact absurd ht.stamp (ticks hu hgt).ne'
  subst hsame
  have hlabel := ht.label.symm.trans hu.label
  cases hlabel
  exact ⟨rfl, rfl, rfl⟩

section PingPong

open ForestDelivery Continuations

def helloFrom (v : Fin 3) : Packet := hostControl (hostsOnSwitch.id v)

def pongToZero : Packet := ⟨2, 0, pktPingReply, 0, fun _ => 0, 0, 0, 0, 0⟩

def pingPong : List (Action (Fin 3)) :=
  [.send 0 pingToTwo, .control 1, .receive (1, 0) takeOldest, .execute 1, .poll (2, 0) takeOldest,
    .send 2 pongToZero, .receive (1, 1) takeOldest, .poll (0, 0) takeOldest,
    .send 0 (helloFrom 0), .send 2 (helloFrom 2)]

theorem pingPong_permitted : ∀ a ∈ pingPong, Permitted hostsOnSwitch a ∧ lossless a := by
  decide +kernel

def playingPingPong : Execution (ActionStep hostsOnSwitch lossless) :=
  Execution.cycle (f := act hostsOnSwitch) (l := pingPong) (by decide) (initial hostsOnSwitch)
    fun _ a ha => ⟨(pingPong_permitted a ha).1, (pingPong_permitted a ha).2, rfl⟩

theorem playingPingPong_often {a : Action (Fin 3)} (ha : a ∈ pingPong) :
    ∃ᶠ t in atTop, playingPingPong.label t = a := Execution.cycle_often _ _ _ ha

end PingPong

/-- Whatever is lost, delayed, flooded or forwarded, every data packet that a node takes from one
of its ports was sent, once, by the host or DNS server that its source field names, and says
what was sent. -/
theorem taken_was_sent (e : Execution (ActionStep net D)) (h0 : e.state 0 = initial net) {u : ℕ}
    {q : Port ι} (hq : net.IsPort q) {g : Frame} (hg : g ∈ (e.state u).received q)
    (hd : g.type ≠ pktControlPacket) :
    ∃ t h p, t < u ∧ SentAt e t h p g.stamp ∧ CopyOf p g.toPacket ∧ ¬ net.IsSwitch h ∧
      g.src.toInt = net.id h ∧
      ∀ t' h' p', SentAt e t' h' p' g.stamp → t' = t ∧ h' = h ∧ p' = p := by
  obtain ⟨t, h, p, htu, hs, hcopy⟩ := (carried_sentBefore e h0 u).taken q hq g hg hd
  have hp := (e.valid t).1
  rw [hs.label] at hp
  have hsrc : p.src = Int8.ofInt (net.id h) := hp.2.1
  refine ⟨t, h, p, htu, hs, hcopy, hp.1, ?_, fun _ _ _ h' => h'.unique hs⟩
  rw [hcopy.src, hsrc, Topology.id_toInt]

theorem taken_was_sent_pingPong :
    ∃ (g : Frame) (t : ℕ) (h : Fin 3) (p : Packet), g ∈ (playingPingPong.state 5).received (2, 0) ∧
      SentAt playingPingPong t h p g.stamp ∧ CopyOf p g.toPacket := by
  have hne : (playingPingPong.state 5).received (2, 0) ≠ [] := by decide +kernel
  have hdata : ∀ h : (playingPingPong.state 5).received (2, 0) ≠ [],
      (((playingPingPong.state 5).received (2, 0)).head h).type ≠ pktControlPacket := by
    decide +kernel
  obtain ⟨t, h, p, _, hs, hcopy, _⟩ := taken_was_sent playingPingPong rfl (by decide)
    (List.head_mem hne) (hdata hne)
  exact ⟨_, t, h, p, List.head_mem hne, hs, hcopy⟩

end FrameHistory
