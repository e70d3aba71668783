import NetSim.EventRuns
import NetSim.NetworkSchedules
import NetSim.OwnPackets
import NetSim.SimulatedNetwork

/-! The simulation refines the network model. As long as every read of a pipe ends with a packet,
the loops of the processes and the bytes on the pipes do what the actions of the model do: a read
takes the oldest frame of a link, and the packets that it takes along are lost. -/
namespace SimulationRefinement

open PacketCodec SwitchNode NetworkTopology NetworkRuns CarriedFrames NetworkSchedules
  Simulation SimulatedNetwork OwnPackets
open TableIndices (smallConfig quietMemory quietRecv commanded)
open NetworkWiring (LinkEnd farEnd)
open EventRuns (Run)

def unstampFrame (f : Frame) : Frame := ⟨f.toPacket, 0⟩

def unstampJob (job : SwitchJob) : SwitchJob := { job with packet := unstampFrame job.packet }

def unstamp (sw : SwitchState) : SwitchState := { sw with jobQ := sw.jobQ.map unstampJob }

theorem unstamp_controlTimer (id : ℤ) (n : ℕ) (sw : SwitchState) :
    unstamp (SwitchNode.controlTimer id n sw) = SwitchNode.controlTimer id 0 (unstamp sw) := by
  unfold SwitchNode.controlTimer
  by_cases hc : sw.controlCount + 1 ≥ SwitchNode.controlCountMax
  · rw [if_pos hc, if_pos (show (unstamp sw).controlCount + 1 ≥ _ from hc)]
    simp only [unstamp, List.map_append, List.map_cons, List.map_nil]
    rfl
  · rw [if_neg hc, if_neg (show ¬ (unstamp sw).controlCount + 1 ≥ _ from hc)]
    rfl

theorem unstamp_electRoot (k : ℕ) (p : Packet) (sw : SwitchState) :
    unstamp (electRoot k p sw) = electRoot k p (unstamp sw) := by
  unfold electRoot
  rw [apply_ite unstamp, apply_ite unstamp, apply_ite unstamp, apply_ite unstamp]
  rfl

theorem unstamp_receivePacket (k : ℕ) (f : Frame) (stray : Stray) (sw : SwitchState) :
    unstamp (receivePacket k f stray sw) =
      receivePacket k (unstampFrame f) stray (unstamp sw) := by
  unfold receivePacket
  by_cases hc : f.type = pktControlPacket
  · rw [if_pos hc, if_pos (show (unstampFrame f).type = _ from hc), handleControl, handleControl,
      show (unstampFrame f).toPacket = f.toPacket from rfl, ← unstamp_electRoot]
    rfl
  · rw [if_neg hc, if_neg (show ¬ (unstampFrame f).type = _ from hc)]
    have hjob : unstampJob (dataJob k f stray sw.lookupTable) =
        dataJob k (unstampFrame f) stray sw.lookupTable := by
      unfold dataJob
      rw [apply_ite unstampJob, apply_ite unstampJob]
      rfl
    simp only [handleData, unstamp, List.map_append, List.map_cons, List.map_nil, hjob]
    rfl

/-- What goes out, without the stamps. -/
def packets (outs : List (ℕ × Frame)) : List (ℕ × Packet) :=
  outs.map fun out => (out.1, out.2.toPacket)

theorem packets_jobSends (n : ℕ) (sw : SwitchState) (job : SwitchJob) :
    packets (jobSends n (unstamp sw) (unstampJob job)) = packets (jobSends n sw job) := by
  unfold jobSends packets
  cases hj : job.type with
  | sendPktAllPorts =>
    simp only [unstampJob, hj]
    by_cases hc : job.packet.type = pktControlPacket
    · rw [if_pos hc, if_pos (show (unstampFrame job.packet).type = _ from hc), List.map_map,
        List.map_map]
      rfl
    · rw [if_neg hc, if_neg (show ¬ (unstampFrame job.packet).type = _ from hc), List.map_map,
        List.map_map]
      rfl
  | forwardPacket =>
    simp only [unstampJob, hj]
    rfl
  | other => simp only [unstampJob, hj]

theorem unstamp_executeJob (n : ℕ) (sw : SwitchState) :
    (executeJob n (unstamp sw)).1 = unstamp (executeJob n sw).1 ∧
      packets (executeJob n (unstamp sw)).2 = packets (executeJob n sw).2 := by
  cases hj : sw.jobQ with
  | nil =>
    have hj' : (unstamp sw).jobQ = [] := by simp [unstamp, hj]
    rw [executeJob_nil hj, executeJob_nil hj']
    exact ⟨rfl, rfl⟩
  | cons job rest =>
    have hj' : (unstamp sw).jobQ = unstampJob job :: rest.map unstampJob := by simp [unstamp, hj]
    rw [executeJob_cons hj, executeJob_cons hj']
    exact ⟨rfl, packets_jobSends n sw job⟩

variable {c : Config} (hc : Piped c)

/-- A frame as packet_send writes it. -/
def written (f : Frame) : List Int8 := packetSend f.toPacket

/-- The switches are the same up to the numbers of packets, the pipes hold what packet_send makes
of the frames in the channels, and all of these have a length that packet_send can handle. -/
structure Matches (s : SimState) (st : NetworkRuns.State (Node c)) : Prop where
  switch : ∀ v, (topology hc).IsSwitch v → s.switch v = unstamp (st.switch v)
  wire : ∀ q t, EndOf c q t → s.wire t = (st.channel q).map written
  fits : Carried (topology hc) (fun _ f => Fits f.toPacket) st

variable {hc}

theorem Matches.congr {s u : SimState} {st : NetworkRuns.State (Node c)} (h : Matches hc s st)
    (hswitch : u.switch = s.switch) (hwire : u.wire = s.wire) : Matches hc u st :=
  ⟨fun v hv => by rw [hswitch]; exact h.switch v hv,
    fun q t ht => by rw [hwire]; exact h.wire q t ht, h.fits⟩

theorem fits_deliver {p : Packet} (h : Fits p) (prior : Fin payloadMax → Int8) :
    Fits (p.deliver prior) := by
  rw [Fits, show (p.deliver prior).length = p.length from h.length_char]
  exact h

/-- Switches only send on what they took, and control packets without payload. -/
theorem fits_act {st : NetworkRuns.State (Node c)} {a : Action (Node c)}
    (h : Carried (topology hc) (fun _ f => Fits f.toPacket) st)
    (hp : Permitted (topology hc) a) (hs : ∀ v p, a = .send v p → Fits p) :
    Carried (topology hc) (fun _ f => Fits f.toPacket) (act (topology hc) st a) := by
  refine h.act (Q := fun _ _ f => Fits f.toPacket) hp ?_
  exact
    { mono := fun _ _ h => h
      created := fun _ _ _ => FileSplit.fits_of_length (n := 0) rfl (Nat.zero_le _)
      hosted := fun v p ha _ _ => hs v p ha
      relayed := fun _ _ _ _ _ _ _ h _ => h
      marked := fun _ _ _ _ _ h => h
      delivered := fun _ _ prior h => fits_deliver h prior }

theorem farEnd_iff {v : Node c} {k : ℕ} {q : Port (Node c)} {t t' : LinkEnd} (hq : EndOf c q t)
    (ht : EndOf c (v, k) t') : farEnd t' = t ↔ (topology hc).peer (v, k) = q := by
  constructor
  · rintro rfl
    exact (ht.peer hc).unique hc hq
  · rintro rfl
    exact Option.some.inj ((ht.peer hc).symm.trans hq)

theorem put_wire (v : Node c) (out : ℕ × Packet) (wire : LinkEnd → List (List Int8))
    {q : Port (Node c)} {t : LinkEnd} (hq : EndOf c q t) : put c v wire out t = wire t ++
      if (topology hc).IsPort (v, out.1) ∧ (topology hc).peer (v, out.1) = q then
        [packetSend out.2] else [] := by
  unfold put
  cases ht : (c.nodePort v)[out.1]? with
  | none =>
    have hno : ¬ (topology hc).IsPort (v, out.1) := by
      intro hport
      obtain ⟨t', ht'⟩ := (isPort_iff hc _).mp hport
      rw [EndOf, ht] at ht'
      cases ht'
    rw [if_neg fun h => hno h.1, List.append_nil]
  | some t' =>
    have hend : EndOf c (v, out.1) t' := ht
    simp only [hend.pipe hc, if_true]
    by_cases hfar : farEnd t' = t
    · subst hfar
      rw [Function.update_self, if_pos ⟨hend.isPort hc, (farEnd_iff hq hend).mp rfl⟩]
    · rw [Function.update_of_ne (Ne.symm hfar), if_neg fun h => hfar ((farEnd_iff hq hend).mpr h.2),
        List.append_nil]

theorem sentTo_cons (v : Node c) (out : ℕ × Frame) (outs : List (ℕ × Frame))
    (q : Port (Node c)) : sentTo (topology hc) v (out :: outs) q =
      (if (topology hc).IsPort (v, out.1) ∧ (topology hc).peer (v, out.1) = q then [out.2] else [])
        ++ sentTo (topology hc) v outs q := by
  by_cases hp : (topology hc).IsPort (v, out.1) ∧ (topology hc).peer (v, out.1) = q
  · rw [sentTo, List.filterMap_cons, if_pos hp, if_pos hp]
    rfl
  · rw [sentTo, List.filterMap_cons, if_neg hp, if_neg hp]
    rfl

theorem transmit_wire (v : Node c) (outs : List (ℕ × Frame)) (s : SimState) {q : Port (Node c)}
    {t : LinkEnd} (hq : EndOf c q t) : (Simulation.transmit c v (packets outs) s).wire t =
      s.wire t ++ (sentTo (topology hc) v outs q).map written := by
  change (packets outs).foldl (put c v) s.wire t = _
  generalize s.wire = wire
  induction outs generalizing wire with
  | nil => exact (List.append_nil _).symm
  | cons out outs ih =>
    change (packets outs).foldl (put c v) (put c v wire (out.1, out.2.toPacket)) t = _
    rw [ih, put_wire v _ wire hq, sentTo_cons, List.map_append, List.append_assoc,
      apply_ite (List.map written)]
    rfl

theorem switch_update {s : SimState} {st : NetworkRuns.State (Node c)} (h : Matches hc s st)
    (v : Node c) {a b : SwitchState} (hab : a = unstamp b) (w : Node c)
    (hw : (topology hc).IsSwitch w) :
    Function.update s.switch v a w = unstamp (Function.update st.switch v b w) := by
  by_cases hv : w = v
  · subst hv
    rw [Function.update_self, Function.update_self, hab]
  · rw [Function.update_of_ne hv, Function.update_of_ne fun he => hv (Fin.ext he)]
    exact h.switch w hw

theorem matches_control {s : SimState} {st : NetworkRuns.State (Node c)} (h : Matches hc s st)
    {v : Node c} (hv : (topology hc).IsSwitch v) :
    Matches hc
      { s with
        switch := Function.update s.switch v
          (SwitchNode.controlTimer (c.idOf v) 0 (s.switch v)) }
      (act (topology hc) st (.control v)) where
  switch := by
    refine switch_update h v ?_
    rw [h.switch v hv]
    exact (unstamp_controlTimer _ _ _).symm
  wire := h.wire
  fits := fits_act h.fits hv nofun

theorem matches_execute {s : SimState} {st : NetworkRuns.State (Node c)} (h : Matches hc s st)
    {v : Node c} (hv : (topology hc).IsSwitch v) :
    Matches hc (switchPart c v s) (act (topology hc) st (.execute v)) := by
  have hnum : (c.nodePort v).length = (topology hc).nodePortNum v := by
    rw [nodePort_eq hc]
    rfl
  obtain ⟨hstate, houts⟩ := unstamp_executeJob (c.nodePort v).length (st.switch v)
  rw [← h.switch v hv] at hstate houts
  refine ⟨switch_update h v (hnum ▸ hstate), ?_, fits_act h.fits hv nofun⟩
  intro q t ht
  have hsent : (act (topology hc) st (.execute v)).channel q = st.channel q ++
      sentTo (topology hc) v (executeJob ((topology hc).nodePortNum v) (st.switch v)).2 q := rfl
  have hpart : switchPart c v s = Simulation.transmit c v
      (packets (executeJob (c.nodePort v).length (s.switch v)).2)
      { s with
        switch := Function.update s.switch v (executeJob (c.nodePort v).length (s.switch v)).1 } :=
    rfl
  rw [hsent, hpart, houts, transmit_wire v _ _ ht, hnum, List.map_append]
  exact congrArg (· ++ _) (h.wire q t ht)

theorem matches_send {s : SimState} {st : NetworkRuns.State (Node c)} (h : Matches hc s st)
    {v : Node c} {p : Packet} (hv : ¬ (topology hc).IsSwitch v)
    (hp : HostPacket (topology hc) v p) (hfits : Fits p) :
    Matches hc (Simulation.transmit c v (Simulation.onAllPorts c v p) s)
      (act (topology hc) st (.send v p)) := by
  have hnum : (c.nodePort v).length = (topology hc).nodePortNum v := by
    rw [nodePort_eq hc]
    rfl
  have hports : Simulation.onAllPorts c v p =
      packets (NetworkRuns.onAllPorts (topology hc) v ⟨p, st.clock⟩) := by
    rw [Simulation.onAllPorts, packets, NetworkRuns.onAllPorts, List.map_map, hnum]
    rfl
  refine ⟨h.switch, ?_, fits_act h.fits ⟨hv, hp⟩ ?_⟩
  · intro q t ht
    rw [hports, transmit_wire v _ _ ht, h.wire q t ht, ← List.map_append]
    rfl
  · intro w r heq
    cases heq
    exact hfits

def onPort (k : ℕ) (reads : List (ℕ × Packet)) : List Packet :=
  (reads.filter fun read => read.1 = k).map Prod.snd

theorem onPort_append (k : ℕ) (l m : List (ℕ × Packet)) :
    onPort k (l ++ m) = onPort k l ++ onPort k m := by
  rw [onPort, List.filter_append, List.map_append]
  rfl

variable (hc) in
/-- Actions lead from st to u in which each node v sends the packets `sent v` and takes the
packets `reads v` from its ports. -/
def Mirrors (st u : NetworkRuns.State (Node c)) (sent : Node c → List Packet)
    (reads : Node c → List (ℕ × Packet)) : Prop :=
  ∃ as, Run (ActionStep (topology hc) fifo) st as u ∧ (∀ v, sentIn v as = sent v) ∧
    ∀ q, (u.received q).map Frame.toPacket =
      (st.received q).map Frame.toPacket ++ onPort q.2 (reads q.1)

def nothing {α : Type} (_ : Node c) : List α := []

theorem Mirrors.refl (st : NetworkRuns.State (Node c)) : Mirrors hc st st nothing nothing :=
  ⟨[], .nil st, fun _ => rfl, fun _ => (List.append_nil _).symm⟩

theorem Mirrors.trans {st t u : NetworkRuns.State (Node c)} {sent sent' : Node c → List Packet}
    {reads reads' : Node c → List (ℕ × Packet)} (h : Mirrors hc st t sent reads)
    (k : Mirrors hc t u sent' reads') :
    Mirrors hc st u (fun v => sent v ++ sent' v) fun v => reads v ++ reads' v := by
  obtain ⟨as, hrun, hsent, htaken⟩ := h
  obtain ⟨bs, hrun', hsent', htaken'⟩ := k
  refine ⟨as ++ bs, hrun.append hrun', ?_, ?_⟩
  · intro v
    rw [sentIn_append, hsent, hsent']
  · intro q
    rw [htaken', htaken, onPort_append, List.append_assoc]

theorem Mirrors.ends {st u : NetworkRuns.State (Node c)} {sent : Node c → List Packet}
    {reads : Node c → List (ℕ × Packet)}
    (h : Mirrors hc st u (fun v => sent v ++ nothing v) fun v => reads v ++ nothing v) :
    Mirrors hc st u sent reads := by
  simpa only [nothing, List.append_nil] using h

theorem Mirrors.actionRuns {st u : NetworkRuns.State (Node c)} {sent : Node c → List Packet}
    {reads : Node c → List (ℕ × Packet)} (h : Mirrors hc st u sent reads) :
    ActionRuns (topology hc) fifo st u := by
  obtain ⟨as, hrun, -⟩ := h
  exact actionRuns_of_run hrun

theorem mirrors_quiet {st : NetworkRuns.State (Node c)} {a : Action (Node c)}
    (hp : Permitted (topology hc) a) (hf : fifo a) (hsent : ∀ v, sentIn v [a] = [])
    (htaken : (act (topology hc) st a).received = st.received) :
    Mirrors hc st (act (topology hc) st a) nothing nothing := by
  refine ⟨[a], .cons ⟨hp, hf, rfl⟩ (.nil _), hsent, ?_⟩
  intro q
  rw [htaken]
  exact (List.append_nil _).symm

theorem mirrors_taken {st : NetworkRuns.State (Node c)} {a : Action (Node c)}
    (hp : Permitted (topology hc) a) (hf : fifo a) (hsent : ∀ v, sentIn v [a] = [])
    {v : Node c} {k : ℕ} {f : Frame} (htaken : (act (topology hc) st a).received =
      Function.update st.received (v, k) (st.received (v, k) ++ [f])) :
    Mirrors hc st (act (topology hc) st a) nothing
      fun w => if w = v then [(k, f.toPacket)] else [] := by
  refine ⟨[a], .cons ⟨hp, hf, rfl⟩ (.nil _), hsent, ?_⟩
  intro q
  rw [htaken]
  by_cases hq : q = (v, k)
  · subst hq
    rw [Function.update_self, List.map_append]
    simp [onPort]
  · rw [Function.update_of_ne hq]
    by_cases hv : q.1 = v
    · have hk : k ≠ q.2 := fun hk => hq (Prod.ext hv hk.symm)
      simp [onPort, hv, hk]
    · simp [onPort, hv]

theorem cut_length_le (n : ℕ) (q : List (List Int8)) : (cut n q).length ≤ q.length := by
  fun_induction cut n q with
  | case1 => exact Nat.le_refl _
  | case2 n m q _ ih => exact ih.trans (Nat.le_succ _)
  | case3 n m q _ => exact Nat.le_refl _

theorem cut_aligned {n : ℕ} {m : List Int8} {q : List (List Int8)} (hm : m.length ≤ n)
    (h : cut n (m :: q) <:+ m :: q) : ∃ j, cut n (m :: q) = q.drop j := by
  rw [cut, if_pos hm] at h ⊢
  have hle := cut_length_le (n - m.length) q
  refine ⟨q.length - (cut (n - m.length) q).length, ?_⟩
  have hdrop := List.suffix_iff_eq_drop.mp h
  rwa [List.length_cons, show q.length + 1 - (cut (n - m.length) q).length =
    q.length - (cut (n - m.length) q).length + 1 by omega, List.drop_succ_cons] at hdrop

theorem recv_first (type : NetLinkType) {p : Packet} (hp : Fits p) (rest : List Int8)
    (stale : ℕ → Int8) (prior : Packet) :
    0 < (PacketLinks.packetRecvOn type (packetSend p ++ rest) stale prior).1 ∧
      ∃ buffer, (PacketLinks.packetRecvOn type (packetSend p ++ rest) stale prior).2.packet =
        p.deliver buffer := by
  refine ⟨?_, PacketAddresses.Hop.deliver hp ⟨type, fun _ => 0, stale, _, rest, prior,
    PacketLinks.packetSendOn_fits type hp _, rfl⟩⟩
  have hlen := packetSend_length hp
  have hgot : 0 < ((packetSend p ++ rest).take (payloadMax + 8)).length := by
    rw [List.length_take, List.length_append]
    omega
  unfold PacketLinks.packetRecvOn
  rw [if_neg (List.ne_nil_of_length_pos hgot)]
  cases type <;> exact hgot

theorem lose_front {q : Port (Node c)} (hq : (topology hc).IsPort q) (j : ℕ)
    (st : NetworkRuns.State (Node c)) : Mirrors hc st
      { st with channel := Function.update st.channel q ((st.channel q).drop j) }
      nothing nothing := by
  induction j with
  | zero =>
    rw [List.drop_zero, Function.update_eq_self]
    exact .refl st
  | succ j ih =>
    have hlast : ∀ u : NetworkRuns.State (Node c),
        Mirrors hc u (act (topology hc) u (.lose q 0)) nothing nothing :=
      fun u => mirrors_quiet hq trivial (fun _ => rfl) rfl
    have hboth := (ih.trans (hlast _)).ends
    simpa [act, List.eraseIdx_zero] using hboth

/-- The pipe of port q is shorter, and so is its channel. -/
theorem wire_update {s : SimState} {st : NetworkRuns.State (Node c)} (h : Matches hc s st)
    {q : Port (Node c)} {t : LinkEnd} (ht : EndOf c q t) (l : List Frame) (r : Port (Node c))
    (u : LinkEnd) (hu : EndOf c r u) : Function.update s.wire t (l.map written) u =
      (Function.update st.channel q l r).map written := by
  by_cases hr : r = q
  · subst hr
    obtain rfl : u = t := Option.some.inj (hu.symm.trans ht)
    rw [Function.update_self, Function.update_self]
  · have hne : u ≠ t := by
      rintro rfl
      exact hr (hu.unique hc ht)
    rw [Function.update_of_ne hne, Function.update_of_ne hr]
    exact h.wire r u hu

theorem matches_lose {s : SimState} {st : NetworkRuns.State (Node c)} (h : Matches hc s st)
    {q : Port (Node c)} {t : LinkEnd} (ht : EndOf c q t) (j : ℕ) :
    Matches hc { s with wire := Function.update s.wire t ((s.wire t).drop j) }
      { st with channel := Function.update st.channel q ((st.channel q).drop j) } where
  switch := h.switch
  wire := by
    rw [h.wire q t ht, ← List.map_drop]
    exact wire_update h ht _
  fits := by
    refine ⟨h.fits.queued, ?_, h.fits.taken⟩
    intro r hr f hf
    have hf : f ∈ Function.update st.channel q ((st.channel q).drop j) r := hf
    refine h.fits.inFlight r hr f ?_
    by_cases hrq : r = q
    · subst hrq
      exact List.mem_of_mem_drop (by rwa [Function.update_self] at hf)
    · rwa [Function.update_of_ne hrq] at hf

theorem matches_poll {s : SimState} {st : NetworkRuns.State (Node c)} (h : Matches hc s st)
    {q : Port (Node c)} {t : LinkEnd} (ht : EndOf c q t) (hq : ¬ (topology hc).IsSwitch q.1)
    {f : Frame} {rest : List Frame} (hf : st.channel q = f :: rest) (rx : Rx)
    (hrx : rx.index = 0) :
    Matches hc { s with wire := Function.update s.wire t (rest.map written) }
      (act (topology hc) st (.poll q rx)) := by
  have hget : (st.channel q)[rx.index]? = some f := by rw [hrx, hf]; rfl
  have hfits := fits_act h.fits (a := .poll q rx) ⟨hq, ht.isPort hc⟩ nofun
  rw [act_poll_some hget, pull, hrx, hf] at hfits ⊢
  exact ⟨h.switch, wire_update h ht rest, hfits⟩

theorem matches_receive {s : SimState} {st : NetworkRuns.State (Node c)} (h : Matches hc s st)
    {q : Port (Node c)} {t : LinkEnd} (ht : EndOf c q t) (hq : (topology hc).IsSwitch q.1)
    {f : Frame} {rest : List Frame} (hf : st.channel q = f :: rest) (rx : Rx)
    (hrx : rx.index = 0) :
    Matches hc
      { s with
        wire := Function.update s.wire t (rest.map written)
        switch := Function.update s.switch q.1 (SwitchNode.receivePacket q.2
          ⟨f.toPacket.deliver rx.prior, 0⟩ rx.stray (s.switch q.1)) }
      (act (topology hc) st (.receive q rx)) := by
  have hget : (st.channel q)[rx.index]? = some f := by rw [hrx, hf]; rfl
  have hfits := fits_act h.fits (a := .receive q rx) ⟨hq, ht.isPort hc⟩ nofun
  rw [act_receive_some hget] at hfits ⊢
  refine ⟨switch_update h q.1 ?_, ?_, hfits⟩
  · rw [h.switch q.1 hq]
    exact (unstamp_receivePacket q.2 (f.deliver rx.prior) rx.stray _).symm
  · have hwire := wire_update h ht rest
    change ∀ r u, EndOf c r u → _ = (Function.update st.channel q _ r).map written
    rw [hrx, hf]
    exact hwire

theorem handle_cases {v k : ℕ} {n : ℤ} {p : Packet} {stray : Stray} {s u : SimState}
    (h : handle c v k n p stray s = some u) :
    u.wire = s.wire ∧ ∃ type, c.typeOf v = some type ∧ u.switch =
      if type = .switch ∧ n > 0 then
        Function.update s.switch v (SwitchNode.receivePacket k ⟨p, 0⟩ stray (s.switch v))
      else s.switch := by
  unfold handle at h
  cases htype : c.typeOf v with
  | none =>
    rw [htype] at h
    cases h
  | some type =>
    rw [htype] at h
    cases type with
    | host =>
      obtain ⟨-, h⟩ := Option.ite_none_right_eq_some.mp h
      obtain ⟨host, -, rfl⟩ := Option.map_eq_some_iff.mp h
      exact ⟨rfl, _, rfl, (if_neg fun hb => nomatch hb.1).symm⟩
    | switch =>
      by_cases hn : n > 0
      · simp only [if_pos hn, Option.some.injEq] at h
        subst h
        exact ⟨rfl, _, rfl, (if_pos ⟨rfl, hn⟩).symm⟩
      · simp only [if_neg hn, Option.some.injEq] at h
        subst h
        exact ⟨rfl, _, rfl, (if_neg fun hb => hn hb.2).symm⟩
    | server =>
      obtain ⟨-, h⟩ := Option.ite_none_right_eq_some.mp h
      refine ⟨?_, _, rfl, ?_⟩
      · split_ifs at h <;> cases h <;> rfl
      · split_ifs at h <;> cases h <;> rfl

def ReadsWhole (c : Config) (s : SimState) : SimEvent → Prop
  | .recv v k _ _ _ _ => ∀ t ∈ (c.nodePort v)[k]?, cut (payloadMax + 8) (s.wire t) <:+ s.wire t
  | _ => True

instance (c : Config) (s : SimState) : DecidablePred (ReadsWhole c s)
  | .recv v k _ _ _ _ => inferInstanceAs (Decidable (∀ t ∈ (c.nodePort v)[k]?, _))
  | .host _ _ | .switchControl _ | .switchExecute _ | .serverControl _ _
  | .serverExecute _ _ _ => inferInstanceAs (Decidable True)

def WholeStep (c : Config) (s : SimState) (e : SimEvent) (u : SimState) : Prop :=
  ReadsWhole c s e ∧ SimStep c s e u

/-- A step, unless it reads a part of a packet. -/
def wholeStep (c : Config) (s : SimState) (e : SimEvent) : Option SimState :=
  if ReadsWhole c s e then simStep c s e else none

theorem wholeStep_some {s u : SimState} {e : SimEvent} (h : wholeStep c s e = some u) :
    WholeStep c s e u := by
  obtain ⟨hwhole, hstep⟩ := Option.ite_none_right_eq_some.mp h
  exact ⟨hwhole, hstep⟩

theorem received_pipe {t : LinkEnd} (hpipe : c.linkType t = some .pipe) (peer : List Int8)
    (stale : ℕ → Int8) (prior : Packet) (s : SimState) : received c t peer stale prior s =
      (((PacketLinks.packetRecvOn .pipe (s.wire t).flatten stale prior).1 : ℤ),
        (PacketLinks.packetRecvOn .pipe (s.wire t).flatten stale prior).2.packet) := by
  unfold received arrived
  simp only [hpipe, if_true]

theorem received_written {t : LinkEnd} (hpipe : c.linkType t = some .pipe) (peer : List Int8)
    (stale : ℕ → Int8) (prior : Packet) {s : SimState} {f : Frame} {rest : List Frame}
    (hf : Fits f.toPacket) (hwire : s.wire t = (f :: rest).map written) :
    0 < (received c t peer stale prior s).1 ∧
      ∃ buffer, (received c t peer stale prior s).2 = f.toPacket.deliver buffer := by
  obtain ⟨hn, buffer, hp⟩ := recv_first .pipe hf (rest.map written).flatten stale prior
  rw [received_pipe hpipe, hwire, List.map_cons, List.flatten_cons]
  exact ⟨Int.natCast_pos.mpr hn, buffer, hp⟩

theorem matches_recv {s u : SimState} {st : NetworkRuns.State (Node c)} (h : Matches hc s st)
    {w : Node c} {k : ℕ} {t : LinkEnd} (ht : EndOf c (w, k) t)
    (hcut : cut (payloadMax + 8) (s.wire t) <:+ s.wire t) {n : ℤ} {p : Packet} {stray : Stray}
    (hn : st.channel (w, k) = [] → n = 0)
    (hp : ∀ f rest, st.channel (w, k) = f :: rest → 0 < n ∧
      ∃ buffer, p = f.toPacket.deliver buffer)
    (hstep : handle c w k n p stray (takeOff c t s) = some u) :
    ∃ st', Mirrors hc st st' nothing (fun v => if v = w ∧ n > 0 then [(k, p)] else []) ∧
      Matches hc u st' := by
  obtain ⟨hwire, type, htype, hswitch⟩ := handle_cases hstep
  have htake : takeOff c t s =
      { s with wire := Function.update s.wire t (cut (payloadMax + 8) (s.wire t)) } :=
    if_pos (ht.pipe hc)
  rw [htake] at hwire hswitch
  cases hf : st.channel (w, k) with
  | nil =>
    have hempty : s.wire t = [] := by
      rw [h.wire _ t ht, hf]
      rfl
    have hnone : (fun v => if v = w ∧ n > 0 then [(k, p)] else []) = nothing := by
      funext v
      exact if_neg fun hb => (hn hf).not_gt hb.2
    refine ⟨st, hnone ▸ .refl st, h.congr ?_ ?_⟩
    · rw [hswitch]
      exact if_neg fun hb => (hn hf).not_gt hb.2
    · rw [hwire, hempty]
      exact (congrArg _ (show cut _ [] = s.wire t from hempty.symm)).trans
        (Function.update_eq_self _ _)
  | cons f rest =>
    obtain ⟨hpos, buffer, rfl⟩ := hp f rest hf
    have hbytes : s.wire t = written f :: rest.map written := by
      rw [h.wire _ t ht, hf]
      rfl
    have hlen : (written f).length ≤ payloadMax + 8 := by
      have hfits : Fits f.toPacket :=
        h.fits.inFlight (w, k) (ht.isPort hc) f (hf ▸ List.mem_cons_self)
      rw [written, packetSend_length hfits]
      have := hfits.2
      omega
    obtain ⟨j, hj⟩ := cut_aligned hlen (hbytes ▸ hcut)
    rw [← hbytes, ← List.map_drop] at hj
    rw [hj] at hwire
    have hleft : u.wire = Function.update (Function.update s.wire t (rest.map written)) t
        ((Function.update s.wire t (rest.map written) t).drop j) := by
      rw [hwire, Function.update_self, Function.update_idem, List.map_drop]
    have hsome : (fun v => if v = w ∧ n > 0 then [(k, f.toPacket.deliver buffer)] else []) =
        fun v => if v = w then [(k, f.toPacket.deliver buffer)] else [] := by
      funext v
      simp [hpos]
    rw [hsome]
    by_cases hw : (topology hc).IsSwitch w
    · have hread := matches_receive h ht hw hf ⟨0, buffer, stray⟩ rfl
      have htaken : Mirrors hc st _ nothing
          fun v => if v = w then [(k, f.toPacket.deliver buffer)] else [] :=
        mirrors_taken (a := .receive (w, k) ⟨0, buffer, stray⟩) (f := f.deliver buffer)
          ⟨hw, ht.isPort hc⟩ rfl (fun _ => rfl) (by
            rw [act_receive_some (show (st.channel (w, k))[0]? = some f by rw [hf]; rfl)]
            rfl)
      refine ⟨_, (htaken.trans (lose_front (ht.isPort hc) j _)).ends,
        (matches_lose hread ht j).congr ?_ hleft⟩
      have hsame := htype.symm.trans ((isSwitch_iff hc w).mp hw)
      rw [hswitch, if_pos ⟨Option.some.inj hsame, hpos⟩]
    · have hread := matches_poll h ht hw hf ⟨0, buffer, stray⟩ rfl
      have htaken : Mirrors hc st _ nothing
          fun v => if v = w then [(k, f.toPacket.deliver buffer)] else [] :=
        mirrors_taken (a := .poll (w, k) ⟨0, buffer, stray⟩) (f := f.deliver buffer)
          ⟨hw, ht.isPort hc⟩ rfl (fun _ => rfl) (by
            rw [act_poll_some (show (st.channel (w, k))[0]? = some f by rw [hf]; rfl)]
            rfl)
      refine ⟨_, (htaken.trans (lose_front (ht.isPort hc) j _)).ends,
        (matches_lose hread ht j).congr ?_ hleft⟩
      rw [hswitch, if_neg]
      rintro ⟨rfl, -⟩
      exact hw ((isSwitch_iff hc w).mpr htype)

theorem matches_sent {s : SimState} {st : NetworkRuns.State (Node c)} (h : Matches hc s st)
    {v : Node c} (hv : ¬ (topology hc).IsSwitch v) {sent : List Packet}
    (hsent : SendsOwn (c.idOf v) sent) : ∃ st',
      Mirrors hc st st' (fun w => if w = v then sent else []) nothing ∧
      Matches hc (Simulation.transmit c v (sent.flatMap (Simulation.onAllPorts c v)) s) st' := by
  rcases hsent with rfl | ⟨p, hp, rfl⟩
  · have hnone : (fun w => if w = v then ([] : List Packet) else []) = nothing := by
      funext w
      exact ite_self _
    exact ⟨st, hnone ▸ .refl st, h.congr rfl rfl⟩
  · have hpacket : HostPacket (topology hc) v p := ⟨hp.src, hp.control⟩
    rw [List.flatMap_singleton]
    refine ⟨_, ⟨[.send v p], .cons ⟨⟨hv, hpacket⟩, trivial, rfl⟩ (.nil _), ?_, ?_⟩,
      matches_send h hv hpacket hp.fits⟩
    · intro w
      simp [sentIn, eq_comm]
    · intro q
      exact (List.append_nil _).symm

theorem not_switch {v : Node c} {type : NetNodeType} (h : c.typeOf v = some type)
    (htype : type ≠ .switch) : ¬ (topology hc).IsSwitch v := by
  intro hs
  exact htype (Option.some.inj (h.symm.trans ((isSwitch_iff hc v).mp hs)))

/-- What packet_recv returns to node v in a step, with the port. -/
def readNow (c : Config) (s : SimState) (v : ℕ) : SimEvent → List (ℕ × Packet)
  | .recv w k peer stale prior _ =>
    match (c.nodePort w)[k]? with
    | none => []
    | some t =>
      let r := received c t peer stale prior s
      if v = w ∧ r.1 > 0 then [(k, r.2)] else []
  | _ => []

/-- What packet_recv returns to node v in the steps from state s, with the ports. -/
def readings (c : Config) (v : ℕ) : SimState → List SimEvent → List (ℕ × Packet)
  | _, [] => []
  | s, e :: es => readNow c s v e ++ ((simStep c s e).map fun u => readings c v u es).getD []

theorem readings_cons {s u : SimState} {e : SimEvent} (h : SimStep c s e u) (v : ℕ)
    (es : List SimEvent) : readings c v s (e :: es) = readNow c s v e ++ readings c v u es := by
  rw [readings, h]
  rfl

theorem handle_other {v w k : ℕ} {n : ℤ} {p : Packet} {stray : Stray} {s u : SimState}
    (h : handle c w k n p stray s = some u) (hv : v ≠ w) :
    u.host v = s.host v ∧ u.server v = s.server v := by
  unfold handle at h
  cases htype : c.typeOf w with
  | none =>
    rw [htype] at h
    cases h
  | some type =>
    rw [htype] at h
    cases type with
    | host =>
      obtain ⟨-, h⟩ := Option.ite_none_right_eq_some.mp h
      obtain ⟨host, -, rfl⟩ := Option.map_eq_some_iff.mp h
      exact ⟨Function.update_of_ne hv _ _, rfl⟩
    | switch =>
      dsimp only at h
      split_ifs at h
      · cases h
        exact ⟨rfl, rfl⟩
      · cases h
        exact ⟨rfl, rfl⟩
    | server =>
      dsimp only at h
      split_ifs at h
      · cases h
        exact ⟨rfl, Function.update_of_ne hv _ _⟩
      · cases h
        exact ⟨rfl, rfl⟩

/-- What a step of the simulation is for host v. -/
inductive HostMoves (c : Config) (v : ℕ) (s u : SimState) (e : SimEvent) : Prop where
  | rests : (∀ x, e ≠ .host v x) → u.host v = s.host v → readNow c s v e = [] →
      HostMoves c v s u e
  | part {x} : e = .host v x → isReceive x = false → readNow c s v e = [] →
      HostNode.hostStep (s.host v) x = some (u.host v) → HostMoves c v s u e
  | reads {k n p} : (∀ x, e ≠ .host v x) → readNow c s v e = (if n > 0 then [(k, p)] else []) →
      HostNode.hostStep (s.host v) (.receive n p) = some (u.host v) → HostMoves c v s u e

theorem host_moves {s u : SimState} {e : SimEvent} {v : ℕ} (hv : c.typeOf v = some .host)
    (h : SimStep c s e u) : HostMoves c v s u e := by
  unfold SimStep simStep at h
  cases e with
  | host w x =>
    obtain ⟨⟨-, hreceive⟩, h⟩ := Option.ite_none_right_eq_some.mp h
    obtain ⟨host, hhost, rfl⟩ := Option.map_eq_some_iff.mp h
    by_cases hw : w = v
    · subst hw
      refine .part rfl hreceive rfl ?_
      change _ = some (Function.update s.host w host w)
      rwa [Function.update_self]
    · refine .rests ?_ (Function.update_of_ne (Ne.symm hw) _ _) rfl
      intro y he
      cases he
      exact hw rfl
  | switchControl w | switchExecute w | serverControl w blank =>
    obtain ⟨-, h⟩ := Option.ite_none_right_eq_some.mp h
    cases h
    exact .rests nofun rfl rfl
  | serverExecute w around blank =>
    obtain ⟨-, h⟩ := Option.ite_none_right_eq_some.mp h
    obtain ⟨server, -, rfl⟩ := Option.map_eq_some_iff.mp h
    exact .rests nofun rfl rfl
  | recv w k peer stale prior stray =>
    dsimp only at h
    cases ht : (c.nodePort w)[k]? with
    | none =>
      rw [ht] at h
      cases h
    | some t =>
      rw [ht] at h
      obtain ⟨hhosts, -⟩ := takeOff_nodes (c := c) t s
      by_cases hw : w = v
      · subst hw
        unfold handle at h
        simp only [hv] at h
        obtain ⟨-, h⟩ := Option.ite_none_right_eq_some.mp h
        obtain ⟨host, hhost, rfl⟩ := Option.map_eq_some_iff.mp h
        rw [hhosts] at hhost
        refine .reads (k := k) nofun ?_ (hhost.trans ?_)
        · simp only [readNow, ht, true_and]
        · simp only [Function.update_self]
      · refine .rests nofun ?_ ?_
        · rw [← hhosts]
          exact (handle_other h (Ne.symm hw)).1
        · simp only [readNow, ht]
          exact if_neg fun hread => hw hread.1.symm

/-- Each host and server has sent the packets `sent v` and no others. -/
structure Emits (c : Config) (s u : SimState) (sent : Node c → List Packet) : Prop where
  host : ∀ v : Node c, c.typeOf v = some .host → (u.host v).sent = (s.host v).sent ++ sent v
  server : ∀ v : Node c, c.typeOf v = some .server →
    (u.server v).sent = (s.server v).sent ++ sent v

theorem Emits.same {s u : SimState} (hhost : ∀ v, (u.host v).sent = (s.host v).sent)
    (hserver : ∀ v, (u.server v).sent = (s.server v).sent) : Emits c s u nothing :=
  ⟨fun v _ => (hhost v).trans (List.append_nil _).symm,
    fun v _ => (hserver v).trans (List.append_nil _).symm⟩

theorem Emits.trans {s t u : SimState} {sent sent' : Node c → List Packet}
    (h : Emits c s t sent) (k : Emits c t u sent') : Emits c s u fun v => sent v ++ sent' v where
  host v hv := by rw [k.host v hv, h.host v hv, List.append_assoc]
  server v hv := by rw [k.server v hv, h.server v hv, List.append_assoc]

theorem emits_host {s u : SimState} {w : Node c} {host : HostNode.HostState}
    (htype : c.typeOf w = some .host) (hhost : u.host = Function.update s.host w host)
    (hserver : u.server = s.server) (hsent : (s.host w).sent <+: host.sent) :
    Emits c s u fun v => if v = w then host.sent.drop (s.host w).sent.length else [] where
  host v _ := by
    rw [hhost]
    by_cases hv : v = w
    · subst hv
      rw [Function.update_self, if_pos rfl]
      exact List.prefix_iff_eq_append.mp hsent |>.symm
    · rw [Function.update_of_ne fun he => hv (Fin.ext he), if_neg hv, List.append_nil]
  server v hv := by
    have hne : v ≠ w := by
      rintro rfl
      exact absurd (hv.symm.trans htype) (by decide)
    rw [hserver, if_neg hne, List.append_nil]

theorem emits_server {s u : SimState} {w : Node c} {server : DnsServer.ServerState}
    (htype : c.typeOf w = some .server) (hhost : u.host = s.host)
    (hserver : u.server = Function.update s.server w server)
    (hsent : (s.server w).sent <+: server.sent) :
    Emits c s u fun v => if v = w then server.sent.drop (s.server w).sent.length else [] where
  host v hv := by
    have hne : v ≠ w := by
      rintro rfl
      exact absurd (hv.symm.trans htype) (by decide)
    rw [hhost, if_neg hne, List.append_nil]
  server v _ := by
    rw [hserver]
    by_cases hv : v = w
    · subst hv
      rw [Function.update_self, if_pos rfl]
      exact List.prefix_iff_eq_append.mp hsent |>.symm
    · rw [Function.update_of_ne fun he => hv (Fin.ext he), if_neg hv, List.append_nil]

theorem handle_sent {v k : ℕ} {n : ℤ} {p : Packet} {stray : Stray} {s u : SimState}
    (h : handle c v k n p stray s = some u) : Emits c s u nothing := by
  unfold handle at h
  cases htype : c.typeOf v with
  | none =>
    rw [htype] at h
    cases h
  | some type =>
    rw [htype] at h
    cases type with
    | host =>
      obtain ⟨-, h⟩ := Option.ite_none_right_eq_some.mp h
      obtain ⟨host, hhost, rfl⟩ := Option.map_eq_some_iff.mp h
      refine .same ?_ fun _ => rfl
      exact TableIndices.forall_update (P := fun w (a : HostNode.HostState) =>
        a.sent = (s.host w).sent) (fun _ => rfl) (receive_sent hhost)
    | switch =>
      dsimp only at h
      split_ifs at h
      · cases h
        exact .same (fun _ => rfl) fun _ => rfl
      · cases h
        exact .same (fun _ => rfl) fun _ => rfl
    | server =>
      obtain ⟨-, h⟩ := Option.ite_none_right_eq_some.mp h
      split_ifs at h
      · cases h
        refine .same (fun _ => rfl) ?_
        exact TableIndices.forall_update (P := fun w (a : DnsServer.ServerState) =>
          a.sent = (s.server w).sent) (fun _ => rfl) rfl
      · cases h
        exact .same (fun _ => rfl) fun _ => rfl

theorem matches_step {s u : SimState} {e : SimEvent} (hstep : WholeStep c s e u)
    (hs : OwnSim c s) {st : NetworkRuns.State (Node c)} (h : Matches hc s st) :
    ∃ sent st', Mirrors hc st st' sent (fun v => readNow c s v e) ∧ Emits c s u sent ∧
      Matches hc u st' := by
  obtain ⟨hwhole, hstep⟩ := hstep
  unfold SimStep simStep at hstep
  cases e with
  | host v e =>
    obtain ⟨⟨htype, -⟩, hstep⟩ := Option.ite_none_right_eq_some.mp hstep
    obtain ⟨host, hhost, rfl⟩ := Option.map_eq_some_iff.mp hstep
    obtain ⟨w, rfl⟩ := exists_node htype
    have hnext : Matches hc { s with host := Function.update s.host w host } st :=
      h.congr rfl rfl
    obtain ⟨st', hmirrors, hmatches⟩ :=
      matches_sent hnext (not_switch htype nofun) (ownHost_step hhost (hs.host w htype)).2
    exact ⟨_, st', hmirrors, emits_host htype rfl rfl (hostStep_sent hhost), hmatches⟩
  | switchControl v =>
    obtain ⟨htype, hstep⟩ := Option.ite_none_right_eq_some.mp hstep
    cases hstep
    obtain ⟨w, rfl⟩ := exists_node htype
    have hw := (isSwitch_iff hc w).mpr htype
    exact ⟨_, _, mirrors_quiet (a := .control w) hw trivial (fun _ => rfl) rfl,
      .same (fun _ => rfl) (fun _ => rfl), matches_control h hw⟩
  | switchExecute v =>
    obtain ⟨htype, hstep⟩ := Option.ite_none_right_eq_some.mp hstep
    cases hstep
    obtain ⟨w, rfl⟩ := exists_node htype
    have hw := (isSwitch_iff hc w).mpr htype
    exact ⟨_, _, mirrors_quiet (a := .execute w) hw trivial (fun _ => rfl) rfl,
      .same (fun _ => rfl) (fun _ => rfl), matches_execute h hw⟩
  | serverControl v blank =>
    obtain ⟨-, hstep⟩ := Option.ite_none_right_eq_some.mp hstep
    cases hstep
    refine ⟨_, st, .refl st, .same (fun _ => rfl) ?_, h.congr rfl rfl⟩
    refine TableIndices.forall_update (P := fun w (a : DnsServer.ServerState) =>
      a.sent = (s.server w).sent) (fun _ => rfl) ?_
    unfold DnsServer.controlTimer
    split
    · rfl
    · rfl
  | serverExecute v around blank =>
    obtain ⟨hserver, hstep⟩ := Option.ite_none_right_eq_some.mp hstep
    obtain ⟨server, hnext, rfl⟩ := Option.map_eq_some_iff.mp hstep
    obtain ⟨w, rfl⟩ := exists_node hserver.1
    have hsent := (ownServer_execute hnext (hs.server w)).2
    rw [← hserver.2] at hsent
    have hsame : Matches hc { s with server := Function.update s.server w server } st :=
      h.congr rfl rfl
    obtain ⟨st', hmirrors, hmatches⟩ := matches_sent hsame (not_switch hserver.1 nofun) hsent
    exact ⟨_, st', hmirrors, emits_server hserver.1 rfl rfl (execute_sent hnext), hmatches⟩
  | recv v k peer stale prior stray =>
    dsimp only at hstep
    cases ht : (c.nodePort v)[k]? with
    | none =>
      rw [ht] at hstep
      cases hstep
    | some t =>
      rw [ht] at hstep
      obtain ⟨-, type, htype, -⟩ := handle_cases hstep
      obtain ⟨w, rfl⟩ := exists_node htype
      have hend : EndOf c (w, k) t := ht
      have hread : (fun v : Node c => readNow c s v (.recv w k peer stale prior stray)) =
          fun v => if v = w ∧ (received c t peer stale prior s).1 > 0 then
            [(k, (received c t peer stale prior s).2)] else [] := by
        funext v
        simp only [readNow, ht, Fin.val_inj]
      obtain ⟨hhost, hserver⟩ := takeOff_nodes (c := c) t s
      have hsent := handle_sent hstep
      rw [hread]
      have hempty : st.channel (w, k) = [] → (received c t peer stale prior s).1 = 0 := by
        intro hempty
        rw [received_pipe (hend.pipe hc), h.wire _ t hend, hempty]
        rfl
      have holdest : ∀ f rest, st.channel (w, k) = f :: rest →
          0 < (received c t peer stale prior s).1 ∧
            ∃ buffer, (received c t peer stale prior s).2 = f.toPacket.deliver buffer := by
        intro f rest hf
        refine received_written (hend.pipe hc) peer stale prior ?_ (by rw [h.wire _ t hend, hf])
        exact h.fits.inFlight (w, k) (hend.isPort hc) f (hf ▸ List.mem_cons_self)
      obtain ⟨st', hmirrors, hmatches⟩ := matches_recv h hend (hwhole t ht) hempty holdest hstep
      exact ⟨_, st', hmirrors, ⟨hhost ▸ hsent.host, hserver ▸ hsent.server⟩, hmatches⟩

theorem matches_init (hc : Piped c) (memory : SimMemory) :
    Matches hc (simInit c memory) (initial (topology hc)) :=
  ⟨fun _ _ => rfl, fun _ _ _ => rfl, carried_initial _⟩

theorem run_mirrors {s u : SimState} {es : List SimEvent} (h : Run (WholeStep c) s es u)
    (hs : OwnSim c s) {st : NetworkRuns.State (Node c)} (hm : Matches hc s st) :
    ∃ sent st', Mirrors hc st st' sent (fun v => readings c v s es) ∧ Emits c s u sent ∧
      OwnSim c u ∧ Matches hc u st' := by
  induction h generalizing st with
  | nil s => exact ⟨nothing, st, .refl st, .same (fun _ => rfl) (fun _ => rfl), hs, hm⟩
  | @cons s e t es u hstep _ ih =>
    obtain ⟨sent, st₁, hmirrors, hemits, hm₁⟩ := matches_step hstep hs hm
    obtain ⟨sent', st₂, hmirrors', hemits', hs₂, hm₂⟩ := ih (ownSim_step hstep.2 hs) hm₁
    refine ⟨_, st₂, ?_, hemits.trans hemits', hs₂, hm₂⟩
    have hreads : (fun v : Node c => readings c v s (e :: es)) =
        fun v : Node c => readNow c s v e ++ readings c v t es :=
      funext fun v => readings_cons hstep.2 v es
    rw [hreads]
    exact hmirrors.trans hmirrors'

theorem run_matches {s u : SimState} {es : List SimEvent} (h : Run (WholeStep c) s es u)
    (hs : OwnSim c s) {st : NetworkRuns.State (Node c)} (hm : Matches hc s st) :
    ∃ st', ActionRuns (topology hc) fifo st st' ∧ OwnSim c u ∧ Matches hc u st' := by
  obtain ⟨_, st', hmirrors, -, hs', hm'⟩ := run_mirrors h hs hm
  exact ⟨st', hmirrors.actionRuns, hs', hm'⟩

/-- Whatever the order in which the processes go through their loops, their switches and pipes
are those of a FIFO run of the network. -/
theorem simulation_refines (hc : Piped c) (memory : SimMemory) {es : List SimEvent} {s : SimState}
    (h : Run (WholeStep c) (simInit c memory) es s) :
    ∃ st, ActionReachable (topology hc) fifo st ∧ Matches hc s st := by
  obtain ⟨st, hrun, -, hm⟩ := run_matches h (ownSim_init c memory) (matches_init hc memory)
  exact ⟨st, hrun, hm⟩

theorem smallConfig_piped : Piped smallConfig := by decide +kernel

def pingRead : List SimEvent := commanded [112, 32, 49] ++ [quietRecv 1]

theorem pingRead_run : ∃ s, Run (WholeStep smallConfig) (simInit smallConfig quietMemory)
    pingRead s ∧ (s.switch 1).jobQ.length = 1 ∧
      (s.switch 1).lookupTable.isValid 0 = true := by
  have hrun : (pingRead.foldlM (wholeStep smallConfig) (simInit smallConfig quietMemory)).map
      (fun s => ((s.switch 1).jobQ.length, (s.switch 1).lookupTable.isValid 0)) =
        some (1, true) := by
    decide +kernel
  obtain ⟨s, hs, hlast⟩ := Option.map_eq_some_iff.mp hrun
  obtain ⟨hjobs, hvalid⟩ := Prod.mk.inj hlast
  exact ⟨s, (Run.of_foldlM hs).mono fun _ _ _ => wholeStep_some, hjobs, hvalid⟩

theorem simulation_refines_pingRead :
    ∃ s, Run (WholeStep smallConfig) (simInit smallConfig quietMemory) pingRead s ∧
      (s.switch 1).jobQ.length = 1 ∧
      ∃ st, ActionReachable (topology smallConfig_piped) fifo st ∧
        Matches smallConfig_piped s st := by
  obtain ⟨s, hs, hjobs, -⟩ := pingRead_run
  exact ⟨s, hs, hjobs, simulation_refines smallConfig_piped quietMemory hs⟩

end SimulationRefinement
