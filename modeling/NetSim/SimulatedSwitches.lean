import NetSim.LearnedRoutes
import NetSim.SimulationRefinement
import NetSim.SwitchElection

/-! What the network model says about the switches of the simulation: the distance of a switch is
the length of a path of switches from its root, and the entries of the lookup tables lead to the
node they are for. -/
namespace SimulatedSwitches

open SwitchNode NetworkTopology NetworkRuns Simulation SimulatedNetwork SimulationRefinement
open SwitchElection LearnedRoutes OwnPackets
open NetworkWiring (LinkEnd farEnd)
open TableIndices (smallConfig quietMemory quietRecv)
open EventRuns (Run)

variable {c : Config}

def Joined (c : Config) (v w : ℕ) : Prop := ∃ t, t ∈ c.nodePort v ∧ farEnd t ∈ c.nodePort w

/-- The switches of l lead from the root of switch v to v itself, one link for each unit of its
distance, and all of them have come down to its pair. -/
structure RootPath (c : Config) (s : SimState) (v : ℕ) (l : List ℕ) : Prop where
  nodup : l.Nodup
  switches : ∀ w ∈ l, c.typeOf w = some .switch
  joined : l.IsChain (Joined c)
  first : ∃ m, l.head? = some m ∧ c.idOf m = (s.switch v).localRootID
  last : l.getLast? = some v
  length : (l.length : ℤ) = (s.switch v).localRootDist + 1
  lower : ∀ w ∈ l, election (s.switch w) ≤ election (s.switch v)

/-- The switches through which the entries for node A lead from switch v. -/
inductive Leads (c : Config) (s : SimState) (A : ℕ) : ℕ → List ℕ → Prop where
  | last {v t} : c.typeOf v = some .switch →
      (s.switch v).lookupTable.isValid (c.idOf A) = true →
      (c.nodePort v)[(s.switch v).lookupTable.portNumber (c.idOf A)]? = some t →
      farEnd t ∈ c.nodePort A → Leads c s A v [v]
  | step {v w t l} : c.typeOf v = some .switch →
      (s.switch v).lookupTable.isValid (c.idOf A) = true →
      (c.nodePort v)[(s.switch v).lookupTable.portNumber (c.idOf A)]? = some t →
      farEnd t ∈ c.nodePort w → Leads c s A w l → Leads c s A v (v :: l)

variable {hc : Piped c}

theorem matches_election {s : SimState} {st : NetworkRuns.State (Node c)} (h : Matches hc s st)
    {v : Node c} (hv : (topology hc).IsSwitch v) :
    election (s.switch v) = election (st.switch v) := by
  rw [h.switch v hv]
  rfl

theorem matches_lookupTable {s : SimState} {st : NetworkRuns.State (Node c)}
    (h : Matches hc s st) {v : Node c} (hv : (topology hc).IsSwitch v) :
    (s.switch v).lookupTable = (st.switch v).lookupTable := by
  rw [h.switch v hv]
  rfl

theorem endOf_joins (hc : Piped c) {q : Port (Node c)} {t : LinkEnd} (h : EndOf c q t) :
    t ∈ c.nodePort q.1 ∧ farEnd t ∈ c.nodePort ((topology hc).peer q).1 :=
  ⟨List.mem_of_getElem? h, List.mem_of_getElem? (h.peer hc)⟩

theorem adj_joined {v w : Node c} (h : (topology hc).switchGraph.Adj v w) : Joined c v w := by
  obtain ⟨-, -, -, k, hport, rfl⟩ := h
  obtain ⟨t, ht⟩ := (isPort_iff hc _).mp hport
  exact ⟨t, endOf_joins hc ht⟩

theorem supported_path {s : SimState} {st : NetworkRuns.State (Node c)} (h : Matches hc s st)
    {v : Node c} (hv : (topology hc).IsSwitch v)
    (hsup : Supported (topology hc) st (st.switch v).localRootID (st.switch v).localRootDist v) :
    ∃ l, RootPath c s v l := by
  obtain ⟨m, p, hm, hpath, hlen, hsw⟩ := hsup
  have hpair : (s.switch v).localRootID = (st.switch v).localRootID ∧
      (s.switch v).localRootDist = (st.switch v).localRootDist :=
    election_eq (matches_election h hv)
  refine ⟨p.support.map Fin.val, ?_⟩
  exact
    { nodup := hpath.support_nodup.map Fin.val_injective
      switches := List.forall_mem_map.mpr fun w hw => (isSwitch_iff hc w).mp (hsw w hw).1
      joined := (List.isChain_map _).mpr (p.isChain_adj_support.imp fun _ _ => adj_joined)
      first := by
        refine ⟨m, ?_, ?_⟩
        · rw [List.head?_map, List.head?_eq_some_head p.support_ne_nil, p.head_support]
          rfl
        · rw [hpair.1]
          exact hm
      last := by
        rw [List.getLast?_map, List.getLast?_eq_some_getLast p.support_ne_nil, p.getLast_support]
        rfl
      length := by
        rw [List.length_map, p.length_support, hpair.2, ← hlen]
        rfl
      lower := by
        refine List.forall_mem_map.mpr fun w hw => ?_
        rw [matches_election h (hsw w hw).1, matches_election h hv]
        exact (hsw w hw).2 }

/-- In the whole simulation the root and the distance of a switch stand for a path of switches,
and its pair only falls. -/
theorem simulated_root_sound (hc : Piped c) (memory : SimMemory) {es : List SimEvent}
    {s : SimState} (h : Run (WholeStep c) (simInit c memory) es s) {v : ℕ}
    (hv : c.typeOf v = some .switch) :
    (s.switch v).localRootID ≤ c.idOf v ∧ (∃ l, RootPath c s v l) ∧
      ∀ es' u, Run (WholeStep c) s es' u → election (u.switch v) ≤ election (s.switch v) := by
  obtain ⟨w, rfl⟩ := exists_node hv
  have hw := (isSwitch_iff hc w).mpr hv
  obtain ⟨st, hrun, hs, hm⟩ := run_matches h (ownSim_init c memory) (matches_init hc memory)
  have helect := reachable_election hrun
  refine ⟨?_, supported_path hm hw (helect.backed w hw), ?_⟩
  · rw [(election_eq (matches_election hm hw)).1]
    exact helect.root_le w
  · intro es' u hu
    obtain ⟨st', hrun', -, hm'⟩ := run_matches hu hs hm
    rw [matches_election hm' hw, matches_election hm hw]
    exact actionRuns_election_le hrun' w

def switchPair : Config :=
  ⟨[⟨some .switch, 0⟩, ⟨some .switch, 1⟩], [⟨some .pipe, 0, 1, [], [], []⟩]⟩

def adoption : List SimEvent :=
  List.replicate 5 (.switchControl 0) ++ [.switchExecute 0, quietRecv 1]

theorem switchPair_piped : Piped switchPair := by decide +kernel

theorem simulated_root_sound_switchPair :
    ∃ s, Run (WholeStep switchPair) (simInit switchPair quietMemory) adoption s ∧
      (s.switch 1).localRootDist = 1 ∧ (s.switch 1).localRootID ≤ switchPair.idOf 1 ∧
      (∃ l, RootPath switchPair s 1 l) ∧
        ∀ es' u, Run (WholeStep switchPair) s es' u →
          election (u.switch 1) ≤ election (s.switch 1) := by
  have hrun : (adoption.foldlM (wholeStep switchPair) (simInit switchPair quietMemory)).map
      (fun s => (s.switch 1).localRootDist) = some 1 := by
    decide +kernel
  obtain ⟨s, hs, hdist⟩ := Option.map_eq_some_iff.mp hrun
  have hrun' : Run (WholeStep switchPair) (simInit switchPair quietMemory) adoption s :=
    (Run.of_foldlM hs).mono fun _ _ _ => wholeStep_some
  exact ⟨s, hrun', hdist, simulated_root_sound switchPair_piped quietMemory hrun' rfl⟩

theorem matches_leads {s : SimState} {st : NetworkRuns.State (Node c)} (h : Matches hc s st)
    {A v : Node c} {l : List (Node c)} (hl : Route (topology hc) st A v l) :
    Leads c s A v (l.map Fin.val) := by
  induction hl with
  | @last v hv hk hport hnext =>
    obtain ⟨t, ht⟩ := (isPort_iff hc _).mp hport
    have htable := matches_lookupTable h hv
    have hend : (c.nodePort v)[(s.switch v).lookupTable.portNumber (c.idOf A)]? = some t := by
      rw [htable]
      exact ht
    refine .last ((isSwitch_iff hc v).mp hv) (htable ▸ hk) hend ?_
    have hfar := (endOf_joins hc ht).2
    rwa [← nextHop, hnext] at hfar
  | @step v l hv hk hport _ ih =>
    obtain ⟨t, ht⟩ := (isPort_iff hc _).mp hport
    have htable := matches_lookupTable h hv
    have hend : (c.nodePort v)[(s.switch v).lookupTable.portNumber (c.idOf A)]? = some t := by
      rw [htable]
      exact ht
    exact .step ((isSwitch_iff hc v).mp hv) (htable ▸ hk) hend (endOf_joins hc ht).2 ih

/-- In the whole simulation every entry of a lookup table leads through distinct switches to the
node it is for, and goes on doing so. -/
theorem simulated_routes_loop_free (hc : Piped c) (memory : SimMemory) {es : List SimEvent}
    {s : SimState} (h : Run (WholeStep c) (simInit c memory) es s) {v : ℕ}
    (hv : c.typeOf v = some .switch) {a : ℤ} (ha : (s.switch v).lookupTable.isValid a = true) :
    ∃ A l, (c.typeOf A).isSome ∧ c.idOf A = a ∧ l.Nodup ∧ Leads c s A v l ∧
      ∀ es' u, Run (WholeStep c) s es' u → Leads c u A v l := by
  obtain ⟨w, rfl⟩ := exists_node hv
  have hw := (isSwitch_iff hc w).mpr hv
  obtain ⟨st, hrun, hs, hm⟩ := run_matches h (ownSim_init c memory) (matches_init hc memory)
  have hk : Knows st w a := by
    rwa [matches_lookupTable hm hw] at ha
  obtain ⟨A, rfl⟩ := knows_named hrun hw hk
  obtain ⟨l, hl, hnodup⟩ := reachable_routed hrun A w hw hk
  refine ⟨A, l.map Fin.val, ?_, rfl, hnodup.map Fin.val_injective, matches_leads hm hl, ?_⟩
  · rw [typeOf_node hc]
    rfl
  · intro es' u hu
    obtain ⟨st', hrun', -, hm'⟩ := run_matches hu hs hm
    exact matches_leads hm' (hl.mono (actionRuns_keepEntries hrun'))

theorem simulated_routes_loop_free_pingRead :
    ∃ s, Run (WholeStep smallConfig) (simInit smallConfig quietMemory) pingRead s ∧
      ∃ A l, (smallConfig.typeOf A).isSome ∧ smallConfig.idOf A = 0 ∧ l.Nodup ∧
        Leads smallConfig s A 1 l ∧
          ∀ es' u, Run (WholeStep smallConfig) s es' u → Leads smallConfig u A 1 l := by
  obtain ⟨s, hs, -, hvalid⟩ := pingRead_run
  exact ⟨s, hs, simulated_routes_loop_free smallConfig_piped quietMemory hs rfl hvalid⟩

end SimulatedSwitches
