import NetSim.Simulation

/-! The network of a configuration with PIPE links only: its nodes are the entries of the
configuration, and its links lead from the ends that create_port_list gives to a node to those of
the node at the far end. -/
namespace SimulatedNetwork

open NetworkTopology NetConfig Simulation
open NetworkWiring (LinkEnd farEnd pipeHostId wiredPeer createPortList)

/-- Links are PIPE links between nodes of the configuration, and the ids of the nodes are
distinct indices of the lookup tables. -/
structure Piped (c : Config) : Prop where
  types : ∀ node ∈ c.nodes, node.type.isSome
  distinct : (c.nodes.map NetNode.id).Nodup
  range : ∀ node ∈ c.nodes, 0 ≤ node.id ∧ node.id ≤ 101
  pipes : ∀ link ∈ c.links, link.type = some .pipe
  ends : ∀ link ∈ c.links, link.pipeNode0 ∈ c.nodes.map NetNode.id ∧
    link.pipeNode1 ∈ c.nodes.map NetNode.id

instance (c : Config) : Decidable (Piped c) :=
  decidable_of_iff ((∀ node ∈ c.nodes, node.type.isSome) ∧ (c.nodes.map NetNode.id).Nodup ∧
    (∀ node ∈ c.nodes, 0 ≤ node.id ∧ node.id ≤ 101) ∧ (∀ link ∈ c.links, link.type = some .pipe) ∧
    ∀ link ∈ c.links, link.pipeNode0 ∈ c.nodes.map NetNode.id ∧
      link.pipeNode1 ∈ c.nodes.map NetNode.id)
    ⟨fun h => ⟨h.1, h.2.1, h.2.2.1, h.2.2.2.1, h.2.2.2.2⟩,
      fun h => ⟨h.types, h.distinct, h.range, h.pipes, h.ends⟩⟩

variable {c : Config}

abbrev Node (c : Config) := Fin c.nodes.length

theorem idOf_node (v : Node c) : c.idOf v = c.nodes[v].id := by
  simp [Config.idOf]

theorem idOf_injective (hc : Piped c) : Function.Injective fun v : Node c => c.idOf v := by
  intro v w h
  have hlt : ∀ x : Node c, x.val < (c.nodes.map NetNode.id).length := fun x => by simp
  have hids : (c.nodes.map NetNode.id).get ⟨v, hlt v⟩ =
      (c.nodes.map NetNode.id).get ⟨w, hlt w⟩ := by
    simpa [idOf_node] using h
  exact Fin.ext (Fin.mk.inj (List.nodup_iff_injective_get.mp hc.distinct hids))

theorem idOf_range (hc : Piped c) (v : Node c) : 0 ≤ c.idOf v ∧ c.idOf v ≤ 101 := by
  rw [idOf_node]
  exact hc.range _ (List.getElem_mem v.isLt)

def nodeWith (c : Config) (id : ℤ) (h : id ∈ c.nodes.map NetNode.id) : Node c :=
  ⟨(c.nodes.map NetNode.id).idxOf id, by simpa using List.idxOf_lt_length_of_mem h⟩

theorem nodeWith_id {id : ℤ} (h : id ∈ c.nodes.map NetNode.id) : c.idOf (nodeWith c id h) = id := by
  rw [idOf_node]
  have hget := List.getElem_idxOf (List.idxOf_lt_length_of_mem h)
  rwa [List.getElem_map] at hget

theorem nodeWith_eq_iff (hc : Piped c) {id : ℤ} (h : id ∈ c.nodes.map NetNode.id) (v : Node c) :
    nodeWith c id h = v ↔ id = c.idOf v := by
  constructor
  · rintro rfl
    exact (nodeWith_id h).symm
  · intro hid
    exact idOf_injective hc ((nodeWith_id h).trans hid)

def pairs (hc : Piped c) : List (Node c × Node c) :=
  c.links.attach.map fun link => (nodeWith c _ (hc.ends link.1 link.2).1,
    nodeWith c _ (hc.ends link.1 link.2).2)

theorem pairs_length (hc : Piped c) : (pairs hc).length = c.links.length := by simp [pairs]

theorem pairs_getElem (hc : Piped c) {i : ℕ} (h : i < c.links.length) :
    (pairs hc)[i]? = some (nodeWith c _ (hc.ends c.links[i] (List.getElem_mem h)).1,
      nodeWith c _ (hc.ends c.links[i] (List.getElem_mem h)).2) := by
  have hlt : i < c.links.attach.length := by simpa using h
  simp [pairs, List.getElem?_eq_getElem hlt]

theorem pipeHostId_iff (hc : Piped c) (t : LinkEnd) (v : Node c) :
    pipeHostId (pairs hc) t = some v ↔ c.owner t = some (c.idOf v) := by
  by_cases hlt : t.1 < c.links.length
  · have hpipe := hc.pipes _ (List.getElem_mem hlt)
    rw [pipeHostId, pairs_getElem hc hlt, Config.owner, List.getElem?_eq_getElem hlt,
      Option.map_some, Option.bind_some, hpipe, Option.some.injEq, Option.some.injEq]
    cases t.2
    · exact nodeWith_eq_iff hc (hc.ends _ (List.getElem_mem hlt)).1 v
    · exact nodeWith_eq_iff hc (hc.ends _ (List.getElem_mem hlt)).2 v
  · have hnone : c.links[t.1]? = none := List.getElem?_eq_none (Nat.le_of_not_lt hlt)
    have hpairs : (pairs hc)[t.1]? = none :=
      List.getElem?_eq_none (by rw [pairs_length]; exact Nat.le_of_not_lt hlt)
    simp [pipeHostId, Config.owner, hnone, hpairs]

theorem nodePort_eq (hc : Piped c) (v : Node c) :
    c.nodePort v = NetworkWiring.nodePort (pairs hc) v := by
  rw [NetworkWiring.nodePort, NetworkWiring.netGetPortList_eq, pairs_length, Config.nodePort]
  congr 1
  apply List.filter_congr
  intro t _
  rw [decide_eq_decide]
  exact (pipeHostId_iff hc t v).symm

/-- The topology that the network model needs. -/
def topology (hc : Piped c) : Topology (Node c) :=
  NetworkWiring.ofConfig (pairs hc) (fun v => (c.typeOf v).getD .host) (fun v => c.idOf v)
    (idOf_injective hc) (idOf_range hc)

theorem typeOf_node (hc : Piped c) (v : Node c) : c.typeOf v = some ((topology hc).type v) := by
  have hsome : (c.typeOf v).isSome := by
    have htype := hc.types _ (List.getElem_mem v.isLt)
    simpa [Config.typeOf] using htype
  obtain ⟨type, htype⟩ := Option.isSome_iff_exists.mp hsome
  change c.typeOf v = some ((c.typeOf v).getD .host)
  rw [htype, Option.getD_some]

theorem exists_node {v : ℕ} {type : NetNodeType} (h : c.typeOf v = some type) :
    ∃ w : Node c, w.val = v := by
  have hlt : v < c.nodes.length := by
    by_contra hn
    rw [Config.typeOf, List.getElem?_eq_none (by omega)] at h
    cases h
  exact ⟨⟨v, hlt⟩, rfl⟩

theorem isSwitch_iff (hc : Piped c) (v : Node c) :
    (topology hc).IsSwitch v ↔ c.typeOf v = some .switch := by
  rw [typeOf_node hc, Option.some.injEq]
  exact Iff.rfl

def EndOf (c : Config) (q : Port (Node c)) (t : LinkEnd) : Prop := (c.nodePort q.1)[q.2]? = some t

theorem isPort_iff (hc : Piped c) (q : Port (Node c)) :
    (topology hc).IsPort q ↔ ∃ t, EndOf c q t := by
  have hnum : (topology hc).nodePortNum q.1 = (c.nodePort q.1).length := by
    rw [nodePort_eq hc]
    rfl
  rw [Topology.IsPort, hnum]
  constructor
  · intro h
    exact ⟨_, List.getElem?_eq_getElem h⟩
  · rintro ⟨t, ht⟩
    exact (List.getElem?_eq_some_iff.mp ht).1

theorem EndOf.owner (hc : Piped c) {q : Port (Node c)} {t : LinkEnd} (h : EndOf c q t) :
    pipeHostId (pairs hc) t = some q.1 := by
  rw [EndOf, nodePort_eq hc] at h
  exact (NetworkWiring.mem_nodePort _).mp (List.mem_of_getElem? h)

theorem EndOf.isPort (hc : Piped c) {q : Port (Node c)} {t : LinkEnd} (h : EndOf c q t) :
    (topology hc).IsPort q := (isPort_iff hc q).mpr ⟨t, h⟩

theorem EndOf.peer (hc : Piped c) {q : Port (Node c)} {t : LinkEnd} (h : EndOf c q t) :
    EndOf c ((topology hc).peer q) (farEnd t) := by
  obtain ⟨w, hw⟩ := NetworkWiring.exists_farEnd_owner (pairs hc) (h.owner hc)
  have hq : (topology hc).peer q = (w, (NetworkWiring.nodePort (pairs hc) w).idxOf (farEnd t)) := by
    rw [EndOf, nodePort_eq hc] at h
    change wiredPeer (pairs hc) q = _
    simp only [wiredPeer, h, hw]
  rw [hq, EndOf, nodePort_eq hc]
  exact List.getElem?_idxOf ((NetworkWiring.mem_nodePort _).mpr hw)

theorem EndOf.unique (hc : Piped c) {q r : Port (Node c)} {t : LinkEnd} (hq : EndOf c q t)
    (hr : EndOf c r t) : q = r := by
  have hnode : q.1 = r.1 := Option.some.inj ((hq.owner hc).symm.trans (hr.owner hc))
  rw [EndOf, nodePort_eq hc] at hq hr
  rw [← hnode] at hr
  obtain ⟨hlt, hget⟩ := List.getElem?_eq_some_iff.mp hq
  obtain ⟨hlt', hget'⟩ := List.getElem?_eq_some_iff.mp hr
  refine Prod.ext hnode ?_
  exact ((NetworkWiring.nodup_nodePort _ _).getElem_inj_iff).mp (hget.trans hget'.symm)

theorem EndOf.pipe (hc : Piped c) {q : Port (Node c)} {t : LinkEnd} (h : EndOf c q t) :
    c.linkType t = some .pipe := by
  have hmem := List.mem_of_getElem? h
  rw [Config.nodePort, List.mem_reverse, List.mem_filter, NetworkWiring.mem_createPortList] at hmem
  rw [Config.linkType, List.getElem?_eq_getElem hmem.1, Option.bind_some]
  exact hc.pipes _ (List.getElem_mem hmem.1)

end SimulatedNetwork
