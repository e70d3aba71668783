import NetSim.NetworkTopology
import Mathlib.Data.List.Nodup
import Mathlib.Data.Fin.VecNotation
import Mathlib.Data.Fintype.Basic

/-! The topology of a configuration: create_port_list makes the two ports of every PIPE link,
and net_get_port_list gives a node the ports whose `pipe_host_id` is its own. -/
namespace NetworkWiring

open NetworkTopology

/-- An end of a link: the place of the link in the configuration, and `false` for the port
p0 of `pipe_node0`, `true` for the port p1 of `pipe_node1`. -/
abbrev LinkEnd := ℕ × Bool

def farEnd (t : LinkEnd) : LinkEnd := (t.1, !t.2)

/-- Both ports of each link go in front of the ports made before. -/
def createPortList (linkNum : ℕ) : List LinkEnd :=
  (List.range linkNum).foldl (fun g i => (i, false) :: (i, true) :: g) []

theorem createPortList_succ (n : ℕ) :
    createPortList (n + 1) = (n, false) :: (n, true) :: createPortList n := by
  simp [createPortList, List.range_succ]

theorem mem_createPortList {n : ℕ} {t : LinkEnd} : t ∈ createPortList n ↔ t.1 < n := by
  induction n with
  | zero => simp [createPortList]
  | succ n ih =>
    rw [createPortList_succ, List.mem_cons, List.mem_cons, ih]
    obtain ⟨i, e⟩ := t
    cases e <;> simp only [Prod.mk.injEq] <;> simp <;> omega

theorem nodup_createPortList (n : ℕ) : (createPortList n).Nodup := by
  induction n with
  | zero => simp [createPortList]
  | succ n ih =>
    rw [createPortList_succ, List.nodup_cons, List.nodup_cons]
    exact ⟨by simp [mem_createPortList], by simp [mem_createPortList], ih⟩

variable {ι : Type} [DecidableEq ι] (links : List (ι × ι))

def pipeHostId (t : LinkEnd) : Option ι :=
  links[t.1]?.map fun l => if t.2 then l.2 else l.1

/-- The loop of net_get_port_list: the ports of h are taken in order and put in front of the
result, which reverses them. -/
def netGetPortList (h : ι) (g : List LinkEnd) : List LinkEnd :=
  g.foldl (fun r t => if pipeHostId links t = some h then t :: r else r) []

def nodePort (v : ι) : List LinkEnd := netGetPortList links v (createPortList links.length)

theorem netGetPortList_eq (h : ι) (g : List LinkEnd) :
    netGetPortList links h g = (g.filter fun t => pipeHostId links t = some h).reverse := by
  have aux : ∀ (g r : List LinkEnd),
      g.foldl (fun r t => if pipeHostId links t = some h then t :: r else r) r =
        (g.filter fun t => pipeHostId links t = some h).reverse ++ r := by
    intro g
    induction g with
    | nil => intro r; rfl
    | cons t g ih =>
      intro r
      rw [List.foldl_cons, ih]
      by_cases ht : pipeHostId links t = some h <;> simp [ht]
  simpa [netGetPortList] using aux g []

theorem mem_nodePort {v : ι} {t : LinkEnd} :
    t ∈ nodePort links v ↔ pipeHostId links t = some v := by
  rw [nodePort, netGetPortList_eq, List.mem_reverse, List.mem_filter, mem_createPortList]
  simp only [decide_eq_true_eq, and_iff_right_iff_imp]
  intro h
  by_contra hn
  rw [pipeHostId, List.getElem?_eq_none (by omega)] at h
  cases h

theorem nodup_nodePort (v : ι) : (nodePort links v).Nodup := by
  rw [nodePort, netGetPortList_eq, List.nodup_reverse]
  exact (nodup_createPortList _).filter _

omit [DecidableEq ι] in
theorem exists_farEnd_owner {v : ι} {t : LinkEnd} (h : pipeHostId links t = some v) :
    ∃ w, pipeHostId links (farEnd t) = some w := by
  simp only [pipeHostId, Option.map_eq_some_iff] at h
  obtain ⟨l, hl, _⟩ := h
  exact ⟨_, by rw [pipeHostId, farEnd, hl]; rfl⟩

/-- Where the link of a port leads: the owner of its far end, and the place of that end in the
owner's array. -/
def wiredPeer (p : Port ι) : Port ι :=
  match (nodePort links p.1)[p.2]? with
  | none => p
  | some t =>
    match pipeHostId links (farEnd t) with
    | none => p
    | some w => (w, (nodePort links w).idxOf (farEnd t))

theorem wiredPeer_eq {v w : ι} {t : LinkEnd} (hv : pipeHostId links t = some v)
    (hw : pipeHostId links (farEnd t) = some w) :
    wiredPeer links (v, (nodePort links v).idxOf t) = (w, (nodePort links w).idxOf (farEnd t)) := by
  have ht : (nodePort links v)[(nodePort links v).idxOf t]? = some t :=
    List.getElem?_idxOf ((mem_nodePort links).mpr hv)
  simp only [wiredPeer, ht, hw]

theorem exists_linkEnd {v : ι} {k : ℕ} (h : k < (nodePort links v).length) :
    ∃ t, pipeHostId links t = some v ∧ (nodePort links v).idxOf t = k :=
  ⟨(nodePort links v)[k], (mem_nodePort links).mp (List.getElem_mem h),
    (nodup_nodePort links v).idxOf_getElem k h⟩

theorem farEnd_farEnd (t : LinkEnd) : farEnd (farEnd t) = t := by simp [farEnd]

/-- The network that net_init builds from a list of nodes and a list of PIPE links. -/
def ofConfig (type : ι → NetNodeType) (id : ι → ℤ) (hinj : Function.Injective id)
    (hrange : ∀ v, 0 ≤ id v ∧ id v ≤ 101) : Topology ι where
  type := type
  id := id
  nodePortNum v := (nodePort links v).length
  peer := wiredPeer links
  peer_isPort := by
    rintro ⟨v, k⟩ hk
    obtain ⟨t, hv, rfl⟩ := exists_linkEnd links (v := v) hk
    obtain ⟨w, hw⟩ := exists_farEnd_owner links hv
    rw [wiredPeer_eq links hv hw]
    exact List.idxOf_lt_length_of_mem ((mem_nodePort links).mpr hw)
  peer_peer := by
    rintro ⟨v, k⟩ hk
    obtain ⟨t, hv, rfl⟩ := exists_linkEnd links (v := v) hk
    obtain ⟨w, hw⟩ := exists_farEnd_owner links hv
    rw [wiredPeer_eq links hv hw, wiredPeer_eq links hw ((farEnd_farEnd t).symm ▸ hv),
      farEnd_farEnd]
  peer_ne := by
    rintro ⟨v, k⟩ hk he
    obtain ⟨t, hv, rfl⟩ := exists_linkEnd links (v := v) hk
    obtain ⟨w, hw⟩ := exists_farEnd_owner links hv
    rw [wiredPeer_eq links hv hw, Prod.mk.injEq] at he
    obtain ⟨rfl, he⟩ := he
    have hte : farEnd t = t := (List.idxOf_inj ((mem_nodePort links).mpr hw)).mp he
    simp [farEnd, Prod.ext_iff] at hte
  id_injective := hinj
  id_range := hrange

instance neZero_two : NeZero 2 := ⟨by decide⟩

instance neZero_three : NeZero 3 := ⟨by decide⟩

theorem ids_two : Function.Injective ![(0 : ℤ), 1] := by decide

theorem ids_two_range : ∀ v, 0 ≤ ![(0 : ℤ), 1] v ∧ ![(0 : ℤ), 1] v ≤ 101 := by decide

theorem ids_three : Function.Injective ![(0 : ℤ), 1, 2] := by decide

theorem ids_three_range : ∀ v, 0 ≤ ![(0 : ℤ), 1, 2] v ∧ ![(0 : ℤ), 1, 2] v ≤ 101 := by decide

end NetworkWiring
