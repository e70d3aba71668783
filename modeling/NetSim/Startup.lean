import NetSim.ConfigText
import NetSim.Simulation

/-! What main.c does before the loops. net_init makes the lists of nodes and of ports, and then each
node has a process of its own, with a copy of the memory. Pipes are named as in create_port_list;
those to the manager are numbered behind the links, by the place of the node in `g_node_list`. -/
namespace Startup

open LinkedCells NetConfig ConfigRecords ConfigText Simulation
open NetworkTopology (NetNodeType)
open NetworkWiring (LinkEnd farEnd)
open PacketCodec (NetLinkType)
open PortLists (NetPort Pipes PortMemory netGetPortList netGetPortList_spec OwnedBy)

def createNodeList (gNetNode : List NetNode) : List NetNode :=
  gNetNode.foldl (fun list node => node :: list) []

/-- The body of the loop of create_port_list, for link i. -/
def addLink (pipes : Pipes) (i : ℕ) (link : NetLink) (m : PortMemory) : PortMemory :=
  match link.type with
  | none => m
  | some type =>
    PortLists.addLink pipes i
      { type := type
        pipeNode0 := link.pipeNode0
        pipeNode1 := link.pipeNode1
        sendingDomain := link.sendingDomain
        portSend := link.portSend
        portRecv := link.portRecv } m

def addLinks (pipes : Pipes) : ℕ → List NetLink → PortMemory → PortMemory
  | _, [], m => m
  | i, link :: links, m => addLinks pipes (i + 1) links (addLink pipes i link m)

def createPortList (pipes : Pipes) (links : List NetLink) (m : PortMemory) : PortMemory :=
  addLinks pipes 0 links { m with gPortList := none }

/-- A port of the manager to a host, or of a host to the manager. -/
structure ManPort where
  hostId : ℤ
  sendFd : ℤ
  recvFd : ℤ
  deriving DecidableEq

/-- `p_man` and `p_host`, with `fd0` and `fd1` of the pair of pipes k. -/
def addManPorts (pipes : Pipes) (k : ℕ) (hostId : ℤ) (lists : List ManPort × List ManPort) :
    List ManPort × List ManPort :=
  (⟨hostId, pipes.write (k, false), pipes.read (k, true)⟩ :: lists.1,
    ⟨hostId, pipes.write (k, true), pipes.read (k, false)⟩ :: lists.2)

def createManPorts (pipes : Pipes) :
    ℕ → List NetNode → List ManPort × List ManPort → List ManPort × List ManPort
  | _, [], lists => lists
  | k, node :: nodes, lists =>
    createManPorts pipes (k + 1) nodes
      (if node.type = some .host then addManPorts pipes k node.id lists else lists)

structure Net where
  gNodeList : List NetNode
  gNetLinkNum : ℕ
  memory : PortMemory
  gManManPortList : List ManPort
  gManHostPortList : List ManPort

/-- main goes on also when no configuration was accepted. -/
def netInit (pipes : Pipes) (garbage : PortMemory) : Load → Option Net
  | .accepted counted nodes links =>
    let c := configOf (.accepted counted nodes links)
    let nodeList := createNodeList c.nodes
    let ports := createManPorts pipes c.links.length nodeList ([], [])
    some
      { gNodeList := nodeList
        gNetLinkNum := c.links.length
        memory := createPortList pipes c.links garbage
        gManManPortList := ports.1
        gManHostPortList := ports.2 }
  | .rejected => some ⟨[], 0, { garbage with gPortList := none }, [], []⟩
  | .exited | .overrun => none

/-- The loop that counts the ports. The fuel bounds the length of the list. -/
def countPorts (next : LinkEnd → Option LinkEnd) : ℕ → Option LinkEnd → Option ℕ
  | 0, _ => none
  | _ + 1, none => some 0
  | fuel + 1, some t => (countPorts next fuel (next t)).map (· + 1)

def loadPorts (next : LinkEnd → Option LinkEnd) : ℕ → Option LinkEnd → Option (List LinkEnd)
  | 0, _ => some []
  | _ + 1, none => none
  | k + 1, some t => (loadPorts next k (next t)).map (t :: ·)

/-- The array `node_port` of a node, and its memory. -/
def nodePortArray (net : Net) (hostId : ℤ) : Option (List LinkEnd × PortMemory) :=
  let fuel := 2 * net.gNetLinkNum + 1
  (netGetPortList fuel hostId net.memory).bind fun r =>
    (countPorts r.2.next fuel r.1).bind fun nodePortNum =>
      (loadPorts r.2.next nodePortNum r.1).map fun nodePort => (nodePort, r.2)

def netGetHostPort (net : Net) (hostId : ℤ) : Option ManPort :=
  net.gManHostPortList.find? fun p => p.hostId = hostId

structure Child where
  node : NetNode
  nodePort : List LinkEnd
  memory : PortMemory
  manPort : Option ManPort

/-- host_main, switch_main or server_main up to the loop. A node of no type returns at once. -/
def startNode (net : Net) (node : NetNode) : Option Child :=
  match node.type with
  | some .host =>
    (nodePortArray net node.id).map fun r => ⟨node, r.1, r.2, netGetHostPort net node.id⟩
  | some .switch => (nodePortArray net node.id).map fun r => ⟨node, r.1, r.2, none⟩
  | some .server => (nodePortArray net 100).map fun r => ⟨node, r.1, r.2, none⟩
  | none => some ⟨node, [], net.memory, none⟩

/-- The loop over the nodes; `fork k` is whether the k-th fork succeeds. The result says whether
main gets to man_main. -/
def forkNodes (net : Net) (fork : ℕ → Bool) : ℕ → List NetNode → Option (List Child × Bool)
  | _, [] => some ([], true)
  | k, node :: nodes =>
    if fork k then
      (startNode net node).bind fun child =>
        (forkNodes net fork (k + 1) nodes).map fun r => (child :: r.1, r.2)
    else some ([], false)

/-- The children of main, and the list with which man_main runs in main itself. -/
def main (pipes : Pipes) (garbage : PortMemory) (fork : ℕ → Bool) (load : Load) :
    Option (List Child × Option (List ManPort)) :=
  (netInit pipes garbage load).bind fun net =>
    (forkNodes net fork 0 net.gNodeList).map fun r =>
      (r.1, if r.2 then some net.gManManPortList else none)

def ports (c : Config) : List LinkEnd :=
  (NetworkWiring.createPortList c.links.length).filter fun t => (c.owner t).isSome

structure PortIs (pipes : Pipes) (link : NetLink) (t : LinkEnd) (p : NetPort) : Prop where
  type : link.type = some p.type
  host : p.pipeHostId = if t.2 then link.pipeNode1 else link.pipeNode0
  pipe : p.type = .pipe → p.pipeSendFd = pipes.write t ∧ p.pipeRecvFd = pipes.read (farEnd t)
  socket : p.type = .socket → p.sendDomain = link.sendingDomain ∧
    p.sendPortNumber = link.portSend ∧ p.recvPortNumber = link.portRecv

def PortAt (pipes : Pipes) (c : Config) (t : LinkEnd) (p : NetPort) : Prop :=
  c.owner t = some p.pipeHostId ∧ ∃ link, c.links[t.1]? = some link ∧ PortIs pipes link t p

structure Created (pipes : Pipes) (c : Config) (m : PortMemory) : Prop where
  chain : Chain m.next m.gPortList (ports c) none
  port : ∀ t ∈ ports c, PortAt pipes c t (m.port t)

section

variable {nodes : List NetNode} {links : List NetLink} {link : NetLink}

theorem mem_ports {c : Config} {t : LinkEnd} : t ∈ ports c ↔ (c.owner t).isSome := by
  rw [ports, List.mem_filter, NetworkWiring.mem_createPortList]
  constructor
  · exact And.right
  · intro h
    refine ⟨?_, h⟩
    by_contra hlen
    rw [Config.owner, List.getElem?_eq_none (by omega)] at h
    cases h

theorem nodup_ports (c : Config) : (ports c).Nodup :=
  (NetworkWiring.nodup_createPortList _).filter _

theorem length_ports (c : Config) : (ports c).length < 2 * c.links.length + 1 := by
  have hfilter := List.length_filter_le (fun t => (c.owner t).isSome)
    (NetworkWiring.createPortList c.links.length)
  rw [PortLists.length_createPortList] at hfilter
  exact Nat.lt_succ_of_le hfilter

theorem owner_old {t : LinkEnd} (ht : t.1 < links.length) :
    Config.owner ⟨nodes, links ++ [link]⟩ t = Config.owner ⟨nodes, links⟩ t := by
  simp only [Config.owner, List.getElem?_append_left ht]

def newPorts (i : ℕ) (link : NetLink) : List LinkEnd :=
  match link.type with
  | some .pipe => [(i, false), (i, true)]
  | some .socket => [(i, false)]
  | none => []

theorem owner_new (b : Bool) :
    Config.owner ⟨nodes, links ++ [link]⟩ (links.length, b) =
      match link.type with
      | some .pipe => some (if b then link.pipeNode1 else link.pipeNode0)
      | some .socket => if b then none else some link.pipeNode0
      | none => none := by
  rcases htype : link.type with _ | _ | _ <;> simp [Config.owner, htype]

theorem ports_concat :
    ports ⟨nodes, links ++ [link]⟩ = newPorts links.length link ++ ports ⟨nodes, links⟩ := by
  have hold : (NetworkWiring.createPortList links.length).filter
      (fun t => (Config.owner ⟨nodes, links ++ [link]⟩ t).isSome) = ports ⟨nodes, links⟩ := by
    apply List.filter_congr
    intro t ht
    rw [owner_old (NetworkWiring.mem_createPortList.mp ht)]
  simp only [ports, List.length_append, List.length_singleton, NetworkWiring.createPortList_succ,
    List.filter_cons, hold, owner_new, newPorts]
  rcases link.type with _ | _ | _ <;> simp

/-- A link changes only what belongs to its own ports. -/
theorem addLink_frame (pipes : Pipes) (i : ℕ) (link : NetLink) (m : PortMemory) {t : LinkEnd}
    (ht : t.1 ≠ i) :
    (addLink pipes i link m).port t = m.port t ∧ (addLink pipes i link m).next t = m.next t := by
  have hne : ∀ b, t ≠ (i, b) := by
    rintro b rfl
    exact ht rfl
  rcases htype : link.type with _ | _ | _
  · simp [addLink, htype]
  · simp [addLink, htype, PortLists.addLink, hne]
  · simp [addLink, htype, PortLists.addLink, hne]

theorem addLink_chain (pipes : Pipes) (i : ℕ) (link : NetLink) {m : PortMemory}
    {rest : List LinkEnd} (h : Chain m.next m.gPortList rest none) (hrest : ∀ t ∈ rest, t.1 ≠ i) :
    Chain (addLink pipes i link m).next (addLink pipes i link m).gPortList
      (newPorts i link ++ rest) none := by
  have hold : ∀ q, q = m.gPortList → Chain (addLink pipes i link m).next q rest none := by
    rintro q rfl
    exact h.congr fun t ht => (addLink_frame pipes i link m (hrest t ht)).2
  rcases htype : link.type with _ | _ | _
  · simp only [newPorts, htype, List.nil_append]
    apply hold
    simp [addLink, htype]
  · simp only [newPorts, htype, List.cons_append, List.nil_append, addLink,
      PortLists.addLink] at hold ⊢
    refine .cons ?_
    rw [Function.update_of_ne (by simp), Function.update_self]
    refine .cons ?_
    rw [Function.update_self]
    exact hold _ rfl
  · simp only [newPorts, htype, List.cons_append, List.nil_append, addLink,
      PortLists.addLink] at hold ⊢
    refine .cons ?_
    rw [Function.update_self]
    exact hold _ rfl

theorem addLink_port (pipes : Pipes) (i : ℕ) (link : NetLink) (m : PortMemory) {t : LinkEnd}
    (ht : t ∈ newPorts i link) : PortIs pipes link t ((addLink pipes i link m).port t) := by
  rcases htype : link.type with _ | _ | _
  · simp only [newPorts, htype] at ht
    cases ht
  · simp only [newPorts, htype, List.mem_pair] at ht
    rcases ht with rfl | rfl
    · constructor <;> simp [addLink, htype, PortLists.addLink, farEnd]
    · constructor <;> simp [addLink, htype, PortLists.addLink, farEnd]
  · simp only [newPorts, htype, List.mem_singleton] at ht
    subst ht
    constructor <;> simp [addLink, htype, PortLists.addLink]

theorem owner_newPorts (nodes : List NetNode) {t : LinkEnd} (ht : t ∈ newPorts links.length link) :
    t.1 = links.length ∧ Config.owner ⟨nodes, links ++ [link]⟩ t =
      some (if t.2 then link.pipeNode1 else link.pipeNode0) := by
  rcases htype : link.type with _ | _ | _
  · simp only [newPorts, htype] at ht
    cases ht
  · simp only [newPorts, htype, List.mem_pair] at ht
    rcases ht with rfl | rfl <;> simp [owner_new, htype]
  · simp only [newPorts, htype, List.mem_singleton] at ht
    subst ht
    simp [owner_new, htype]

theorem addLink_created (pipes : Pipes) {m : PortMemory} (h : Created pipes ⟨nodes, links⟩ m) :
    Created pipes ⟨nodes, links ++ [link]⟩ (addLink pipes links.length link m) := by
  have hlt : ∀ t ∈ ports ⟨nodes, links⟩, t.1 < links.length := by
    intro t ht
    exact NetworkWiring.mem_createPortList.mp (List.mem_of_mem_filter ht)
  constructor
  · rw [ports_concat]
    exact addLink_chain pipes links.length link h.chain fun t ht => (hlt t ht).ne
  · intro t ht
    rw [ports_concat] at ht
    rcases List.mem_append.mp ht with hnew | hold
    · obtain ⟨hplace, howner⟩ := owner_newPorts nodes hnew
      have hport := addLink_port pipes links.length link m hnew
      refine ⟨?_, link, ?_, hport⟩
      · rw [howner, hport.host]
      · rw [hplace]
        exact List.getElem?_concat_length
    · obtain ⟨howner, old, hplace, hport⟩ := h.port t hold
      rw [PortAt, (addLink_frame pipes links.length link m (hlt t hold).ne).1,
        owner_old (hlt t hold)]
      refine ⟨howner, old, ?_, hport⟩
      rw [List.getElem?_append_left (hlt t hold)]
      exact hplace

theorem addLinks_concat (pipes : Pipes) (i : ℕ) (m : PortMemory) :
    addLinks pipes i (links ++ [link]) m =
      addLink pipes (i + links.length) link (addLinks pipes i links m) := by
  induction links generalizing i m with
  | nil => rfl
  | cons l links ih =>
    rw [List.cons_append, addLinks, ih, addLinks, List.length_cons]
    congr 1
    omega

theorem createPortList_created (pipes : Pipes) (garbage : PortMemory) :
    Created pipes ⟨nodes, links⟩ (createPortList pipes links garbage) := by
  induction links using List.reverseRecOn with
  | nil => exact ⟨.nil none, fun _ h => absurd h List.not_mem_nil⟩
  | append_singleton links link ih =>
    rw [createPortList, addLinks_concat, Nat.zero_add]
    exact addLink_created pipes ih

end

section

variable {next : LinkEnd → Option LinkEnd} {p : Option LinkEnd} {l : List LinkEnd}

theorem countPorts_chain (h : Chain next p l none) {fuel : ℕ} (hfuel : l.length < fuel) :
    countPorts next fuel p = some l.length := by
  induction l generalizing p fuel with
  | nil =>
    obtain ⟨n, rfl⟩ : ∃ n, fuel = n + 1 := ⟨fuel - 1, by simp at hfuel; omega⟩
    rw [chain_nil.mp h]
    rfl
  | cons t l ih =>
    obtain ⟨n, rfl⟩ : ∃ n, fuel = n + 1 := ⟨fuel - 1, by simp at hfuel; omega⟩
    obtain ⟨rfl, hrest⟩ := chain_cons.mp h
    rw [countPorts, ih hrest (by simpa using hfuel)]
    rfl

theorem loadPorts_chain (h : Chain next p l none) : loadPorts next l.length p = some l := by
  induction l generalizing p with
  | nil => rfl
  | cons t l ih =>
    obtain ⟨rfl, hrest⟩ := chain_cons.mp h
    rw [List.length_cons, loadPorts, ih hrest]
    rfl

def portsOf (c : Config) (hostId : ℤ) : List LinkEnd :=
  ((NetworkWiring.createPortList c.links.length).filter fun t => c.owner t = some hostId).reverse

theorem nodePort_eq_portsOf (c : Config) (v : ℕ) : c.nodePort v = portsOf c (c.idOf v) := rfl

theorem nodePortArray_created {pipes : Pipes} {c : Config} {net : Net}
    (h : Created pipes c net.memory) (hnum : net.gNetLinkNum = c.links.length) (hostId : ℤ) :
    ∃ m, nodePortArray net hostId = some (portsOf c hostId, m) ∧ m.port = net.memory.port := by
  have hfuel : (ports c).length < 2 * net.gNetLinkNum + 1 := hnum ▸ length_ports c
  obtain ⟨r, m, hcall, hport, -, htaken, -⟩ :=
    netGetPortList_spec hostId hfuel h.chain (nodup_ports c)
  have hown : ((ports c).filter fun t => OwnedBy net.memory.port hostId t).reverse =
      portsOf c hostId := by
    rw [portsOf, ports, List.filter_filter]
    congr 1
    apply List.filter_congr
    intro t ht
    rcases howner : c.owner t with _ | id
    · simp
    · have hmem : t ∈ ports c := mem_ports.mpr (by rw [howner]; rfl)
      obtain ⟨hid, -⟩ := h.port t hmem
      rw [howner, Option.some.injEq] at hid
      have hmine : OwnedBy net.memory.port hostId t ↔ id = hostId := by rw [OwnedBy, hid]
      rw [Bool.eq_iff_iff, Bool.and_eq_true, decide_eq_true_iff, decide_eq_true_iff, hmine,
        Option.some.injEq]
      exact and_iff_left rfl
  rw [hown] at htaken
  have hlen : (portsOf c hostId).length < 2 * net.gNetLinkNum + 1 := by
    rw [← hown, List.length_reverse]
    exact (List.length_filter_le _ _).trans_lt hfuel
  refine ⟨m, ?_, hport⟩
  simp only [nodePortArray, hcall, Option.bind_some, countPorts_chain htaken hlen,
    loadPorts_chain htaken, Option.map_some]

end

def hostPlaces : ℕ → List NetNode → List (ℕ × ℤ)
  | _, [] => []
  | k, node :: nodes =>
    (if node.type = some .host then [(k, node.id)] else []) ++ hostPlaces (k + 1) nodes

def atMan (pipes : Pipes) (h : ℕ × ℤ) : ManPort :=
  ⟨h.2, pipes.write (h.1, false), pipes.read (h.1, true)⟩

def atHost (pipes : Pipes) (h : ℕ × ℤ) : ManPort :=
  ⟨h.2, pipes.write (h.1, true), pipes.read (h.1, false)⟩

theorem createManPorts_eq (pipes : Pipes) (k : ℕ) (nodes : List NetNode)
    (lists : List ManPort × List ManPort) :
    createManPorts pipes k nodes lists =
      (((hostPlaces k nodes).map (atMan pipes)).reverse ++ lists.1,
        ((hostPlaces k nodes).map (atHost pipes)).reverse ++ lists.2) := by
  induction nodes generalizing k lists with
  | nil => rfl
  | cons node nodes ih =>
    rw [createManPorts, ih, hostPlaces]
    by_cases hhost : node.type = some .host
    · simp [hhost, addManPorts, atMan, atHost]
    · simp [hhost]

theorem hostPlaces_ids (k : ℕ) (nodes : List NetNode) :
    (hostPlaces k nodes).map Prod.snd =
      (nodes.filter fun node => node.type = some .host).map NetNode.id := by
  induction nodes generalizing k with
  | nil => rfl
  | cons node nodes ih =>
    rw [hostPlaces, List.map_append, ih]
    by_cases hhost : node.type = some .host <;> simp [hhost]

theorem le_of_hostPlaces {k : ℕ} {nodes : List NetNode} : ∀ h ∈ hostPlaces k nodes, k ≤ h.1 := by
  induction nodes generalizing k with
  | nil => exact List.forall_mem_nil _
  | cons node nodes ih =>
    intro h hh
    rw [hostPlaces] at hh
    rcases List.mem_append.mp hh with hfirst | hrest
    · split at hfirst
      · rw [List.mem_singleton.mp hfirst]
      · cases hfirst
    · have := ih h hrest
      omega

theorem nodup_hostPlaces (k : ℕ) (nodes : List NetNode) :
    ((hostPlaces k nodes).map Prod.fst).Nodup := by
  induction nodes generalizing k with
  | nil => exact List.nodup_nil
  | cons node nodes ih =>
    rw [hostPlaces]
    split
    · rw [List.singleton_append, List.map_cons, List.nodup_cons]
      refine ⟨?_, ih (k + 1)⟩
      intro hmem
      obtain ⟨h, hh, heq⟩ := List.mem_map.mp hmem
      have hle := le_of_hostPlaces h hh
      simp only at heq
      omega
    · exact ih (k + 1)

theorem createNodeList_eq (gNetNode : List NetNode) :
    createNodeList gNetNode = gNetNode.reverse := by
  have hfold : ∀ list : List NetNode, gNetNode.foldl (fun list node => node :: list) list =
      gNetNode.reverse ++ list := by
    induction gNetNode with
    | nil => exact fun _ => rfl
    | cons node nodes ih =>
      intro list
      rw [List.foldl_cons, ih, List.reverse_cons, List.append_assoc]
      rfl
  rw [createNodeList, hfold, List.append_nil]

theorem config_nodes {load : Load} {nodes : List NodeSpec} {links : List LinkSpec}
    (h : Loads load nodes links) :
    ∃ counted ns ls, load = .accepted counted ns ls ∧
      (configOf load).nodes = (nodes.map fun d => ⟨some d.type, d.id⟩) ∧
      (configOf load).links.length = links.length := by
  obtain ⟨ns, ls, rfl, hns, hls⟩ := h
  refine ⟨true, ns, ls, rfl, ?_, (List.length_map _).trans hls.length_eq⟩
  change ns.map Entry.value = _
  induction hns with
  | nil => rfl
  | @cons e d ns nodes hd _ ih =>
    obtain ⟨htype, hid⟩ := hd
    rw [List.map_cons, List.map_cons, ih, ← htype, ← hid]

/-- The child is node v of the configuration, with the ports that it has in the simulation. -/
structure RunsNode (pipes : Pipes) (c : Config) (v : ℕ) (child : Child) : Prop where
  node : c.nodes[v]? = some child.node
  nodePort : child.nodePort = c.nodePort v
  ports : ∀ t ∈ child.nodePort, PortAt pipes c t (child.memory.port t)

theorem startNode_runs {pipes : Pipes} {c : Config} {net : Net} (h : Created pipes c net.memory)
    (hnum : net.gNetLinkNum = c.links.length) {v : ℕ} {node : NetNode}
    (hv : c.nodes[v]? = some node)
    (htype : node.type.isSome) (hserver : node.type = some .server → node.id = 100) :
    ∃ child, startNode net node = some child ∧ RunsNode pipes c v child ∧
      (node.type = some .host → child.manPort = netGetHostPort net node.id) := by
  have hid : c.idOf v = node.id := by rw [Config.idOf, hv, Option.map_some, Option.getD_some]
  obtain ⟨m, harray, hport⟩ := nodePortArray_created h hnum node.id
  have hports : ∀ t ∈ portsOf c node.id, PortAt pipes c t (m.port t) := by
    intro t ht
    obtain ⟨-, howner⟩ := List.mem_filter.mp (List.mem_reverse.mp ht)
    have hmem : t ∈ ports c := mem_ports.mpr (by rw [of_decide_eq_true howner]; rfl)
    rw [hport]
    exact h.port t hmem
  have hruns : ∀ manPort, RunsNode pipes c v ⟨node, portsOf c node.id, m, manPort⟩ := by
    intro manPort
    refine ⟨hv, ?_, hports⟩
    rw [nodePort_eq_portsOf, hid]
  obtain ⟨type, htype⟩ := Option.isSome_iff_exists.mp htype
  cases type with
  | host =>
    refine ⟨_, ?_, hruns (netGetHostPort net node.id), fun _ => rfl⟩
    simp only [startNode, htype, harray, Option.map_some]
  | switch =>
    refine ⟨_, ?_, hruns none, ?_⟩
    · simp only [startNode, htype, harray, Option.map_some]
    · rw [htype]
      rintro ⟨⟩
  | server =>
    rw [hserver htype] at harray
    rw [hserver htype] at hruns
    refine ⟨_, ?_, hruns none, ?_⟩
    · simp only [startNode, htype, harray, Option.map_some]
    · rw [htype]
      rintro ⟨⟩

theorem forkNodes_eq {net : Net} (fork : ℕ → Bool) (k : ℕ) {nodes : List NetNode}
    (hstart : ∀ node ∈ nodes, ∃ child, startNode net node = some child) :
    ∃ children all, forkNodes net fork k nodes = some (children, all) ∧
      List.Forall₂ (fun node child => startNode net node = some child)
        (nodes.take children.length) children ∧
      (∀ i < children.length, fork (k + i) = true) ∧
      (all = true → children.length = nodes.length) ∧
      (all = false → children.length < nodes.length ∧ fork (k + children.length) = false) := by
  induction nodes generalizing k with
  | nil => exact ⟨[], true, rfl, .nil, by simp, by simp, by simp⟩
  | cons node nodes ih =>
    by_cases hfork : fork k = true
    · obtain ⟨child, hchild⟩ := hstart node List.mem_cons_self
      obtain ⟨children, all, hrest, hstarted, hforks, hall, hfailed⟩ :=
        ih (k + 1) fun n hn => hstart n (List.mem_cons_of_mem _ hn)
      refine ⟨child :: children, all, ?_, .cons hchild hstarted, ?_, ?_, ?_⟩
      · rw [forkNodes, if_pos hfork, hchild, hrest]
        rfl
      · rintro (_ | i) hi
        · exact hfork
        · rw [← Nat.add_assoc, Nat.add_right_comm]
          exact hforks i (by simpa using hi)
      · intro h
        simpa using hall h
      · intro h
        obtain ⟨hlt, hno⟩ := hfailed h
        rw [Nat.add_right_comm] at hno
        exact ⟨by simpa using hlt, hno⟩
    · refine ⟨[], false, ?_, .nil, by simp, by simp, ?_⟩
      · rw [forkNodes, if_neg hfork]
      · intro _
        exact ⟨Nat.zero_lt_succ _, by simpa using hfork⟩

def netOf (pipes : Pipes) (garbage : PortMemory) (c : Config) : Net where
  gNodeList := c.nodes.reverse
  gNetLinkNum := c.links.length
  memory := createPortList pipes c.links garbage
  gManManPortList := ((hostPlaces c.links.length c.nodes.reverse).map (atMan pipes)).reverse
  gManHostPortList := ((hostPlaces c.links.length c.nodes.reverse).map (atHost pipes)).reverse

section

variable {load : Load} {nodes : List NodeSpec} {links : List LinkSpec}

theorem netInit_eq (h : Loads load nodes links) (pipes : Pipes) (garbage : PortMemory) :
    netInit pipes garbage load = some (netOf pipes garbage (configOf load)) := by
  obtain ⟨counted, ns, ls, rfl, -⟩ := config_nodes h
  simp only [netInit, createNodeList_eq, createManPorts_eq, List.append_nil]
  rfl

theorem netOf_created (pipes : Pipes) (garbage : PortMemory) (c : Config) :
    Created pipes c (netOf pipes garbage c).memory := createPortList_created pipes garbage

theorem node_starts (h : Loads load nodes links) (hp : ∀ d ∈ nodes, Permitted d) (pipes : Pipes)
    (garbage : PortMemory) {v : ℕ} {node : NetNode} (hv : (configOf load).nodes[v]? = some node) :
    ∃ child, startNode (netOf pipes garbage (configOf load)) node = some child ∧
      RunsNode pipes (configOf load) v child ∧
      (node.type = some .host → child.manPort =
        netGetHostPort (netOf pipes garbage (configOf load)) node.id) := by
  obtain ⟨-, -, -, -, hnodes, -⟩ := config_nodes h
  have hspec : ∃ d ∈ nodes, node = ⟨some d.type, d.id⟩ := by
    rw [hnodes, List.getElem?_map] at hv
    obtain ⟨d, hd, rfl⟩ := Option.map_eq_some_iff.mp hv
    exact ⟨d, List.mem_of_getElem? hd, rfl⟩
  obtain ⟨d, hd, hnode⟩ := hspec
  apply startNode_runs (netOf_created pipes garbage _) rfl hv
  · rw [hnode]
    rfl
  · rw [hnode]
    intro hserver
    exact hp d hd (Option.some.inj hserver)

theorem main_runs (h : Loads load nodes links) (hp : ∀ d ∈ nodes, Permitted d) (pipes : Pipes)
    (garbage : PortMemory) (fork : ℕ → Bool) :
    ∃ children all, main pipes garbage fork load = some (children,
        if all then some (netOf pipes garbage (configOf load)).gManManPortList else none) ∧
      List.Forall₂
        (fun node child => startNode (netOf pipes garbage (configOf load)) node = some child)
        ((configOf load).nodes.reverse.take children.length) children ∧
      (∀ i < children.length, fork i = true) ∧
      (all = true → children.length = nodes.length) ∧
      (all = false → children.length < nodes.length ∧ fork children.length = false) := by
  obtain ⟨-, -, -, -, hnodes, -⟩ := config_nodes h
  have hlength : (configOf load).nodes.reverse.length = nodes.length := by
    rw [List.length_reverse, hnodes, List.length_map]
  have hstart : ∀ node ∈ (configOf load).nodes.reverse,
      ∃ child, startNode (netOf pipes garbage (configOf load)) node = some child := by
    intro node hnode
    obtain ⟨v, hv⟩ := List.mem_iff_getElem?.mp (List.mem_reverse.mp hnode)
    obtain ⟨child, hchild, -⟩ := node_starts h hp pipes garbage hv
    exact ⟨child, hchild⟩
  obtain ⟨children, all, hrun, hstarted, hforks, hall, hfailed⟩ := forkNodes_eq fork 0 hstart
  rw [hlength] at hall hfailed
  simp only [Nat.zero_add] at hforks hfailed
  refine ⟨children, all, ?_, hstarted, hforks, hall, hfailed⟩
  have hlist : (netOf pipes garbage (configOf load)).gNodeList =
      (configOf load).nodes.reverse := rfl
  rw [main, netInit_eq h, Option.bind_some, hlist, hrun, Option.map_some]

theorem child_runs (h : Loads load nodes links) (hp : ∀ d ∈ nodes, Permitted d) {pipes : Pipes}
    {garbage : PortMemory} {children : List Child}
    (hstarted : List.Forall₂
      (fun node child => startNode (netOf pipes garbage (configOf load)) node = some child)
      ((configOf load).nodes.reverse.take children.length) children)
    {k : ℕ} {child : Child} (hk : children[k]? = some child) :
    k < nodes.length ∧ RunsNode pipes (configOf load) (nodes.length - 1 - k) child ∧
      (child.node.type = some .host → child.manPort =
        netGetHostPort (netOf pipes garbage (configOf load)) child.node.id) := by
  obtain ⟨-, -, -, -, hnodes, -⟩ := config_nodes h
  have hlength : (configOf load).nodes.length = nodes.length := by rw [hnodes, List.length_map]
  obtain ⟨hlt, hget⟩ := List.getElem?_eq_some_iff.mp hk
  have hlt' : k < ((configOf load).nodes.reverse.take children.length).length :=
    hstarted.length_eq.symm ▸ hlt
  have hkn : k < (configOf load).nodes.length := by
    rw [List.length_take, List.length_reverse] at hlt'
    omega
  obtain ⟨node, hnode⟩ : ∃ node, (configOf load).nodes.reverse[k]? = some node :=
    ⟨_, List.getElem?_eq_getElem (by rwa [List.length_reverse])⟩
  have hstart : startNode (netOf pipes garbage (configOf load)) node = some child := by
    have hpair := (List.forall₂_iff_get.mp hstarted).2 k hlt' hlt
    have htake := List.getElem?_eq_getElem hlt'
    rw [List.getElem?_take_of_lt hlt, hnode, Option.some.injEq] at htake
    rw [List.get_eq_getElem, List.get_eq_getElem, ← htake, hget] at hpair
    exact hpair
  rw [List.getElem?_reverse hkn, hlength] at hnode
  obtain ⟨other, hother, hruns, hman⟩ := node_starts h hp pipes garbage hnode
  cases hstart.symm.trans hother
  cases hruns.node.symm.trans hnode
  exact ⟨hlength ▸ hkn, hruns, hman⟩

/-- Once a network is loaded, main gets through: it makes a process for each node, last one first,
up to the first fork that fails, and runs the manager if none does. Each process has the array of
ports that the node has in the simulation, and each port is made for its end of its link. -/
theorem nodes_start_as_simulated (h : Loads load nodes links) (hp : ∀ d ∈ nodes, Permitted d)
    (pipes : Pipes) (garbage : PortMemory) (fork : ℕ → Bool) :
    ∃ children manager, main pipes garbage fork load = some (children, manager) ∧
      (∀ k child, children[k]? = some child →
        k < nodes.length ∧ RunsNode pipes (configOf load) (nodes.length - 1 - k) child) ∧
      (∀ i < children.length, fork i = true) ∧
      (manager.isSome → children.length = nodes.length) ∧
      (manager = none → children.length < nodes.length ∧ fork children.length = false) := by
  obtain ⟨children, all, hrun, hstarted, hforks, hall, hfailed⟩ := main_runs h hp pipes garbage fork
  refine ⟨children, _, hrun, ?_, hforks, ?_, ?_⟩
  · intro k child hk
    obtain ⟨hkn, hruns, -⟩ := child_runs h hp hstarted hk
    exact ⟨hkn, hruns⟩
  · intro hsome
    apply hall
    cases all with
    | true => rfl
    | false => cases hsome
  · intro hnone
    apply hfailed
    cases all with
    | true => cases hnone
    | false => rfl

def twoNodes : List NodeSpec := [⟨.host, 1⟩, ⟨.switch, 2⟩]

def twoLinks : List LinkSpec := [.pipe 1 2, .socket 2 [97] [51] [98] [52]]

def twoLoaded : Load :=
  .accepted true [⟨⟨some .host, 1⟩, true⟩, ⟨⟨some .switch, 2⟩, true⟩]
    [⟨⟨some .pipe, 1, 2, [], [], []⟩, true⟩, ⟨⟨some .socket, 2, 0, [52], [51], [98]⟩, true⟩]

theorem twoLoaded_loads : Loads twoLoaded twoNodes twoLinks := by
  refine ⟨_, _, rfl, ?_, ?_⟩
  · exact .cons ⟨rfl, rfl⟩ (.cons ⟨rfl, rfl⟩ .nil)
  · exact .cons ⟨rfl, rfl, rfl⟩ (.cons ⟨rfl, rfl, rfl, rfl, rfl⟩ .nil)

def noPorts : PortMemory := ⟨fun _ => PortLists.noPort, fun _ => none, none⟩

/-- The second fork fails. -/
theorem nodes_start_as_simulated_two :
    ∃ children manager,
      main PortLists.countedPipes noPorts (fun k => k = 0) twoLoaded = some (children, manager) ∧
      (∀ k child, children[k]? = some child →
        k < 2 ∧ RunsNode PortLists.countedPipes (configOf twoLoaded) (2 - 1 - k) child) ∧
      (∀ i < children.length, decide (i = 0) = true) ∧
      (manager.isSome → children.length = 2) ∧
      (manager = none → children.length < 2 ∧ decide (children.length = 0) = false) :=
  nodes_start_as_simulated twoLoaded_loads (by decide) _ _ _

/-- The two pipes of place k join the ports p of the manager and q of a host. -/
structure Joined (pipes : Pipes) (k : ℕ) (p q : ManPort) : Prop where
  toHost : p.sendFd = pipes.write (k, false) ∧ q.recvFd = pipes.read (k, false)
  toMan : q.sendFd = pipes.write (k, true) ∧ p.recvFd = pipes.read (k, true)

theorem joined_at (pipes : Pipes) (h : ℕ × ℤ) : Joined pipes h.1 (atMan pipes h) (atHost pipes h) :=
  ⟨⟨rfl, rfl⟩, ⟨rfl, rfl⟩⟩

/-- The hosts of a configuration with their places in `g_node_list`, behind the links. -/
def hostsOf (c : Config) : List (ℕ × ℤ) := hostPlaces c.links.length c.nodes.reverse

def hostIds (nodes : List NodeSpec) : List ℤ :=
  (nodes.filter fun d => d.type = .host).map NodeSpec.id

theorem hostsOf_ids (h : Loads load nodes links) :
    (hostsOf (configOf load)).map Prod.snd = (hostIds nodes).reverse := by
  obtain ⟨-, -, -, -, hnodes, -⟩ := config_nodes h
  rw [hostsOf, hostPlaces_ids, hnodes, hostIds, List.filter_reverse, List.map_reverse,
    List.filter_map, List.map_map]
  congr 2
  apply List.filter_congr
  intro d _
  simp [Function.comp]

theorem find?_unique {α : Type*} {l : List α} {f : α → Bool} {a : α} (ha : a ∈ l) (hf : f a = true)
    (hone : ∀ b ∈ l, f b = true → b = a) : l.find? f = some a := by
  cases hfind : l.find? f with
  | none => exact absurd hf (List.find?_eq_none.mp hfind a ha)
  | some b => rw [hone b (List.mem_of_find?_eq_some hfind) (List.find?_some hfind)]

/-- When the hosts have distinct ids, each of them gets the port that is joined to the port of the
manager for it. -/
theorem netGetHostPort_eq (pipes : Pipes) (garbage : PortMemory) {c : Config}
    (hids : ((hostsOf c).map Prod.snd).Nodup) {x : ℕ × ℤ} (hx : x ∈ hostsOf c) :
    netGetHostPort (netOf pipes garbage c) x.2 = some (atHost pipes x) := by
  apply find?_unique
  · exact List.mem_reverse.mpr (List.mem_map_of_mem hx)
  · exact decide_eq_true rfl
  · intro q hq hid
    obtain ⟨y, hy, rfl⟩ := List.mem_map.mp (List.mem_reverse.mp hq)
    rw [List.inj_on_of_nodup_map hids hy hx (of_decide_eq_true hid)]

/-- The manager has one port for each host, in the order of the configuration. Each is joined to the
port of the process of that host by two pipes of their own. -/
theorem manager_reaches_each_host (h : Loads load nodes links) (hp : ∀ d ∈ nodes, Permitted d)
    (hids : (hostIds nodes).Nodup) {pipes : Pipes} {garbage : PortMemory} {fork : ℕ → Bool}
    {children : List Child} {man : List ManPort}
    (hrun : main pipes garbage fork load = some (children, some man)) :
    man.map ManPort.hostId = hostIds nodes ∧
      ∃ place : ℤ → ℕ, Set.InjOn place { id | id ∈ hostIds nodes } ∧
        ∀ id ∈ hostIds nodes, links.length ≤ place id ∧ ∃ p ∈ man, p.hostId = id ∧
          ∀ child ∈ children, child.node = ⟨some .host, id⟩ →
            ∃ q, child.manPort = some q ∧ q.hostId = id ∧ Joined pipes (place id) p q := by
  obtain ⟨all, all', hmain, hstarted, -⟩ := main_runs h hp pipes garbage fork
  rw [hrun, Option.some.injEq, Prod.mk.injEq] at hmain
  obtain ⟨rfl, hman⟩ := hmain
  have hlist : man = ((hostsOf (configOf load)).map (atMan pipes)).reverse := by
    cases all' with
    | true => exact Option.some.inj hman
    | false => cases hman
  have hsnd := hostsOf_ids h
  have hnodup : ((hostsOf (configOf load)).map Prod.snd).Nodup := by
    rw [hsnd]
    exact List.nodup_reverse.mpr hids
  have hplaces : ∀ id ∈ hostIds nodes, ∃ k, (k, id) ∈ hostsOf (configOf load) := by
    intro id hid
    rw [← List.mem_reverse, ← hsnd] at hid
    obtain ⟨⟨k, i⟩, hx, rfl⟩ := List.mem_map.mp hid
    exact ⟨k, hx⟩
  refine ⟨?_, ?_⟩
  · rw [hlist, ← List.reverse_reverse (hostIds nodes), ← hsnd, List.map_reverse, List.map_map]
    rfl
  · classical
    refine ⟨fun id => if hid : id ∈ hostIds nodes then (hplaces id hid).choose else 0, ?_, ?_⟩
    · intro id hid id' hid' heq
      simp only [dif_pos (show id ∈ hostIds nodes from hid),
        dif_pos (show id' ∈ hostIds nodes from hid')] at heq
      have hx := (hplaces id hid).choose_spec
      have hy := (hplaces id' hid').choose_spec
      rw [← heq] at hy
      have hsame := List.inj_on_of_nodup_map (nodup_hostPlaces _ _) hx hy rfl
      exact congrArg Prod.snd hsame
    · intro id hid
      have hx := (hplaces id hid).choose_spec
      simp only [dif_pos hid]
      generalize (hplaces id hid).choose = k at hx
      obtain ⟨-, -, -, -, -, hlinks⟩ := config_nodes h
      refine ⟨hlinks ▸ le_of_hostPlaces _ hx, atMan pipes (k, id), ?_, rfl, ?_⟩
      · rw [hlist]
        exact List.mem_reverse.mpr (List.mem_map_of_mem hx)
      · intro child hchild hnode
        obtain ⟨i, hi⟩ := List.mem_iff_getElem?.mp hchild
        obtain ⟨-, -, hport⟩ := child_runs h hp hstarted hi
        rw [hnode] at hport
        refine ⟨_, (hport rfl).trans (netGetHostPort_eq pipes garbage hnodup hx), rfl, ?_⟩
        exact joined_at pipes (k, id)

theorem manager_reaches_each_host_two :
    ∃ children man,
      main PortLists.countedPipes noPorts (fun _ => true) twoLoaded = some (children, some man) ∧
      man.map ManPort.hostId = [1] ∧ ∃ p ∈ man, p.hostId = 1 ∧
        ∀ child ∈ children, child.node = ⟨some .host, 1⟩ →
          ∃ k q, child.manPort = some q ∧ Joined PortLists.countedPipes k p q := by
  obtain ⟨children, all, hrun, -, -, -, hfailed⟩ :=
    main_runs twoLoaded_loads (by decide) PortLists.countedPipes noPorts (fun _ => true)
  cases all with
  | false => exact absurd (hfailed rfl).2 (by decide)
  | true =>
    rw [if_pos rfl] at hrun
    obtain ⟨hids, place, -, hplace⟩ :=
      manager_reaches_each_host twoLoaded_loads (by decide) (by decide) hrun
    obtain ⟨-, p, hp, hid, hchild⟩ := hplace 1 (by decide)
    refine ⟨children, _, hrun, hids, p, hp, hid, ?_⟩
    intro child hmem hnode
    obtain ⟨q, hq, -, hjoined⟩ := hchild child hmem hnode
    exact ⟨place 1, q, hq, hjoined⟩

end

end Startup
