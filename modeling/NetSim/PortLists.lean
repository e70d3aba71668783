import NetSim.LinkedCells
import NetSim.NetworkWiring
import NetSim.PacketCodec

/-! The ports of net.c in memory. A port, and a pipe, is named by the place of its link in the
configuration and by which of the two it is: `false` for p0 and for fd01, `true` for p1 and for
fd10. -/
namespace PortLists

open LinkedCells
open NetworkWiring (LinkEnd farEnd)
open PacketCodec (NetLinkType)

structure NetLink where
  type : NetLinkType
  pipeNode0 : ℤ
  pipeNode1 : ℤ
  sendingDomain : List Int8
  portSend : List Int8
  portRecv : List Int8

structure NetPort where
  type : NetLinkType
  pipeHostId : ℤ
  pipeSendFd : ℤ
  pipeRecvFd : ℤ
  sendPortNumber : List Int8
  recvPortNumber : List Int8
  sendDomain : List Int8

/-- The descriptors that `pipe` returns; it returns none twice. -/
structure Pipes where
  read : LinkEnd → ℤ
  write : LinkEnd → ℤ
  read_injective : Function.Injective read
  write_injective : Function.Injective write
  read_ne_write : ∀ t u, read t ≠ write u

/-- `next` holds the next fields of the ports. -/
structure PortMemory where
  port : LinkEnd → NetPort
  next : LinkEnd → Option LinkEnd
  gPortList : Option LinkEnd

def addLink (pipes : Pipes) (i : ℕ) (link : NetLink) (m : PortMemory) : PortMemory :=
  let p0 : LinkEnd := (i, false)
  let p1 : LinkEnd := (i, true)
  match link.type with
  | .pipe =>
    let port0 := { m.port p0 with
      type := link.type
      pipeHostId := link.pipeNode0
      pipeSendFd := pipes.write (i, false)
      pipeRecvFd := pipes.read (i, true) }
    let port1 := { m.port p1 with
      type := link.type
      pipeHostId := link.pipeNode1
      pipeSendFd := pipes.write (i, true)
      pipeRecvFd := pipes.read (i, false) }
    { port := Function.update (Function.update m.port p0 port0) p1 port1
      next := Function.update (Function.update m.next p0 (some p1)) p1 m.gPortList
      gPortList := some p0 }
  | .socket =>
    let port0 := { m.port p0 with
      type := .socket
      pipeHostId := link.pipeNode0
      sendDomain := link.sendingDomain
      sendPortNumber := link.portSend
      recvPortNumber := link.portRecv }
    -- p1 is made and never linked
    let port1 := { m.port p1 with type := .socket, pipeHostId := link.pipeNode0 }
    { port := Function.update (Function.update m.port p0 port0) p1 port1
      next := Function.update m.next p0 m.gPortList
      gPortList := some p0 }

def addLinks (pipes : Pipes) : ℕ → List NetLink → PortMemory → PortMemory
  | _, [], m => m
  | i, link :: links, m => addLinks pipes (i + 1) links (addLink pipes i link m)

def createPortList (pipes : Pipes) (links : List NetLink) (m : PortMemory) : PortMemory :=
  addLinks pipes 0 links { m with gPortList := none }

/-- What the pointer to a pointer `p` may point to. -/
inductive Slot where
  | gPortList
  | next (t : LinkEnd)

def readSlot (m : PortMemory) : Slot → Option LinkEnd
  | .gPortList => m.gPortList
  | .next t => m.next t

def writeSlot (m : PortMemory) (x : Option LinkEnd) : Slot → PortMemory
  | .gPortList => { m with gPortList := x }
  | .next t => { m with next := Function.update m.next t x }

/-- The loop. The fuel bounds the number of ports it looks at. -/
def takePorts (hostId : ℤ) :
    ℕ → Slot → Option LinkEnd → PortMemory → Option (Option LinkEnd × PortMemory)
  | 0, _, _, _ => none
  | fuel + 1, p, r, m =>
    match readSlot m p with
    | none => some (r, m)
    | some t =>
      if (m.port t).pipeHostId = hostId then
        let m' := writeSlot m (m.next t) p
        takePorts hostId fuel p (some t) { m' with next := Function.update m'.next t r }
      else takePorts hostId fuel (.next t) r m

/-- The list of the ports of a host, and the memory without them in `g_port_list`. -/
def netGetPortList (fuel : ℕ) (hostId : ℤ) (m : PortMemory) :
    Option (Option LinkEnd × PortMemory) :=
  takePorts hostId fuel .gPortList none m

theorem addLinks_concat (pipes : Pipes) (i : ℕ) (links : List NetLink) (link : NetLink)
    (m : PortMemory) :
    addLinks pipes i (links ++ [link]) m =
      addLink pipes (i + links.length) link (addLinks pipes i links m) := by
  induction links generalizing i m with
  | nil => rfl
  | cons l links ih =>
    rw [List.cons_append, addLinks, ih, addLinks, List.length_cons]
    congr 1
    omega

theorem createPortList_concat (pipes : Pipes) (links : List NetLink) (link : NetLink)
    (m : PortMemory) :
    createPortList pipes (links ++ [link]) m =
      addLink pipes links.length link (createPortList pipes links m) := by
  rw [createPortList, addLinks_concat, Nat.zero_add]
  rfl

structure Wired (pipes : Pipes) (link : NetLink) (t : LinkEnd) (p : NetPort) : Prop where
  type : p.type = .pipe
  host : p.pipeHostId = if t.2 then link.pipeNode1 else link.pipeNode0
  send : p.pipeSendFd = pipes.write t
  recv : p.pipeRecvFd = pipes.read (farEnd t)

/-- The ports of the first links, newest link first. -/
structure Created (pipes : Pipes) (links : List NetLink) (m : PortMemory) : Prop where
  chain : Chain m.next m.gPortList (NetworkWiring.createPortList links.length) none
  wired : ∀ (t : LinkEnd) (h : t.1 < links.length), Wired pipes links[t.1] t (m.port t)

theorem addLink_created {pipes : Pipes} {links : List NetLink} {m : PortMemory}
    (h : Created pipes links m) {link : NetLink} (hl : link.type = .pipe) :
    Created pipes (links ++ [link]) (addLink pipes links.length link m) := by
  have hold : ∀ b, (links.length, b) ∉ NetworkWiring.createPortList links.length := by
    intro b hb
    exact absurd (NetworkWiring.mem_createPortList.mp hb) (lt_irrefl _)
  constructor
  · rw [List.length_append, List.length_singleton, NetworkWiring.createPortList_succ]
    simp only [addLink, hl]
    refine .cons ?_
    rw [Function.update_of_ne (by simp), Function.update_self]
    refine .cons ?_
    rw [Function.update_self]
    exact (h.chain.frame (hold false) _).frame (hold true) _
  · rintro ⟨i, b⟩ hi
    simp only [List.length_append, List.length_singleton] at hi
    rcases Nat.lt_succ_iff_lt_or_eq.mp hi with hlt | rfl
    · have hw := h.wired (i, b) hlt
      simp only [List.getElem_append_left hlt] at hw ⊢
      have hne : ∀ c, (i, b) ≠ (links.length, c) := by
        intro c he
        rw [Prod.mk.injEq] at he
        omega
      simp only [addLink, hl, Function.update_of_ne (hne _)]
      exact hw
    · simp only [List.getElem_append_right le_rfl, Nat.sub_self, List.getElem_singleton]
      cases b
      · simp only [addLink, hl]
        rw [Function.update_of_ne (by simp), Function.update_self]
        exact ⟨rfl, rfl, rfl, rfl⟩
      · simp only [addLink, hl]
        rw [Function.update_self]
        exact ⟨rfl, rfl, rfl, rfl⟩

theorem createPortList_created (pipes : Pipes) {links : List NetLink}
    (hl : ∀ link ∈ links, link.type = .pipe) (garbage : PortMemory) :
    Created pipes links (createPortList pipes links garbage) := by
  induction links using List.reverseRecOn with
  | nil => exact ⟨.nil none, fun _ h => absurd h (Nat.not_lt_zero _)⟩
  | append_singleton links link ih =>
    rw [createPortList_concat]
    have hrest := ih fun k hk => hl k (List.mem_append_left _ hk)
    exact addLink_created hrest (hl link (List.mem_append_right _ (List.mem_singleton.mpr rfl)))

/-- The slot behind the ports that stay in `g_port_list`. -/
def slotAfter (kept : List LinkEnd) : Slot :=
  match kept.getLast? with
  | none => .gPortList
  | some t => .next t

theorem readSlot_slotAfter {m : PortMemory} {kept : List LinkEnd} {q : Option LinkEnd}
    (h : Chain m.next m.gPortList kept q) : readSlot m (slotAfter kept) = q := by
  rcases kept.eq_nil_or_concat with rfl | ⟨l, t, rfl⟩
  · exact chain_nil.mp h
  · rw [List.concat_eq_append] at *
    obtain ⟨p, -, hlast⟩ := h.split
    rw [slotAfter, List.getLast?_concat]
    exact chain_nil.mp (chain_cons.mp hlast).2

theorem writeSlot_slotAfter {m : PortMemory} {kept : List LinkEnd} {q : Option LinkEnd}
    (h : Chain m.next m.gPortList kept q) (hnodup : kept.Nodup) (x : Option LinkEnd) :
    Chain (writeSlot m x (slotAfter kept)).next (writeSlot m x (slotAfter kept)).gPortList kept x ∧
      ∀ c, c ∉ kept → (writeSlot m x (slotAfter kept)).next c = m.next c := by
  rcases kept.eq_nil_or_concat with rfl | ⟨l, t, rfl⟩
  · exact ⟨.nil x, fun c _ => rfl⟩
  · rw [List.concat_eq_append] at *
    have ht : t ∉ l := (List.nodup_cons.mp (List.nodup_append_comm.mp hnodup)).1
    rw [slotAfter, List.getLast?_concat]
    refine ⟨h.redirect ht x, ?_⟩
    intro c hc
    refine Function.update_of_ne ?_ _ _
    rintro rfl
    exact hc (List.mem_append_right _ (List.mem_singleton.mpr rfl))

theorem writeSlot_port (m : PortMemory) (x : Option LinkEnd) (p : Slot) :
    (writeSlot m x p).port = m.port := by
  cases p <;> rfl

theorem move_port {m : PortMemory} {kept rest taken : List LinkEnd} {t : LinkEnd}
    {r : Option LinkEnd} (hkept : Chain m.next m.gPortList kept (some t))
    (hrest : Chain m.next (m.next t) rest none) (htaken : Chain m.next r taken none)
    (hnodup : (kept ++ (t :: rest ++ taken)).Nodup) :
    ∃ u, u = writeSlot m (m.next t) (slotAfter kept) ∧
      Chain (Function.update u.next t r) u.gPortList (kept ++ rest) none ∧
      Chain (Function.update u.next t r) (some t) (t :: taken) none ∧
      ∀ c, c ∉ kept ++ t :: rest → Function.update u.next t r c = m.next c := by
  obtain ⟨ht, hall⟩ := List.nodup_cons.mp (List.perm_middle.nodup_iff.mp hnodup)
  simp only [List.append_eq, List.mem_append, not_or] at ht
  obtain ⟨htk, htr, htt⟩ := ht
  obtain ⟨hkn, -, hdisj⟩ := List.nodup_append.mp hall
  obtain ⟨hwrite, hsame⟩ := writeSlot_slotAfter hkept hkn (m.next t)
  refine ⟨_, rfl, ?_, ?_, ?_⟩
  · refine (hwrite.frame htk r).append ((hrest.congr ?_).frame htr r)
    intro c hc
    exact hsame c fun hck => hdisj c hck c (List.mem_append_left _ hc) rfl
  · refine .cons ?_
    rw [Function.update_self]
    refine (htaken.congr ?_).frame htt r
    intro c hc
    exact hsame c fun hck => hdisj c hck c (List.mem_append_right _ hc) rfl
  · intro c hc
    simp only [List.mem_append, List.mem_cons, not_or] at hc
    rw [Function.update_of_ne hc.2.1]
    exact hsame c hc.1

def OwnedBy (port : LinkEnd → NetPort) (hostId : ℤ) (t : LinkEnd) : Prop :=
  (port t).pipeHostId = hostId

instance (port : LinkEnd → NetPort) (hostId : ℤ) (t : LinkEnd) :
    Decidable (OwnedBy port hostId t) := inferInstanceAs (Decidable (_ = _))

/-- What the loop makes of the ports of `rest`: those of the host go in front of the ports taken
before, the others stay. -/
theorem takePorts_spec (hostId : ℤ) {fuel : ℕ} {m : PortMemory} {kept rest taken : List LinkEnd}
    {r : Option LinkEnd} (hfuel : rest.length < fuel)
    (hlist : Chain m.next m.gPortList (kept ++ rest) none) (htaken : Chain m.next r taken none)
    (hnodup : (kept ++ (rest ++ taken)).Nodup) :
    ∃ r' m', takePorts hostId fuel (slotAfter kept) r m = some (r', m') ∧ m'.port = m.port ∧
      Chain m'.next m'.gPortList
        (kept ++ rest.filter fun t => ¬ OwnedBy m.port hostId t) none ∧
      Chain m'.next r' ((rest.filter fun t => OwnedBy m.port hostId t).reverse ++ taken) none ∧
      ∀ c, c ∉ kept ++ rest → m'.next c = m.next c := by
  induction rest generalizing fuel m kept taken r with
  | nil =>
    obtain ⟨fuel, rfl⟩ : ∃ n, fuel = n + 1 := ⟨fuel - 1, by simp at hfuel; omega⟩
    rw [List.append_nil] at hlist
    refine ⟨r, m, ?_, rfl, ?_, htaken, fun _ _ => rfl⟩
    · rw [takePorts, readSlot_slotAfter hlist]
    · simpa using hlist
  | cons t rest ih =>
    obtain ⟨fuel, rfl⟩ : ∃ n, fuel = n + 1 := ⟨fuel - 1, by simp at hfuel; omega⟩
    obtain ⟨q, hkept, hlast⟩ := hlist.split
    obtain ⟨rfl, hrest⟩ := chain_cons.mp hlast
    simp only [List.length_cons, Nat.add_lt_add_iff_right] at hfuel
    rw [takePorts, readSlot_slotAfter hkept]
    by_cases hmine : OwnedBy m.port hostId t
    · obtain ⟨u, hu, hlist', htaken', hsame⟩ := move_port hkept hrest htaken hnodup
      have hport : u.port = m.port := by rw [hu, writeSlot_port]
      have hnodup' : (kept ++ (rest ++ t :: taken)).Nodup :=
        (List.perm_middle.append_left kept).nodup_iff.mpr hnodup
      obtain ⟨r', m', hrun, hp, hl, ht, hs⟩ :=
        ih (m := { u with next := Function.update u.next t r }) hfuel hlist' htaken' hnodup'
      simp only [hport] at hp hl ht
      refine ⟨r', m', ?_, hp, ?_, ?_, ?_⟩
      · simp only [if_pos (show (m.port t).pipeHostId = hostId from hmine), ← hu]
        exact hrun
      · rw [List.filter_cons_of_neg (by simpa using hmine)]
        exact hl
      · rw [List.filter_cons_of_pos (by simpa using hmine), List.reverse_cons, List.append_assoc]
        exact ht
      · intro c hc
        rw [hs c fun hck => hc ?_]
        · exact hsame c hc
        · rcases List.mem_append.mp hck with hck | hck
          · exact List.mem_append_left _ hck
          · exact List.mem_append_right _ (List.mem_cons_of_mem t hck)
    · have hmove : kept ++ t :: rest = kept ++ [t] ++ rest := by simp
      have hslot : slotAfter (kept ++ [t]) = .next t := by rw [slotAfter, List.getLast?_concat]
      have hlist' : Chain m.next m.gPortList (kept ++ [t] ++ rest) none := hmove ▸ hlist
      obtain ⟨r', m', hrun, hp, hl, ht, hs⟩ := ih hfuel hlist' htaken (by simpa using hnodup)
      refine ⟨r', m', ?_, hp, ?_, ?_, ?_⟩
      · rw [hslot] at hrun
        simp only [if_neg (show ¬ (m.port t).pipeHostId = hostId from hmine)]
        exact hrun
      · rw [List.filter_cons_of_pos (by simpa using hmine)]
        simpa using hl
      · rw [List.filter_cons_of_neg (by simpa using hmine)]
        exact ht
      · rw [hmove]
        exact hs

theorem netGetPortList_spec (hostId : ℤ) {fuel : ℕ} {m : PortMemory} {free : List LinkEnd}
    (hfuel : free.length < fuel) (hlist : Chain m.next m.gPortList free none)
    (hnodup : free.Nodup) :
    ∃ r m', netGetPortList fuel hostId m = some (r, m') ∧ m'.port = m.port ∧
      Chain m'.next m'.gPortList (free.filter fun t => ¬ OwnedBy m.port hostId t) none ∧
      Chain m'.next r (free.filter fun t => OwnedBy m.port hostId t).reverse none ∧
      ∀ c, c ∉ free → m'.next c = m.next c := by
  have hall : ([] ++ (free ++ [])).Nodup := by simpa using hnodup
  obtain ⟨r, m', hrun, hport, hfree, htaken, hsame⟩ :=
    takePorts_spec hostId hfuel hlist (.nil none) hall
  rw [List.append_nil] at htaken
  exact ⟨r, m', hrun, hport, hfree, htaken, hsame⟩

/-- The calls so far, each with the list it returned. -/
structure Dealing where
  memory : PortMemory
  calls : List (ℤ × Option LinkEnd)

def dealStep (fuel : ℕ) (s : Dealing) (hostId : ℤ) : Option Dealing :=
  (netGetPortList fuel hostId s.memory).map fun r => ⟨r.2, s.calls ++ [(hostId, r.1)]⟩

def ends (links : List NetLink) : List (ℤ × ℤ) := links.map fun l => (l.pipeNode0, l.pipeNode1)

def freePorts (links : List NetLink) (hs : List ℤ) : List LinkEnd :=
  (NetworkWiring.createPortList links.length).filter fun t =>
    ∀ h ∈ hs, NetworkWiring.pipeHostId (ends links) t ≠ some h

def portsFor (links : List NetLink) (hs : List ℤ) (h : ℤ) : List LinkEnd :=
  ((freePorts links hs).filter fun t => NetworkWiring.pipeHostId (ends links) t = some h).reverse

/-- What memory looks like after some calls: the lists that were returned stay as they were. -/
structure Dealt (pipes : Pipes) (links : List NetLink) (s : Dealing) : Prop where
  wired : ∀ (t : LinkEnd) (h : t.1 < links.length), Wired pipes links[t.1] t (s.memory.port t)
  free : Chain s.memory.next s.memory.gPortList (freePorts links (s.calls.map Prod.fst)) none
  returned : ∀ pre h r post, s.calls = pre ++ (h, r) :: post →
    Chain s.memory.next r (portsFor links (pre.map Prod.fst) h) none

theorem mem_freePorts {links : List NetLink} {hs : List ℤ} {t : LinkEnd} :
    t ∈ freePorts links hs ↔
      t.1 < links.length ∧ ∀ h ∈ hs, NetworkWiring.pipeHostId (ends links) t ≠ some h := by
  rw [freePorts, List.mem_filter, NetworkWiring.mem_createPortList]
  simp

theorem mem_portsFor {links : List NetLink} {hs : List ℤ} {h : ℤ} {t : LinkEnd} :
    t ∈ portsFor links hs h ↔
      t ∈ freePorts links hs ∧ NetworkWiring.pipeHostId (ends links) t = some h := by
  rw [portsFor, List.mem_reverse, List.mem_filter]
  simp

theorem lt_of_owner {links : List NetLink} {t : LinkEnd} {h : ℤ}
    (ht : NetworkWiring.pipeHostId (ends links) t = some h) : t.1 < links.length := by
  by_contra hn
  rw [NetworkWiring.pipeHostId, ends, List.getElem?_eq_none (by simpa using hn)] at ht
  cases ht

theorem mem_portsFor_iff {links : List NetLink} {hs : List ℤ} {h : ℤ} (t : LinkEnd) :
    t ∈ portsFor links hs h ↔
      h ∉ hs ∧ NetworkWiring.pipeHostId (ends links) t = some h := by
  rw [mem_portsFor, mem_freePorts]
  constructor
  · rintro ⟨⟨-, hfree⟩, howner⟩
    exact ⟨fun hmem => hfree h hmem howner, howner⟩
  · rintro ⟨hnew, howner⟩
    refine ⟨⟨lt_of_owner howner, ?_⟩, howner⟩
    intro k hk heq
    rw [howner, Option.some.injEq] at heq
    exact hnew (heq ▸ hk)

theorem portsFor_nil (links : List NetLink) (h : ℤ) :
    portsFor links [] h = NetworkWiring.nodePort (ends links) h := by
  rw [portsFor, freePorts, NetworkWiring.nodePort, NetworkWiring.netGetPortList_eq, ends,
    List.length_map]
  simp

theorem nodup_freePorts (links : List NetLink) (hs : List ℤ) : (freePorts links hs).Nodup :=
  (NetworkWiring.nodup_createPortList _).filter _

theorem length_createPortList (n : ℕ) : (NetworkWiring.createPortList n).length = 2 * n := by
  induction n with
  | zero => rfl
  | succ n ih =>
    rw [NetworkWiring.createPortList_succ, List.length_cons, List.length_cons, ih]
    omega

theorem length_freePorts (links : List NetLink) (hs : List ℤ) :
    (freePorts links hs).length ≤ 2 * links.length :=
  (List.length_filter_le _ _).trans (length_createPortList _).le

theorem Dealt.owner {pipes : Pipes} {links : List NetLink} {s : Dealing}
    (h : Dealt pipes links s) {t : LinkEnd} (ht : t.1 < links.length) :
    NetworkWiring.pipeHostId (ends links) t = some (s.memory.port t).pipeHostId := by
  rw [NetworkWiring.pipeHostId, ends, List.getElem?_map, List.getElem?_eq_getElem ht,
    (h.wired t ht).host]
  rfl

theorem dealt_create (pipes : Pipes) {links : List NetLink}
    (hl : ∀ link ∈ links, link.type = .pipe) (garbage : PortMemory) :
    Dealt pipes links ⟨createPortList pipes links garbage, []⟩ := by
  have h := createPortList_created pipes hl garbage
  constructor
  · exact h.wired
  · simpa [freePorts] using h.chain
  · intro pre _ _ _ he
    simp at he

theorem freePorts_concat (links : List NetLink) (hs : List ℤ) (h : ℤ) :
    freePorts links (hs ++ [h]) =
      (freePorts links hs).filter fun t => NetworkWiring.pipeHostId (ends links) t ≠ some h := by
  rw [freePorts, freePorts, List.filter_filter]
  apply List.filter_congr
  intro t _
  rw [Bool.eq_iff_iff]
  simp [or_imp, forall_and, and_comm]

theorem portsFor_disjoint {links : List NetLink} {hs : List ℤ} {h : ℤ} (hmem : h ∈ hs)
    (pre : List ℤ) : ∀ t ∈ portsFor links pre h, t ∉ freePorts links hs := by
  intro t ht hfree
  exact (mem_freePorts.mp hfree).2 h hmem (mem_portsFor.mp ht).2

theorem deal_spec {pipes : Pipes} {links : List NetLink} {s : Dealing}
    (h : Dealt pipes links s) {fuel : ℕ} (hfuel : 2 * links.length < fuel) (hostId : ℤ) :
    ∃ r m, netGetPortList fuel hostId s.memory = some (r, m) ∧
      Dealt pipes links ⟨m, s.calls ++ [(hostId, r)]⟩ := by
  have hlen := length_freePorts links (s.calls.map Prod.fst)
  obtain ⟨r, m, hrun, hport, hfree, htaken, hsame⟩ :=
    netGetPortList_spec hostId (hlen.trans_lt hfuel) h.free (nodup_freePorts links _)
  have howner : ∀ t ∈ freePorts links (s.calls.map Prod.fst),
      (OwnedBy s.memory.port hostId t ↔
        NetworkWiring.pipeHostId (ends links) t = some hostId) := by
    intro t ht
    rw [h.owner (mem_freePorts.mp ht).1, Option.some.injEq]
    rfl
  have htaken' : Chain m.next r (portsFor links (s.calls.map Prod.fst) hostId) none := by
    rw [portsFor]
    convert htaken using 2
    apply List.filter_congr
    intro t ht
    simp only [howner t ht]
  refine ⟨r, m, hrun, ?_, ?_, ?_⟩
  · intro t ht
    rw [hport]
    exact h.wired t ht
  · rw [List.map_append, List.map_singleton, freePorts_concat]
    convert hfree using 1
    apply List.filter_congr
    intro t ht
    simp only [howner t ht, ne_eq]
  · intro pre k x post he
    rcases post.eq_nil_or_concat with rfl | ⟨l, y, rfl⟩
    · obtain ⟨rfl, hlast⟩ := List.append_inj' he rfl
      cases hlast
      exact htaken'
    · rw [List.concat_eq_append, ← List.cons_append, ← List.append_assoc] at he
      obtain ⟨hcalls, -⟩ := List.append_inj' he rfl
      refine (h.returned pre k x l hcalls).congr ?_
      intro t ht
      refine hsame t (portsFor_disjoint ?_ _ t ht)
      rw [hcalls]
      simp

/-- Any sequence of calls gets through, and leaves memory dealt out. -/
theorem deal_all {pipes : Pipes} {links : List NetLink} {fuel : ℕ}
    (hfuel : 2 * links.length < fuel) (hs : List ℤ) {s : Dealing} (h : Dealt pipes links s) :
    ∃ t, hs.foldlM (dealStep fuel) s = some t ∧ Dealt pipes links t ∧
      t.calls.map Prod.fst = s.calls.map Prod.fst ++ hs := by
  induction hs generalizing s with
  | nil => exact ⟨s, rfl, h, (List.append_nil _).symm⟩
  | cons k hs ih =>
    obtain ⟨r, m, hrun, hd⟩ := deal_spec h hfuel k
    obtain ⟨t, ht, hdt, hcalls⟩ := ih hd
    refine ⟨t, ?_, hdt, ?_⟩
    · rw [List.foldlM_cons, dealStep, hrun]
      exact ht
    · simpa using hcalls

def Uses (pipes : Pipes) (p : NetPort) (k : LinkEnd) : Prop :=
  p.pipeSendFd = pipes.write k ∨ p.pipeRecvFd = pipes.read k

/-- Either port of a link writes to a pipe from which the other one reads, and no pipe belongs to
two links. -/
structure CrossConnected (pipes : Pipes) (linkNum : ℕ) (port : LinkEnd → NetPort) : Prop where
  crossed : ∀ t : LinkEnd, t.1 < linkNum → ∃ k,
    (port t).pipeSendFd = pipes.write k ∧ (port (farEnd t)).pipeRecvFd = pipes.read k
  unshared : ∀ t u : LinkEnd, t.1 < linkNum → u.1 < linkNum → t.1 ≠ u.1 →
    ∀ k, ¬ (Uses pipes (port t) k ∧ Uses pipes (port u) k)

theorem Wired.uses {pipes : Pipes} {link : NetLink} {t : LinkEnd} {p : NetPort}
    (h : Wired pipes link t p) {k : LinkEnd} (hk : Uses pipes p k) : k.1 = t.1 := by
  rcases hk with hk | hk
  · rw [pipes.write_injective (h.send.symm.trans hk)]
  · rw [← pipes.read_injective (h.recv.symm.trans hk)]
    rfl

theorem Dealt.crossConnected {pipes : Pipes} {links : List NetLink} {s : Dealing}
    (h : Dealt pipes links s) : CrossConnected pipes links.length s.memory.port := by
  constructor
  · intro t ht
    have hfar : (s.memory.port (farEnd t)).pipeRecvFd = pipes.read (farEnd (farEnd t)) :=
      (h.wired (farEnd t) ht).recv
    rw [NetworkWiring.farEnd_farEnd] at hfar
    exact ⟨t, (h.wired t ht).send, hfar⟩
  · rintro t u ht hu hne k ⟨hk, hk'⟩
    exact hne (((h.wired t ht).uses hk).symm.trans ((h.wired u hu).uses hk'))

theorem ordered_createPortList (n : ℕ) :
    (NetworkWiring.createPortList n).Pairwise fun t u => u.1 ≤ t.1 := by
  induction n with
  | zero => exact .nil
  | succ n ih =>
    rw [NetworkWiring.createPortList_succ, List.pairwise_cons, List.pairwise_cons]
    refine ⟨?_, ?_, ih⟩
    · intro t ht
      rcases List.mem_cons.mp ht with rfl | ht
      · exact le_rfl
      · exact (NetworkWiring.mem_createPortList.mp ht).le
    · intro t ht
      exact (NetworkWiring.mem_createPortList.mp ht).le

theorem ordered_portsFor (links : List NetLink) (hs : List ℤ) (h : ℤ) :
    (portsFor links hs h).Pairwise fun t u => t.1 ≤ u.1 := by
  rw [portsFor, List.pairwise_reverse]
  exact ((ordered_createPortList _).filter _).filter _

/-- After any calls `hs`, a call for h returns the free ports of h, one for each end of a link at
h, in the order of the configuration; the other ports stay in their order; and the ports are
connected as the links say. -/
theorem net_wiring (pipes : Pipes) {links : List NetLink}
    (hl : ∀ link ∈ links, link.type = .pipe) (garbage : PortMemory) {fuel : ℕ}
    (hfuel : 2 * links.length < fuel) (hs : List ℤ) (h : ℤ) :
    ∃ s r m free ports,
      hs.foldlM (dealStep fuel) ⟨createPortList pipes links garbage, []⟩ = some s ∧
      netGetPortList fuel h s.memory = some (r, m) ∧
      Chain s.memory.next s.memory.gPortList free none ∧
      Chain m.next m.gPortList (free.filter fun t => (m.port t).pipeHostId ≠ h) none ∧
      Chain m.next r ports none ∧ ports.Nodup ∧
      (∀ t, t ∈ ports ↔ t ∈ free ∧ (m.port t).pipeHostId = h) ∧
      (∀ t, t ∈ ports ↔ h ∉ hs ∧ NetworkWiring.pipeHostId (ends links) t = some h) ∧
      ports.Pairwise (fun t u => t.1 ≤ u.1) ∧
      CrossConnected pipes links.length m.port := by
  obtain ⟨s, hrun, hd, hcalls⟩ := deal_all hfuel hs (dealt_create pipes hl garbage)
  obtain ⟨r, m, hcall, hd'⟩ := deal_spec hd hfuel h
  have hfree : Chain m.next m.gPortList (freePorts links (hs ++ [h])) none := by
    have := hd'.free
    rw [List.map_append, hcalls] at this
    exact this
  have hports : Chain m.next r (portsFor links hs h) none := by
    have := hd'.returned s.calls h r [] rfl
    rw [hcalls] at this
    exact this
  have howner : ∀ t ∈ freePorts links hs, ((m.port t).pipeHostId = h ↔
      NetworkWiring.pipeHostId (ends links) t = some h) := by
    intro t ht
    rw [hd'.owner (mem_freePorts.mp ht).1, Option.some.injEq]
  refine ⟨s, r, m, freePorts links hs, portsFor links hs h, hrun, hcall, ?_, ?_, hports, ?_, ?_,
    mem_portsFor_iff, ordered_portsFor links hs h, hd'.crossConnected⟩
  · have := hd.free
    rw [hcalls] at this
    exact this
  · rw [freePorts_concat] at hfree
    convert hfree using 1
    apply List.filter_congr
    intro t ht
    simp only [howner t ht, ne_eq]
  · exact List.nodup_reverse.mpr ((nodup_freePorts links hs).filter _)
  · intro t
    rw [mem_portsFor]
    exact and_congr_right fun ht => (howner t ht).symm

def countedPipes : Pipes where
  read t := 4 * t.1 + if t.2 then 2 else 0
  write t := 4 * t.1 + if t.2 then 3 else 1
  read_injective := by
    rintro ⟨i, a⟩ ⟨j, b⟩ h
    cases a <;> cases b <;> simp at h ⊢ <;> omega
  write_injective := by
    rintro ⟨i, a⟩ ⟨j, b⟩ h
    cases a <;> cases b <;> simp at h ⊢ <;> omega
  read_ne_write := by
    rintro ⟨i, a⟩ ⟨j, b⟩ h
    cases a <;> cases b <;> simp at h <;> omega

def noPort : NetPort := ⟨.socket, 0, 0, 0, [], [], []⟩

/-- Two links between nodes 1 and 2, and a link of node 1 to itself. -/
def smallConfig : List NetLink :=
  [⟨.pipe, 1, 2, [], [], []⟩, ⟨.pipe, 2, 1, [], [], []⟩, ⟨.pipe, 1, 1, [], [], []⟩]

theorem net_wiring_small : ∃ s r m free ports,
    [(2 : ℤ)].foldlM (dealStep 7)
        ⟨createPortList countedPipes smallConfig ⟨fun _ => noPort, fun _ => none, none⟩, []⟩ =
      some s ∧
    netGetPortList 7 1 s.memory = some (r, m) ∧
    Chain s.memory.next s.memory.gPortList free none ∧
    Chain m.next m.gPortList (free.filter fun t => (m.port t).pipeHostId ≠ 1) none ∧
    Chain m.next r ports none ∧ ports.Nodup ∧
    (∀ t, t ∈ ports ↔ t ∈ free ∧ (m.port t).pipeHostId = 1) ∧
    (∀ t, t ∈ ports ↔
      1 ∉ [(2 : ℤ)] ∧ NetworkWiring.pipeHostId (ends smallConfig) t = some 1) ∧
    ports.Pairwise (fun t u => t.1 ≤ u.1) ∧
    CrossConnected countedPipes smallConfig.length m.port :=
  net_wiring countedPipes (by decide) _ (by decide) [2] 1

/-- The self link gives node 1 its port p1 before its port p0. -/
example : NetworkWiring.nodePort (ends smallConfig) 1 =
    [(0, false), (1, true), (2, true), (2, false)] := by decide

end PortLists
