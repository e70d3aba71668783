import NetSim.EventRuns
import NetSim.PacketLinks
import NetSim.PortLists

/-! packet_recv on the SOCKET ports of one node. Its listening descriptor and the flag for its
set-up are static, so there is one of each in the process of the node. Connections wait at a port
number, oldest first, and only a socket that is bound to it accepts them. -/
namespace SocketPorts

open PacketCodec
open PacketLinks (packetRecvOn packetSend_recv)
open PortLists (NetPort)
open EventRuns (Run)

/-- What the calls for an address of getaddrinfo answer: true is success. -/
structure Address where
  socket : Bool
  setsockopt : Bool
  bind : Bool
  fcntl : Bool

/-- What the operating system answers for a port number. -/
structure Os where
  getaddrinfo : List Int8 → Option (List Address)
  listen : List Int8 → Bool

/-- The loop over the addresses stops at the first one whose four calls succeed. -/
def bindFirst : List Address → Option Address
  | [] => none
  | p :: rest =>
    if p.socket ∧ p.setsockopt ∧ p.bind ∧ p.fcntl then some p else bindFirst rest

/-- The descriptor, given by the number that its socket is bound to; none is -1. -/
def setupListeningSocket (os : Os) (port : NetPort) : Option (List Int8) :=
  match os.getaddrinfo port.recvPortNumber with
  | none => none
  | some servinfo =>
    match bindFirst servinfo with
    | none => none
    | some _ => if os.listen port.recvPortNumber then some port.recvPortNumber else none

/-- A connection of a peer, with the number it is for and the packet it carries; `id` tells
connections with the same packet apart. -/
structure Connection where
  number : List Int8
  id : ℕ
  packet : Packet
  fits : Fits packet

/-- What packet_recv returned for a port, and the connection it accepted for it. -/
structure Returned where
  port : ℕ
  connection : Connection
  n : ℕ
  packet : Packet

/-- `setup` and `sockfd` are the static variables; `returned` only records. -/
structure RecvState where
  setup : Bool
  sockfd : Option (List Int8)
  waiting : List Int8 → List Connection
  returned : List Returned

def recvInit : RecvState := ⟨true, none, fun _ => [], []⟩

/-- A peer connects, or the node calls packet_recv on port k, which finds `stale` in `msg` and `p`
in the packet. -/
inductive RecvEvent where
  | connect (c : Connection)
  | recv (k : ℕ) (stale : ℕ → Int8) (p : Packet)

def connect (c : Connection) (s : RecvState) : RecvState :=
  { s with waiting := Function.update s.waiting c.number (s.waiting c.number ++ [c]) }

def setUp (os : Os) (port : NetPort) (s : RecvState) : RecvState :=
  if s.setup then { s with sockfd := setupListeningSocket os port, setup := false } else s

/-- `accept` and `recv`: nothing happens when no connection waits. -/
def accept (k : ℕ) (stale : ℕ → Int8) (p : Packet) (s : RecvState) : RecvState :=
  match s.sockfd with
  | none => s
  | some number =>
    match s.waiting number with
    | [] => s
    | c :: rest =>
      let r := packetRecvOn .socket (packetSend c.packet) stale p
      { s with
        waiting := Function.update s.waiting number rest
        returned := s.returned ++ [⟨k, c, r.1, r.2.packet⟩] }

/-- packet_recv; a call on a PIPE port reads its pipe. -/
def packetRecv (os : Os) (ports : List NetPort) (k : ℕ) (stale : ℕ → Int8) (p : Packet)
    (s : RecvState) : RecvState :=
  match ports[k]? with
  | none => s
  | some port =>
    match port.type with
    | .pipe => s
    | .socket => accept k stale p (setUp os port s)

def recvStep (os : Os) (ports : List NetPort) (s : RecvState) : RecvEvent → RecvState
  | .connect c => connect c s
  | .recv k stale p => packetRecv os ports k stale p s

def RecvStep (os : Os) (ports : List NetPort) (s : RecvState) (e : RecvEvent) (u : RecvState) :
    Prop :=
  recvStep os ports s e = u

def IsSocket (ports : List NetPort) (k : ℕ) (number : List Int8) : Prop :=
  ∃ port, ports[k]? = some port ∧ port.type = .socket ∧ port.recvPortNumber = number

def DistinctNumbers (ports : List NetPort) : Prop :=
  ∀ k l number, IsSocket ports k number → IsSocket ports l number → k = l

def Listens (os : Os) (ports : List NetPort) : Prop :=
  ∀ port ∈ ports, port.type = .socket → setupListeningSocket os port = some port.recvPortNumber

def polls (k : ℕ) : List RecvEvent → ℕ
  | [] => 0
  | .recv l _ _ :: es => (if l = k then 1 else 0) + polls k es
  | .connect _ :: es => polls k es

def FromOwnNumber (ports : List NetPort) (s : RecvState) : Prop :=
  ∀ r ∈ s.returned, IsSocket ports r.port r.connection.number

/-- A connection at the number of a port is returned for it as soon as the port is polled once more
than there are connections ahead. -/
def ReturnedInTurn (os : Os) (ports : List NetPort) (s : RecvState) : Prop :=
  ∀ k number, IsSocket ports k number → ∀ j c, (s.waiting number)[j]? = some c →
    ∀ es u, Run (RecvStep os ports) s es u → j < polls k es →
      ∃ r ∈ u.returned.drop s.returned.length, r.port = k ∧ r.connection = c

/-- At every moment, each port has returned its own packets only and will return those that
wait. -/
def KeptApart (os : Os) (ports : List NetPort) : Prop :=
  ∀ es s, Run (RecvStep os ports) recvInit es s → FromOwnNumber ports s ∧ ReturnedInTurn os ports s

def AtMostOneSocket (ports : List NetPort) : Prop :=
  ∀ k l x y, IsSocket ports k x → IsSocket ports l y → k = l

variable {os : Os} {ports : List NetPort}

theorem packetRecv_other {k : ℕ} (h : ∀ x, ¬ IsSocket ports k x) (stale : ℕ → Int8) (p : Packet)
    (s : RecvState) : packetRecv os ports k stale p s = s := by
  rw [packetRecv]
  split
  case h_1 => rfl
  case h_2 port hport =>
    cases htype : port.type with
    | pipe => rfl
    | socket => exact absurd ⟨port, hport, htype, rfl⟩ (h port.recvPortNumber)

theorem packetRecv_socket (hos : Listens os ports) {k : ℕ} {x : List Int8}
    (hk : IsSocket ports k x) (stale : ℕ → Int8) (p : Packet) (s : RecvState) :
    packetRecv os ports k stale p s = accept k stale p
      { s with setup := false, sockfd := if s.setup then some x else s.sockfd } := by
  obtain ⟨port, hport, htype, rfl⟩ := hk
  have hlisten := hos port (List.mem_of_getElem? hport) htype
  simp only [packetRecv, hport, htype, setUp, hlisten]
  obtain ⟨setup, sockfd, waiting, returned⟩ := s
  cases setup <;> rfl

theorem accept_nil {k : ℕ} {s : RecvState} {x : List Int8} (hfd : s.sockfd = some x)
    (hw : s.waiting x = []) (stale : ℕ → Int8) (p : Packet) : accept k stale p s = s := by
  simp only [accept, hfd, hw]

theorem accept_cons {k : ℕ} {s : RecvState} {x : List Int8} {c : Connection}
    {rest : List Connection} (hfd : s.sockfd = some x) (hw : s.waiting x = c :: rest)
    (stale : ℕ → Int8) (p : Packet) :
    accept k stale p s =
      { s with
        waiting := Function.update s.waiting x rest
        returned := s.returned ++
          [⟨k, c, 8 + c.packet.length.toNat, c.packet.deliver p.payload⟩] } := by
  obtain ⟨hn, hpacket⟩ := packetSend_recv .socket c.fits stale p
  simp only [accept, hfd, hw, hn, hpacket]

def Filed (waiting : List Int8 → List Connection) : Prop :=
  ∀ x, ∀ c ∈ waiting x, c.number = x

theorem Filed.update {waiting : List Int8 → List Connection} (h : Filed waiting) {y : List Int8}
    {l : List Connection} (hl : ∀ c ∈ l, c.number = y) : Filed (Function.update waiting y l) := by
  intro x c hc
  by_cases hx : x = y
  · subst hx
    rw [Function.update_self] at hc
    exact hl c hc
  · rw [Function.update_of_ne hx] at hc
    exact h x c hc

/-- The socket, once it is set up, is the one of the only port; connections wait at their number;
and what was returned came from there. -/
structure Own (ports : List NetPort) (s : RecvState) : Prop where
  sockfd : s.setup = true ∨ ∀ k x, IsSocket ports k x → s.sockfd = some x
  filed : Filed s.waiting
  returned : FromOwnNumber ports s

theorem own_init : Own ports recvInit where
  sockfd := .inl rfl
  filed := fun _ => List.forall_mem_nil _
  returned := List.forall_mem_nil _

theorem IsSocket.unique {k : ℕ} {x y : List Int8} (h : IsSocket ports k x)
    (h' : IsSocket ports k y) : x = y := by
  obtain ⟨port, hport, -, rfl⟩ := h
  obtain ⟨port', hport', -, rfl⟩ := h'
  rw [hport] at hport'
  cases hport'
  rfl

/-- What a call does to the only SOCKET port: it takes the oldest connection, if there is one. -/
theorem recv_only (hos : Listens os ports) (hone : AtMostOneSocket ports) {k : ℕ} {x : List Int8}
    (hk : IsSocket ports k x) {s : RecvState} (hs : Own ports s) (stale : ℕ → Int8) (p : Packet) :
    ∃ u, packetRecv os ports k stale p s = u ∧ Own ports u ∧
      ((s.waiting x = [] ∧ u.waiting = s.waiting ∧ u.returned = s.returned) ∨
        ∃ c rest r, s.waiting x = c :: rest ∧ u.waiting = Function.update s.waiting x rest ∧
          u.returned = s.returned ++ [r] ∧ r.port = k ∧ r.connection = c) := by
  have hfd : (if s.setup then some x else s.sockfd) = some x := by
    split
    · rfl
    · next hsetup => exact hs.sockfd.resolve_left hsetup k x hk
  have honly : ∀ l y, IsSocket ports l y → some x = some y := by
    intro l y hl
    have hlk := hone l k y x hl hk
    subst hlk
    rw [hk.unique hl]
  rw [packetRecv_socket hos hk, hfd]
  obtain ⟨setup, sockfd, waiting, returned⟩ := s
  cases hw : waiting x with
  | nil =>
    exact ⟨_, accept_nil rfl hw stale p, ⟨.inr honly, hs.filed, hs.returned⟩, .inl ⟨hw, rfl, rfl⟩⟩
  | cons c rest =>
    refine ⟨_, accept_cons rfl hw stale p, ⟨.inr honly, ?_, ?_⟩,
      .inr ⟨c, rest, _, hw, rfl, rfl, rfl, rfl⟩⟩
    · have hrest : ∀ d ∈ rest, d ∈ waiting x := by
        rw [hw]
        exact fun d hd => List.mem_cons_of_mem c hd
      exact Filed.update hs.filed fun d hd => hs.filed x d (hrest d hd)
    · have hc : c ∈ waiting x := by
        rw [hw]
        exact List.mem_cons_self
      have hnumber : c.number = x := hs.filed x c hc
      refine List.forall_mem_append.mpr ⟨hs.returned, List.forall_mem_singleton.mpr ?_⟩
      rwa [hnumber]

theorem step_only (hos : Listens os ports) (hone : AtMostOneSocket ports) {s u : RecvState}
    {e : RecvEvent} (h : RecvStep os ports s e u) (hs : Own ports s) :
    Own ports u ∧ s.returned <+: u.returned ∧
      ∀ k x, IsSocket ports k x → ∀ j c, (s.waiting x)[j]? = some c →
        (polls k [e] = 0 ∧ (u.waiting x)[j]? = some c) ∨
          (polls k [e] = 1 ∧ ((∃ i, j = i + 1 ∧ (u.waiting x)[i]? = some c) ∨
            ∃ r, u.returned = s.returned ++ [r] ∧ r.port = k ∧ r.connection = c)) := by
  subst h
  cases e with
  | connect c =>
    refine ⟨⟨hs.sockfd, Filed.update hs.filed ?_, hs.returned⟩, List.prefix_rfl, ?_⟩
    · exact List.forall_mem_append.mpr ⟨hs.filed c.number, List.forall_mem_singleton.mpr rfl⟩
    · intro k x _ j d hd
      refine .inl ⟨rfl, ?_⟩
      by_cases hx : x = c.number
      · subst hx
        simp only [recvStep, connect, Function.update_self]
        rw [List.getElem?_append_left (List.getElem?_eq_some_iff.mp hd).1, hd]
      · simp only [recvStep, connect, Function.update_of_ne hx, hd]
  | recv l stale p =>
    by_cases hl : ∃ y, IsSocket ports l y
    · obtain ⟨y, hl⟩ := hl
      obtain ⟨u, hu, hown, hcases⟩ := recv_only hos hone hl hs stale p
      rw [recvStep, hu]
      refine ⟨hown, ?_, ?_⟩
      · rcases hcases with ⟨-, -, hreturned⟩ | ⟨c, rest, r, -, -, hreturned, -⟩
        · rw [hreturned]
        · rw [hreturned]
          exact List.prefix_append _ _
      · intro k x hk j c hc
        have hkl := hone k l x y hk hl
        subst hkl
        cases hk.unique hl
        refine .inr ⟨if_pos rfl, ?_⟩
        rcases hcases with ⟨hw, -, -⟩ | ⟨d, rest, r, hw, hwaiting, hreturned, hport, hd⟩
        · rw [hw] at hc
          cases hc
        · rw [hw] at hc
          cases j with
          | zero =>
            cases hc
            exact .inr ⟨r, hreturned, hport, hd⟩
          | succ i =>
            refine .inl ⟨i, rfl, ?_⟩
            rwa [hwaiting, Function.update_self]
    · have hnone : ∀ y, ¬ IsSocket ports l y := fun y hy => hl ⟨y, hy⟩
      rw [recvStep, packetRecv_other hnone]
      refine ⟨hs, List.prefix_rfl, ?_⟩
      intro k x hk j c hc
      have hne : ¬ l = k := by
        rintro rfl
        exact hnone x hk
      exact .inl ⟨if_neg hne, hc⟩

theorem run_only (hos : Listens os ports) (hone : AtMostOneSocket ports) {s u : RecvState}
    {es : List RecvEvent} (h : Run (RecvStep os ports) s es u) (hs : Own ports s) :
    Own ports u ∧ s.returned <+: u.returned := by
  refine h.invariant (I := fun t => Own ports t ∧ s.returned <+: t.returned) ?_
    ⟨hs, List.prefix_rfl⟩
  rintro t e v hstep ⟨ht, hpre⟩
  obtain ⟨hv, hnext, -⟩ := step_only hos hone hstep ht
  exact ⟨hv, hpre.trans hnext⟩

theorem polls_cons (k : ℕ) (e : RecvEvent) (es : List RecvEvent) :
    polls k (e :: es) = polls k [e] + polls k es := by
  cases e with
  | connect c => simp [polls]
  | recv l stale p => simp [polls]

theorem drop_later {α : Type*} {l₁ l₂ l₃ : List α} (h : l₁ <+: l₂) {r : α}
    (hr : r ∈ l₃.drop l₂.length) : r ∈ l₃.drop l₁.length :=
  List.drop_subset_drop_left l₃ h.length_le hr

/-- By induction on the run: a poll of the port takes the connection or brings it one place
forward, and nothing else moves it. -/
theorem run_returns (hos : Listens os ports) (hone : AtMostOneSocket ports) {k : ℕ}
    {x : List Int8} (hk : IsSocket ports k x) {s u : RecvState} {es : List RecvEvent}
    (h : Run (RecvStep os ports) s es u) (hs : Own ports s) {j : ℕ} {c : Connection}
    (hc : (s.waiting x)[j]? = some c) (hj : j < polls k es) :
    ∃ r ∈ u.returned.drop s.returned.length, r.port = k ∧ r.connection = c := by
  induction h generalizing j with
  | nil s => cases hj
  | @cons s e t es u hstep hrun ih =>
    obtain ⟨ht, hpre, hmoves⟩ := step_only hos hone hstep hs
    rw [polls_cons] at hj
    rcases hmoves k x hk j c hc with ⟨hnone, hstays⟩ | ⟨hone', ⟨i, rfl, hi⟩ | hlast⟩
    · obtain ⟨r, hr, hrc⟩ := ih ht hstays (by omega)
      exact ⟨r, drop_later hpre hr, hrc⟩
    · obtain ⟨r, hr, hrc⟩ := ih ht hi (by omega)
      exact ⟨r, drop_later hpre hr, hrc⟩
    · obtain ⟨r, hreturned, hport, hrc⟩ := hlast
      obtain ⟨more, hmore⟩ := (run_only hos hone hrun ht).2
      refine ⟨r, ?_, hport, hrc⟩
      rw [← hmore, hreturned, List.append_assoc, List.drop_left]
      exact List.mem_cons_self

theorem keptApart_of_only (hos : Listens os ports) (hone : AtMostOneSocket ports) :
    KeptApart os ports := by
  intro es s hrun
  have hs := (run_only hos hone hrun own_init).1
  refine ⟨hs.returned, ?_⟩
  intro k x hk j c hc fs u hrun' hj
  exact run_returns hos hone hk hrun' hs hc hj

def pingTo (number : List Int8) : Connection where
  number := number
  id := 0
  packet := ⟨0, 1, pktPingReq, 0, fun _ => 0, 0, 0, charS, charN⟩
  fits := by decide

theorem KeptApart.same_number (h : KeptApart os ports) (hos : Listens os ports) {k l : ℕ}
    {x y : List Int8} (hk : IsSocket ports k x) (hl : IsSocket ports l y) :
    IsSocket ports l x := by
  let stale : ℕ → Int8 := fun _ => 0
  let p := (pingTo x).packet
  let s : RecvState := ⟨false, some x, fun _ => [], []⟩
  have hfirst : recvStep os ports recvInit (.recv k stale p) = s := by
    rw [recvStep, packetRecv_socket hos hk]
    exact accept_nil rfl rfl stale p
  let t := connect (pingTo x) s
  have hw : t.waiting x = [pingTo x] := Function.update_self ..
  have hrun : Run (RecvStep os ports) recvInit
      [.recv k stale p, .connect (pingTo x), .recv l stale p] (packetRecv os ports l stale p t) :=
    .cons hfirst (.cons rfl (.cons rfl (.nil _)))
  have hown := (h _ _ hrun).1
  have hlast := (packetRecv_socket hos hl stale p t).trans (accept_cons rfl hw stale p)
  rw [hlast] at hown
  exact hown _ List.mem_cons_self

/-- The ports of a node are kept apart just when it has at most one SOCKET port. -/
theorem keptApart_iff (os : Os) (ports : List NetPort) (hos : Listens os ports)
    (hdistinct : DistinctNumbers ports) : KeptApart os ports ↔ AtMostOneSocket ports := by
  constructor
  · intro h k l x y hk hl
    exact hdistinct k l x hk (h.same_number hos hk hl)
  · exact keptApart_of_only hos

def openOs : Os := ⟨fun _ => some [⟨true, true, true, true⟩], fun _ => true⟩

theorem listens_openOs (ports : List NetPort) : Listens openOs ports := fun _ _ _ => rfl

def socketPort (number : List Int8) : NetPort := { PortLists.noPort with recvPortNumber := number }

theorem isSocket_socketPort {numbers : List (List Int8)} {k : ℕ} {x : List Int8} :
    IsSocket (numbers.map socketPort) k x ↔ numbers[k]? = some x := by
  rw [IsSocket]
  constructor
  · rintro ⟨port, hport, -, rfl⟩
    rw [List.getElem?_map] at hport
    obtain ⟨number, hnumber, rfl⟩ := Option.map_eq_some_iff.mp hport
    exact hnumber
  · intro h
    refine ⟨socketPort x, ?_, rfl, rfl⟩
    rw [List.getElem?_map, h]
    rfl

theorem distinctNumbers_socketPort {numbers : List (List Int8)} (h : numbers.Nodup) :
    DistinctNumbers (numbers.map socketPort) := by
  intro k l x hk hl
  have hk' := isSocket_socketPort.mp hk
  have hl' := isSocket_socketPort.mp hl
  have hlt := (List.getElem?_eq_some_iff.mp hk').1
  exact (List.getElem?_inj hlt h).mp (hk'.trans hl'.symm)

theorem keptApart_iff_3502 : KeptApart openOs ([[51, 53, 48, 50]].map socketPort) := by
  refine (keptApart_iff openOs _ (listens_openOs _) (distinctNumbers_socketPort (by decide))).mpr ?_
  intro k l x y hk hl
  have hk' := (List.getElem?_eq_some_iff.mp (isSocket_socketPort.mp hk)).1
  have hl' := (List.getElem?_eq_some_iff.mp (isSocket_socketPort.mp hl)).1
  rw [List.length_singleton, Nat.lt_one_iff] at hk' hl'
  rw [hk', hl']

/-- On SOCKET links with the numbers 3502 and 3503, port 1 returns what was sent to 3502. -/
theorem socket_ports_mixed :
    Listens openOs ([[51, 53, 48, 50], [51, 53, 48, 51]].map socketPort) ∧
      DistinctNumbers ([[51, 53, 48, 50], [51, 53, 48, 51]].map socketPort) ∧
      ¬ KeptApart openOs ([[51, 53, 48, 50], [51, 53, 48, 51]].map socketPort) := by
  refine ⟨listens_openOs _, distinctNumbers_socketPort (by decide), ?_⟩
  intro h
  have hmixed : IsSocket ([[51, 53, 48, 50], [51, 53, 48, 51]].map socketPort) 1
      [51, 53, 48, 50] :=
    h.same_number (k := 0) (listens_openOs _) (isSocket_socketPort.mpr rfl)
      (isSocket_socketPort.mpr rfl)
  rw [isSocket_socketPort] at hmixed
  revert hmixed
  decide

end SocketPorts
