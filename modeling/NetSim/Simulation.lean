import NetSim.NetConfig
import NetSim.HostReplies
import NetSim.PacketLinks

/-! The whole simulation. main.c makes a process for each node of the configuration; the processes
share the pipes, and a SOCKET link leads out of it. The parts of their loops come in any order,
except that a host keeps to its own. -/
namespace Simulation

open PacketCodec HostNode NetConfig
open PacketLinks (packetRecvOn)
open NetworkTopology (NetNodeType)
open NetworkWiring (LinkEnd farEnd createPortList)
open SwitchNode (SwitchState Stray YesNo switchInit)
open DnsServer (ServerState ServerJob serverInit)

structure Config where
  nodes : List NetNode
  links : List NetLink
  deriving DecidableEq

/-- main.c starts no node when the configuration is not accepted. -/
def configOf : Load → Config
  | .accepted _ nodes links => ⟨nodes.map Entry.value, links.map Entry.value⟩
  | _ => ⟨[], []⟩

namespace Config

variable (c : Config)

def typeOf (v : ℕ) : Option NetNodeType := c.nodes[v]?.bind NetNode.type

def idOf (v : ℕ) : ℤ := (c.nodes[v]?.map NetNode.id).getD 0

def linkType (t : LinkEnd) : Option NetLinkType := c.links[t.1]?.bind NetLink.type

/-- `pipe_host_id` of the port at an end of a link; port p1 of a SOCKET link is never linked. -/
def owner (t : LinkEnd) : Option ℤ :=
  c.links[t.1]?.bind fun link =>
    match link.type with
    | some .pipe => some (if t.2 then link.pipeNode1 else link.pipeNode0)
    | some .socket => if t.2 then none else some link.pipeNode0
    | none => none

def nodePort (v : ℕ) : List LinkEnd :=
  ((createPortList c.links.length).filter fun t => c.owner t = some (c.idOf v)).reverse

end Config

/-- `wire t` holds the writes toward the port at end t, oldest first, without what was read. -/
structure SimState where
  host : ℕ → HostState
  switch : ℕ → SwitchState
  server : ℕ → ServerState
  wire : LinkEnd → List (List Int8)

structure SimMemory where
  host : ℕ → HostState
  dnsHostIDReturn : ℕ → ℤ

def simInit (c : Config) (memory : SimMemory) : SimState where
  host v := hostInit { memory.host v with
    hostId := c.idOf v
    nodePortNum := (c.nodePort v).length }
  switch v := switchInit (c.idOf v)
  server v := serverInit (memory.dnsHostIDReturn v)
  wire _ := []

def cut : ℕ → List (List Int8) → List (List Int8)
  | _, [] => []
  | n, m :: q => if m.length ≤ n then cut (n - m.length) q else m.drop n :: q

theorem flatten_cut (n : ℕ) (q : List (List Int8)) : (cut n q).flatten = q.flatten.drop n := by
  induction q generalizing n with
  | nil => simp [cut]
  | cons m q ih =>
    rw [cut, List.flatten_cons]
    split
    · next h => rw [ih, List.drop_append, List.drop_of_length_le h, List.nil_append]
    · next h => rw [List.flatten_cons, List.drop_append_of_le_length (by omega)]

def put (c : Config) (v : ℕ) (wire : LinkEnd → List (List Int8)) (out : ℕ × Packet) :
    LinkEnd → List (List Int8) :=
  match (c.nodePort v)[out.1]? with
  | none => wire
  | some t =>
    if c.linkType t = some .pipe then
      Function.update wire (farEnd t) (wire (farEnd t) ++ [packetSend out.2])
    else wire

def transmit (c : Config) (v : ℕ) (outs : List (ℕ × Packet)) (s : SimState) : SimState :=
  { s with wire := outs.foldl (put c v) s.wire }

def onAllPorts (c : Config) (v : ℕ) (p : Packet) : List (ℕ × Packet) :=
  (List.range (c.nodePort v).length).map fun k => (k, p)

/-- What a read on the port finds; `peer` is what the connection of a peer carries, if any. -/
def arrived (c : Config) (t : LinkEnd) (peer : List Int8) (s : SimState) : List Int8 :=
  if c.linkType t = some .pipe then (s.wire t).flatten else peer

def takeOff (c : Config) (t : LinkEnd) (s : SimState) : SimState :=
  if c.linkType t = some .pipe then
    { s with wire := Function.update s.wire t (cut (payloadMax + 8) (s.wire t)) }
  else s

theorem arrived_takeOff {c : Config} {t : LinkEnd} (hpipe : c.linkType t = some .pipe)
    (peer : List Int8) (s : SimState) :
    arrived c t peer (takeOff c t s) = (arrived c t peer s).drop (payloadMax + 8) := by
  rw [arrived, if_pos hpipe, takeOff, if_pos hpipe, arrived, if_pos hpipe]
  change (Function.update s.wire t (cut (payloadMax + 8) (s.wire t)) t).flatten = _
  rw [Function.update_self, flatten_cut]

/-- One part of the loop of node v. packet_recv on port k finds `stale` in `msg` and `prior` in
the packet; `stray` is what a switch makes of memory around its table. -/
inductive SimEvent where
  | host (v : ℕ) (e : HostEvent)
  | switchControl (v : ℕ)
  | switchExecute (v : ℕ)
  | serverControl (v : ℕ) (blank : Packet)
  | serverExecute (v : ℕ) (around : ℤ → YesNo) (blank : Packet)
  | recv (v k : ℕ) (peer : List Int8) (stale : ℕ → Int8) (prior : Packet) (stray : Stray)

def isReceive : HostEvent → Bool
  | .receive _ _ => true
  | _ => false

/-- A part of the loop of a host other than a read of a port, and what it sends. -/
def hostPart (c : Config) (v : ℕ) (e : HostEvent) (s : SimState) : Option SimState :=
  (hostStep (s.host v) e).map fun u =>
    transmit c v ((u.sent.drop (s.host v).sent.length).flatMap (onAllPorts c v))
      { s with host := Function.update s.host v u }

def switchPart (c : Config) (v : ℕ) (s : SimState) : SimState :=
  let r := SwitchNode.executeJob (c.nodePort v).length (s.switch v)
  transmit c v (r.2.map fun out => (out.1, out.2.toPacket))
    { s with switch := Function.update s.switch v r.1 }

def serverPart (c : Config) (v : ℕ) (around : ℤ → YesNo) (blank : Packet) (s : SimState) :
    Option SimState :=
  (DnsServer.execute around blank (s.server v)).map fun u =>
    transmit c v ((u.sent.drop (s.server v).sent.length).flatMap (onAllPorts c v))
      { s with server := Function.update s.server v u }

/-- The process of a server with another id exits at once. -/
def IsServer (c : Config) (v : ℕ) : Prop :=
  c.typeOf v = some .server ∧ c.idOf v = DnsServer.serverId

instance (c : Config) (v : ℕ) : Decidable (IsServer c v) := inferInstanceAs (Decidable (_ ∧ _))

/-- What node v does with the packet that packet_recv returned for port k. -/
def handle (c : Config) (v k : ℕ) (n : ℤ) (p : Packet) (stray : Stray) (s : SimState) :
    Option SimState :=
  match c.typeOf v with
  | none => none
  | some .host =>
    if (s.host v).phase = .scan k then
      (hostStep (s.host v) (.receive n p)).map fun u =>
        { s with host := Function.update s.host v u }
    else none
  | some .switch =>
    if n > 0 then
      some { s with
        switch := Function.update s.switch v
          (SwitchNode.receivePacket k ⟨p, 0⟩ stray (s.switch v)) }
    else some s
  | some .server =>
    if IsServer c v then
      if n > 0 then
        some { s with
          server := Function.update s.server v (DnsServer.receivePackets [p] (s.server v)) }
      else some s
    else none

/-- What packet_recv on end t of a link returns. -/
def received (c : Config) (t : LinkEnd) (peer : List Int8) (stale : ℕ → Int8) (prior : Packet)
    (s : SimState) : ℤ × Packet :=
  match c.linkType t with
  | none => (0, prior)
  | some type =>
    let r := packetRecvOn type (arrived c t peer s) stale prior
    (r.1, r.2.packet)

def simStep (c : Config) (s : SimState) : SimEvent → Option SimState
  | .host v e => if c.typeOf v = some .host ∧ isReceive e = false then hostPart c v e s else none
  | .switchControl v =>
    if c.typeOf v = some .switch then
      some { s with
        switch := Function.update s.switch v
          (SwitchNode.controlTimer (c.idOf v) 0 (s.switch v)) }
    else none
  | .switchExecute v => if c.typeOf v = some .switch then some (switchPart c v s) else none
  | .serverControl v blank =>
    if IsServer c v then
      some { s with
        server := Function.update s.server v (DnsServer.controlTimer blank (s.server v)) }
    else none
  | .serverExecute v around blank =>
    if IsServer c v then serverPart c v around blank s else none
  | .recv v k peer stale prior stray =>
    match (c.nodePort v)[k]? with
    | none => none
    | some t =>
      let r := received c t peer stale prior s
      handle c v k r.1 r.2 stray (takeOff c t s)

def SimStep (c : Config) (s : SimState) (e : SimEvent) (u : SimState) : Prop :=
  simStep c s e = some u

end Simulation
