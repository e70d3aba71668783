import NetSim.PacketCodec
import Mathlib.Data.Prod.Lex
import Mathlib.Logic.Function.Basic

/-! One switch of switch2.c: its state, the handling of a received packet, the control
packet timer and the execution of one job. Job queues are lists, oldest job first. -/
namespace SwitchNode

open PacketCodec

/-- A packet with a ghost `stamp` naming the creation it is a copy of. No branch of the
code reads the stamp. -/
structure Frame extends Packet where
  stamp : ℕ

def Frame.deliver (f : Frame) (prior : Fin payloadMax → Int8) : Frame :=
  { f.toPacket.deliver prior with stamp := f.stamp }

inductive YesNo where
  | yes | no
  deriving DecidableEq, Repr

/-- `other` is any further value an uninitialised `type` field can hold. -/
inductive SwitchJobType where
  | sendPktAllPorts | forwardPacket | other
  deriving DecidableEq, Repr

structure SwitchJob where
  type : SwitchJobType
  packet : Frame
  inPortIndex : ℕ
  outPortIndex : ℕ

structure Table where
  isValid : ℤ → Bool
  portNumber : ℤ → ℕ

structure SwitchState where
  localRootID : ℤ
  localRootDist : ℤ
  localParent : ℤ
  controlCount : ℕ
  localPortTree : ℕ → YesNo
  lookupTable : Table
  jobQ : List SwitchJob

/-- `portNumber` starts uninitialised; no branch reads an entry that is not valid. -/
def switchInit (hostId : ℤ) : SwitchState where
  localRootID := hostId
  localRootDist := 0
  localParent := -1
  controlCount := 0
  localPortTree := fun _ => .no
  lookupTable := ⟨fun _ => false, fun _ => 0⟩
  jobQ := []

def controlCountMax : ℕ := 5

def controlPacket (hostId : ℤ) (sw : SwitchState) : Packet where
  src := Int8.ofInt hostId
  dst := 0
  type := pktControlPacket
  length := 0
  payload := fun _ => 0
  packetRootID := Int8.ofInt sw.localRootID
  packetRootDist := sw.localRootDist
  packetSenderType := charS
  packetSenderChild := 0

def controlTimer (hostId : ℤ) (stamp : ℕ) (sw : SwitchState) : SwitchState :=
  if sw.controlCount + 1 ≥ controlCountMax then
    { sw with
      controlCount := 0
      jobQ := sw.jobQ ++ [⟨.sendPktAllPorts, ⟨controlPacket hostId sw, stamp⟩, 0, 0⟩] }
  else { sw with controlCount := sw.controlCount + 1 }

def electRoot (k : ℕ) (p : Packet) (sw : SwitchState) : SwitchState :=
  if p.packetSenderType = charS then
    if p.packetRootID.toInt < sw.localRootID then
      { sw with
        localRootID := p.packetRootID.toInt
        localParent := k
        localRootDist := p.packetRootDist + 1 }
    else if p.packetRootID.toInt = sw.localRootID then
      if sw.localRootDist > p.packetRootDist + 1 then
        { sw with localParent := k, localRootDist := p.packetRootDist + 1 }
      else sw
    else sw
  else sw

def portFlag (k : ℕ) (p : Packet) (sw : SwitchState) : YesNo :=
  if p.packetSenderType = charH then .yes
  else if p.packetSenderType = charS then
    if sw.localParent = k then .yes
    else if p.packetSenderChild = charY then .yes
    else .no
  else .no

def markPort (k : ℕ) (p : Packet) (sw : SwitchState) : SwitchState :=
  { sw with localPortTree := Function.update sw.localPortTree k (portFlag k p sw) }

def Table.learn (t : Table) (source : ℤ) (k : ℕ) : Table :=
  if t.isValid source = false then
    { isValid := Function.update t.isValid source true
      portNumber := Function.update t.portNumber source k }
  else t

def learnSource (k : ℕ) (p : Packet) (sw : SwitchState) : SwitchState :=
  { sw with lookupTable := sw.lookupTable.learn p.src.toInt k }

def handleControl (k : ℕ) (p : Packet) (sw : SwitchState) : SwitchState :=
  learnSource k p (markPort k p (electRoot k p sw))

/-- `isValid` and `portNumber` have MAX_LOOKUP_TABLE_SIZE + 2 entries. -/
def InTable (i : ℤ) : Prop := 0 ≤ i ∧ i < 102

instance (i : ℤ) : Decidable (InTable i) := inferInstanceAs (Decidable (_ ∧ _))

/-- What memory outside the table, or a job field that is not set, makes of a job. -/
structure Stray where
  type : SwitchJobType
  outPortIndex : ℕ

/-- The lookup is made before the source is learned. -/
def dataJob (k : ℕ) (p : Frame) (stray : Stray) (t : Table) : SwitchJob :=
  if InTable p.dst.toInt then
    if t.isValid p.dst.toInt = true then ⟨.forwardPacket, p, k, t.portNumber p.dst.toInt⟩
    else ⟨.sendPktAllPorts, p, k, stray.outPortIndex⟩
  else ⟨stray.type, p, k, stray.outPortIndex⟩

def handleData (k : ℕ) (p : Frame) (stray : Stray) (sw : SwitchState) : SwitchState :=
  { learnSource k p.toPacket sw with jobQ := sw.jobQ ++ [dataJob k p stray sw.lookupTable] }

def receivePacket (k : ℕ) (p : Frame) (stray : Stray) (sw : SwitchState) : SwitchState :=
  if p.type = pktControlPacket then handleControl k p.toPacket sw
  else handleData k p stray sw

def childMark (sw : SwitchState) (k : ℕ) (f : Frame) : Frame :=
  { f with packetSenderChild := if sw.localParent = k then charY else charN }

/-- The guard of the flooding loop for a packet that is not a control packet. -/
def FloodsOn (sw : SwitchState) (job : SwitchJob) (k : ℕ) : Prop :=
  (sw.localPortTree k = .yes ∨ sw.localParent = -1) ∧ k ≠ job.inPortIndex

instance (sw : SwitchState) (job : SwitchJob) (k : ℕ) : Decidable (FloodsOn sw job k) :=
  inferInstanceAs (Decidable ((_ ∨ _) ∧ _))

def jobSends (nodePortNum : ℕ) (sw : SwitchState) (job : SwitchJob) : List (ℕ × Frame) :=
  match job.type with
  | .sendPktAllPorts =>
    if job.packet.type = pktControlPacket then
      (List.range nodePortNum).map fun k => (k, childMark sw k job.packet)
    else
      ((List.range nodePortNum).filter fun k => FloodsOn sw job k).map fun k => (k, job.packet)
  | .forwardPacket => [(job.outPortIndex, job.packet)]
  | .other => []

def executeJob (nodePortNum : ℕ) (sw : SwitchState) : SwitchState × List (ℕ × Frame) :=
  match sw.jobQ with
  | [] => (sw, [])
  | job :: rest => ({ sw with jobQ := rest }, jobSends nodePortNum sw job)

/-- The pair control packets compete with, ordered first by root, then by distance. -/
def election (sw : SwitchState) : ℤ ×ₗ ℤ := toLex (sw.localRootID, sw.localRootDist)

def offer (p : Packet) : ℤ ×ₗ ℤ := toLex (p.packetRootID.toInt, p.packetRootDist + 1)

theorem lex_lt {a b c d : ℤ} : toLex (a, b) < toLex (c, d) ↔ a < c ∨ a = c ∧ b < d :=
  Prod.Lex.toLex_lt_toLex

theorem lex_le {a b c d : ℤ} : toLex (a, b) ≤ toLex (c, d) ↔ a < c ∨ a = c ∧ b ≤ d :=
  Prod.Lex.toLex_le_toLex

/-- A control packet either changes nothing in the election, or its offer is better and is
taken as it stands. -/
theorem electRoot_cases (k : ℕ) (p : Packet) (sw : SwitchState) :
    (electRoot k p sw = sw ∧ (p.packetSenderType = charS → election sw ≤ offer p)) ∨
    (p.packetSenderType = charS ∧ offer p < election sw ∧
      electRoot k p sw = { sw with
        localRootID := p.packetRootID.toInt
        localParent := k
        localRootDist := p.packetRootDist + 1 }) := by
  simp only [electRoot, election, offer, lex_lt, lex_le]
  by_cases hS : p.packetSenderType = charS
  · rw [if_pos hS]
    split
    · next h => exact Or.inr ⟨hS, Or.inl h, rfl⟩
    split
    · next h =>
      split
      · next hd => exact Or.inr ⟨hS, Or.inr ⟨h, by omega⟩, by rw [h]⟩
      · exact Or.inl ⟨rfl, fun _ => by omega⟩
    · exact Or.inl ⟨rfl, fun _ => by omega⟩
  · exact Or.inl ⟨if_neg hS, fun h => absurd h hS⟩

theorem electRoot_le_offer {k : ℕ} {p : Packet} {sw : SwitchState}
    (hS : p.packetSenderType = charS) : election (electRoot k p sw) ≤ offer p := by
  rcases electRoot_cases k p sw with ⟨he, hle⟩ | ⟨_, _, he⟩
  · rw [he]
    exact hle hS
  · rw [he]
    rfl

@[simp] theorem electRoot_jobQ (k : ℕ) (p : Packet) (sw : SwitchState) :
    (electRoot k p sw).jobQ = sw.jobQ := by
  rcases electRoot_cases k p sw with ⟨he, _⟩ | ⟨_, _, he⟩ <;> rw [he]

@[simp] theorem electRoot_lookupTable (k : ℕ) (p : Packet) (sw : SwitchState) :
    (electRoot k p sw).lookupTable = sw.lookupTable := by
  rcases electRoot_cases k p sw with ⟨he, _⟩ | ⟨_, _, he⟩ <;> rw [he]

@[simp] theorem electRoot_localPortTree (k : ℕ) (p : Packet) (sw : SwitchState) :
    (electRoot k p sw).localPortTree = sw.localPortTree := by
  rcases electRoot_cases k p sw with ⟨he, _⟩ | ⟨_, _, he⟩ <;> rw [he]

theorem portFlag_host {k : ℕ} {p : Packet} (h : p.packetSenderType = charH) (sw : SwitchState) :
    portFlag k p sw = .yes := if_pos h

theorem portFlag_switch {k : ℕ} {p : Packet} (h : p.packetSenderType = charS) (sw : SwitchState) :
    portFlag k p sw = .yes ↔ sw.localParent = k ∨ p.packetSenderChild = charY := by
  have hH : p.packetSenderType ≠ charH := by
    rw [h]
    decide
  rw [portFlag, if_neg hH, if_pos h]
  by_cases hk : sw.localParent = k
  · simp [hk]
  · by_cases hy : p.packetSenderChild = charY <;> simp [hk, hy]

/-- The parent only moves together with the pair. -/
theorem electRoot_parent {k : ℕ} {p : Packet} {sw : SwitchState}
    (h : election (electRoot k p sw) = election sw) : electRoot k p sw = sw := by
  rcases electRoot_cases k p sw with ⟨he, _⟩ | ⟨_, hlt, he⟩
  · exact he
  · rw [he] at h
    exact absurd (show offer p = election sw from h) hlt.ne

theorem learn_isValid (t : Table) (source a : ℤ) (k : ℕ) :
    (t.learn source k).isValid a = true ↔ t.isValid a = true ∨ a = source := by
  unfold Table.learn
  split
  · next h =>
    by_cases ha : a = source
    · simp [ha]
    · simp [ha]
  · next h =>
    constructor
    · exact Or.inl
    · rintro (h' | rfl)
      · exact h'
      · simpa using h

/-- A valid entry is never changed. -/
theorem learn_portNumber {t : Table} {a : ℤ} (h : t.isValid a = true) (source : ℤ) (k : ℕ) :
    (t.learn source k).portNumber a = t.portNumber a := by
  unfold Table.learn
  split
  · next hs =>
    have hne : a ≠ source := by
      rintro rfl
      rw [h] at hs
      cases hs
    exact Function.update_of_ne hne _ _
  · rfl

theorem learn_new {t : Table} {a : ℤ} (h : t.isValid a = false) (k : ℕ) :
    (t.learn a k).portNumber a = k := by
  rw [Table.learn, if_pos h]
  exact Function.update_self _ _ _

theorem receivePacket_lookupTable (k : ℕ) (p : Frame) (stray : Stray) (sw : SwitchState) :
    (receivePacket k p stray sw).lookupTable = sw.lookupTable.learn p.src.toInt k := by
  unfold receivePacket
  split <;> simp [handleControl, handleData, learnSource, markPort]

theorem receivePacket_jobQ (k : ℕ) (p : Frame) (stray : Stray) (sw : SwitchState) :
    (receivePacket k p stray sw).jobQ =
      if p.type = pktControlPacket then sw.jobQ
      else sw.jobQ ++ [dataJob k p stray sw.lookupTable] := by
  unfold receivePacket
  split <;> simp [handleControl, handleData, learnSource, markPort]

theorem receivePacket_election (k : ℕ) (p : Frame) (stray : Stray) (sw : SwitchState) :
    election (receivePacket k p stray sw) =
      if p.type = pktControlPacket then election (electRoot k p.toPacket sw)
      else election sw := by
  unfold receivePacket
  split <;> rfl

theorem receivePacket_localParent (k : ℕ) (p : Frame) (stray : Stray) (sw : SwitchState) :
    (receivePacket k p stray sw).localParent =
      if p.type = pktControlPacket then (electRoot k p.toPacket sw).localParent
      else sw.localParent := by
  unfold receivePacket
  split <;> rfl

theorem receivePacket_localPortTree (k : ℕ) (p : Frame) (stray : Stray) (sw : SwitchState) :
    (receivePacket k p stray sw).localPortTree =
      if p.type = pktControlPacket then
        Function.update sw.localPortTree k (portFlag k p.toPacket (electRoot k p.toPacket sw))
      else sw.localPortTree := by
  unfold receivePacket
  split <;> simp [handleControl, handleData, learnSource, markPort]

theorem electRoot_controlCount (k : ℕ) (p : Packet) (sw : SwitchState) :
    (electRoot k p sw).controlCount = sw.controlCount := by
  rcases electRoot_cases k p sw with ⟨h, _⟩ | ⟨_, _, h⟩ <;> rw [h]

theorem receivePacket_controlCount (k : ℕ) (p : Frame) (stray : Stray) (sw : SwitchState) :
    (receivePacket k p stray sw).controlCount = sw.controlCount := by
  unfold receivePacket
  split
  · exact electRoot_controlCount k p.toPacket sw
  · rfl

@[simp] theorem dataJob_packet (k : ℕ) (p : Frame) (stray : Stray) (t : Table) :
    (dataJob k p stray t).packet = p := by
  unfold dataJob
  split <;> [split; skip] <;> rfl

end SwitchNode
