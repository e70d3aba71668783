import NetSim.FileScan
import NetSim.ManagerReplies
import NetSim.PortLists
import NetSim.NetworkTopology

/-! load_net_data_file of net.c. What a variable or an entry holds before the function writes it
is any value. -/
namespace NetConfig

open CStrings FileScan
open FileBuffer (maxFileName)
open HostNode (scanName)
open ManagerReplies (nameLength)
open NetworkTopology (NetNodeType)
open PacketCodec (NetLinkType)

/-- An entry of `g_net_node`; the type is none when it is no enumerator. -/
structure NetNode where
  type : Option NetNodeType
  id : ℤ
  deriving DecidableEq

structure NetLink where
  type : Option NetLinkType
  pipeNode0 : ℤ
  pipeNode1 : ℤ
  portSend : List Int8
  portRecv : List Int8
  sendingDomain : List Int8
  deriving DecidableEq

/-- `read` only records that the letter of the record is known and that every conversion for it
found its field. -/
structure Entry (α : Type) where
  value : α
  read : Bool
  deriving DecidableEq

/-- The variables of the function, and what is left of the file. -/
structure Vars where
  file : List Int8
  nodeNum : ℤ
  nodeType : Int8
  nodeId : ℤ
  linkNum : ℤ
  linkType : Int8
  node0 : ℤ
  node1 : ℤ
  port0 : List Int8
  port1 : List Int8
  domain0 : List Int8
  domain1 : List Int8

/-- What is in memory before the function writes to it. -/
structure Garbage where
  fname : List Int8
  vars : Vars
  gNetNode : ℕ → NetNode
  gNetLink : ℕ → NetLink

/-- `return (0)`, `exit(1)`, a write behind an array, or `return (1)`; `counted` only records that
both counts were read. -/
inductive Load where
  | rejected
  | exited
  | overrun
  | accepted (counted : Bool) (nodes : List (Entry NetNode)) (links : List (Entry NetLink))
  deriving DecidableEq

def countFormat : List Directive := [.int]

def charFormat : List Directive := [.blank, .char, .blank]

def intFormat : List Directive := [.blank, .int, .blank]

def pipeFormat : List Directive := [.blank, .int, .blank, .int, .blank]

def socketFormat : List Directive :=
  [.blank, .int, .blank, .string, .blank, .string, .blank, .string, .blank, .string]

def allRead (format : List Directive) (values : List Value) : Bool :=
  values.length = conversions format

def charH : Int8 := 72
def charS : Int8 := 83
def charD : Int8 := 68
def charP : Int8 := 80

/-- The body of the loop over the nodes, for an entry that holds `old`. The program may exit. -/
def readNode (old : NetNode) (v : Vars) : Option (Entry NetNode × Vars) :=
  let type := fscanf charFormat v.file
  let id := fscanf intFormat type.2
  let v := { v with
    file := id.2
    nodeType := charAt type.1 0 v.nodeType
    nodeId := intAt id.1 0 v.nodeId }
  let read := allRead charFormat type.1 && allRead intFormat id.1
  if v.nodeType = charH then some (⟨⟨some .host, v.nodeId⟩, read⟩, v)
  else if v.nodeType = charS then some (⟨⟨some .switch, v.nodeId⟩, read⟩, v)
  else if v.nodeType = charD then
    if v.nodeId ≠ 100 then none else some (⟨⟨some .server, v.nodeId⟩, read⟩, v)
  else some (⟨old, false⟩, v)

/-- The `strcpy` calls of a socket link, whose arrays are all of one size. -/
def copyStrings (v : Vars) (link : NetLink) : Option NetLink :=
  if v.port0.length < nameLength ∧ v.domain1.length < nameLength ∧ v.port1.length < nameLength then
    some { link with portRecv := v.port0, sendingDomain := v.domain1, portSend := v.port1 }
  else none

def readLink (old : NetLink) (v : Vars) : Option (Entry NetLink × Vars) :=
  let type := fscanf charFormat v.file
  let v := { v with file := type.2, linkType := charAt type.1 0 v.linkType }
  if v.linkType = charP then
    let r := fscanf pipeFormat v.file
    let v := { v with file := r.2, node0 := intAt r.1 0 v.node0, node1 := intAt r.1 1 v.node1 }
    some (⟨{ old with type := some .pipe, pipeNode0 := v.node0, pipeNode1 := v.node1 },
      allRead charFormat type.1 && allRead pipeFormat r.1⟩, v)
  else if v.linkType = charS then
    let r := fscanf socketFormat v.file
    if StringsFit maxFileName r.1 then
      let v := { v with
        file := r.2
        node0 := intAt r.1 0 v.node0
        domain0 := stringAt r.1 1 v.domain0
        port0 := stringAt r.1 2 v.port0
        domain1 := stringAt r.1 3 v.domain1
        port1 := stringAt r.1 4 v.port1 }
      (copyStrings v { old with type := some .socket, pipeNode0 := v.node0 }).map fun link =>
        (⟨link, allRead charFormat type.1 && allRead socketFormat r.1⟩, v)
    else none
  else some (⟨old, false⟩, v)

def readEntries {α : Type} (body : ℕ → Vars → Option (Entry α × Vars)) :
    ℕ → ℕ → Vars → Option (List (Entry α) × Vars)
  | 0, _, v => some ([], v)
  | fuel + 1, i, v =>
    (body i v).bind fun r =>
      (readEntries body fuel (i + 1) r.2).map fun rs => (r.1 :: rs.1, rs.2)

def readNodes (old : ℕ → NetNode) : ℕ → ℕ → Vars → Option (List (Entry NetNode) × Vars) :=
  readEntries fun i => readNode (old i)

def readLinks (old : ℕ → NetLink) : ℕ → ℕ → Vars → Option (List (Entry NetLink) × Vars) :=
  readEntries fun i => readLink (old i)

def loadLinks (garbage : Garbage) (counted : Bool) (nodes : List (Entry NetNode)) (v : Vars) :
    Load :=
  let num := fscanf intFormat v.file
  let linkNum := intAt num.1 0 v.linkNum
  if linkNum < 1 then .rejected
  else
    match readLinks garbage.gNetLink linkNum.toNat 0
      { v with file := num.2, linkNum := linkNum } with
    | none => .overrun
    | some (links, _) => .accepted (counted && allRead intFormat num.1) nodes links

def loadFile (garbage : Garbage) (file : List Int8) : Load :=
  let num := fscanf countFormat file
  let nodeNum := intAt num.1 0 garbage.vars.nodeNum
  if nodeNum < 1 then .rejected
  else
    match readNodes garbage.gNetNode nodeNum.toNat 0
      { garbage.vars with file := num.2, nodeNum := nodeNum } with
    | none => .exited
    | some (nodes, v) => loadLinks garbage (allRead countFormat num.1) nodes v

/-- `scanf("%s", fname)` and `fopen`: the outer none is an overrun of `fname`, the inner one a
file that does not open. -/
def openFile (fopen : List Int8 → Option (List Int8)) (stdin : List Int8) (garbage : Garbage) :
    Option (Option (List Int8)) :=
  (scanName maxFileName stdin garbage.fname).map fun r => fopen (text r.1)

def loadNetDataFile (fopen : List Int8 → Option (List Int8)) (stdin : List Int8)
    (garbage : Garbage) : Load :=
  match openFile fopen stdin garbage with
  | none => .overrun
  | some none => .rejected
  | some (some file) => loadFile garbage file

theorem loadNetDataFile_opened {fopen : List Int8 → Option (List Int8)} {stdin file : List Int8}
    {garbage : Garbage} (h : openFile fopen stdin garbage = some (some file)) :
    loadNetDataFile fopen stdin garbage = loadFile garbage file := by
  rw [loadNetDataFile, h]

def zeros : Garbage where
  fname := []
  vars := ⟨[], 0, 0, 0, 0, 0, 0, 0, [], [], [], []⟩
  gNetNode := fun _ => ⟨some .host, 0⟩
  gNetLink := fun _ => ⟨some .pipe, 0, 0, [], [], []⟩

/-- A disk with one file, of the name "a". -/
def diskWith (file path : List Int8) : Option (List Int8) :=
  if path = [97] then some file else none

end NetConfig
