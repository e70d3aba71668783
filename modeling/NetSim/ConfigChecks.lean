import Mathlib.Data.List.ReduceOption
import NetSim.ConfigRecords

/-! When load_net_data_file accepts complete files only. Its own checks stop some others; every
other file goes through. -/
namespace ConfigChecks

open CStrings FileScan NetConfig ConfigRecords
open NetworkTopology (NetNodeType)

def charRead (values : List Value) : Option Int8 :=
  match values.head? with
  | some (.char c) => some c
  | _ => none

def intRead (values : List Value) : Option ℤ :=
  match values.head? with
  | some (.int z) => some z
  | _ => none

/-- The letter and the id at the places of n nodes, as far as they are there, and the file behind
them. -/
def nodesSeen : ℕ → List Int8 → List (Option Int8 × Option ℤ) × List Int8
  | 0, s => ([], s)
  | n + 1, s =>
    let type := fscanf charFormat s
    let id := fscanf intFormat type.2
    ((nodesSeen n id.2).1.cons (charRead type.1, intRead id.1), (nodesSeen n id.2).2)

def lastOf {α : Type} (old : α) (l : List (Option α)) : α := l.reduceOption.getLastD old

/-- At the place of a node the last letter was a D, and the last id another than 100. -/
def WrongServer (nodeType : Int8) (nodeId : ℤ) (seen : List (Option Int8 × Option ℤ)) : Prop :=
  ∃ i < seen.length, lastOf nodeType ((seen.take (i + 1)).map Prod.fst) = charD ∧
    lastOf nodeId ((seen.take (i + 1)).map Prod.snd) ≠ 100

/-- One of the checks of the function finds fault: no node, a server with another id than 100, or
no link. -/
def Stopped (garbage : Garbage) (file : List Int8) : Prop :=
  let num := fscanf countFormat file
  let nodeNum := intAt num.1 0 garbage.vars.nodeNum
  let seen := nodesSeen nodeNum.toNat num.2
  nodeNum < 1 ∨ WrongServer garbage.vars.nodeType garbage.vars.nodeId seen.1 ∨
    intAt (fscanf intFormat seen.2).1 0 garbage.vars.linkNum < 1

theorem lastOf_cons {α : Type} (old : α) (x : Option α) (l : List (Option α)) :
    lastOf old (x :: l) = lastOf (x.getD old) l := by
  cases x with
  | none => rw [lastOf, List.reduceOption_cons_of_none, Option.getD_none, lastOf]
  | some a =>
    rw [lastOf, List.reduceOption_cons_of_some, List.getLastD_cons, Option.getD_some, lastOf]

theorem charAt_eq (values : List Value) (old : Int8) :
    charAt values 0 old = (charRead values).getD old := by
  cases values with
  | nil => rfl
  | cons v values => cases v <;> rfl

theorem intAt_eq (values : List Value) (old : ℤ) :
    intAt values 0 old = (intRead values).getD old := by
  cases values with
  | nil => rfl
  | cons v values => cases v <;> rfl

theorem wrongServer_cons (nodeType : Int8) (nodeId : ℤ) (x : Option Int8 × Option ℤ)
    (seen : List (Option Int8 × Option ℤ)) :
    WrongServer nodeType nodeId (x :: seen) ↔
      (x.1.getD nodeType = charD ∧ x.2.getD nodeId ≠ 100) ∨
        WrongServer (x.1.getD nodeType) (x.2.getD nodeId) seen := by
  simp only [WrongServer, List.length_cons, Nat.exists_lt_succ_left, List.take_succ_cons,
    List.map_cons, lastOf_cons, List.take_zero, List.map_nil]
  rfl

theorem readNode_cases (old : NetNode) (v : Vars) :
    let type := fscanf charFormat v.file
    let id := fscanf intFormat type.2
    let nodeType := (charRead type.1).getD v.nodeType
    let nodeId := (intRead id.1).getD v.nodeId
    (nodeType = charD ∧ nodeId ≠ 100 ∧ readNode old v = none) ∨
      (¬ (nodeType = charD ∧ nodeId ≠ 100) ∧ ∃ e u, readNode old v = some (e, u) ∧
        u.file = id.2 ∧ u.nodeType = nodeType ∧ u.nodeId = nodeId ∧ u.linkNum = v.linkNum) := by
  have hne : charH ≠ charD ∧ charS ≠ charD := by decide
  simp only [readNode, charAt_eq, intAt_eq]
  generalize (charRead (fscanf charFormat v.file).1).getD v.nodeType = nodeType
  generalize (intRead (fscanf intFormat (fscanf charFormat v.file).2).1).getD v.nodeId = nodeId
  by_cases hhost : nodeType = charH
  · subst hhost
    exact .inr ⟨fun h => hne.1 h.1, _, _, if_pos rfl, rfl, rfl, rfl, rfl⟩
  by_cases hswitch : nodeType = charS
  · subst hswitch
    rw [if_neg hhost]
    exact .inr ⟨fun h => hne.2 h.1, _, _, if_pos rfl, rfl, rfl, rfl, rfl⟩
  by_cases hserver : nodeType = charD
  · subst hserver
    rw [if_neg hhost, if_neg hswitch, if_pos rfl]
    by_cases hid : nodeId ≠ 100
    · exact .inl ⟨rfl, hid, if_pos hid⟩
    · exact .inr ⟨fun h => hid h.2, _, _, if_neg hid, rfl, rfl, rfl, rfl⟩
  · rw [if_neg hhost, if_neg hswitch, if_neg hserver]
    exact .inr ⟨fun h => hserver h.1, _, _, rfl, rfl, rfl, rfl, rfl⟩

theorem readNodes_cases (old : ℕ → NetNode) (n i : ℕ) (v : Vars) :
    let seen := nodesSeen n v.file
    let loop := readEntries fun i => readNode (old i)
    (WrongServer v.nodeType v.nodeId seen.1 ∧ loop n i v = none) ∨
      (¬ WrongServer v.nodeType v.nodeId seen.1 ∧
        ∃ es u, u.file = seen.2 ∧ u.linkNum = v.linkNum ∧ loop n i v = some (es, u)) := by
  induction n generalizing i v with
  | zero =>
    refine .inr ⟨?_, [], v, rfl, rfl, rfl⟩
    rintro ⟨j, hj, -⟩
    exact absurd hj (Nat.not_lt_zero j)
  | succ n ih =>
    simp only [nodesSeen, wrongServer_cons]
    rcases readNode_cases (old i) v with
      ⟨hletter, hid, hnone⟩ | ⟨hgood, e, w, hsome, hfile, hletter, hid, hnum⟩
    · refine .inl ⟨.inl ⟨hletter, hid⟩, ?_⟩
      rw [readEntries, hnone, Option.bind_none]
    · rw [readEntries, hsome, Option.bind_some, ← hfile, ← hletter, ← hid]
      rw [← hletter, ← hid] at hgood
      rcases ih (i + 1) w with ⟨hwrong, hnone⟩ | ⟨hright, es, u, hfile', hnum', hall⟩
      · refine .inl ⟨.inr hwrong, ?_⟩
        rw [hnone, Option.map_none]
      · refine .inr ⟨not_or.mpr ⟨hgood, hright⟩, e :: es, u, hfile', hnum'.trans hnum, ?_⟩
        rw [hall, Option.map_some]

theorem loadLinks_stopped (garbage : Garbage) (counted : Bool) (ns : List (Entry NetNode))
    (v : Vars) :
    loadLinks garbage counted ns v = .rejected ∨ loadLinks garbage counted ns v = .exited ↔
      intAt (fscanf intFormat v.file).1 0 v.linkNum < 1 := by
  simp only [loadLinks]
  by_cases hlinks : intAt (fscanf intFormat v.file).1 0 v.linkNum < 1
  · rw [if_pos hlinks]
    exact iff_of_true (.inl rfl) hlinks
  · rw [if_neg hlinks]
    refine iff_of_false ?_ hlinks
    split <;> simp

/-- The function returns 0 or exits exactly when one of its checks finds fault. -/
theorem stopped_iff (garbage : Garbage) (file : List Int8) :
    loadFile garbage file = .rejected ∨ loadFile garbage file = .exited ↔ Stopped garbage file := by
  simp only [loadFile, Stopped]
  generalize fscanf countFormat file = num
  generalize intAt num.1 0 garbage.vars.nodeNum = nodeNum
  obtain ⟨v, hv, hfile, hletter, hid, hnum⟩ : ∃ v : Vars,
      v = { garbage.vars with file := num.2, nodeNum := nodeNum } ∧ v.file = num.2 ∧
        v.nodeType = garbage.vars.nodeType ∧ v.nodeId = garbage.vars.nodeId ∧
        v.linkNum = garbage.vars.linkNum := ⟨_, rfl, rfl, rfl, rfl, rfl⟩
  rw [← hv, ← hfile, ← hletter, ← hid, ← hnum]
  by_cases hmany : nodeNum < 1
  · rw [if_pos hmany]
    exact iff_of_true (.inl rfl) (.inl hmany)
  · rw [if_neg hmany, or_iff_right hmany, readNodes]
    rcases readNodes_cases garbage.gNetNode nodeNum.toNat 0 v with
      ⟨hwrong, hnone⟩ | ⟨hright, ns, u, hrest, hlinkNum, hall⟩
    · rw [hnone]
      exact iff_of_true (.inr rfl) (.inl hwrong)
    · rw [hall, or_iff_right hright, ← hrest, ← hlinkNum]
      exact loadLinks_stopped garbage _ ns u

def OnlyComplete : Load → Prop
  | .rejected | .exited => True
  | .overrun => False
  | .accepted counted nodes links =>
    counted = true ∧ (∀ e ∈ nodes, e.read = true) ∧ (∀ e ∈ links, e.read = true) ∧
      (nodes.countP fun e => e.value.type = some .server) ≤ 1 ∧
      (nodes.map fun e => e.value.id).Nodup

def Sound (nodes : List NodeSpec) : Prop :=
  (nodes.countP fun d => d.type = .server) ≤ 1 ∧ (nodes.map NodeSpec.id).Nodup

theorem sound_iff {ns : List (Entry NetNode)} {nodes : List NodeSpec}
    (h : List.Forall₂ (fun e d => NodeHolds e.value d) ns nodes) :
    (ns.countP fun e => e.value.type = some .server) ≤ 1 ∧ (ns.map fun e => e.value.id).Nodup ↔
      Sound nodes := by
  have hsame : (ns.countP fun e => e.value.type = some .server) =
      (nodes.countP fun d => d.type = .server) ∧
      (ns.map fun e => e.value.id) = nodes.map NodeSpec.id := by
    induction h with
    | nil => exact ⟨rfl, rfl⟩
    | cons hd _ ih =>
      simp only [List.countP_cons, List.map_cons, ih.1, ih.2, hd.1, hd.2, Option.some.injEq,
        and_self]
  rw [hsame.1, hsame.2, Sound]

/-- The function accepts complete configurations only exactly when one of its checks stops it, or
the file is complete, with at most one server and no id twice. -/
theorem onlyComplete_iff {fopen : List Int8 → Option (List Int8)} {stdin : List Int8}
    {garbage : Garbage} {file : List Int8} (h : openFile fopen stdin garbage = some (some file)) :
    OnlyComplete (loadNetDataFile fopen stdin garbage) ↔
      Stopped garbage file ∨ ∃ nodes links, Complete nodes links file ∧ Sound nodes := by
  rw [loadNetDataFile_opened h, ← stopped_iff]
  constructor
  · intro honly
    cases hload : loadFile garbage file with
    | rejected => exact .inl (.inl rfl)
    | exited => exact .inl (.inr rfl)
    | overrun =>
      rw [hload] at honly
      exact absurd honly id
    | accepted counted ns ls =>
      rw [hload] at honly
      obtain ⟨rfl, hns, hls, hsound⟩ := honly
      obtain ⟨nodes, links, hcomplete, hall⟩ := complete_of_loadFile hload hns hls
      exact .inr ⟨nodes, links, hcomplete, (sound_iff hall).mp hsound⟩
  · rintro (hstopped | ⟨nodes, links, hcomplete, hsound⟩)
    · rcases hstopped with hload | hload
      · rw [hload]
        exact trivial
      · rw [hload]
        exact trivial
    · obtain ⟨ns, ls, hload, hns, hls, hall, -⟩ := loadFile_complete hcomplete garbage
      rw [hload]
      exact ⟨rfl, hns, hls, (sound_iff hall).mpr hsound⟩

def hostAndServer : List Int8 := HostNode.toBytes "2\nH 0\nD 100\n1\nP 0 100\n"

theorem onlyComplete_hostAndServer :
    loadNetDataFile (diskWith hostAndServer) [97] zeros =
        .accepted true [⟨⟨some .host, 0⟩, true⟩, ⟨⟨some .server, 100⟩, true⟩]
          [⟨⟨some .pipe, 0, 100, [], [], []⟩, true⟩] ∧
      OnlyComplete (loadNetDataFile (diskWith hostAndServer) [97] zeros) := by
  have hopen : openFile (diskWith hostAndServer) [97] zeros = some (some hostAndServer) := by
    decide +kernel
  have hload : loadNetDataFile (diskWith hostAndServer) [97] zeros =
      .accepted true [⟨⟨some .host, 0⟩, true⟩, ⟨⟨some .server, 100⟩, true⟩]
        [⟨⟨some .pipe, 0, 100, [], [], []⟩, true⟩] := by
    decide +kernel
  refine ⟨hload, (onlyComplete_iff hopen).mpr (.inr ?_)⟩
  rw [loadNetDataFile_opened hopen] at hload
  obtain ⟨nodes, links, hcomplete, hall⟩ := complete_of_loadFile hload (by decide) (by decide)
  exact ⟨nodes, links, hcomplete, (sound_iff hall).mp (by decide)⟩

theorem two_servers_accepted :
    loadNetDataFile (diskWith (HostNode.toBytes "2\nD 100\nD 100\n1\nP 100 100\n")) [97] zeros =
        .accepted true [⟨⟨some .server, 100⟩, true⟩, ⟨⟨some .server, 100⟩, true⟩]
          [⟨⟨some .pipe, 100, 100, [], [], []⟩, true⟩] ∧
      ¬ OnlyComplete (loadNetDataFile
        (diskWith (HostNode.toBytes "2\nD 100\nD 100\n1\nP 100 100\n")) [97] zeros) := by
  have hload : loadNetDataFile
      (diskWith (HostNode.toBytes "2\nD 100\nD 100\n1\nP 100 100\n")) [97] zeros =
        .accepted true [⟨⟨some .server, 100⟩, true⟩, ⟨⟨some .server, 100⟩, true⟩]
          [⟨⟨some .pipe, 100, 100, [], [], []⟩, true⟩] := by
    decide +kernel
  refine ⟨hload, ?_⟩
  rw [hload]
  rintro ⟨-, -, -, hservers, -⟩
  exact absurd hservers (by decide)

end ConfigChecks
