import NetSim.NetConfig

/-! The records of a complete configuration file, and when load_net_data_file accepts nothing
else. -/
namespace ConfigRecords

open CStrings FileScan NetConfig
open FileBuffer (maxFileName)
open ManagerReplies (nameLength)
open NetworkTopology (NetNodeType)

structure NodeSpec where
  type : NetNodeType
  id : ℤ
  deriving DecidableEq

/-- The fields of a link, in the order of the file. -/
inductive LinkSpec where
  | pipe (node0 node1 : ℤ)
  | socket (node0 : ℤ) (domain0 port0 domain1 port1 : List Int8)

def letterOf : NetNodeType → Int8
  | .host => charH
  | .switch => charS
  | .server => charD

/-- The server has id 100. -/
def Permitted (d : NodeSpec) : Prop := d.type = .server → d.id = 100

instance (d : NodeSpec) : Decidable (Permitted d) := inferInstanceAs (Decidable (_ → _))

def NodeHolds (n : NetNode) (d : NodeSpec) : Prop := n.type = some d.type ∧ n.id = d.id

/-- The second string is the port to listen on, and the last two are where to send. -/
def LinkHolds (l : NetLink) : LinkSpec → Prop
  | .pipe node0 node1 => l.type = some .pipe ∧ l.pipeNode0 = node0 ∧ l.pipeNode1 = node1
  | .socket node0 _ port0 domain1 port1 =>
    l.type = some .socket ∧ l.pipeNode0 = node0 ∧ l.portRecv = text port0 ∧
      l.sendingDomain = text domain1 ∧ l.portSend = text port1

def NodeRecord (d : NodeSpec) (s rest : List Int8) : Prop :=
  Permitted d ∧ ∃ middle, Reads charFormat [.char (letterOf d.type)] s middle ∧
    Reads intFormat [.int d.id] middle rest

def linkLetter : LinkSpec → Int8
  | .pipe _ _ => charP
  | .socket _ _ _ _ _ => charS

def linkFormat : LinkSpec → List Directive
  | .pipe _ _ => pipeFormat
  | .socket _ _ _ _ _ => socketFormat

def linkValues : LinkSpec → List Value
  | .pipe node0 node1 => [.int node0, .int node1]
  | .socket node0 domain0 port0 domain1 port1 =>
    [.int node0, .string domain0, .string port0, .string domain1, .string port1]

def LinkRecord (d : LinkSpec) (s rest : List Int8) : Prop :=
  StringsFit maxFileName (linkValues d) ∧
    ∃ middle, Reads charFormat [.char (linkLetter d)] s middle ∧
      Reads (linkFormat d) (linkValues d) middle rest

inductive Records {δ : Type} (R : δ → List Int8 → List Int8 → Prop) :
    List δ → List Int8 → List Int8 → Prop where
  | nil {s} : Records R [] s s
  | cons {d ds s middle rest} : R d s middle → Records R ds middle rest →
      Records R (d :: ds) s rest

/-- The file has a count and that many nodes, then a count and that many links. -/
def Complete (nodes : List NodeSpec) (links : List LinkSpec) (file : List Int8) : Prop :=
  nodes ≠ [] ∧ links ≠ [] ∧ ∃ s₁ s₂ s₃ rest,
    Reads countFormat [.int nodes.length] file s₁ ∧ Records NodeRecord nodes s₁ s₂ ∧
      Reads intFormat [.int links.length] s₂ s₃ ∧ Records LinkRecord links s₃ rest

theorem allRead_of_reads {format : List Directive} {values : List Value} {s rest : List Int8}
    (h : Reads format values s rest) : allRead format values = true := by
  have hlen := congrArg List.length h.kinds
  rw [List.length_map, ← List.countP_eq_length_filter] at hlen
  exact decide_eq_true hlen

theorem reads_of_allRead {format : List Directive} {s : List Int8}
    (h : allRead format (fscanf format s).1 = true) :
    Reads format (fscanf format s).1 s (fscanf format s).2 :=
  reads_fscanf format s (of_decide_eq_true h)

theorem reads_char {values : List Value} {s rest : List Int8} (h : Reads charFormat values s rest) :
    ∃ c, values = [.char c] := by
  obtain ⟨v, rfl, hv⟩ := List.map_eq_singleton_iff.mp h.kinds
  obtain ⟨c, rfl⟩ := kind_char hv
  exact ⟨c, rfl⟩

theorem reads_int {values : List Value} {s rest : List Int8} (h : Reads intFormat values s rest) :
    ∃ z, values = [.int z] := by
  obtain ⟨v, rfl, hv⟩ := List.map_eq_singleton_iff.mp h.kinds
  obtain ⟨z, rfl⟩ := kind_int hv
  exact ⟨z, rfl⟩

theorem reads_pipe {values : List Value} {s rest : List Int8} (h : Reads pipeFormat values s rest) :
    ∃ a b, values = linkValues (.pipe a b) := by
  obtain ⟨v, l, rfl, hv, hl⟩ := List.map_eq_cons_iff.mp h.kinds
  obtain ⟨w, rfl, hw⟩ := List.map_eq_singleton_iff.mp hl
  obtain ⟨a, rfl⟩ := kind_int hv
  obtain ⟨b, rfl⟩ := kind_int hw
  exact ⟨a, b, rfl⟩

theorem reads_socket {values : List Value} {s rest : List Int8}
    (h : Reads socketFormat values s rest) :
    ∃ a domain0 port0 domain1 port1,
      values = linkValues (.socket a domain0 port0 domain1 port1) := by
  obtain ⟨v, l, rfl, hv, hl⟩ := List.map_eq_cons_iff.mp h.kinds
  obtain ⟨w₀, l, rfl, hw₀, hl⟩ := List.map_eq_cons_iff.mp hl
  obtain ⟨w₁, l, rfl, hw₁, hl⟩ := List.map_eq_cons_iff.mp hl
  obtain ⟨w₂, l, rfl, hw₂, hl⟩ := List.map_eq_cons_iff.mp hl
  obtain ⟨w₃, rfl, hw₃⟩ := List.map_eq_singleton_iff.mp hl
  obtain ⟨a, rfl⟩ := kind_int hv
  obtain ⟨domain0, rfl⟩ := kind_string hw₀
  obtain ⟨port0, rfl⟩ := kind_string hw₁
  obtain ⟨domain1, rfl⟩ := kind_string hw₂
  obtain ⟨port1, rfl⟩ := kind_string hw₃
  exact ⟨a, domain0, port0, domain1, port1, rfl⟩

theorem readNode_record {d : NodeSpec} {v : Vars} {rest : List Int8}
    (h : NodeRecord d v.file rest) (old : NetNode) :
    ∃ u, readNode old v = some (⟨⟨some d.type, d.id⟩, true⟩, u) ∧ u.file = rest := by
  obtain ⟨hpermitted, middle, hchar, hint⟩ := h
  have hread := allRead_of_reads hchar
  have hread' := allRead_of_reads hint
  have hswitch : charS ≠ charH := by decide
  have hserver : charD ≠ charH ∧ charD ≠ charS := by decide
  rw [readNode]
  simp only [fscanf_of_reads hchar, fscanf_of_reads hint, hread, hread', Bool.and_true, charAt,
    intAt, List.getElem?_cons_zero]
  obtain ⟨type, id⟩ := d
  cases type with
  | host => exact ⟨_, if_pos rfl, rfl⟩
  | switch => exact ⟨_, (if_neg hswitch).trans (if_pos rfl), rfl⟩
  | server =>
    have hid : ¬ id ≠ 100 := not_not.mpr (hpermitted rfl)
    simp only [letterOf, if_neg hserver.1, if_neg hserver.2, if_neg hid, if_true]
    exact ⟨_, rfl, rfl⟩

theorem fields_of_allRead {v : Vars} {type id : List Value × List Int8}
    (htype : type = fscanf charFormat v.file) (hid : id = fscanf intFormat type.2)
    (h : (allRead charFormat type.1 && allRead intFormat id.1) = true) :
    Reads charFormat [.char (charAt type.1 0 v.nodeType)] v.file type.2 ∧
      Reads intFormat [.int (intAt id.1 0 v.nodeId)] type.2 id.2 := by
  subst htype hid
  obtain ⟨hchar, hint⟩ := Bool.and_eq_true_iff.mp h
  have hchar := reads_of_allRead hchar
  have hint := reads_of_allRead hint
  obtain ⟨c, hc⟩ := reads_char hchar
  obtain ⟨z, hz⟩ := reads_int hint
  rw [hc] at hchar ⊢
  rw [hz] at hint ⊢
  exact ⟨hchar, hint⟩

theorem record_of_readNode {old : NetNode} {v u : Vars} {e : Entry NetNode}
    (h : readNode old v = some (e, u)) (hread : e.read = true) :
    ∃ d, NodeRecord d v.file u.file ∧ NodeHolds e.value d := by
  simp only [readNode] at h
  generalize htype : fscanf charFormat v.file = type at h
  generalize hid : fscanf intFormat type.2 = id at h
  have hfields := fields_of_allRead htype.symm hid.symm
  split at h
  case isTrue hletter =>
    cases h
    obtain ⟨hchar, hint⟩ := hfields hread
    rw [hletter] at hchar
    exact ⟨⟨.host, _⟩, ⟨nofun, _, hchar, hint⟩, rfl, rfl⟩
  split at h
  case isTrue hletter =>
    cases h
    obtain ⟨hchar, hint⟩ := hfields hread
    rw [hletter] at hchar
    exact ⟨⟨.switch, _⟩, ⟨nofun, _, hchar, hint⟩, rfl, rfl⟩
  split at h
  case isTrue hletter =>
    obtain ⟨hserver, h⟩ := Option.ite_none_left_eq_some.mp h
    cases h
    obtain ⟨hchar, hint⟩ := hfields hread
    rw [hletter] at hchar
    exact ⟨⟨.server, _⟩, ⟨fun _ => not_not.mp hserver, _, hchar, hint⟩, rfl, rfl⟩
  case isFalse =>
    cases h
    cases hread

theorem text_length_lt {word : List Int8} {size : ℕ} (h : word.length < size) :
    (text word).length < size :=
  (text_initial word).length_le.trans_lt h

theorem readLink_record {d : LinkSpec} {v : Vars} {rest : List Int8}
    (h : LinkRecord d v.file rest) (old : NetLink) :
    ∃ link u, readLink old v = some (⟨link, true⟩, u) ∧ LinkHolds link d ∧ u.file = rest := by
  obtain ⟨hfit, middle, hchar, hfields⟩ := h
  have hread := allRead_of_reads hchar
  have hread' := allRead_of_reads hfields
  have hletter : charS ≠ charP := by decide
  rw [readLink]
  simp only [fscanf_of_reads hchar, hread, charAt, List.getElem?_cons_zero]
  cases d with
  | pipe node0 node1 =>
    simp only [linkLetter, linkFormat, if_true] at hfields hread' ⊢
    simp only [fscanf_of_reads hfields, hread']
    exact ⟨_, _, rfl, ⟨rfl, rfl, rfl⟩, rfl⟩
  | socket node0 domain0 port0 domain1 port1 =>
    simp only [linkLetter, linkFormat, if_neg hletter, if_true] at hfields hread' ⊢
    simp only [fscanf_of_reads hfields, hread', if_pos hfit]
    have hstring : ∀ word, .string word ∈ linkValues (.socket node0 domain0 port0 domain1 port1) →
        (text word).length < nameLength :=
      fun word hword => text_length_lt (hfit _ hword)
    have hport0 := hstring port0 (by simp [linkValues])
    have hdomain1 := hstring domain1 (by simp [linkValues])
    have hport1 := hstring port1 (by simp [linkValues])
    rw [copyStrings, if_pos ⟨hport0, hdomain1, hport1⟩]
    exact ⟨_, _, rfl, ⟨rfl, rfl, rfl, rfl, rfl⟩, rfl⟩

theorem record_of_readLink {old : NetLink} {v u : Vars} {e : Entry NetLink}
    (h : readLink old v = some (e, u)) (hread : e.read = true) :
    ∃ d, LinkRecord d v.file u.file ∧ LinkHolds e.value d := by
  have hletter : ∀ {letter}, allRead charFormat (fscanf charFormat v.file).1 = true →
      charAt (fscanf charFormat v.file).1 0 v.linkType = letter →
      Reads charFormat [.char letter] v.file (fscanf charFormat v.file).2 := by
    rintro letter hall rfl
    have hchar := reads_of_allRead hall
    obtain ⟨c, hc⟩ := reads_char hchar
    rw [hc] at hchar ⊢
    exact hchar
  simp only [readLink] at h
  split at h
  case isTrue hpipe =>
    cases h
    obtain ⟨hchar, hfields⟩ := Bool.and_eq_true_iff.mp hread
    have hfields := reads_of_allRead hfields
    obtain ⟨a, b, hvalues⟩ := reads_pipe hfields
    rw [hvalues] at hfields ⊢
    have hfit : StringsFit maxFileName (linkValues (.pipe a b)) := by
      simp [StringsFit, linkValues, width, maxFileName]
    exact ⟨.pipe a b, ⟨hfit, _, hletter hchar hpipe, hfields⟩, rfl, rfl, rfl⟩
  split at h
  case isTrue hsocket =>
    obtain ⟨hfit, h⟩ := Option.ite_none_right_eq_some.mp h
    obtain ⟨link, hlink, h⟩ := Option.map_eq_some_iff.mp h
    obtain ⟨hlengths, hlink⟩ := Option.ite_none_right_eq_some.mp hlink
    cases hlink
    cases h
    obtain ⟨hchar, hfields⟩ := Bool.and_eq_true_iff.mp hread
    have hfields := reads_of_allRead hfields
    obtain ⟨a, domain0, port0, domain1, port1, hvalues⟩ := reads_socket hfields
    rw [hvalues] at hfields hfit ⊢
    exact ⟨.socket a domain0 port0 domain1 port1,
      ⟨hfit, _, hletter hchar hsocket, hfields⟩, rfl, rfl, rfl, rfl, rfl⟩
  case isFalse =>
    cases h
    cases hread

section
variable {α δ : Type} {body : ℕ → Vars → Option (Entry α × Vars)}
  {R : δ → List Int8 → List Int8 → Prop} {Holds : α → δ → Prop}

theorem readEntries_records
    (hbody : ∀ i v d rest, R d v.file rest →
      ∃ value u, body i v = some (⟨value, true⟩, u) ∧ Holds value d ∧ u.file = rest)
    {ds : List δ} {s rest : List Int8} (h : Records R ds s rest) (i : ℕ) (v : Vars)
    (hv : v.file = s) :
    ∃ es u, readEntries body ds.length i v = some (es, u) ∧ (∀ e ∈ es, e.read = true) ∧
      List.Forall₂ (fun e d => Holds e.value d) es ds ∧ u.file = rest := by
  induction h generalizing i v with
  | nil => exact ⟨[], v, rfl, List.forall_mem_nil _, .nil, hv⟩
  | cons hrecord _ ih =>
    subst hv
    obtain ⟨value, w, hw, hholds, hfile⟩ := hbody i v _ _ hrecord
    obtain ⟨es, u, hu, hread, hall, hrest⟩ := ih (i + 1) w hfile
    refine ⟨⟨value, true⟩ :: es, u, ?_, ?_, .cons hholds hall, hrest⟩
    · rw [List.length_cons, readEntries, hw, Option.bind_some, hu]
      rfl
    · exact List.forall_mem_cons.mpr ⟨rfl, hread⟩

theorem records_of_readEntries
    (hbody : ∀ i v e u, body i v = some (e, u) → e.read = true →
      ∃ d, R d v.file u.file ∧ Holds e.value d)
    (n i : ℕ) (v u : Vars) {es : List (Entry α)} (h : readEntries body n i v = some (es, u))
    (hread : ∀ e ∈ es, e.read = true) :
    ∃ ds, ds.length = n ∧ Records R ds v.file u.file ∧
      List.Forall₂ (fun e d => Holds e.value d) es ds := by
  induction n generalizing i v es with
  | zero =>
    cases h
    exact ⟨[], rfl, .nil, .nil⟩
  | succ n ih =>
    obtain ⟨⟨e, w⟩, hw, h⟩ := Option.bind_eq_some_iff.mp h
    obtain ⟨⟨es', u'⟩, hes, h⟩ := Option.map_eq_some_iff.mp h
    cases h
    obtain ⟨he, hes'⟩ := List.forall_mem_cons.mp hread
    obtain ⟨d, hrecord, hholds⟩ := hbody i v e w hw he
    obtain ⟨ds, hlen, hrecords, hall⟩ := ih (i + 1) w hes hes'
    exact ⟨d :: ds, congrArg Nat.succ hlen, .cons hrecord hrecords, .cons hholds hall⟩

end

theorem readNodes_records {ds : List NodeSpec} {v : Vars} {rest : List Int8}
    (h : Records NodeRecord ds v.file rest) (old : ℕ → NetNode) :
    ∃ es u, readNodes old ds.length 0 v = some (es, u) ∧ (∀ e ∈ es, e.read = true) ∧
      List.Forall₂ (fun e d => NodeHolds e.value d) es ds ∧ u.file = rest := by
  refine readEntries_records ?_ h 0 v rfl
  intro i v d rest hrecord
  obtain ⟨u, hu, hfile⟩ := readNode_record hrecord (old i)
  exact ⟨_, u, hu, ⟨rfl, rfl⟩, hfile⟩

theorem readLinks_records {ds : List LinkSpec} {v : Vars} {rest : List Int8}
    (h : Records LinkRecord ds v.file rest) (old : ℕ → NetLink) :
    ∃ es u, readLinks old ds.length 0 v = some (es, u) ∧ (∀ e ∈ es, e.read = true) ∧
      List.Forall₂ (fun e d => LinkHolds e.value d) es ds ∧ u.file = rest := by
  refine readEntries_records ?_ h 0 v rfl
  intro i v d rest hrecord
  exact readLink_record hrecord (old i)

theorem reads_count {values : List Value} {s rest : List Int8}
    (h : Reads countFormat values s rest) : ∃ z, values = [.int z] := by
  obtain ⟨v, rfl, hv⟩ := List.map_eq_singleton_iff.mp h.kinds
  obtain ⟨z, rfl⟩ := kind_int hv
  exact ⟨z, rfl⟩

theorem loadFile_complete {nodes : List NodeSpec} {links : List LinkSpec} {file : List Int8}
    (h : Complete nodes links file) (garbage : Garbage) :
    ∃ ns ls, loadFile garbage file = .accepted true ns ls ∧
      (∀ e ∈ ns, e.read = true) ∧ (∀ e ∈ ls, e.read = true) ∧
      List.Forall₂ (fun e d => NodeHolds e.value d) ns nodes ∧
      List.Forall₂ (fun e d => LinkHolds e.value d) ls links := by
  obtain ⟨hnodes, hlinks, s₁, s₂, s₃, rest, hcount, hns, hcount', hls⟩ := h
  have hmany : ¬ ((nodes.length : ℤ) < 1) := by
    have := List.length_pos_iff.mpr hnodes
    omega
  have hmany' : ¬ ((links.length : ℤ) < 1) := by
    have := List.length_pos_iff.mpr hlinks
    omega
  obtain ⟨ns, u, hu, hread, hall, hfile⟩ := readNodes_records
    (v := { garbage.vars with file := s₁, nodeNum := nodes.length }) hns garbage.gNetNode
  subst hfile
  obtain ⟨ls, w, hw, hread', hall', -⟩ := readLinks_records
    (v := { u with file := s₃, linkNum := links.length }) hls garbage.gNetLink
  refine ⟨ns, ls, ?_, hread, hread', hall, hall'⟩
  have hload : loadLinks garbage true ns u = .accepted true ns ls := by
    simp only [loadLinks, fscanf_of_reads hcount', allRead_of_reads hcount', intAt,
      List.getElem?_cons_zero, if_neg hmany', Int.toNat_natCast, hw, Bool.and_true]
  simp only [loadFile, fscanf_of_reads hcount, allRead_of_reads hcount, intAt,
    List.getElem?_cons_zero, if_neg hmany, Int.toNat_natCast, hu, hload]

theorem loadLinks_accepted {garbage : Garbage} {counted c : Bool} {v : Vars}
    {ns ns' : List (Entry NetNode)} {ls : List (Entry NetLink)}
    (h : loadLinks garbage counted ns v = .accepted c ns' ls) :
    ∃ num, num = fscanf intFormat v.file ∧ ns' = ns ∧ c = (counted && allRead intFormat num.1) ∧
      1 ≤ intAt num.1 0 v.linkNum ∧ ∃ w u : Vars, w.file = num.2 ∧
        readLinks garbage.gNetLink (intAt num.1 0 v.linkNum).toNat 0 w = some (ls, u) := by
  refine ⟨_, rfl, ?_⟩
  simp only [loadLinks] at h
  split at h
  case isTrue => cases h
  case isFalse hmany =>
    split at h
    case h_1 => cases h
    case h_2 es u hlinks =>
      obtain ⟨rfl, rfl, rfl⟩ := Load.accepted.inj h
      exact ⟨rfl, rfl, not_lt.mp hmany, _, u, rfl, hlinks⟩

theorem loadFile_accepted {garbage : Garbage} {file : List Int8} {c : Bool}
    {ns : List (Entry NetNode)} {ls : List (Entry NetLink)}
    (h : loadFile garbage file = .accepted c ns ls) :
    ∃ num, num = fscanf countFormat file ∧ 1 ≤ intAt num.1 0 garbage.vars.nodeNum ∧
      ∃ w u : Vars, w.file = num.2 ∧
        readNodes garbage.gNetNode (intAt num.1 0 garbage.vars.nodeNum).toNat 0 w = some (ns, u) ∧
        loadLinks garbage (allRead countFormat num.1) ns u = .accepted c ns ls := by
  refine ⟨_, rfl, ?_⟩
  simp only [loadFile] at h
  split at h
  case isTrue => cases h
  case isFalse hmany =>
    split at h
    case h_1 => cases h
    case h_2 es u hnodes =>
      obtain ⟨-, -, rfl, -⟩ := loadLinks_accepted h
      exact ⟨not_lt.mp hmany, _, u, rfl, hnodes, h⟩

theorem complete_of_loadFile {garbage : Garbage} {file : List Int8} {ns : List (Entry NetNode)}
    {ls : List (Entry NetLink)} (h : loadFile garbage file = .accepted true ns ls)
    (hns : ∀ e ∈ ns, e.read = true) (hls : ∀ e ∈ ls, e.read = true) :
    ∃ nodes links, Complete nodes links file ∧
      List.Forall₂ (fun e d => NodeHolds e.value d) ns nodes := by
  obtain ⟨num, hnum, hmany, w, u, hw, hnodes, h⟩ := loadFile_accepted h
  obtain ⟨num', hnum', -, hcounted, hmany', w', u', hw', hlinks⟩ := loadLinks_accepted h
  subst hnum hnum'
  obtain ⟨hcount, hcount'⟩ := Bool.and_eq_true_iff.mp hcounted.symm
  have hcount := reads_of_allRead hcount
  have hcount' := reads_of_allRead hcount'
  obtain ⟨n, hn⟩ := reads_count hcount
  obtain ⟨m, hm⟩ := reads_int hcount'
  rw [hn] at hcount hmany hnodes
  rw [hm] at hcount' hmany' hlinks
  simp only [intAt, List.getElem?_cons_zero] at hmany hmany' hnodes hlinks
  obtain ⟨nodes, hlen, hrecords, hall⟩ := records_of_readEntries
    (fun i v e u => record_of_readNode) n.toNat 0 w u hnodes hns
  obtain ⟨links, hlen', hrecords', -⟩ := records_of_readEntries
    (fun i v e u => record_of_readLink) m.toNat 0 w' u' hlinks hls
  have hn' : (nodes.length : ℤ) = n := by omega
  have hm' : (links.length : ℤ) = m := by omega
  rw [hw] at hrecords
  rw [hw'] at hrecords'
  refine ⟨nodes, links, ⟨?_, ?_, _, _, _, _, ?_, hrecords, ?_, hrecords'⟩, hall⟩
  · exact List.ne_nil_of_length_pos (by omega)
  · exact List.ne_nil_of_length_pos (by omega)
  · rwa [hn']
  · rwa [hm']

end ConfigRecords
