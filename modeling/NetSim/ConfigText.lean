import NetSim.ConfigRecords

/-! Configurations as text, with any blanks between the tokens, and what load_net_data_file makes
of it. -/
namespace ConfigText

open CStrings ScanText FileScan NetConfig ConfigRecords
open FileBuffer (maxFileName)
open HostNode (isSpace isDigit toBytes intMax)
open NetworkTopology (NetNodeType)

def TokenOf : Value → List Int8 → Prop
  | .char c, token => token = [c]
  | .int z, token => Decimal z token
  | .string word, token => token = word

/-- A text with the fields in order, at least one blank between two of them, and any blanks before
the first and behind the last. -/
inductive LaidOut : List Value → List Int8 → Prop where
  | done {blank} : Blank blank → LaidOut [] blank
  | next {v vs blank token s} : Blank blank → TokenOf v token →
      Stops (fun b => !isSpace b) s → LaidOut vs s → LaidOut (v :: vs) (blank ++ (token ++ s))

def nodeFields (d : NodeSpec) : List Value := [.char (letterOf d.type), .int d.id]

def linkFields (d : LinkSpec) : List Value := .char (linkLetter d) :: linkValues d

/-- All fields of a configuration file. -/
def fields (nodes : List NodeSpec) (links : List LinkSpec) : List Value :=
  .int nodes.length ::
    (nodes.flatMap nodeFields ++ .int links.length :: links.flatMap linkFields)

def FieldOk : Value → Prop
  | .char c => isSpace c = false
  | .int z => IsInt z
  | .string word => Solid word ∧ word.length < maxFileName

instance (v : Value) : Decidable (FieldOk v) :=
  match v with
  | .char c => inferInstanceAs (Decidable (isSpace c = false))
  | .int z => inferInstanceAs (Decidable (IsInt z))
  | .string word => inferInstanceAs (Decidable (Solid word ∧ word.length < maxFileName))

/-- A network: nodes with any ids, a server with id 100, and links. -/
def Network (nodes : List NodeSpec) (links : List LinkSpec) : Prop :=
  nodes ≠ [] ∧ links ≠ [] ∧ (∀ d ∈ nodes, Permitted d ∧ IsInt d.id) ∧
    ∀ d ∈ links, ∀ v ∈ linkValues d, FieldOk v

theorem FieldOk.starts {v : Value} (h : FieldOk v) {token : List Int8} (ht : TokenOf v token)
    (s : List Int8) : Stops isSpace (token ++ s) := by
  cases v with
  | char c =>
    rw [show token = [c] from ht]
    exact stops_cons h s
  | int z =>
    obtain ⟨sign, digits, hspelled, rfl, -⟩ := show Decimal z token from ht
    exact hspelled.starts s
  | string word =>
    rw [show token = word from ht]
    exact stops_append h.1.1 h.1.2 s

theorem LaidOut.skip {vs : List Value} {s : List Int8} (h : LaidOut vs s)
    (hok : ∀ v ∈ vs, FieldOk v) :
    ∃ blank s', s = blank ++ s' ∧ Blank blank ∧ Stops isSpace s' ∧ LaidOut vs s' := by
  cases h with
  | done hblank =>
    exact ⟨s, [], (List.append_nil s).symm, hblank, stops_nil _, .done blank_nil⟩
  | next hblank htoken hstops hrest =>
    have hstarts := FieldOk.starts (hok _ List.mem_cons_self) htoken
    have hfront := LaidOut.next blank_nil htoken hstops hrest
    rw [List.nil_append] at hfront
    exact ⟨_, _, rfl, hblank, hstarts _, hfront⟩

/-- The conversions of the format are for the values, and a blank is skipped before every
character. -/
inductive Converts : List Directive → List Value → Prop where
  | done : Converts [] []
  | blank {format values} : Converts format values → Converts (.blank :: format) values
  | char {format values c} : Converts format values →
      Converts (.blank :: .char :: format) (.char c :: values)
  | int {format values z} : Converts format values →
      Converts (.int :: format) (.int z :: values)
  | string {format values word} : Converts format values →
      Converts (.string :: format) (.string word :: values)

theorem stops_digit {s : List Int8} (h : Stops (fun b => !isSpace b) s) : Stops isDigit s := by
  intro b hb
  by_contra hdigit
  have hspace := (isDigit_cases (Bool.of_not_eq_false hdigit)).1
  have := h b hb
  simp [hspace] at this

theorem reads_laidOut {format : List Directive} {values : List Value}
    (h : Converts format values) {vs : List Value} {s : List Int8} (hl : LaidOut (values ++ vs) s)
    (hok : ∀ v ∈ values ++ vs, FieldOk v) :
    ∃ rest, Reads format values s rest ∧ LaidOut vs rest := by
  induction h generalizing s with
  | done => exact ⟨s, .done, hl⟩
  | blank _ ih =>
    obtain ⟨blank, s', rfl, hblank, hstops, hl'⟩ := hl.skip hok
    obtain ⟨rest, hreads, hrest⟩ := ih hl' hok
    exact ⟨rest, .blank hblank hstops hreads, hrest⟩
  | char _ ih =>
    cases hl with
    | next hblank htoken _ hl =>
      obtain ⟨hc, hok⟩ := List.forall_mem_cons.mp hok
      cases htoken
      obtain ⟨rest, hreads, hrest⟩ := ih hl hok
      exact ⟨rest, .blank hblank (stops_cons hc _) (.char hreads), hrest⟩
  | int _ ih =>
    cases hl with
    | next hblank htoken hstops hl =>
      obtain ⟨hz, hok⟩ := List.forall_mem_cons.mp hok
      obtain ⟨rest, hreads, hrest⟩ := ih hl hok
      exact ⟨rest, .int hblank (Decimal.numeral htoken hz) (stops_digit hstops) hreads, hrest⟩
  | string _ ih =>
    cases hl with
    | next hblank htoken hstops hl =>
      obtain ⟨hword, hok⟩ := List.forall_mem_cons.mp hok
      cases htoken
      obtain ⟨rest, hreads, hrest⟩ := ih hl hok
      exact ⟨rest, .string hblank hword.1 hstops hreads, hrest⟩

theorem converts_char (c : Int8) : Converts charFormat [.char c] := .char (.blank .done)

theorem converts_int (z : ℤ) : Converts intFormat [.int z] := .blank (.int (.blank .done))

theorem converts_link (d : LinkSpec) : Converts (linkFormat d) (linkValues d) := by
  cases d with
  | pipe => exact .blank (.int (.blank (.int (.blank .done))))
  | socket =>
    exact .blank (.int (.blank (.string (.blank (.string (.blank (.string (.blank
      (.string .done)))))))))

theorem letterOf_ok (type : NetNodeType) : FieldOk (.char (letterOf type)) := by
  cases type <;> simp only [FieldOk, letterOf] <;> decide

theorem linkLetter_ok (d : LinkSpec) : FieldOk (.char (linkLetter d)) := by
  cases d <;> simp only [FieldOk, linkLetter] <;> decide

/-- The records of a layout, whatever is behind them. -/
theorem records_laidOut {δ : Type} {R : δ → List Int8 → List Int8 → Prop}
    {fieldsOf : δ → List Value} {ds : List δ} {vs : List Value}
    (hrecord : ∀ d ∈ ds, ∀ us s, LaidOut (fieldsOf d ++ us) s → (∀ v ∈ us, FieldOk v) →
      ∃ rest, R d s rest ∧ LaidOut us rest)
    (hds : ∀ d ∈ ds, ∀ v ∈ fieldsOf d, FieldOk v) (hvs : ∀ v ∈ vs, FieldOk v) {s : List Int8}
    (h : LaidOut (ds.flatMap fieldsOf ++ vs) s) :
    ∃ rest, Records R ds s rest ∧ LaidOut vs rest := by
  induction ds generalizing s with
  | nil => exact ⟨s, .nil, h⟩
  | cons d ds ih =>
    obtain ⟨hd, hds⟩ := List.forall_mem_cons.mp hds
    obtain ⟨hrecord, hrecords⟩ := List.forall_mem_cons.mp hrecord
    rw [List.flatMap_cons, List.append_assoc] at h
    have hok : ∀ v ∈ ds.flatMap fieldsOf ++ vs, FieldOk v := by
      intro v hv
      rcases List.mem_append.mp hv with hv | hv
      · obtain ⟨d', hd', hv⟩ := List.mem_flatMap.mp hv
        exact hds d' hd' v hv
      · exact hvs v hv
    obtain ⟨middle, hmiddle, hl⟩ := hrecord _ s h hok
    obtain ⟨rest, hrest, hl⟩ := ih hrecords hds hl
    exact ⟨rest, .cons hmiddle hrest, hl⟩

theorem nodeRecord_laidOut {d : NodeSpec} (hd : Permitted d ∧ IsInt d.id) {us : List Value}
    {s : List Int8} (h : LaidOut (nodeFields d ++ us) s) (hus : ∀ v ∈ us, FieldOk v) :
    ∃ rest, NodeRecord d s rest ∧ LaidOut us rest := by
  have hid : ∀ v ∈ .int d.id :: us, FieldOk v := List.forall_mem_cons.mpr ⟨hd.2, hus⟩
  have hok : ∀ v ∈ .char (letterOf d.type) :: .int d.id :: us, FieldOk v :=
    List.forall_mem_cons.mpr ⟨letterOf_ok d.type, hid⟩
  obtain ⟨middle, hchar, hl⟩ := reads_laidOut (converts_char (letterOf d.type)) h hok
  obtain ⟨rest, hint, hl⟩ := reads_laidOut (converts_int d.id) hl hid
  exact ⟨rest, ⟨hd.1, middle, hchar, hint⟩, hl⟩

theorem linkRecord_laidOut {d : LinkSpec} (hd : ∀ v ∈ linkValues d, FieldOk v) {us : List Value}
    {s : List Int8} (h : LaidOut (linkFields d ++ us) s) (hus : ∀ v ∈ us, FieldOk v) :
    ∃ rest, LinkRecord d s rest ∧ LaidOut us rest := by
  have hvalues : ∀ v ∈ linkValues d ++ us, FieldOk v := List.forall_mem_append.mpr ⟨hd, hus⟩
  have hok : ∀ v ∈ .char (linkLetter d) :: (linkValues d ++ us), FieldOk v :=
    List.forall_mem_cons.mpr ⟨linkLetter_ok d, hvalues⟩
  obtain ⟨middle, hchar, hl⟩ := reads_laidOut (converts_char (linkLetter d)) h hok
  obtain ⟨rest, hread, hl⟩ := reads_laidOut (converts_link d) hl hvalues
  refine ⟨rest, ⟨?_, middle, hchar, hread⟩, hl⟩
  intro v hv
  have := hd v hv
  cases v with
  | char | int => simp [width, maxFileName]
  | string word => exact this.2

theorem complete_of_laidOut {nodes : List NodeSpec} {links : List LinkSpec}
    (h : Network nodes links) (hn : IsInt nodes.length) (hm : IsInt links.length)
    {file : List Int8} (hl : LaidOut (fields nodes links) file) : Complete nodes links file := by
  obtain ⟨hnodes, hlinks, hnode, hlink⟩ := h
  have hnodeFields : ∀ d ∈ nodes, ∀ v ∈ nodeFields d, FieldOk v := by
    intro d hd v hv
    rcases List.mem_pair.mp hv with rfl | rfl
    · exact letterOf_ok d.type
    · exact (hnode d hd).2
  have hlinkFields : ∀ d ∈ links, ∀ v ∈ linkFields d, FieldOk v := by
    intro d hd
    exact List.forall_mem_cons.mpr ⟨linkLetter_ok d, hlink d hd⟩
  have hlinksOk : ∀ v ∈ links.flatMap linkFields, FieldOk v := by
    intro v hv
    obtain ⟨d, hd, hv⟩ := List.mem_flatMap.mp hv
    exact hlinkFields d hd v hv
  have hrestOk : ∀ v ∈ .int links.length :: links.flatMap linkFields, FieldOk v :=
    List.forall_mem_cons.mpr ⟨hm, hlinksOk⟩
  have hallOk : ∀ v ∈ fields nodes links, FieldOk v := by
    refine List.forall_mem_cons.mpr ⟨hn, List.forall_mem_append.mpr ⟨?_, hrestOk⟩⟩
    intro v hv
    obtain ⟨d, hd, hv⟩ := List.mem_flatMap.mp hv
    exact hnodeFields d hd v hv
  obtain ⟨s₁, hcount, hl⟩ := reads_laidOut (.int .done : Converts countFormat _) hl hallOk
  obtain ⟨s₂, hns, hl⟩ := records_laidOut
    (fun d hd us s => nodeRecord_laidOut (hnode d hd)) hnodeFields hrestOk hl
  obtain ⟨s₃, hcount', hl⟩ := reads_laidOut (converts_int links.length) hl hrestOk
  have hl : LaidOut (links.flatMap linkFields ++ []) s₃ := by rwa [List.append_nil]
  obtain ⟨rest, hls, -⟩ := records_laidOut
    (fun d hd us s => linkRecord_laidOut (hlink d hd)) hlinkFields (List.forall_mem_nil _) hl
  exact ⟨hnodes, hlinks, s₁, s₂, s₃, rest, hcount, hns, hcount', hls⟩

def print : Value → List Int8
  | .char c => [c]
  | .int z => toBytes (toString z)
  | .string word => word

/-- The fields with the i-th blanks behind the i-th of them. -/
def write (blank : ℕ → List Int8) : List Value → List Int8
  | [] => []
  | v :: vs => print v ++ (blank 0 ++ write (fun i => blank (i + 1)) vs)

theorem LaidOut.indent {vs : List Value} {s : List Int8} (h : LaidOut vs s) {blank : List Int8}
    (hb : Blank blank) : LaidOut vs (blank ++ s) := by
  cases h with
  | done hs => exact .done (List.forall_mem_append.mpr ⟨hb, hs⟩)
  | next hs htoken hstops hrest =>
    rw [← List.append_assoc]
    exact .next (List.forall_mem_append.mpr ⟨hb, hs⟩) htoken hstops hrest

theorem tokenOf_print (v : Value) : TokenOf v (print v) := by
  cases v with
  | char c => rfl
  | int z => exact decimal_toString z
  | string word => rfl

theorem laidOut_write (vs : List Value) {blank : ℕ → List Int8} (hb : ∀ i, Blank (blank i))
    (hne : ∀ i, i + 1 < vs.length → blank i ≠ []) : LaidOut vs (write blank vs) := by
  induction vs generalizing blank with
  | nil => exact .done blank_nil
  | cons v vs ih =>
    have hstops : Stops (fun b => !isSpace b) (blank 0 ++ write (fun i => blank (i + 1)) vs) := by
      by_cases hempty : blank 0 = []
      · cases vs with
        | nil =>
          rw [hempty]
          exact stops_nil _
        | cons w vs => exact absurd hempty (hne 0 (by simp))
      · exact stops_append hempty (fun b h => by simp [hb 0 b h]) _
    have hrest := ih (fun i => hb (i + 1)) fun i hi => hne (i + 1) (by simpa using hi)
    have hall := LaidOut.next blank_nil (tokenOf_print v) hstops (hrest.indent (hb 0))
    rwa [List.nil_append] at hall

/-- A string has no NUL character. -/
def NulFree : Value → Prop
  | .string word => (0 : Int8) ∉ word
  | _ => True

instance (v : Value) : Decidable (NulFree v) :=
  match v with
  | .string word => inferInstanceAs (Decidable ((0 : Int8) ∉ word))
  | .char _ | .int _ => inferInstanceAs (Decidable True)

/-- The entry is the link: of the four strings the last three are its port to listen on, the domain
and the port to send to. -/
def LinkIs (l : NetLink) : LinkSpec → Prop
  | .pipe node0 node1 => l.type = some .pipe ∧ l.pipeNode0 = node0 ∧ l.pipeNode1 = node1
  | .socket node0 _ port0 domain1 port1 =>
    l.type = some .socket ∧ l.pipeNode0 = node0 ∧ l.portRecv = port0 ∧
      l.sendingDomain = domain1 ∧ l.portSend = port1

/-- load_net_data_file returns 1 with exactly the nodes and the links, in order. -/
def Loads (result : Load) (nodes : List NodeSpec) (links : List LinkSpec) : Prop :=
  ∃ ns ls, result = .accepted true ns ls ∧
    List.Forall₂ (fun e d => NodeHolds e.value d) ns nodes ∧
    List.Forall₂ (fun e d => LinkIs e.value d) ls links

theorem linkIs_of_holds {l : NetLink} {d : LinkSpec} (h : LinkHolds l d)
    (hnul : ∀ v ∈ linkValues d, NulFree v) : LinkIs l d := by
  cases d with
  | pipe => exact h
  | socket node0 domain0 port0 domain1 port1 =>
    have htext : ∀ word, .string word ∈ linkValues (.socket node0 domain0 port0 domain1 port1) →
        text word = word := by
      intro word hword
      exact text_of_not_mem (hnul _ hword)
    obtain ⟨htype, hnode, hrecv, hdomain, hsend⟩ := h
    rw [htext port0 (by simp [linkValues])] at hrecv
    rw [htext domain1 (by simp [linkValues])] at hdomain
    rw [htext port1 (by simp [linkValues])] at hsend
    exact ⟨htype, hnode, hrecv, hdomain, hsend⟩

/-- Loading inverts writing, for every layout of a network with `int` counts and C strings. -/
theorem load_layout {nodes : List NodeSpec} {links : List LinkSpec} (h : Network nodes links)
    (hn : IsInt nodes.length) (hm : IsInt links.length)
    (hnul : ∀ d ∈ links, ∀ v ∈ linkValues d, NulFree v) {file : List Int8}
    (hl : LaidOut (fields nodes links) file) {fopen : List Int8 → Option (List Int8)}
    {stdin : List Int8} {garbage : Garbage}
    (hopen : openFile fopen stdin garbage = some (some file)) :
    Loads (loadNetDataFile fopen stdin garbage) nodes links := by
  have hcomplete := complete_of_laidOut h hn hm hl
  obtain ⟨ns, ls, hload, -, -, hns, hls⟩ := loadFile_complete hcomplete garbage
  refine ⟨ns, ls, (loadNetDataFile_opened hopen).trans hload, hns, ?_⟩
  have hboth := (List.forall₂_and_left _ _).mpr ⟨hnul, hls.flip⟩
  exact (hboth.imp fun d e hd => linkIs_of_holds hd.2 hd.1).flip

theorem openFile_diskWith (file : List Int8) :
    openFile (diskWith file) [97] zeros = some (some file) := rfl

def p2ps1Nodes : List NodeSpec := [⟨.host, 0⟩, ⟨.host, 1⟩, ⟨.host, 2⟩, ⟨.switch, 3⟩]

def p2ps1Links : List LinkSpec :=
  [.pipe 0 3, .pipe 1 3, .pipe 2 3,
    .socket 3 (toBytes "wiliki") (toBytes "3502") (toBytes "wiliki") (toBytes "3602")]

def p2ps1Config : List Int8 :=
  toBytes "4\nH 0\nH 1\nH 2\nS 3\n4\nP 0 3\nP 1 3\nP 2 3\nS 3 wiliki 3502 wiliki 3602"

/-- A newline behind each count and behind each record but the last. -/
def p2ps1Blanks (i : ℕ) : List Int8 :=
  if i ∈ [0, 2, 4, 6, 8, 9, 12, 15, 18] then [10] else if i < 24 then [32] else []

theorem load_layout_p2ps1 :
    Loads (loadNetDataFile (diskWith p2ps1Config) [97] zeros) p2ps1Nodes p2ps1Links := by
  have hnewline : Blank [10] := List.forall_mem_singleton.mpr (by decide)
  have hspace : Blank [32] := List.forall_mem_singleton.mpr (by decide)
  have hblank : ∀ i, Blank (p2ps1Blanks i) := by
    intro i
    unfold p2ps1Blanks
    split_ifs
    · exact hnewline
    · exact hspace
    · exact List.forall_mem_nil _
  have hlength : (fields p2ps1Nodes p2ps1Links).length = 25 := by decide +kernel
  have hne : ∀ i, i + 1 < (fields p2ps1Nodes p2ps1Links).length → p2ps1Blanks i ≠ [] := by
    intro i hi
    have hlast : i < 24 := by omega
    rw [p2ps1Blanks, if_pos hlast]
    split_ifs <;> exact List.cons_ne_nil _ _
  have hl := laidOut_write (fields p2ps1Nodes p2ps1Links) hblank hne
  have htext : write p2ps1Blanks (fields p2ps1Nodes p2ps1Links) = p2ps1Config := by
    decide +kernel
  rw [htext] at hl
  refine load_layout ⟨?_, ?_, ?_, ?_⟩ ?_ ?_ ?_ hl (openFile_diskWith _)
  · simp [p2ps1Nodes]
  · simp [p2ps1Links]
  · decide +kernel
  · decide +kernel
  · decide
  · decide
  · decide +kernel

/-- One blank behind each field. -/
def oneLine (vs : List Value) : List Int8 := write (fun _ => [32]) vs

theorem laidOut_oneLine (vs : List Value) : LaidOut vs (oneLine vs) :=
  laidOut_write vs (fun _ => List.forall_mem_singleton.mpr (by decide))
    fun _ _ => List.cons_ne_nil _ _

theorem too_many_nodes {nodes : List NodeSpec} (h : nodes.length = 2 ^ 31) (links : List LinkSpec)
    (garbage : Garbage) : loadFile garbage (oneLine (fields nodes links)) = .rejected := by
  have hnumeral : Numeral (-2 ^ 31) (toBytes (toString (2 ^ 31 : ℤ))) :=
    ⟨[], toBytes (toString (2 ^ 31 : ℤ)), ⟨.inl rfl, by decide +kernel, by decide +kernel⟩, rfl,
      by decide +kernel⟩
  have hlength : (nodes.length : ℤ) = 2 ^ 31 := by exact_mod_cast h
  obtain ⟨vs, hfields⟩ : ∃ vs, fields nodes links = .int (2 ^ 31) :: vs :=
    ⟨_, congrArg (fun z => Value.int z :: _) hlength⟩
  have hread : Reads countFormat [.int (-2 ^ 31)] (oneLine (fields nodes links))
      ([32] ++ oneLine vs) := by
    have hspace : Stops isDigit ([32] ++ oneLine vs) := stops_cons (by decide) _
    have hcall := Reads.int blank_nil hnumeral hspace .done
    rw [List.nil_append] at hcall
    rw [hfields, oneLine, write]
    exact hcall
  have hcount : (-2 ^ 31 : ℤ) < 1 := by decide
  simp only [loadFile, fscanf_of_reads hread, intAt, List.getElem?_cons_zero, if_pos hcount]

/-- A socket link whose second string is 'b', NUL, 'c'. -/
def nulLink : LinkSpec := .socket 0 [97] [98, 0, 99] [100] [101]

/-- A network of 2 ^ 31 hosts, and one with a NUL character in a string, are not loaded. -/
theorem layouts_not_loaded :
    (∃ nodes links file, nodes.length = 2 ^ 31 ∧ Network nodes links ∧
      LaidOut (fields nodes links) file ∧
      ¬ Loads (loadNetDataFile (diskWith file) [97] zeros) nodes links) ∧
    Network [⟨.host, 0⟩] [nulLink] ∧
      LaidOut (fields [⟨.host, 0⟩] [nulLink]) (oneLine (fields [⟨.host, 0⟩] [nulLink])) ∧
      ¬ Loads (loadNetDataFile (diskWith (oneLine (fields [⟨.host, 0⟩] [nulLink]))) [97] zeros)
        [⟨.host, 0⟩] [nulLink] := by
  constructor
  · obtain ⟨nodes, hlength, hall⟩ : ∃ nodes : List NodeSpec,
        nodes.length = 2 ^ 31 ∧ ∀ d ∈ nodes, d = ⟨.host, 0⟩ :=
      ⟨List.replicate (2 ^ 31) ⟨.host, 0⟩, List.length_replicate,
        fun d => List.eq_of_mem_replicate⟩
    have hnodes : nodes ≠ [] := by
      rintro rfl
      exact absurd hlength (by decide)
    refine ⟨nodes, [.pipe 0 0], _, hlength, ⟨hnodes, by simp, ?_, ?_⟩, laidOut_oneLine _, ?_⟩
    · intro d hd
      rw [hall d hd]
      exact ⟨nofun, by decide⟩
    · rw [List.forall_mem_singleton]
      decide
    · rw [loadNetDataFile_opened (openFile_diskWith _), too_many_nodes hlength]
      rintro ⟨ns, ls, h, -⟩
      cases h
  · have hload : loadFile zeros (oneLine (fields [⟨.host, 0⟩] [nulLink])) =
        .accepted true [⟨⟨some .host, 0⟩, true⟩]
          [⟨⟨some .socket, 0, 0, [101], [98], [100]⟩, true⟩] := by
      decide +kernel
    refine ⟨⟨by simp, by simp, ?_, ?_⟩, laidOut_oneLine _, ?_⟩
    · rw [List.forall_mem_singleton]
      exact ⟨nofun, by decide⟩
    · rw [List.forall_mem_singleton]
      decide
    · rw [loadNetDataFile_opened (openFile_diskWith _), hload]
      rintro ⟨ns, ls, h, -, hlinks⟩
      cases h
      cases hlinks with
      | cons hlink _ => exact absurd hlink.2.2.1 (by decide)

end ConfigText
