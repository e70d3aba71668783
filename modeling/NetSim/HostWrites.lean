import NetSim.CommandStream
import NetSim.HostJobs

/-! The writes of host_main into `man_msg`, `dir`, `name`, `domainName` and `reply_msg`, into the
names of its jobs and into the payloads of its packets. An array is left by its first bad write;
what the program does behind that is not modelled. -/
namespace HostWrites

open PacketCodec FileBuffer FileSplit FileUpload HostNode HostWaits HostReplies HostJobs
open CommandStream (hand hand_cons)
open DnsServer (payloadText charSpace)
open EventRuns (Run)

inductive HostArray where
  | manMsg | dir | name | domainName | fnameUpload | fnameDownload | payload | replyMsg
  deriving DecidableEq, Repr

def HostArray.size : HostArray → ℕ
  | .manMsg => manMsgLength
  | .dir => maxDirName
  | .name | .fnameUpload | .fnameDownload => maxFileName
  | .domainName => maxDomainName
  | .payload => payloadMax
  | .replyMsg => maxMsgLength

structure Write where
  array : HostArray
  index : ℕ

def Within (ws : List Write) : Prop := ∀ w ∈ ws, w.index < w.array.size

def fill (a : HostArray) (n : ℕ) : List Write := (List.range n).map fun i => ⟨a, i⟩

def fillString (a : HostArray) (string : List Int8) : List Write := fill a (string.length + 1)

/-- The places that `shiftDown` writes to. -/
def shiftPlaces : ℕ → ℕ → List ℕ
  | 0, k => [k]
  | fuel + 1, k => k :: shiftPlaces fuel (k + 1)

def getManCommandWrites (bytes : List Int8) (stale : ℕ → Int8) : List Write :=
  let msg := overlay bytes stale
  let n := bytes.length
  let i := skipBlanks msg n 0
  let j := skipBlanks msg (n - (i + 1)) (i + 1)
  fill .manMsg n ++ (shiftPlaces (n - j) 0).map fun k => ⟨.manMsg, k⟩

/-- What is in the array behind `%s`, if that fits. -/
def wordOr (s old : List Int8) : List Int8 :=
  match scanWord s with
  | none => old
  | some (word, _) => word

/-- `%s`, which writes nothing at the end of its text. -/
def scanWrites (a : HostArray) (s : List Int8) : List Write :=
  match scanWord s with
  | none => []
  | some (word, _) => fillString a word

/-- `%d %s`. -/
def scanDstNameWrites (arg : List Int8) : List Write :=
  match scanInt arg with
  | none => []
  | some (_, rest) => scanWrites .name rest

def nameAfterDst (arg old : List Int8) : List Int8 :=
  match scanInt arg with
  | none => old
  | some (_, rest) => wordOr rest old

/-- `%s %s`. -/
def scanDomainNameNameWrites (arg : List Int8) : List Write :=
  match scanWord arg with
  | none => []
  | some (word, rest) => fillString .domainName word ++ scanWrites .name rest

def nameAfterDomainName (arg old : List Int8) : List Int8 :=
  match scanWord arg with
  | none => old
  | some (_, rest) => wordOr rest old

/-- What reply_display_host_state prints. -/
def stateText (s : HostState) : List Int8 :=
  let id := s.hostId
  match s.dir with
  | some dir => dir ++ toBytes s!" {id}"
  | none => toBytes s!"None {id}"

def commandWrites (c : ManCommand) (arg : List Int8) (s : HostState) : List Write :=
  match c with
  | .displayHostState => fillString .replyMsg (stateText s)
  | .setHostDir => fillString .dir arg
  | .ping | .unknown => []
  | .fileUpload => scanDstNameWrites arg ++ fillString .fnameUpload (nameAfterDst arg s.name)
  | .fileDownload => scanDstNameWrites arg ++ fillString .payload (nameAfterDst arg s.name)
  | .dnsRegister | .dnsPing =>
    scanWrites .domainName arg ++ fillString .payload (wordOr arg s.domainName)
  | .dnsLookup =>
    scanWrites .domainName arg ++ fillString .payload (wordOr arg s.domainName) ++
      fillString .fnameDownload (wordOr arg s.domainName)
  | .dnsFileDownload =>
    scanDomainNameNameWrites arg ++ fillString .payload (wordOr arg s.domainName) ++
      fillString .fnameDownload (nameAfterDomainName arg s.name)

def splitWrites (n : ℕ) : List Write :=
  if n > maxMsgLength then fill .payload maxMsgLength ++ splitWrites (n - maxMsgLength)
  else fill .payload n
termination_by n
decreasing_by
  simp only [maxMsgLength] at *
  omega

/-- The path, and the packets when the file opens; the first has the name without its NUL
character. -/
def fileUploadSendWrites (fname : List Int8) (s : HostState) : List Write :=
  match s.dir with
  | none => []
  | some dir =>
    fillString .name (pathOf dir fname) ++
      match s.disk (pathOf dir fname) with
      | none => []
      | some content =>
        fill .payload fname.length ++ splitWrites (content.take maxFileBuffer).length

def fileUploadRecvEndWrites (s : HostState) : List Write :=
  match s.dir, fileBufGetName s.fBufUpload with
  | some dir, some string => fillString .name (pathOf dir (cString string))
  | _, _ => []

def jobWrites (s : HostState) : HostJob → List Write
  | .fileUploadSend fname _ => fileUploadSendWrites fname s
  | .fileUploadRecvEnd _ => fileUploadRecvEndWrites s
  | .dnsDownloadWaitForReply _ fname _ =>
    if s.dnsLookupReceived ∧ ¬ starts s.dnsLookupBuffer failText then fillString .payload fname
    else []
  | _ => []

/-- The writes of one part of an iteration. -/
def writes (s : HostState) : HostEvent → List Write
  | .control _ | .command none _ => []
  | .command (some bytes) _ =>
    getManCommandWrites bytes s.manMsg ++ commandWrites (commandOf bytes s) (argumentOf bytes s) s
  | .receive n p =>
    if HostQueries.Comes pktFileDownloadReq n p s then fillString .fnameUpload (payloadText p)
    else []
  | .execute _ _ =>
    match s.jobQ with
    | [] => []
    | job :: _ => jobWrites s job

/-- It is the turn of this part of the iteration, and a read stays in `man_msg`. -/
def Turn (s : HostState) : HostEvent → Prop
  | .control _ => s.phase = .top
  | .command bytes _ =>
    s.phase = .command ∧ ∀ b ∈ bytes, 0 < b.length ∧ b.length ≤ manMsgLength
  | .receive _ _ => ∃ k < s.nodePortNum, s.phase = .scan k
  | .execute _ _ => s.phase = .scan s.nodePortNum

/-- A word is shorter than `domainName`; an old one, when there is none, than the payload. -/
def DomainNameFits (arg : List Int8) (s : HostState) : Prop :=
  match scanWord arg with
  | none => s.domainName.length < payloadMax
  | some (word, _) => word.length < maxDomainName

def CommandFits (c : ManCommand) (arg : List Int8) (s : HostState) : Prop :=
  match c with
  | .displayHostState => (stateText s).length < maxMsgLength
  | .setHostDir => arg.length < maxDirName
  | .ping | .unknown => True
  | .fileUpload | .fileDownload => (nameAfterDst arg s.name).length < maxFileName
  | .dnsRegister | .dnsLookup | .dnsPing => DomainNameFits arg s
  | .dnsFileDownload =>
    DomainNameFits arg s ∧ (nameAfterDomainName arg s.name).length < maxFileName

/-- "./dir/fname" is shorter than `name`. -/
def PathFits (dir fname : List Int8) : Prop := dir.length + fname.length + 3 < maxFileName

def JobFits (s : HostState) : HostJob → Prop
  | .fileUploadSend fname _ => ∀ dir, s.dir = some dir → PathFits dir fname
  | .fileUploadRecvEnd _ => ∀ dir string, s.dir = some dir →
      fileBufGetName s.fBufUpload = some string → PathFits dir (cString string)
  | _ => True

/-- The texts that the part copies are short enough. -/
def TextsFit (s : HostState) : HostEvent → Prop
  | .control _ | .command none _ => True
  | .command (some bytes) _ => CommandFits (commandOf bytes s) (argumentOf bytes s) s
  | .receive n p =>
    HostQueries.Comes pktFileDownloadReq n p s → (payloadText p).length < maxFileName
  | .execute _ _ =>
    match s.jobQ with
    | [] => True
    | job :: _ => JobFits s job

/-- P holds for each part of each run from s, when it is its turn. -/
def Throughout (P : HostState → HostEvent → Prop) (s : HostState) (es : List HostEvent) : Prop :=
  ∀ pre e post u, es = pre ++ e :: post → Run HostStep s pre u → Turn u e → P u e

theorem within_fill {a : HostArray} {n : ℕ} : Within (fill a n) ↔ n ≤ a.size := by
  simp only [Within, fill, List.forall_mem_map, List.mem_range]
  constructor
  · intro h
    by_contra hn
    exact absurd (h a.size (by omega)) (Nat.lt_irrefl _)
  · exact fun h i hi => hi.trans_le h

theorem within_string {a : HostArray} {string : List Int8} :
    Within (fillString a string) ↔ string.length < a.size := within_fill

theorem within_append {xs ys : List Write} : Within (xs ++ ys) ↔ Within xs ∧ Within ys :=
  List.forall_mem_append

theorem within_nil : Within [] := List.forall_mem_nil _

theorem mem_shiftPlaces {fuel k x : ℕ} : x ∈ shiftPlaces fuel k ↔ k ≤ x ∧ x ≤ k + fuel := by
  induction fuel generalizing k with
  | zero =>
    simp only [shiftPlaces, List.mem_singleton]
    omega
  | succ fuel ih =>
    simp only [shiftPlaces, List.mem_cons, ih]
    omega

theorem le_skipBlanks (msg : ℕ → Int8) (fuel i : ℕ) : i ≤ skipBlanks msg fuel i := by
  induction fuel generalizing i with
  | zero => exact le_rfl
  | succ fuel ih =>
    rw [skipBlanks]
    split
    · exact (Nat.le_succ i).trans (ih (i + 1))
    · exact le_rfl

/-- The letter is dropped, so that the NUL character has a place. -/
theorem getManCommand_within {bytes : List Int8} (hpos : 0 < bytes.length)
    (hmax : bytes.length ≤ manMsgLength) (stale : ℕ → Int8) :
    Within (getManCommandWrites bytes stale) := by
  refine within_append.mpr ⟨within_fill.mpr hmax, List.forall_mem_map.mpr ?_⟩
  intro k hk
  have hstart := le_skipBlanks (overlay bytes stale)
    (bytes.length - (skipBlanks (overlay bytes stale) bytes.length 0 + 1))
    (skipBlanks (overlay bytes stale) bytes.length 0 + 1)
  have hlast := (mem_shiftPlaces.mp hk).2
  change k < manMsgLength
  omega

theorem shiftDown_elsewhere {i fuel k x : ℕ} (hx : x ∉ shiftPlaces fuel k) (msg : ℕ → Int8) :
    shiftDown i fuel k msg x = msg x := by
  induction fuel generalizing k msg with
  | zero => exact Function.update_of_ne (fun h => hx (List.mem_singleton.mpr h)) _ _
  | succ fuel ih =>
    obtain ⟨hne, hrest⟩ := not_or.mp (List.mem_cons.not.mp hx)
    rw [shiftDown, ih hrest, Function.update_of_ne hne]

theorem getManCommand_elsewhere {bytes : List Int8} {stale : ℕ → Int8} {x : ℕ}
    (hx : ⟨.manMsg, x⟩ ∉ getManCommandWrites bytes stale) :
    (getManCommand bytes stale).2 x = stale x := by
  obtain ⟨hread, hshift⟩ := not_or.mp (List.mem_append.not.mp hx)
  have hbehind : bytes.length ≤ x := by
    by_contra hlt
    exact hread (List.mem_map.mpr ⟨x, List.mem_range.mpr (by omega), rfl⟩)
  rw [getManCommand]
  exact (shiftDown_elsewhere (fun h => hshift (List.mem_map_of_mem h)) _).trans
    (List.getD_eq_default _ _ hbehind)

theorem within_scanDomainName {arg : List Int8} {s : HostState} :
    Within (scanWrites .domainName arg) ∧ (wordOr arg s.domainName).length < payloadMax ↔
      DomainNameFits arg s := by
  rw [scanWrites, wordOr, DomainNameFits]
  split
  · exact and_iff_right within_nil
  · next word rest _ =>
    rw [within_string]
    constructor
    · exact fun h => h.1
    · exact fun h => ⟨h, h.trans (by decide)⟩

theorem within_scanName {s old : List Int8} :
    Within (scanWrites .name s) ∧ (wordOr s old).length < maxFileName ↔
      (wordOr s old).length < maxFileName := by
  rw [scanWrites, wordOr]
  split
  · exact and_iff_right within_nil
  · rw [within_string]
    exact and_self_iff

theorem within_scanDstName {arg old : List Int8} :
    Within (scanDstNameWrites arg) ∧ (nameAfterDst arg old).length < maxFileName ↔
      (nameAfterDst arg old).length < maxFileName := by
  rw [scanDstNameWrites, nameAfterDst]
  split
  · exact and_iff_right within_nil
  · exact within_scanName

theorem commandWrites_within (c : ManCommand) (arg : List Int8) (s : HostState) :
    Within (commandWrites c arg s) ↔ CommandFits c arg s := by
  cases c with
  | displayHostState => exact within_string
  | setHostDir => exact within_string
  | ping => exact iff_true_intro within_nil
  | unknown => exact iff_true_intro within_nil
  | fileUpload =>
    rw [commandWrites, within_append, within_string]
    exact within_scanDstName
  | fileDownload =>
    rw [commandWrites, within_append, within_string]
    exact within_scanDstName
  | dnsRegister =>
    rw [commandWrites, within_append, within_string]
    exact within_scanDomainName
  | dnsPing =>
    rw [commandWrites, within_append, within_string]
    exact within_scanDomainName
  | dnsLookup =>
    rw [commandWrites, within_append, within_append, within_string, within_string, CommandFits,
      ← within_scanDomainName]
    exact ⟨fun h => h.1, fun h => ⟨h, h.2⟩⟩
  | dnsFileDownload =>
    have hfirst : Within (scanWrites .domainName arg) ∧
        (wordOr arg s.domainName).length < payloadMax ↔ DomainNameFits arg s :=
      within_scanDomainName
    rw [commandWrites, within_append, within_append, within_string, within_string, CommandFits,
      ← hfirst]
    rw [scanDomainNameNameWrites, nameAfterDomainName, scanWrites]
    split
    · exact Iff.rfl
    · next word rest _ =>
      have hname : Within (scanWrites .name rest) ∧ (wordOr rest s.name).length < maxFileName ↔
          (wordOr rest s.name).length < maxFileName := within_scanName
      rw [within_append]
      change ((_ ∧ _) ∧ _) ∧ _ ↔ _
      tauto

theorem isSome_ite {α : Type*} {c : Prop} [Decidable c] {x : α} :
    (if c then some x else none).isSome ↔ c := by
  split
  · next h => exact iff_of_true rfl h
  · next h => exact iff_of_false Bool.false_ne_true h

theorem isSome_bind {α β : Type*} {o : Option α} {f : α → Option β} {P : Prop}
    (h : ∀ v, o = some v → ((f v).isSome ↔ P)) : (o.bind f).isSome ↔ o.isSome ∧ P := by
  cases o with
  | none => exact iff_of_false Bool.false_ne_true fun h => Bool.false_ne_true h.1
  | some v => exact (h v rfl).trans (and_iff_right rfl).symm

theorem scanName_isSome (a : HostArray) (s old : List Int8) :
    (scanName a.size s old).isSome ↔ Within (scanWrites a s) := by
  rw [scanName, scanWrites]
  cases scanWord s with
  | none => exact iff_of_true rfl within_nil
  | some r => exact isSome_ite.trans within_string.symm

theorem scanName_eq {size : ℕ} {s old : List Int8} {r : List Int8 × List Int8}
    (h : scanName size s old = some r) :
    r.1 = wordOr s old ∧ r.2 = ((scanWord s).map Prod.snd).getD [] := by
  rw [scanName] at h
  rw [wordOr]
  split at h
  · next hscan =>
    cases h
    rw [hscan]
    exact ⟨rfl, rfl⟩
  · next word rest hscan =>
    obtain ⟨-, h⟩ := Option.ite_none_right_eq_some.mp h
    cases h
    rw [hscan]
    exact ⟨rfl, rfl⟩

theorem scanDstName_name {arg : List Int8} {s v : HostState} (h : scanDstName arg s = some v) :
    v.name = nameAfterDst arg s.name := by
  rw [scanDstName] at h
  rw [nameAfterDst]
  cases hscan : scanInt arg with
  | none =>
    rw [hscan] at h
    cases h
    rfl
  | some scanned =>
    rw [hscan] at h
    obtain ⟨r, hr, rfl⟩ := Option.map_eq_some_iff.mp h
    exact (scanName_eq hr).1

theorem scanDstName_isSome (arg : List Int8) (s : HostState) :
    (scanDstName arg s).isSome ↔ Within (scanDstNameWrites arg) := by
  rw [scanDstName, scanDstNameWrites]
  cases scanInt arg with
  | none => exact iff_of_true rfl within_nil
  | some r =>
    rw [Option.isSome_map]
    exact scanName_isSome .name r.2 s.name

theorem scanDomainName_isSome (arg : List Int8) (s : HostState) :
    (scanDomainName arg s).isSome ↔ Within (scanWrites .domainName arg) := by
  rw [scanDomainName, Option.isSome_map]
  exact scanName_isSome .domainName _ _

theorem scanDomainName_domainName {arg : List Int8} {s v : HostState}
    (h : scanDomainName arg s = some v) : v.domainName = wordOr arg s.domainName := by
  obtain ⟨r, hr, rfl⟩ := Option.map_eq_some_iff.mp h
  exact (scanName_eq hr).1

theorem askServer_isSome {type : Int8} {wait : HostJob} {blank : Packet} {s : HostState} :
    (askServer type wait blank s).isSome ↔ s.domainName.length < payloadMax := by
  rw [askServer, Option.isSome_map]
  exact isSome_ite

theorem queryServer_isSome {arg : List Int8} {s : HostState} {type : Int8}
    {wait : HostState → HostJob} {blank : Packet} {f : HostState → HostState}
    (hf : ∀ v, (f v).domainName = v.domainName) :
    ((scanDomainName arg s).bind fun v => askServer type (wait v) blank (f v)).isSome ↔
      DomainNameFits arg s := by
  rw [← within_scanDomainName, ← scanDomainName_isSome arg s]
  refine isSome_bind ?_
  intro v hv
  rw [askServer_isSome, hf, scanDomainName_domainName hv]

theorem scanDomainNameName_isSome (arg : List Int8) (s : HostState) :
    (scanDomainNameName arg s).isSome ↔ Within (scanDomainNameNameWrites arg) := by
  rw [scanDomainNameName, scanDomainNameNameWrites, scanName]
  cases scanWord arg with
  | none => exact iff_of_true rfl within_nil
  | some r =>
    rw [within_append, within_string]
    refine (isSome_bind ?_).trans (and_congr_left' isSome_ite)
    intro v hv
    obtain ⟨-, hv⟩ := Option.ite_none_right_eq_some.mp hv
    cases hv
    rw [Option.isSome_map]
    exact scanName_isSome .name r.2 s.name

theorem scanDomainNameName_names {arg : List Int8} {s v : HostState}
    (h : scanDomainNameName arg s = some v) :
    v.domainName = wordOr arg s.domainName ∧ v.name = nameAfterDomainName arg s.name := by
  obtain ⟨r, hr, h⟩ := Option.bind_eq_some_iff.mp h
  obtain ⟨r', hr', rfl⟩ := Option.map_eq_some_iff.mp h
  obtain ⟨hdomain, hrest⟩ := scanName_eq hr
  refine ⟨hdomain, (scanName_eq hr').1.trans ?_⟩
  rw [nameAfterDomainName, hrest]
  cases scanWord arg with
  | none => rfl
  | some => rfl

theorem dnsFileDownload_isSome {arg : List Int8} {blank : Packet}
    {t : ReplyBook.Ticket ManCommand} {s : HostState} :
    (dnsFileDownload arg blank t s).isSome ↔ Within (commandWrites .dnsFileDownload arg s) := by
  rw [commandWrites, within_append, within_append, within_string, within_string, and_assoc,
    ← scanDomainNameName_isSome arg s]
  refine isSome_bind ?_
  intro v hv
  obtain ⟨hdomain, hname⟩ := scanDomainNameName_names hv
  rw [← hdomain, ← hname]
  by_cases hshort : v.name.length < maxFileName
  · rw [if_pos hshort, askServer_isSome]
    exact (and_iff_left hshort).symm
  · rw [if_neg hshort]
    exact iff_of_false Bool.false_ne_true fun h => hshort h.2

theorem executeCommand_isSome (c : ManCommand) (arg : List Int8) (blank : Packet)
    (t : ReplyBook.Ticket ManCommand) (s : HostState) :
    (executeCommand c arg blank t s).isSome ↔ Within (commandWrites c arg s) := by
  rw [commandWrites_within]
  cases c with
  | displayHostState => exact isSome_ite
  | setHostDir => exact isSome_ite
  | ping => exact iff_of_true rfl trivial
  | unknown => exact iff_of_true rfl trivial
  | fileUpload =>
    refine (isSome_bind ?_).trans ((and_congr_left' (scanDstName_isSome arg s)).trans
      within_scanDstName)
    intro v hv
    rw [scanDstName_name hv]
    exact isSome_ite
  | fileDownload =>
    refine (isSome_bind ?_).trans ((and_congr_left' (scanDstName_isSome arg s)).trans
      within_scanDstName)
    intro v hv
    rw [Option.isSome_map, scanDstName_name hv]
    exact isSome_ite
  | dnsRegister => exact queryServer_isSome fun _ => rfl
  | dnsPing => exact queryServer_isSome fun _ => rfl
  | dnsLookup => exact queryServer_isSome fun _ => rfl
  | dnsFileDownload => exact dnsFileDownload_isSome.trans (commandWrites_within _ arg s)

theorem splitWrites_within (n : ℕ) : Within (splitWrites n) := by
  fun_induction splitWrites n with
  | case1 n _ ih => exact within_append.mpr ⟨within_fill.mpr (by decide), ih⟩
  | case2 n hshort => exact within_fill.mpr (Nat.le_of_not_lt hshort)

theorem pathOf_length (dir fname : List Int8) :
    (pathOf dir fname).length = dir.length + fname.length + 3 := by
  simp only [pathOf, List.length_append, List.length_cons, List.length_nil]
  omega

theorem within_path {dir fname : List Int8} :
    Within (fillString .name (pathOf dir fname)) ↔ PathFits dir fname := by
  rw [within_string, pathOf_length]
  exact Iff.rfl

theorem fileUploadSendWrites_within (fname : List Int8) (s : HostState) :
    Within (fileUploadSendWrites fname s) ↔ ∀ dir, s.dir = some dir → PathFits dir fname := by
  rw [fileUploadSendWrites]
  cases s.dir with
  | none => exact iff_of_true within_nil (fun _ h => by cases h)
  | some dir =>
    simp only [within_append, within_path, Option.some.injEq, forall_eq', and_iff_left_iff_imp]
    intro hpath
    split
    · exact within_nil
    · refine within_append.mpr ⟨within_fill.mpr ?_, splitWrites_within _⟩
      change fname.length ≤ 100
      simp only [PathFits, maxFileName] at hpath
      omega

theorem fileUploadRecvEndWrites_within (s : HostState) :
    Within (fileUploadRecvEndWrites s) ↔ ∀ dir string, s.dir = some dir →
      fileBufGetName s.fBufUpload = some string → PathFits dir (cString string) := by
  rw [fileUploadRecvEndWrites]
  split
  · next dir string hdir hname =>
    rw [within_path, hdir, hname]
    constructor
    · rintro h _ _ ⟨⟩ ⟨⟩
      exact h
    · exact fun h => h dir string rfl rfl
  · next hnone =>
    exact iff_of_true within_nil fun dir string hdir hname => (hnone dir string hdir hname).elim

def ShortName : HostJob → Prop
  | .dnsDownloadWaitForReply _ fname _ => fname.length < maxFileName
  | _ => True

theorem jobWrites_within {s : HostState} {job : HostJob} (hjob : ShortName job) :
    Within (jobWrites s job) ↔ JobFits s job := by
  cases job with
  | fileUploadSend fname dst => exact fileUploadSendWrites_within fname s
  | fileUploadRecvEnd p => exact fileUploadRecvEndWrites_within s
  | dnsDownloadWaitForReply t fname timer =>
    refine iff_of_true ?_ trivial
    rw [jobWrites]
    split
    · exact within_string.mpr hjob
    · exact within_nil
  | sendPktAllPorts => exact iff_of_true within_nil trivial
  | pingSendReply => exact iff_of_true within_nil trivial
  | pingWaitForReply => exact iff_of_true within_nil trivial
  | fileUploadRecvStart => exact iff_of_true within_nil trivial
  | fileUploadRecvMiddle => exact iff_of_true within_nil trivial
  | dnsRegisterWaitForReply => exact iff_of_true within_nil trivial
  | dnsLookupWaitForReply => exact iff_of_true within_nil trivial
  | dnsPingWaitForReply => exact iff_of_true within_nil trivial

def ShortNames (s : HostState) : Prop := ∀ job ∈ s.jobQ, ShortName job

theorem shortNames_init (garbage : HostState) : ShortNames (hostInit garbage) :=
  List.forall_mem_nil _

theorem shortName_command {c : ManCommand} {hostId dst : ℤ} {job : HostJob}
    (h : CommandJob c hostId dst job) : ShortName job := by
  cases h with
  | toDst => trivial
  | toServer => trivial
  | upload => trivial
  | wait hwait =>
    cases job with
    | dnsDownloadWaitForReply => exact hwait
    | _ => trivial

theorem shortName_next {hostId found : ℤ} {job next : HostJob}
    (h : NextJob hostId found job next) (hjob : ShortName job) : ShortName next := by
  cases h with
  | reply => trivial
  | part => trivial
  | again hagain =>
    cases hagain with
    | download => exact hjob
    | _ => trivial
  | toFound => trivial
  | pingWait => trivial

theorem shortNames_step {s u : HostState} {e : HostEvent} (h : HostStep s e u)
    (hs : ShortNames s) : ShortNames u := by
  intro job hjob
  rcases (hostStep_does h).jobQ job hjob with hold | hnew
  · exact hs job hold
  · cases hnew with
    | control => trivial
    | command hcommand => exact shortName_command hcommand
    | receive _ _ _ hpacket => cases hpacket <;> trivial
    | @execute _ _ head _ q hq hnext =>
      refine shortName_next hnext (hs head ?_)
      rw [hq]
      exact List.mem_cons_self

theorem shortNames_run {s u : HostState} {es : List HostEvent} (h : Run HostStep s es u)
    (hs : ShortNames s) : ShortNames u :=
  h.invariant (fun _ _ _ hstep ht => shortNames_step hstep ht) hs

theorem writes_within {s : HostState} {e : HostEvent} (hs : ShortNames s) (hturn : Turn s e) :
    Within (writes s e) ↔ TextsFit s e := by
  cases e with
  | control => exact iff_of_true within_nil trivial
  | command bytes blank =>
    cases bytes with
    | none => exact iff_of_true within_nil trivial
    | some bytes =>
      obtain ⟨hpos, hmax⟩ := hturn.2 bytes rfl
      rw [writes, within_append, commandWrites_within]
      exact and_iff_right (getManCommand_within hpos hmax s.manMsg)
  | receive n p =>
    rw [writes, TextsFit]
    split
    · next hcomes => rw [within_string, forall_prop_of_true hcomes]; exact Iff.rfl
    · next hnot => exact iff_of_true within_nil fun hcomes => absurd hcomes hnot
  | execute canOpen mem =>
    rw [writes, TextsFit]
    split
    · exact iff_of_true within_nil trivial
    · next job q hq =>
      refine jobWrites_within (hs job ?_)
      rw [hq]
      exact List.mem_cons_self

/-- In every run of a host, all writes stay in their arrays just when every text is short enough
for the array that it is copied to. -/
theorem host_writes_within (garbage : HostState) (es : List HostEvent) :
    Throughout (fun s e => Within (writes s e)) (hostInit garbage) es ↔
      Throughout TextsFit (hostInit garbage) es := by
  have hshort : ∀ {pre u}, Run HostStep (hostInit garbage) pre u → ShortNames u :=
    fun hrun => shortNames_run hrun (shortNames_init garbage)
  constructor
  · intro h pre e post u hes hrun hturn
    exact (writes_within (hshort hrun) hturn).mp (h pre e post u hes hrun hturn)
  · intro h pre e post u hes hrun hturn
    exact (writes_within (hshort hrun) hturn).mpr (h pre e post u hes hrun hturn)

theorem control_step (blank : Packet) {s : HostState} (h : s.phase = .top) :
    ∃ u, HostStep s (.control blank) u ∧ u.phase = .command :=
  ⟨_, if_pos h, rfl⟩

/-- A first command with texts that are never short enough. -/
theorem first_command_overruns (garbage : HostState) (blank : Packet) {bytes : List Int8}
    (hpos : 0 < bytes.length) (hmax : bytes.length ≤ manMsgLength)
    (hlong : ∀ u, ¬ TextsFit u (.command (some bytes) blank)) :
    ¬ Throughout (fun s e => Within (writes s e)) (hostInit garbage)
      [.control blank, .command (some bytes) blank] := by
  intro h
  obtain ⟨u, hstep, hphase⟩ := control_step blank (s := hostInit garbage) rfl
  have hturn : Turn u (.command (some bytes) blank) := by
    refine ⟨hphase, ?_⟩
    rintro _ ⟨⟩
    exact ⟨hpos, hmax⟩
  have hwithin := h [_] _ [] u rfl (.cons hstep (.nil u)) hturn
  have hshort := shortNames_step hstep (shortNames_init garbage)
  exact hlong u ((writes_within hshort hturn).mp hwithin)

theorem register_long {bytes word rest : List Int8}
    (hhand : ∀ stale, hand bytes stale = (114, word)) (hscan : scanWord word = some (word, rest))
    (hlong : maxDomainName ≤ word.length) (blank : Packet) (s : HostState) :
    ¬ TextsFit s (.command (some bytes) blank) := by
  obtain ⟨hletter, harg⟩ := Prod.mk.inj (hhand s.manMsg)
  intro h
  simp only [TextsFit, commandOf, argumentOf, hletter, harg] at h
  have hfits : DomainNameFits word s := h
  rw [DomainNameFits, hscan] at hfits
  exact absurd hfits (Nat.not_lt.mpr hlong)

/-- The command "r" with a name of 50 letters. -/
def longRegister : List Int8 := 114 :: charSpace :: List.replicate 50 97

theorem longRegister_hand (stale : ℕ → Int8) :
    hand longRegister stale = (114, List.replicate 50 97) := by
  rw [longRegister, hand_cons (by decide) (by decide)]
  decide +kernel

theorem longRegister_overruns :
    0 < longRegister.length ∧ longRegister.length ≤ manMsgLength ∧
      ¬ Throughout (fun s e => Within (writes s e)) (hostInit quietHost)
        [.control noPacket, .command (some longRegister) noPacket] := by
  have hscan : scanWord (List.replicate 50 97) = some (List.replicate 50 97, []) := by
    decide +kernel
  have hlong := register_long longRegister_hand hscan (by decide) noPacket
  exact ⟨by decide, by decide, first_command_overruns quietHost noPacket (by decide) (by decide)
    hlong⟩

end HostWrites
