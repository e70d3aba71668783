import NetSim.CommandDecoding

/-! The manager at its console, man_main of man.c. The characters that the user types are one text,
which getchar and scanf read in turn. The blocking reads of replies behind s, p, r, l and P are left
out here (ManagerSession has them), and so is what the manager prints that it has not read. A number
that scanf does not find is any value, as in NetConfig; an array that it does not fill has no
terminator to print up to, and the loop ends as undefined. -/
namespace ManagerConsole

open HostNode ManagerReplies CommandStream ScanText
open CStrings (text text_of_not_mem)

inductive UserCmd where
  | displayHostState | setHostDir | displayHost | changeHost | ping | fileUpload | fileDownload
  | dnsRegister | dnsLookup | dnsPing | dnsFileDownload | quit
  deriving DecidableEq, Repr

/-- The cases of the switch in man_get_user_cmd. -/
def userCmd (c : Int8) : Option UserCmd :=
  if c = 115 then some .displayHostState      -- 's'
  else if c = 109 then some .setHostDir       -- 'm'
  else if c = 104 then some .displayHost      -- 'h'
  else if c = 99 then some .changeHost        -- 'c'
  else if c = 112 then some .ping             -- 'p'
  else if c = 117 then some .fileUpload       -- 'u'
  else if c = 100 then some .fileDownload     -- 'd'
  else if c = 113 then some .quit             -- 'q'
  else if c = 114 then some .dnsRegister      -- 'r'
  else if c = 108 then some .dnsLookup        -- 'l'
  else if c = 80 then some .dnsPing           -- 'P'
  else if c = 68 then some .dnsFileDownload   -- 'D'
  else none

def cmdLetter : UserCmd → Int8
  | .displayHostState => 115
  | .setHostDir => 109
  | .displayHost => 104
  | .changeHost => 99
  | .ping => 112
  | .fileUpload => 117
  | .fileDownload => 100
  | .quit => 113
  | .dnsRegister => 114
  | .dnsLookup => 108
  | .dnsPing => 80
  | .dnsFileDownload => 68

theorem userCmd_cmdLetter (cmd : UserCmd) : userCmd (cmdLetter cmd) = some cmd := by
  cases cmd <;> rfl

theorem userCmd_eq_some {c : Int8} {cmd : UserCmd} (h : userCmd c = some cmd) :
    c = cmdLetter cmd := by
  have hcase : ∀ {p : Prop} [Decidable p] {x : UserCmd} {rest : Option UserCmd},
      (if p then some x else rest) = some cmd → p ∧ x = cmd ∨ rest = some cmd := by
    intro p _ x rest hif
    split at hif
    · next hp => exact .inl ⟨hp, Option.some.inj hif⟩
    · exact .inr hif
  unfold userCmd at h
  iterate 12
    rcases hcase h with ⟨hc, rfl⟩ | h
    · exact hc
  cases h

/-- getchar until the command is valid. Behind the end of the text getchar returns EOF, which is
no command, and man_get_user_cmd does not return. -/
def manGetUserCmd : List Int8 → Option (UserCmd × List Int8)
  | [] => none
  | c :: s =>
    if c = 32 ∨ c = 10 then manGetUserCmd s   -- get rid of junk from stdin
    else match userCmd c with
      | some cmd => some (cmd, s)
      | none => manGetUserCmd s

/-- `scanf("%s", name)` into an array of NAME_LENGTH bytes. There is no result when the word is too
long, and none when there is no word: the array is not initialised. -/
def scanfName (s : List Int8) : Option (List Int8 × List Int8) :=
  (scanWord s).bind fun r => if r.1.length < nameLength then some (text r.1, r.2) else none

def displayHostState (s : List Int8) : Option (Request × List Int8) := some (.displayHostState, s)

def setHostDir (s : List Int8) : Option (Request × List Int8) :=
  (scanfName s).map fun name => (.setHostDir name.1, name.2)

/-- `scanf("%d", &id)`; without a number the variable holds what it held. -/
def scanfId (unset : ℤ) (s : List Int8) : ℤ × List Int8 :=
  let id := takeInt s
  (id.1.getD unset, id.2)

def ping (unset : ℤ) (s : List Int8) : Option (Request × List Int8) :=
  let id := scanfId unset s
  some (.ping id.1, id.2)

def fileUpload (unset : ℤ) (s : List Int8) : Option (Request × List Int8) :=
  (scanfName s).map fun name =>
    let id := scanfId unset name.2
    (.fileUpload id.1 name.1, id.2)

def fileDownload (unset : ℤ) (s : List Int8) : Option (Request × List Int8) :=
  (scanfName s).map fun name =>
    let id := scanfId unset name.2
    (.fileDownload id.1 name.1, id.2)

def dnsRegister (s : List Int8) : Option (Request × List Int8) :=
  (scanfName s).map fun name => (.dnsRegister name.1, name.2)

def dnsLookup (s : List Int8) : Option (Request × List Int8) :=
  (scanfName s).map fun name => (.dnsLookup name.1, name.2)

def dnsPing (s : List Int8) : Option (Request × List Int8) :=
  (scanfName s).map fun name => (.dnsPing name.1, name.2)

def dnsFileDownload (s : List Int8) : Option (Request × List Int8) :=
  (scanfName s).bind fun fileName =>
    (scanfName fileName.2).map fun domainName =>
      (.dnsFileDownload domainName.1 fileName.1, domainName.2)

section

variable (hosts : List ℤ)

def changeHost (currHost : Fin hosts.length) (newHostId : ℤ) : Fin hosts.length :=
  (hosts.findFinIdx? fun id => id = newHostId).getD currHost

def displayHost (currHost : Fin hosts.length) : List (ℤ × Bool) :=
  hosts.map fun id => (id, id = hosts.get currHost)

inductive Entry where
  | request (r : Request)
  | displayHost
  | changeHost (newHostId : ℤ)

def readEntry (unset : ℤ) (cmd : UserCmd) (s : List Int8) : Option (Entry × List Int8) :=
  match cmd with
  | .displayHostState => (displayHostState s).map fun r => (.request r.1, r.2)
  | .setHostDir => (setHostDir s).map fun r => (.request r.1, r.2)
  | .displayHost => some (.displayHost, s)
  | .changeHost => some (.changeHost (scanfId unset s).1, (scanfId unset s).2)
  | .ping => (ping unset s).map fun r => (.request r.1, r.2)
  | .fileUpload => (fileUpload unset s).map fun r => (.request r.1, r.2)
  | .fileDownload => (fileDownload unset s).map fun r => (.request r.1, r.2)
  | .dnsRegister => (dnsRegister s).map fun r => (.request r.1, r.2)
  | .dnsLookup => (dnsLookup s).map fun r => (.request r.1, r.2)
  | .dnsPing => (dnsPing s).map fun r => (.request r.1, r.2)
  | .dnsFileDownload => (dnsFileDownload s).map fun r => (.request r.1, r.2)
  | .quit => none

/-- A message to the host behind a port, or the host list on the console. -/
inductive Action where
  | write (port : Fin hosts.length) (r : Request) (msg : List Int8)
  | display (list : List (ℤ × Bool))

def perform (currHost : Fin hosts.length) : Entry → Option (Fin hosts.length × List (Action hosts))
  | .request r => (message r).map fun msg => (currHost, [.write currHost r msg])
  | .displayHost => some (currHost, [.display (displayHost hosts currHost)])
  | .changeHost newHostId => some (changeHost hosts currHost newHostId, [])

/-- The loop returns at 'q', with the text behind it; or the text ends first; or an array is left or
printed that scanf has not filled. -/
inductive Ending where
  | quits (rest : List Int8)
  | starves
  | undefined

/-- The fuel is more than the text is long: every iteration takes a character. `unset i` is what the
number of iteration i holds before the scanf. -/
def mainLoop : ℕ → (ℕ → ℤ) → Fin hosts.length → List Int8 → List (Action hosts) × Ending
  | 0, _, _, _ => ([], .starves)
  | fuel + 1, unset, currHost, s =>
    match manGetUserCmd s with
    | none => ([], .starves)
    | some (cmd, args) =>
      if cmd = .quit then ([], .quits args)
      else
        match (readEntry (unset 0) cmd args).bind fun e =>
            (perform hosts currHost e.1).map fun a => (a, e.2) with
        | none => ([], .undefined)
        | some (a, rest) =>
          let r := mainLoop fuel (fun i => unset (i + 1)) a.1 rest
          (a.2 ++ r.1, r.2)

/-- man_main; the first port of the list is the current one. -/
def manMain (unset : ℕ → ℤ) (first : Fin hosts.length) (s : List Int8) :
    List (Action hosts) × Ending :=
  mainLoop hosts (s.length + 1) unset first s

end

def NoCommand (junk : List Int8) : Prop := ∀ b ∈ junk, userCmd b = none

def ReadsName (name s rest : List Int8) : Prop :=
  ∃ blank word, Blank blank ∧ Solid word ∧ word.length < nameLength ∧
    Stops (fun b => !isSpace b) rest ∧ s = blank ++ (word ++ rest) ∧ name = text word

def ReadsId (id : ℤ) (s rest : List Int8) : Prop :=
  ∃ blank bytes, Blank blank ∧ Numeral id bytes ∧ Stops isDigit rest ∧ s = blank ++ (bytes ++ rest)

/-- A number, or none and the variable holds what it held. -/
def ScansId (unset id : ℤ) (s rest : List Int8) : Prop :=
  ReadsId id s rest ∨ NoNumeral s rest ∧ id = unset

inductive Args (unset : ℤ) : UserCmd → Entry → List Int8 → List Int8 → Prop where
  | displayHostState {s} : Args unset .displayHostState (.request .displayHostState) s s
  | displayHost {s} : Args unset .displayHost .displayHost s s
  | changeHost {id s rest} : ScansId unset id s rest →
      Args unset .changeHost (.changeHost id) s rest
  | setHostDir {name s rest} : ReadsName name s rest →
      Args unset .setHostDir (.request (.setHostDir name)) s rest
  | ping {id s rest} : ScansId unset id s rest → Args unset .ping (.request (.ping id)) s rest
  | fileUpload {name id s mid rest} : ReadsName name s mid → ScansId unset id mid rest →
      Args unset .fileUpload (.request (.fileUpload id name)) s rest
  | fileDownload {name id s mid rest} : ReadsName name s mid → ScansId unset id mid rest →
      Args unset .fileDownload (.request (.fileDownload id name)) s rest
  | dnsRegister {name s rest} : ReadsName name s rest →
      Args unset .dnsRegister (.request (.dnsRegister name)) s rest
  | dnsLookup {name s rest} : ReadsName name s rest →
      Args unset .dnsLookup (.request (.dnsLookup name)) s rest
  | dnsPing {name s rest} : ReadsName name s rest →
      Args unset .dnsPing (.request (.dnsPing name)) s rest
  | dnsFileDownload {fileName domainName s mid rest} : ReadsName fileName s mid →
      ReadsName domainName mid rest →
      Args unset .dnsFileDownload (.request (.dnsFileDownload domainName fileName)) s rest

/-- The entries that a text is made of, with what is typed between them. -/
inductive Script : (ℕ → ℤ) → List Entry → Ending → List Int8 → Prop where
  | quit {unset junk rest} : NoCommand junk →
      Script unset [] (.quits rest) (junk ++ cmdLetter .quit :: rest)
  | starve {unset junk} : NoCommand junk → Script unset [] .starves junk
  | entry {unset junk cmd e args mid es ending} : NoCommand junk → Args (unset 0) cmd e args mid →
      Script (fun i => unset (i + 1)) es ending mid →
      Script unset (e :: es) ending (junk ++ cmdLetter cmd :: args)

section

variable {s rest : List Int8} {cmd : UserCmd} {e : Entry} {unset : ℤ}

theorem scanInt_iff {id : ℤ} : scanInt s = some (id, rest) ↔ ReadsId id s rest := by
  rw [scanInt_eq]
  constructor
  · intro h
    obtain ⟨z, hz, heq⟩ := Option.map_eq_some_iff.mp h
    obtain ⟨blank, bytes, hblank, hbytes, hstops, hs⟩ := takeInt_some hz
    cases heq
    exact ⟨blank, bytes, hblank, hbytes, hstops, hs⟩
  · rintro ⟨blank, bytes, hblank, hbytes, hstops, rfl⟩
    rw [takeInt_numeral hbytes hblank hstops]
    rfl

theorem scanfName_iff {name : List Int8} :
    scanfName s = some (name, rest) ↔ ReadsName name s rest := by
  rw [scanfName, scanWord_eq]
  constructor
  · intro h
    obtain ⟨r, hr, h⟩ := Option.bind_eq_some_iff.mp h
    obtain ⟨word, hword, rfl⟩ := Option.map_eq_some_iff.mp hr
    obtain ⟨hfits, h⟩ := Option.ite_none_right_eq_some.mp h
    obtain ⟨blank, hblank, hsolid, hstops, hs⟩ := takeWord_some hword
    cases h
    exact ⟨blank, word, hblank, hsolid, hfits, hstops, hs, rfl⟩
  · rintro ⟨blank, word, hblank, hsolid, hfits, hstops, rfl, rfl⟩
    rw [takeWord_solid hsolid hblank hstops]
    exact if_pos hfits

theorem ReadsName.suffix {name : List Int8} (h : ReadsName name s rest) : rest <:+ s := by
  obtain ⟨blank, word, -, -, -, -, rfl, -⟩ := h
  rw [← List.append_assoc]
  exact List.suffix_append _ _

theorem scanfId_iff {unset id : ℤ} : scanfId unset s = (id, rest) ↔ ScansId unset id s rest := by
  rw [scanfId]
  constructor
  · intro h
    cases h
    cases hid : (takeInt s).1 with
    | some z =>
      obtain ⟨blank, bytes, hblank, hbytes, hstops, hs⟩ := takeInt_some hid
      exact .inl ⟨blank, bytes, hblank, hbytes, hstops, hs⟩
    | none => exact .inr ⟨noNumeral_of_takeInt hid, rfl⟩
  · rintro (⟨blank, bytes, hblank, hbytes, hstops, rfl⟩ | ⟨hnone, rfl⟩)
    · rw [takeInt_numeral hbytes hblank hstops]
      rfl
    · rw [takeInt_of_noNumeral hnone]
      rfl

theorem ScansId.suffix {unset id : ℤ} (h : ScansId unset id s rest) : rest <:+ s := by
  rcases h with ⟨blank, bytes, -, -, -, rfl⟩ | ⟨⟨blank, bytes, -, -, -, rfl⟩, -⟩
  · rw [← List.append_assoc]
    exact List.suffix_append _ _
  · rw [← List.append_assoc]
    exact List.suffix_append _ _

theorem Args.suffix (h : Args unset cmd e s rest) : rest <:+ s := by
  cases h with
  | displayHostState | displayHost => exact List.suffix_refl _
  | changeHost hid | ping hid => exact hid.suffix
  | setHostDir hname | dnsRegister hname | dnsLookup hname | dnsPing hname => exact hname.suffix
  | fileUpload hname hid | fileDownload hname hid => exact hid.suffix.trans hname.suffix
  | dnsFileDownload hfile hdomain => exact hdomain.suffix.trans hfile.suffix

theorem named_reads (mk : List Int8 → Request)
    (h : ((scanfName s).map fun name => (mk name.1, name.2)).map
      (fun r => (Entry.request r.1, r.2)) = some (e, rest)) :
    ∃ name, ReadsName name s rest ∧ e = .request (mk name) := by
  obtain ⟨r, hr, h⟩ := Option.map_eq_some_iff.mp h
  obtain ⟨⟨name, mid⟩, hname, rfl⟩ := Option.map_eq_some_iff.mp hr
  cases h
  exact ⟨name, scanfName_iff.mp hname, rfl⟩

theorem named_id_reads (mk : ℤ → List Int8 → Request)
    (h : ((scanfName s).map fun name =>
        let id := scanfId unset name.2
        (mk id.1 name.1, id.2)).map (fun r => (Entry.request r.1, r.2)) = some (e, rest)) :
    ∃ name id mid, ReadsName name s mid ∧ ScansId unset id mid rest ∧
      e = .request (mk id name) := by
  obtain ⟨r, hr, h⟩ := Option.map_eq_some_iff.mp h
  obtain ⟨⟨name, mid⟩, hname, rfl⟩ := Option.map_eq_some_iff.mp hr
  cases h
  exact ⟨name, _, mid, scanfName_iff.mp hname, scanfId_iff.mp rfl, rfl⟩

theorem readEntry_args (h : readEntry unset cmd s = some (e, rest)) : Args unset cmd e s rest := by
  cases cmd with
  | displayHostState =>
    cases h
    exact .displayHostState
  | displayHost =>
    cases h
    exact .displayHost
  | quit => cases h
  | changeHost =>
    cases h
    exact .changeHost (scanfId_iff.mp rfl)
  | ping =>
    cases h
    exact .ping (scanfId_iff.mp rfl)
  | setHostDir =>
    obtain ⟨name, hname, rfl⟩ := named_reads .setHostDir h
    exact .setHostDir hname
  | dnsRegister =>
    obtain ⟨name, hname, rfl⟩ := named_reads .dnsRegister h
    exact .dnsRegister hname
  | dnsLookup =>
    obtain ⟨name, hname, rfl⟩ := named_reads .dnsLookup h
    exact .dnsLookup hname
  | dnsPing =>
    obtain ⟨name, hname, rfl⟩ := named_reads .dnsPing h
    exact .dnsPing hname
  | fileUpload =>
    obtain ⟨name, id, mid, hname, hid, rfl⟩ := named_id_reads .fileUpload h
    exact .fileUpload hname hid
  | fileDownload =>
    obtain ⟨name, id, mid, hname, hid, rfl⟩ := named_id_reads .fileDownload h
    exact .fileDownload hname hid
  | dnsFileDownload =>
    obtain ⟨r, hr, h⟩ := Option.map_eq_some_iff.mp h
    obtain ⟨⟨fileName, mid⟩, hfile, hr⟩ := Option.bind_eq_some_iff.mp hr
    obtain ⟨⟨domainName, last⟩, hdomain, rfl⟩ := Option.map_eq_some_iff.mp hr
    cases h
    exact .dnsFileDownload (scanfName_iff.mp hfile) (scanfName_iff.mp hdomain)

theorem reads_named (mk : List Int8 → Request) {name : List Int8} (h : ReadsName name s rest) :
    ((scanfName s).map fun name => (mk name.1, name.2)).map (fun r => (Entry.request r.1, r.2)) =
      some (.request (mk name), rest) := by
  rw [scanfName_iff.mpr h]
  rfl

theorem reads_named_id (mk : ℤ → List Int8 → Request) {name mid : List Int8} {id : ℤ}
    (hname : ReadsName name s mid) (hid : ScansId unset id mid rest) :
    ((scanfName s).map fun name =>
      let id := scanfId unset name.2
      (mk id.1 name.1, id.2)).map (fun r => (Entry.request r.1, r.2)) =
        some (.request (mk id name), rest) := by
  rw [scanfName_iff.mpr hname, Option.map_some, scanfId_iff.mpr hid]
  rfl

theorem Args.readEntry (h : Args unset cmd e s rest) : readEntry unset cmd s = some (e, rest) := by
  cases h with
  | displayHostState | displayHost => rfl
  | changeHost hid =>
    rw [ManagerConsole.readEntry, scanfId_iff.mpr hid]
  | ping hid =>
    rw [ManagerConsole.readEntry, ManagerConsole.ping, scanfId_iff.mpr hid]
    rfl
  | setHostDir hname => exact reads_named .setHostDir hname
  | dnsRegister hname => exact reads_named .dnsRegister hname
  | dnsLookup hname => exact reads_named .dnsLookup hname
  | dnsPing hname => exact reads_named .dnsPing hname
  | fileUpload hname hid => exact reads_named_id .fileUpload hname hid
  | fileDownload hname hid => exact reads_named_id .fileDownload hname hid
  | dnsFileDownload hfile hdomain =>
    rw [ManagerConsole.readEntry, ManagerConsole.dnsFileDownload, scanfName_iff.mpr hfile,
      Option.bind_some, scanfName_iff.mpr hdomain]
    rfl

theorem Args.not_quit (h : Args unset cmd e s rest) : cmd ≠ .quit := by
  rintro rfl
  cases h

theorem userCmd_blank {c : Int8} (h : c = 32 ∨ c = 10) : userCmd c = none := by
  rcases h with rfl | rfl <;> rfl

theorem manGetUserCmd_none : manGetUserCmd s = none ↔ NoCommand s := by
  induction s with
  | nil => simp [manGetUserCmd, NoCommand]
  | cons c s ih =>
    rw [NoCommand, List.forall_mem_cons, manGetUserCmd]
    split
    · next hblank =>
      rw [ih]
      exact ⟨fun h => ⟨userCmd_blank hblank, h⟩, And.right⟩
    · cases hc : userCmd c with
      | none => simpa [NoCommand] using ih
      | some cmd => simp

theorem manGetUserCmd_some :
    manGetUserCmd s = some (cmd, rest) ↔
      ∃ junk, NoCommand junk ∧ s = junk ++ cmdLetter cmd :: rest := by
  induction s with
  | nil => simp [manGetUserCmd]
  | cons c s ih =>
    constructor
    · intro h
      have hjunk : userCmd c = none → manGetUserCmd s = some (cmd, rest) →
          ∃ junk, NoCommand junk ∧ c :: s = junk ++ cmdLetter cmd :: rest := by
        intro hc hs
        obtain ⟨junk, hno, rfl⟩ := ih.mp hs
        exact ⟨c :: junk, List.forall_mem_cons.mpr ⟨hc, hno⟩, rfl⟩
      rw [manGetUserCmd] at h
      split at h
      · next hblank => exact hjunk (userCmd_blank hblank) h
      · cases hc : userCmd c with
        | none =>
          rw [hc] at h
          exact hjunk hc h
        | some cmd' =>
          rw [hc] at h
          cases h
          exact ⟨[], List.forall_mem_nil _, by rw [userCmd_eq_some hc]; rfl⟩
    · rintro ⟨junk, hno, hs⟩
      cases junk with
      | nil =>
        cases hs
        have hletter := userCmd_cmdLetter cmd
        have hblank : ¬ (cmdLetter cmd = 32 ∨ cmdLetter cmd = 10) := by
          intro hb
          rw [userCmd_blank hb] at hletter
          cases hletter
        rw [manGetUserCmd, if_neg hblank, hletter]
      | cons b junk =>
        cases hs
        obtain ⟨hb, hrest⟩ := List.forall_mem_cons.mp hno
        rw [manGetUserCmd, hb, ih.mpr ⟨junk, hrest, rfl⟩]
        exact ite_self _

end

section

variable {hosts : List ℤ} {s : List Int8} {actions : List (Action hosts)} {ending : Ending}
  {unset : ℕ → ℤ}

/-- What the entries do, one after the other. -/
def performs (hosts : List ℤ) : Fin hosts.length → List Entry → Option (List (Action hosts))
  | _, [] => some []
  | currHost, e :: es =>
    (perform hosts currHost e).bind fun a => (performs hosts a.1 es).map (a.2 ++ ·)

theorem mainLoop_entry {fuel : ℕ} {currHost next : Fin hosts.length} {cmd : UserCmd} {e : Entry}
    {junk args mid : List Int8} {now : List (Action hosts)} (hjunk : NoCommand junk)
    (hargs : Args (unset 0) cmd e args mid) (hnow : perform hosts currHost e = some (next, now)) :
    mainLoop hosts (fuel + 1) unset currHost (junk ++ cmdLetter cmd :: args) =
      (now ++ (mainLoop hosts fuel (fun i => unset (i + 1)) next mid).1,
        (mainLoop hosts fuel (fun i => unset (i + 1)) next mid).2) := by
  have hcmd : manGetUserCmd (junk ++ cmdLetter cmd :: args) = some (cmd, args) :=
    manGetUserCmd_some.mpr ⟨junk, hjunk, rfl⟩
  simp only [mainLoop, hcmd, if_neg hargs.not_quit, hargs.readEntry, hnow, Option.bind_some,
    Option.map_some]

theorem script_runs {es : List Entry} (h : Script unset es ending s) {fuel : ℕ}
    (hfuel : s.length < fuel) {currHost : Fin hosts.length}
    (hacts : performs hosts currHost es = some actions) :
    mainLoop hosts fuel unset currHost s = (actions, ending) := by
  induction h generalizing fuel currHost actions with
  | @quit _ junk rest hjunk =>
    cases hacts
    obtain ⟨n, rfl⟩ : ∃ n, fuel = n + 1 := ⟨fuel - 1, by omega⟩
    have hcmd : manGetUserCmd (junk ++ cmdLetter .quit :: rest) = some (.quit, rest) :=
      manGetUserCmd_some.mpr ⟨junk, hjunk, rfl⟩
    simp only [mainLoop, hcmd, if_true]
  | starve hjunk =>
    cases hacts
    obtain ⟨n, rfl⟩ : ∃ n, fuel = n + 1 := ⟨fuel - 1, by omega⟩
    simp only [mainLoop, manGetUserCmd_none.mpr hjunk]
  | @entry unset junk cmd e args mid es ending hjunk hargs _ ih =>
    obtain ⟨n, rfl⟩ : ∃ n, fuel = n + 1 := ⟨fuel - 1, by omega⟩
    obtain ⟨⟨next, now⟩, hnow, hrest⟩ := Option.bind_eq_some_iff.mp hacts
    obtain ⟨later, hlater, rfl⟩ := Option.map_eq_some_iff.mp hrest
    have hshort := hargs.suffix.length_le
    rw [List.length_append, List.length_cons] at hfuel
    rw [mainLoop_entry hjunk hargs hnow, ih (by omega) hlater]

theorem runs_script {fuel : ℕ} (hfuel : s.length < fuel) {currHost : Fin hosts.length}
    (h : mainLoop hosts fuel unset currHost s = (actions, ending))
    (hdefined : ending ≠ .undefined) :
    ∃ es, Script unset es ending s ∧ performs hosts currHost es = some actions := by
  induction fuel generalizing s currHost actions ending unset with
  | zero => omega
  | succ fuel ih =>
    rw [mainLoop] at h
    cases hcmd : manGetUserCmd s with
    | none =>
      rw [hcmd] at h
      cases h
      exact ⟨[], .starve (manGetUserCmd_none.mp hcmd), rfl⟩
    | some r =>
      obtain ⟨cmd, args⟩ := r
      obtain ⟨junk, hjunk, rfl⟩ := manGetUserCmd_some.mp hcmd
      rw [hcmd] at h
      simp only at h
      by_cases hquit : cmd = .quit
      · rw [if_pos hquit] at h
        cases h
        rw [hquit]
        exact ⟨[], .quit hjunk, rfl⟩
      · rw [if_neg hquit] at h
        cases hread : (readEntry (unset 0) cmd args).bind fun e =>
            (perform hosts currHost e.1).map fun a => (a, e.2) with
        | none =>
          rw [hread] at h
          cases h
          exact absurd rfl hdefined
        | some r =>
          rw [hread] at h
          obtain ⟨⟨e, mid⟩, he, hr⟩ := Option.bind_eq_some_iff.mp hread
          obtain ⟨⟨next, now⟩, hnow, rfl⟩ := Option.map_eq_some_iff.mp hr
          cases h
          have hargs := readEntry_args he
          have hshort := hargs.suffix.length_le
          rw [List.length_append, List.length_cons] at hfuel
          have hlt : mid.length < fuel := by omega
          obtain ⟨es, hscript, hacts⟩ := ih hlt rfl hdefined
          refine ⟨e :: es, .entry hjunk hargs hscript, ?_⟩
          rw [performs, hnow, Option.bind_some, hacts, Option.map_some]

/-- The manager does what the user types: it gets to an end with some actions exactly if the text
is made of entries, whatever is typed between them, that do these actions. -/
theorem console_does_what_is_typed (first : Fin hosts.length) (hdefined : ending ≠ .undefined) :
    manMain hosts unset first s = (actions, ending) ↔
      ∃ es, Script unset es ending s ∧ performs hosts first es = some actions := by
  constructor
  · intro h
    exact runs_script (Nat.lt_succ_self _) h hdefined
  · rintro ⟨es, hscript, hacts⟩
    exact script_runs hscript (Nat.lt_succ_self _) hacts

/-- "c 9 c 7 m ab h q": no host has the id 9, and the directory is for the second one. -/
def twoHosts : List Int8 := toBytes "c 9 c 7 m ab h q"

theorem twoHosts_runs (unset : ℕ → ℤ) :
    manMain [4, 7] unset 0 twoHosts =
      ([.write 1 (.setHostDir [97, 98]) (toBytes "m ab"), .display [(4, false), (7, true)]],
        .quits []) := by
  rfl

theorem console_does_what_is_typed_twoHosts :
    ∃ es, Script (fun _ => 0) es (.quits []) twoHosts ∧
      performs [4, 7] 0 es = some [.write 1 (.setHostDir [97, 98]) (toBytes "m ab"),
        .display [(4, false), (7, true)]] :=
  (console_does_what_is_typed 0 (by rintro ⟨⟩)).mp (twoHosts_runs _)

theorem ReadsName.word {name s rest : List Int8} (h : ReadsName name s rest) (hzero : 0 ∉ s) :
    Word name := by
  obtain ⟨blank, word, -, ⟨hne, hsolid⟩, -, -, rfl, rfl⟩ := h
  have hword : 0 ∉ word := by
    intro hmem
    apply hzero
    exact List.mem_append_right _ (List.mem_append_left _ hmem)
  rw [text_of_not_mem hword]
  refine ⟨hne, fun b hb => ⟨?_, hsolid b hb⟩⟩
  rintro rfl
  exact hword hb

theorem Args.typed {unset : ℤ} {cmd : UserCmd} {r : Request} {s rest msg : List Int8}
    (h : Args unset cmd (.request r) s rest) (hzero : 0 ∉ s) (hmsg : message r = some msg) :
    Typed r := by
  refine ⟨by rw [hmsg]; rfl, ?_⟩
  cases h with
  | displayHostState | ping hid => trivial
  | setHostDir hname | dnsRegister hname | dnsLookup hname | dnsPing hname =>
    exact hname.word hzero
  | fileUpload hname hid | fileDownload hname hid => exact hname.word hzero
  | dnsFileDownload hfile hdomain =>
    exact ⟨hdomain.word fun hmem => hzero (hfile.suffix.subset hmem), hfile.word hzero⟩

theorem perform_message {currHost next port : Fin hosts.length} {e : Entry} {r : Request}
    {msg : List Int8} (h : perform hosts currHost e = some (next, actions))
    (hwrite : .write port r msg ∈ actions) :
    e = .request r ∧ port = currHost ∧ message r = some msg := by
  cases e with
  | request r' =>
    obtain ⟨bytes, hbytes, h⟩ := Option.map_eq_some_iff.mp h
    cases h
    cases List.mem_singleton.mp hwrite
    exact ⟨rfl, rfl, hbytes⟩
  | displayHost =>
    cases h
    cases List.mem_singleton.mp hwrite
  | changeHost newHostId =>
    cases h
    cases hwrite

theorem mainLoop_write {fuel : ℕ} {currHost port : Fin hosts.length} {r : Request}
    {msg : List Int8} (h : .write port r msg ∈ (mainLoop hosts fuel unset currHost s).1) :
    message r = some msg ∧
      ∃ id cmd args rest, args <:+ s ∧ Args id cmd (.request r) args rest := by
  induction fuel generalizing s currHost unset with
  | zero => cases h
  | succ fuel ih =>
    rw [mainLoop] at h
    cases hcmd : manGetUserCmd s with
    | none =>
      rw [hcmd] at h
      cases h
    | some x =>
      obtain ⟨cmd, args⟩ := x
      obtain ⟨junk, hjunk, rfl⟩ := manGetUserCmd_some.mp hcmd
      have hsuffix : args <:+ junk ++ cmdLetter cmd :: args :=
        (List.suffix_cons _ _).trans (List.suffix_append _ _)
      rw [hcmd] at h
      simp only at h
      by_cases hquit : cmd = .quit
      · rw [if_pos hquit] at h
        cases h
      · rw [if_neg hquit] at h
        cases hread : (readEntry (unset 0) cmd args).bind fun e =>
            (perform hosts currHost e.1).map fun a => (a, e.2) with
        | none =>
          rw [hread] at h
          cases h
        | some x =>
          rw [hread] at h
          obtain ⟨⟨e, mid⟩, he, hx⟩ := Option.bind_eq_some_iff.mp hread
          obtain ⟨⟨next, now⟩, hnow, rfl⟩ := Option.map_eq_some_iff.mp hx
          have hargs := readEntry_args he
          rcases List.mem_append.mp h with hfirst | hlater
          · obtain ⟨rfl, -, hmsg⟩ := perform_message hnow hfirst
            exact ⟨hmsg, _, cmd, args, mid, hsuffix, hargs⟩
          · obtain ⟨hmsg, id, cmd', args', rest, hin, hargs'⟩ := ih hlater
            exact ⟨hmsg, id, cmd', args', rest, hin.trans (hargs.suffix.trans hsuffix), hargs'⟩

theorem manMain_write {first port : Fin hosts.length} {r : Request} {msg : List Int8}
    (hzero : 0 ∉ s) (h : .write port r msg ∈ (manMain hosts unset first s).1) : Typed r := by
  obtain ⟨hmsg, _, cmd, args, rest, hsuffix, hargs⟩ := mainLoop_write h
  apply hargs.typed _ hmsg
  intro hmem
  exact hzero (hsuffix.subset hmem)

/-- Whatever is typed and however the loop ends: a message that is written is read by the host as
the command and the argument that were typed, over any contents of `man_msg`. -/
theorem typed_messages_are_understood (first : Fin hosts.length) (hzero : 0 ∉ s)
    {port : Fin hosts.length} {r : Request} {msg : List Int8}
    (h : .write port r msg ∈ (manMain hosts unset first s).1) (stale : ℕ → Int8) :
    Typed r ∧ hand msg stale = spelled r := by
  have htyped := manMain_write hzero h
  obtain ⟨hmsg, -⟩ := mainLoop_write h
  refine ⟨htyped, ?_⟩
  have hbytes : bytesOf r = msg := by rw [bytesOf, hmsg, Option.getD_some]
  rw [← hbytes]
  exact hand_bytesOf htyped stale

theorem typed_messages_are_understood_twoHosts :
    hand (toBytes "m ab") (fun _ => 32) = (109, [97, 98]) := by
  have hmem : .write 1 (.setHostDir [97, 98]) (toBytes "m ab") ∈
      (manMain [4, 7] (fun _ => 0) 0 twoHosts).1 := by
    rw [twoHosts_runs]
    exact List.mem_cons_self
  exact (typed_messages_are_understood 0 (by decide) hmem fun _ => 32).2

end

end ManagerConsole
