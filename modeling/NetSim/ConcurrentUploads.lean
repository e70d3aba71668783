import NetSim.FileUpload
import NetSim.EventRuns

/-! Several uploads to one host at a time. Host.c keeps one upload buffer and never looks at
the source of an upload packet, so the packets of two senders fill the same buffer. -/
namespace ConcurrentUploads

open PacketCodec FileBuffer FileSplit FileUpload EventRuns

/-- A file the receiver has written: its path and its contents. -/
abbrev File := List Int8 × List Int8

def fileWritten (canOpen : List Int8 → Bool) (h : Receiver) (p : Packet) : Option File :=
  if p.dst.toInt = h.hostId ∧ p.type = pktFileUploadEnd then
    (payloadBytes p).bind fun bytes =>
      h.dir.bind fun d =>
        (fileBufGetName (fileBufAdd h.fBufUpload bytes).1).bind fun string =>
          (printPath d (cString string)).bind fun path =>
            if canOpen path then some (path, (drain (fileBufAdd h.fBufUpload bytes).1).2)
            else none
  else none

/-- `deliverAll` with the files written on the way. -/
def deliverLog (canOpen : List Int8 → Bool) :
    Receiver → List Packet → (ℕ → Memory) → Option (Receiver × List File)
  | h, [], _ => some (h, [])
  | h, p :: ps, mem =>
    match packetRecv (packetSend p) (mem 0).stale (mem 0).prior with
    | none => deliverLog canOpen h ps fun i => mem (i + 1)
    | some r =>
      (handleUpload canOpen h r).bind fun h' =>
        (deliverLog canOpen h' ps fun i => mem (i + 1)).map fun q =>
          (q.1, (fileWritten canOpen h r).toList ++ q.2)

theorem deliverLog_fst (canOpen : List Int8 → Bool) (h : Receiver) (ps : List Packet)
    (mem : ℕ → Memory) :
    (deliverLog canOpen h ps mem).map Prod.fst = deliverAll canOpen h ps mem := by
  induction ps generalizing h mem with
  | nil => rfl
  | cons p ps ih =>
    rw [deliverLog, deliverAll]
    cases packetRecv (packetSend p) (mem 0).stale (mem 0).prior with
    | none => simpa using ih h _
    | some r =>
      simp only
      cases handleUpload canOpen h r with
      | none => rfl
      | some h' =>
        simp only [Option.bind_some, Option.map_map]
        exact ih h' _

theorem handleUpload_disk {canOpen : List Int8 → Bool} {h h' : Receiver} {p : Packet}
    (hh : handleUpload canOpen h p = some h') :
    h'.disk = match fileWritten canOpen h p with
      | none => h.disk
      | some f => Function.update h.disk f.1 (some f.2) := by
  unfold handleUpload at hh
  by_cases hdst : p.dst.toInt = h.hostId
  · rw [if_pos hdst] at hh
    by_cases hs : p.type = pktFileUploadStart
    · rw [if_pos hs] at hh
      obtain ⟨bytes, _, rfl⟩ := Option.map_eq_some_iff.mp hh
      have hne : p.type ≠ pktFileUploadEnd := by rw [hs]; decide
      simp [fileWritten, hne]
    rw [if_neg hs] at hh
    by_cases he : p.type = pktFileUploadEnd
    · rw [if_pos he, recvEnd] at hh
      obtain ⟨bytes, hb, hh⟩ := Option.bind_eq_some_iff.mp hh
      cases hdir : h.dir with
      | none =>
        rw [hdir] at hh
        cases hh
        simp [fileWritten, hdst, he, hb, hdir]
      | some d =>
        rw [hdir] at hh
        obtain ⟨string, hname, hh⟩ := Option.bind_eq_some_iff.mp hh
        obtain ⟨path, hpath, hh⟩ := Option.map_eq_some_iff.mp hh
        by_cases hc : canOpen path = true
        · rw [if_pos hc] at hh
          cases hh
          simp [fileWritten, hdst, he, hb, hdir, hname, hpath, hc]
        · rw [if_neg hc] at hh
          cases hh
          simp [fileWritten, hdst, he, hb, hdir, hname, hpath, hc]
    rw [if_neg he] at hh
    by_cases hm : p.type = pktFileUploadMiddle
    · rw [if_pos hm] at hh
      obtain ⟨bytes, _, rfl⟩ := Option.map_eq_some_iff.mp hh
      simp [fileWritten, he]
    · rw [if_neg hm] at hh
      cases hh
      simp [fileWritten, he]
  · rw [if_neg hdst] at hh
    cases hh
    simp [fileWritten, hdst]

inductive Piece where
  | start (fname : List Int8)
  | middle (bytes : List Int8)
  | last (bytes : List Int8)

def Piece.type : Piece → Int8
  | .start _ => pktFileUploadStart
  | .middle _ => pktFileUploadMiddle
  | .last _ => pktFileUploadEnd

def Piece.bytes : Piece → List Int8
  | .start b => b
  | .middle b => b
  | .last b => b

/-- The name and the bytes of the upload that the receiver believes to be in. -/
structure Inbox where
  name : List Int8
  bytes : List Int8

def Inbox.step (canOpen : List Int8 → Bool) (rdir : List Int8) (b : Inbox) :
    Piece → Inbox × List File
  | .start fname => (⟨fname, []⟩, [])
  | .middle l => (⟨b.name, (b.bytes ++ l).take maxFileBuffer⟩, [])
  | .last l =>
    if canOpen (pathOf rdir b.name) then
      (⟨b.name, []⟩, [(pathOf rdir b.name, (b.bytes ++ l).take maxFileBuffer)])
    else (⟨b.name, (b.bytes ++ l).take maxFileBuffer⟩, [])

def Inbox.run (canOpen : List Int8 → Bool) (rdir : List Int8) :
    Inbox → List Piece → Inbox × List File
  | b, [] => (b, [])
  | b, x :: xs =>
    let r := b.step canOpen rdir x
    let q := Inbox.run canOpen rdir r.1 xs
    (q.1, r.2 ++ q.2)

variable {canOpen : List Int8 → Bool} {rdir : List Int8}

theorem Inbox.run_append (b : Inbox) (xs ys : List Piece) :
    b.run canOpen rdir (xs ++ ys) =
      (((b.run canOpen rdir xs).1.run canOpen rdir ys).1,
        (b.run canOpen rdir xs).2 ++ ((b.run canOpen rdir xs).1.run canOpen rdir ys).2) := by
  induction xs generalizing b with
  | nil => rfl
  | cons x xs ih => simp only [List.cons_append, Inbox.run, ih, List.append_assoc]

/-- A packet for the receiver that carries a piece. -/
structure Shows (dst : Int8) (x : Piece) (p : Packet) : Prop where
  dst : p.dst = dst
  type : p.type = x.type
  fits : Fits p
  bytes : payloadBytes p = some x.bytes

/-- A name that prints to a path in the directory. -/
structure GoodName (rdir fname : List Int8) : Prop where
  text : ∀ c ∈ fname, c ≠ 0
  short : (pathOf rdir fname).length < maxFileName

theorem GoodName.path {fname : List Int8} (h : GoodName rdir fname) :
    printPath rdir (cString fname) = some (pathOf rdir fname) := by
  rw [cString_of_ne h.text, printPath, if_pos h.short]

/-- The receiver is host `dst` with a directory, and its buffer is the inbox. -/
structure Inboxed (dst : Int8) (rdir : List Int8) (h : Receiver) (b : Inbox) : Prop where
  host : dst.toInt = h.hostId
  dir : h.dir = some rdir
  receiving : Receiving h b.name b.bytes
  good : GoodName rdir b.name

theorem Shows.length {dst : Int8} {x : Piece} {p : Packet} (h : Shows dst x p) :
    p.length = x.bytes.length ∧ x.bytes.length ≤ payloadMax := by
  obtain ⟨h0, h1⟩ := h.fits
  have hb := h.bytes
  rw [payloadBytes, if_pos h1] at hb
  have hlen := congrArg List.length (Option.some.inj hb)
  rw [List.length_take, List.length_ofFn] at hlen
  constructor <;> omega

theorem take_room (q l : List Int8) (hq : q.length ≤ maxFileBuffer) :
    q ++ l.take (maxFileBuffer - q.length) = (q ++ l).take maxFileBuffer := by
  rw [List.take_append, List.take_of_length_le hq]

theorem handleUpload_shows {dst : Int8} {x : Piece} {p : Packet} (hs : Shows dst x p)
    {h : Receiver} (hhost : dst.toInt = h.hostId) (prior : Fin payloadMax → Int8) :
    handleUpload canOpen h (p.deliver prior) =
      match x with
      | .start _ => recvStart h (p.deliver prior)
      | .middle _ => recvMiddle h (p.deliver prior)
      | .last _ => recvEnd canOpen h (p.deliver prior) := by
  rw [handleUpload_deliver (hs.dst ▸ hhost), hs.type]
  cases x <;> rfl

theorem fileWritten_none {h : Receiver} {p : Packet} (hp : p.type ≠ pktFileUploadEnd) :
    fileWritten canOpen h p = none := if_neg fun hc => hp hc.2

theorem fileBufGetName_drain (f : FileBuf) : fileBufGetName (drain f).1 = fileBufGetName f := by
  induction hn : f.occ using Nat.strong_induction_on generalizing f with
  | h n ih =>
    rw [drain]
    split
    · next hc =>
      have hlt : (fileBufRemove f pktPayloadMax).1.occ < n := by
        have := RingQueue.remove_occ (c := maxFileBuffer) pktPayloadMax f.toRingBuf
        simp only [fileBufRemove, pktPayloadMax] at *
        omega
      exact ih _ hlt _ rfl
    · rfl

variable (canOpen) in
theorem handle_start {dst : Int8} {fname : List Int8} {p : Packet}
    (hs : Shows dst (.start fname) p) (hg : GoodName rdir fname) {h : Receiver}
    (hhost : dst.toInt = h.hostId) (hdir : h.dir = some rdir) (prior : Fin payloadMax → Int8) :
    ∃ h', handleUpload canOpen h (p.deliver prior) = some h' ∧
      fileWritten canOpen h (p.deliver prior) = none ∧ Inboxed dst rdir h' ⟨fname, []⟩ := by
  obtain ⟨hlen, hmax⟩ := hs.length
  have hbytes : payloadBytes (p.deliver prior) = some fname := by
    rw [payloadBytes_deliver hs.fits]
    exact hs.bytes
  have hplen : (p.deliver prior).length = fname.length := by
    rw [← show p.length = fname.length from hlen]
    exact hs.fits.length_char
  obtain ⟨h', hrecv, hin, hid, hd, _⟩ := recvStart_receiving (h := h) hbytes hplen hmax
  have hne : (p.deliver prior).type ≠ pktFileUploadEnd := by
    rw [show (p.deliver prior).type = pktFileUploadStart from hs.type]
    decide
  refine ⟨h', ?_, fileWritten_none hne, hid ▸ hhost, hd.trans hdir, hin, hg⟩
  rw [handleUpload_shows hs hhost]
  exact hrecv

variable (canOpen) in
theorem handle_last {dst : Int8} {l : List Int8} {p : Packet} (hs : Shows dst (.last l) p)
    {h : Receiver} {b : Inbox} (hb : Inboxed dst rdir h b) (prior : Fin payloadMax → Int8) :
    handleUpload canOpen h (p.deliver prior) =
        (if canOpen (pathOf rdir b.name) then
          some { h with
            fBufUpload := (drain (fileBufAdd h.fBufUpload l).1).1
            disk := Function.update h.disk (pathOf rdir b.name)
              (some (drain (fileBufAdd h.fBufUpload l).1).2) }
        else some { h with fBufUpload := (fileBufAdd h.fBufUpload l).1 }) ∧
      fileWritten canOpen h (p.deliver prior) =
        if canOpen (pathOf rdir b.name) then
          some (pathOf rdir b.name, (drain (fileBufAdd h.fBufUpload l).1).2) else none := by
  have hbytes : payloadBytes (p.deliver prior) = some l := by
    rw [payloadBytes_deliver hs.fits]
    exact hs.bytes
  have hdst : (p.deliver prior).dst.toInt = h.hostId := hs.dst ▸ hb.host
  have htype : (p.deliver prior).type = pktFileUploadEnd := hs.type
  constructor
  · rw [handleUpload_shows hs hb.host]
    simp only [recvEnd, hbytes, Option.bind_some, hb.dir, fileBufGetName_add, hb.receiving.name,
      hb.good.path, Option.map_some]
    split <;> rfl
  · rw [fileWritten, if_pos ⟨hdst, htype⟩, hbytes]
    simp only [Option.bind_some, hb.dir, fileBufGetName_add, hb.receiving.name, hb.good.path]

variable (canOpen) in
theorem handle_piece {dst : Int8} {x : Piece} {p : Packet} (hs : Shows dst x p)
    (hx : ∀ fname, x = .start fname → GoodName rdir fname) {h : Receiver} {b : Inbox}
    (hb : Inboxed dst rdir h b) (prior : Fin payloadMax → Int8) :
    ∃ h', handleUpload canOpen h (p.deliver prior) = some h' ∧
      (fileWritten canOpen h (p.deliver prior)).toList = (b.step canOpen rdir x).2 ∧
      Inboxed dst rdir h' (b.step canOpen rdir x).1 := by
  have hroom : b.bytes.length ≤ maxFileBuffer :=
    hb.receiving.bytes.occ ▸ hb.receiving.bytes.1.occ_le
  have hadd := fileBufAdd_holds hb.receiving.bytes x.bytes
  rw [take_room b.bytes x.bytes hroom] at hadd
  cases x with
  | start fname =>
    obtain ⟨h', hh, hf, hin⟩ :=
      handle_start canOpen hs (hx fname rfl) hb.host hb.dir prior
    exact ⟨h', hh, by rw [hf]; rfl, hin⟩
  | middle l =>
    have hbytes : payloadBytes (p.deliver prior) = some l := by
      rw [payloadBytes_deliver hs.fits]
      exact hs.bytes
    have hne : (p.deliver prior).type ≠ pktFileUploadEnd := by
      rw [show (p.deliver prior).type = pktFileUploadMiddle from hs.type]
      decide
    refine ⟨{ h with fBufUpload := (fileBufAdd h.fBufUpload l).1 }, ?_, ?_, ?_⟩
    · rw [handleUpload_shows hs hb.host]
      simp only [recvMiddle, hbytes, Option.map_some]
    · rw [fileWritten_none hne]
      rfl
    · exact ⟨hb.host, hb.dir, ⟨hb.receiving.name, hadd⟩, hb.good⟩
  | last l =>
    obtain ⟨hhandle, hwritten⟩ := handle_last canOpen hs hb prior
    obtain ⟨hempty, hout⟩ := drain_holds hadd
    have hname : fileBufGetName (drain (fileBufAdd h.fBufUpload l).1).1 = some b.name := by
      rw [fileBufGetName_drain, fileBufGetName_add, hb.receiving.name]
    rw [hhandle, hwritten, show (drain (fileBufAdd h.fBufUpload l).1).2 = _ from hout]
    by_cases hc : canOpen (pathOf rdir b.name) = true
    · simp only [if_pos hc, Inbox.step]
      exact ⟨_, rfl, rfl, hb.host, hb.dir, ⟨hname, hempty⟩, hb.good⟩
    · simp only [if_neg hc, Inbox.step]
      exact ⟨_, rfl, rfl, hb.host, hb.dir, ⟨hb.receiving.name, hadd⟩, hb.good⟩

theorem deliverLog_cons {p : Packet} (hf : Fits p) (h : Receiver) (ps : List Packet)
    (mem : ℕ → Memory) :
    deliverLog canOpen h (p :: ps) mem =
      (handleUpload canOpen h (p.deliver (mem 0).prior)).bind fun h' =>
        (deliverLog canOpen h' ps fun i => mem (i + 1)).map fun q =>
          (q.1, (fileWritten canOpen h (p.deliver (mem 0).prior)).toList ++ q.2) := by
  rw [deliverLog, packetRecv_packetSend hf]

variable (canOpen) in
theorem deliverLog_pieces {dst : Int8} {xs : List Piece} {ps : List Packet}
    (hs : List.Forall₂ (Shows dst) xs ps) (hx : ∀ fname, .start fname ∈ xs → GoodName rdir fname)
    {h : Receiver} {b : Inbox} (hb : Inboxed dst rdir h b) (mem : ℕ → Memory) :
    ∃ h', deliverLog canOpen h ps mem = some (h', (b.run canOpen rdir xs).2) := by
  induction hs generalizing h b mem with
  | nil => exact ⟨h, rfl⟩
  | @cons x p xs ps hp _ ih =>
    obtain ⟨h', hh, hf, hin⟩ := handle_piece canOpen hp
      (fun fname he => hx fname (he ▸ List.mem_cons_self)) hb (mem 0).prior
    obtain ⟨h'', hrest⟩ :=
      ih (fun fname hm => hx fname (List.mem_cons_of_mem x hm)) hin fun i => mem (i + 1)
    refine ⟨h'', ?_⟩
    rw [deliverLog_cons hp.fits, hh, Option.bind_some, hrest, hf]
    rfl

variable (canOpen) in
/-- A START packet opens an inbox whatever the buffer held before. -/
theorem deliverLog_start {dst : Int8} {fname : List Int8} {p : Packet} {xs : List Piece}
    {ps : List Packet} (hp : Shows dst (.start fname) p) (hs : List.Forall₂ (Shows dst) xs ps)
    (hx : ∀ name, .start name ∈ Piece.start fname :: xs → GoodName rdir name) {h : Receiver}
    (hhost : dst.toInt = h.hostId) (hdir : h.dir = some rdir) (mem : ℕ → Memory) :
    ∃ h', deliverLog canOpen h (p :: ps) mem =
      some (h', ((⟨fname, []⟩ : Inbox).run canOpen rdir xs).2) := by
  obtain ⟨h', hh, hf, hin⟩ := handle_start canOpen hp
    (hx fname List.mem_cons_self) hhost hdir (mem 0).prior
  obtain ⟨h'', hrest⟩ := deliverLog_pieces canOpen hs
    (fun name hm => hx name (List.mem_cons_of_mem _ hm)) hin fun i => mem (i + 1)
  refine ⟨h'', ?_⟩
  rw [deliverLog_cons hp.fits, hh, Option.bind_some, hrest, hf]
  rfl

/-- Contents cut into pieces, the last one marked. -/
inductive Chunks : List Int8 → List Piece → Prop where
  | last (l) : Chunks l [.last l]
  | more (a) {l xs} : Chunks l xs → Chunks (a ++ l) (.middle a :: xs)

theorem carries_chunks {dst : Int8} {l : List Int8} {ps : List Packet} (h : Carries dst l ps) :
    ∃ xs, Chunks l xs ∧ List.Forall₂ (Shows dst) xs ps := by
  induction h with
  | @last l p hd ht hf hb => exact ⟨_, .last l, .cons ⟨hd, ht, hf, hb⟩ .nil⟩
  | @more a l p ps hd ht hf hb _ ih =>
    obtain ⟨xs, hc, hs⟩ := ih
    exact ⟨_, .more a hc, .cons ⟨hd, ht, hf, hb⟩ hs⟩

theorem Chunks.not_start {l : List Int8} {xs : List Piece} (h : Chunks l xs) (fname : List Int8) :
    .start fname ∉ xs := by
  induction h with
  | last => simp
  | more _ _ ih => simpa using ih

def Piece.isLast : Piece → Bool
  | .start _ => false
  | .middle _ => false
  | .last _ => true

theorem Chunks.countP_isLast {l : List Int8} {xs : List Piece} (h : Chunks l xs) :
    xs.countP Piece.isLast = 1 := by
  induction h with
  | last => rfl
  | more a _ ih => simpa [List.countP_cons, Piece.isLast] using ih

theorem take_take_append (n : ℕ) (q l : List Int8) :
    (q.take n ++ l).take n = (q ++ l).take n := by
  rcases le_total q.length n with h | h
  · rw [List.take_of_length_le h]
  · have hlen : n ≤ (q.take n).length := by simp [h]
    rw [List.take_append_of_le_length hlen, List.take_take, Nat.min_self,
      List.take_append_of_le_length h]

theorem Chunks.written {l : List Int8} {xs : List Piece} (h : Chunks l xs) (b : Inbox) :
    (b.run canOpen rdir xs).2 =
      [(pathOf rdir b.name, (b.bytes ++ l).take maxFileBuffer)].filter fun f => canOpen f.1 := by
  induction h generalizing b with
  | last l =>
    by_cases hc : canOpen (pathOf rdir b.name) = true
    · simp [Inbox.run, Inbox.step, hc]
    · simp [Inbox.run, Inbox.step, hc]
  | @more a l xs _ ih =>
    rw [Inbox.run, ih]
    simp only [Inbox.step, take_take_append, List.append_assoc, List.nil_append]

variable (canOpen rdir) in
theorem Chunks.unfinished {l : List Int8} {us xs : List Piece} (h : Chunks l (us ++ xs))
    (hne : xs ≠ []) (b : Inbox) : (b.run canOpen rdir us).2 = [] ∧ ∃ l', Chunks l' xs := by
  induction us generalizing b l with
  | nil => exact ⟨rfl, l, h⟩
  | cons u us ih =>
    rw [List.cons_append] at h
    generalize hz : us ++ xs = zs at h
    cases h with
    | last => exact absurd (List.append_eq_nil_iff.mp hz).2 hne
    | more a hc =>
      subst hz
      obtain ⟨hlog, hrest⟩ := ih hc (b.step canOpen rdir (.middle a)).1
      exact ⟨by rw [Inbox.run, hlog]; rfl, hrest⟩

theorem run_paths {xs : List Piece} (h : ∀ fname, .start fname ∉ xs) (b : Inbox) :
    (b.run canOpen rdir xs).2.map Prod.fst =
      if canOpen (pathOf rdir b.name) then
        List.replicate (xs.countP Piece.isLast) (pathOf rdir b.name) else [] := by
  induction xs generalizing b with
  | nil => simp [Inbox.run]
  | cons x xs ih =>
    have hrest : ∀ fname, .start fname ∉ xs := fun fname hm =>
      h fname (List.mem_cons_of_mem x hm)
    cases x with
    | start fname => exact absurd List.mem_cons_self (h fname)
    | middle l =>
      rw [Inbox.run]
      simp only [Inbox.step, List.nil_append, ih hrest]
      simp [Piece.isLast]
    | last l =>
      rw [Inbox.run]
      by_cases hc : canOpen (pathOf rdir b.name) = true
      · simp only [Inbox.step, if_pos hc, List.map_append, ih hrest]
        simp [List.countP_cons, Piece.isLast, List.replicate_succ]
      · simp only [Inbox.step, if_neg hc, List.nil_append, ih hrest]

structure Sender where
  hostId : ℤ
  dir : List Int8
  fname : List Int8
  content : List Int8
  disk : Disk
  mem : Scratch
  content_text : ∀ c ∈ content, c ≠ 0
  name_length : 1 ≤ fname.length ∧ fname.length ≤ 99
  name_text : ∀ c ∈ fname, c ≠ 0
  path_fits : printPath dir fname = some (pathOf dir fname)
  opens : disk (pathOf dir fname) = some content

def Sender.packets (a : Sender) (dst : ℤ) : Option (List Packet) :=
  uploadSend a.hostId dst (some a.dir) a.fname a.disk a.mem

def Sender.file (rdir : List Int8) (a : Sender) : File :=
  (pathOf rdir a.fname, a.content.take maxFileBuffer)

theorem Sender.packets_shows (a : Sender) {dst : ℤ} {ps : List Packet}
    (h : a.packets dst = some ps) :
    ∃ p rest xs, ps = p :: rest ∧ Shows (Int8.ofInt dst) (.start a.fname) p ∧
      Chunks (a.content.take maxFileBuffer) xs ∧ List.Forall₂ (Shows (Int8.ofInt dst)) xs rest := by
  obtain ⟨rest, hps, hc⟩ := uploadSend_carries a.hostId dst a.mem a.path_fits a.opens
    a.content_text
  obtain ⟨xs, hchunks, hs⟩ := carries_chunks hc
  have hlen : a.fname.length ≤ payloadMax := by
    have := a.name_length.2
    simp only [payloadMax]
    omega
  have hpackets := Option.some.inj (h.symm.trans hps)
  exact ⟨_, rest, xs, hpackets, ⟨rfl, rfl, fits_of_length rfl hlen,
    startPacket_payload a.hostId dst hlen (a.mem.blank 0)⟩, hchunks, hs⟩

section Receiver

variable {a b : Sender} {dst : ℤ} {r : Receiver} {psA psB zs : List Packet}

theorem Sender.good (a : Sender) (h : (pathOf rdir a.fname).length < maxFileName) :
    GoodName rdir a.fname := ⟨a.name_text, h⟩

variable (canOpen) in
theorem uploads_in_turn (ha : a.packets dst = some psA) (hb : b.packets dst = some psB)
    (hfa : (pathOf rdir a.fname).length < maxFileName)
    (hfb : (pathOf rdir b.fname).length < maxFileName)
    (hdst : (Int8.ofInt dst).toInt = r.hostId) (hdir : r.dir = some rdir) (wire : ℕ → Memory) :
    ∃ r', deliverLog canOpen r (psA ++ psB) wire =
      some (r', [a.file rdir, b.file rdir].filter fun f => canOpen f.1) := by
  obtain ⟨pa, restA, xsA, rfl, hpa, hca, hsa⟩ := a.packets_shows ha
  obtain ⟨pb, restB, xsB, rfl, hpb, hcb, hsb⟩ := b.packets_shows hb
  have hgood : ∀ name, .start name ∈ Piece.start a.fname :: (xsA ++ .start b.fname :: xsB) →
      GoodName rdir name := by
    intro name hm
    simp only [List.mem_cons, List.mem_append, Piece.start.injEq] at hm
    rcases hm with rfl | hm | rfl | hm
    · exact a.good hfa
    · exact absurd hm (hca.not_start name)
    · exact b.good hfb
    · exact absurd hm (hcb.not_start name)
  obtain ⟨r', hlog⟩ := deliverLog_start canOpen hpa
    (List.rel_append hsa (List.Forall₂.cons hpb hsb)) hgood hdst hdir wire
  refine ⟨r', ?_⟩
  rw [List.cons_append, hlog, Inbox.run_append, hca.written]
  simp only [Inbox.run, Inbox.step, hcb.written, List.nil_append, Sender.file, List.take_take,
    Nat.min_self]
  rw [← List.filter_append]
  rfl

variable (canOpen) in
theorem uploads_overlap (ha : a.packets dst = some psA) (hb : b.packets dst = some psB)
    (hfa : (pathOf rdir a.fname).length < maxFileName)
    (hfb : (pathOf rdir b.fname).length < maxFileName)
    (hdst : (Int8.ofInt dst).toInt = r.hostId) (hdir : r.dir = some rdir)
    {p : Packet} {rest ys : List Packet} (hpsA : psA = p :: rest) (hz : Interleaves rest psB ys)
    (hne : p :: ys ≠ psA ++ psB) (wire : ℕ → Memory) :
    ∃ r' log us q vs, deliverLog canOpen r (p :: ys) wire = some (r', log) ∧
      ys = us ++ q :: vs ∧ q.type = pktFileUploadStart ∧ payloadBytes q = some b.fname ∧
      log.map Prod.fst = if canOpen (pathOf rdir b.fname) then
        [pathOf rdir b.fname, pathOf rdir b.fname] else [] := by
  obtain ⟨pa, restA, xsA, hsplit, hpa, hca, hsa⟩ := a.packets_shows ha
  subst hpsA
  cases hsplit
  obtain ⟨q, restB, xsB, rfl, hpb, hcb, hsb⟩ := b.packets_shows hb
  obtain ⟨us, restA', vs, rfl, rfl, hmix⟩ := hz.split_second
  have hsu := List.forall₂_take_append xsA us restA' hsa
  have hsr := List.forall₂_drop_append xsA us restA' hsa
  have hleft : xsA.drop us.length ≠ [] := by
    intro he
    rw [he] at hsr
    cases hsr
    rw [hmix.nil_left] at hne
    exact hne (by simp)
  obtain ⟨cs, hcs, hvs⟩ := hmix.forall₂ hsr hsb
  have hcut : Chunks (a.content.take maxFileBuffer)
      (xsA.take us.length ++ xsA.drop us.length) := by rwa [List.take_append_drop]
  obtain ⟨hquiet, l', hl'⟩ := hcut.unfinished canOpen rdir hleft ⟨a.fname, []⟩
  have hnostart : ∀ fname, .start fname ∉ cs := by
    intro fname hm
    rcases List.mem_append.mp (hcs.perm.mem_iff.mpr hm) with hm | hm
    · exact hl'.not_start fname hm
    · exact hcb.not_start fname hm
  have hcount : cs.countP Piece.isLast = 2 := by
    rw [← hcs.perm.countP_eq, List.countP_append, hl'.countP_isLast, hcb.countP_isLast]
  have hgood : ∀ name, .start name ∈ Piece.start a.fname ::
      (xsA.take us.length ++ .start b.fname :: cs) → GoodName rdir name := by
    intro name hm
    simp only [List.mem_cons, List.mem_append, Piece.start.injEq] at hm
    rcases hm with rfl | hm | rfl | hm
    · exact a.good hfa
    · exact absurd (List.mem_of_mem_take hm) (hca.not_start name)
    · exact b.good hfb
    · exact absurd hm (hnostart name)
  obtain ⟨r', hlog⟩ := deliverLog_start canOpen hpa
    (List.rel_append hsu (List.Forall₂.cons hpb hvs)) hgood hdst hdir wire
  refine ⟨r', _, us, q, vs, hlog, rfl, hpb.type, hpb.bytes, ?_⟩
  rw [Inbox.run_append, hquiet, List.nil_append, Inbox.run]
  simp only [Inbox.step, List.nil_append, run_paths hnostart, hcount]
  rfl

variable (canOpen) in
/-- Two uploads that arrive one after the other leave both files. When they overlap, the one
that starts later takes the inbox over, and whatever is written is written under its name. -/
theorem concurrent_uploads (ha : a.packets dst = some psA) (hb : b.packets dst = some psB)
    (hfa : (pathOf rdir a.fname).length < maxFileName)
    (hfb : (pathOf rdir b.fname).length < maxFileName)
    (hdst : (Int8.ofInt dst).toInt = r.hostId) (hdir : r.dir = some rdir)
    (hz : Interleaves psA psB zs) (wire : ℕ → Memory) :
    ∃ r' log, deliverLog canOpen r zs wire = some (r', log) ∧
      (zs = psA ++ psB → log = [a.file rdir, b.file rdir].filter fun f => canOpen f.1) ∧
      (zs = psB ++ psA → log = [b.file rdir, a.file rdir].filter fun f => canOpen f.1) ∧
      (zs ≠ psA ++ psB → zs ≠ psB ++ psA →
        ∃ us q vs fname, zs = us ++ q :: vs ∧ us ≠ [] ∧ q.type = pktFileUploadStart ∧
          payloadBytes q = some fname ∧
          log.map Prod.fst = if canOpen (pathOf rdir fname) then
            [pathOf rdir fname, pathOf rdir fname] else []) := by
  obtain ⟨sA, hturnA⟩ := uploads_in_turn canOpen ha hb hfa hfb hdst hdir wire
  obtain ⟨sB, hturnB⟩ := uploads_in_turn canOpen hb ha hfb hfa hdst hdir wire
  by_cases hA : zs = psA ++ psB
  · subst hA
    refine ⟨sA, _, hturnA, fun _ => rfl, ?_, fun h => absurd rfl h⟩
    intro he
    rw [he, hturnB] at hturnA
    exact (congrArg Prod.snd (Option.some.inj hturnA)).symm
  by_cases hB : zs = psB ++ psA
  · subst hB
    exact ⟨sB, _, hturnB, fun h => absurd h hA, fun _ => rfl, fun _ h => absurd rfl h⟩
  obtain ⟨r', log, us, q, vs, fname, hlog, hzs, hus, htype, hbytes, hpaths⟩ :
      ∃ r' log us q vs fname, deliverLog canOpen r zs wire = some (r', log) ∧
        zs = us ++ q :: vs ∧ us ≠ [] ∧ q.type = pktFileUploadStart ∧
        payloadBytes q = some fname ∧ log.map Prod.fst =
          if canOpen (pathOf rdir fname) then [pathOf rdir fname, pathOf rdir fname] else [] := by
    cases hz with
    | nil => exact absurd rfl hA
    | @left p rest psB ys hz =>
      obtain ⟨r', log, us, q, vs, hlog, rfl, hq⟩ :=
        uploads_overlap canOpen ha hb hfa hfb hdst hdir rfl hz hA wire
      exact ⟨r', log, p :: us, q, vs, b.fname, hlog, rfl, List.cons_ne_nil _ _, hq⟩
    | @right p psA rest ys hz =>
      obtain ⟨r', log, us, q, vs, hlog, rfl, hq⟩ :=
        uploads_overlap canOpen hb ha hfb hfa hdst hdir rfl hz.symm hB wire
      exact ⟨r', log, p :: us, q, vs, a.fname, hlog, rfl, List.cons_ne_nil _ _, hq⟩
  exact ⟨r', log, hlog, fun h => absurd h hA, fun h => absurd h hB,
    fun _ _ => ⟨us, q, vs, fname, hzs, hus, htype, hbytes, hpaths⟩⟩

end Receiver

/-- A host with a file of one byte, with a name of one byte, in the directory `d`. -/
def letterSender (hostId : ℤ) (name letter : Int8) (hn : name ≠ 0) (hl : letter ≠ 0) : Sender where
  hostId := hostId
  dir := [100]
  fname := [name]
  content := [letter]
  disk := fun path => if path = pathOf [100] [name] then some [letter] else none
  mem := ⟨fun _ => zeroPacket, fun _ => 0, fun _ _ => 0⟩
  content_text := by simpa using hl
  name_length := by simp
  name_text := by simpa using hn
  path_fits := if_pos (by simp [pathOf, maxFileName])
  opens := if_pos rfl

theorem letterSender_packets (hostId dst : ℤ) (name letter : Int8) (hn : name ≠ 0)
    (hl : letter ≠ 0) :
    (letterSender hostId name letter hn hl).packets dst =
      some [startPacket hostId dst [name] zeroPacket,
        endPacket hostId dst 1 (readFile [letter] fun _ => 0) zeroPacket] := by
  have hpath := (letterSender hostId name letter hn hl).path_fits
  have hopens := (letterSender hostId name letter hn hl).opens
  simp only [letterSender] at hpath hopens
  simp only [Sender.packets, letterSender, uploadSend, hpath, Option.bind_some, if_true]
  rw [splitBuffer, if_neg (by simp [maxFileBuffer, maxMsgLength])]
  rfl

theorem letterSender_shows (hostId dst : ℤ) (name letter : Int8) :
    Shows (Int8.ofInt dst) (.start [name]) (startPacket hostId dst [name] zeroPacket) ∧
      Shows (Int8.ofInt dst) (.last [letter])
        (endPacket hostId dst 1 (readFile [letter] fun _ => 0) zeroPacket) := by
  have hone : ([name] : List Int8).length ≤ payloadMax := by simp [payloadMax]
  constructor
  · exact ⟨rfl, rfl, fits_of_length rfl hone, startPacket_payload hostId dst hone _⟩
  · refine ⟨rfl, rfl, fits_of_length (n := 1) rfl hone, payloadBytes_eq rfl hone ?_⟩
    intro i hi
    have hzero : i = ⟨0, by decide⟩ := Fin.ext (by simpa [Piece.bytes] using hi)
    subst hzero
    rfl

def senderF : Sender := letterSender 0 102 97 (by decide) (by decide)
def senderG : Sender := letterSender 1 103 98 (by decide) (by decide)

/-- Host 3 with the directory `d` and an empty upload buffer. -/
def quietReceiver : Receiver :=
  ⟨3, some [100], ⟨⟨fun _ => 0, 0, maxFileBuffer, 0⟩, fun _ => 0, 0⟩, fun _ => none⟩

theorem concurrent_uploads_in_turn :
    ∃ psA psB, senderF.packets 3 = some psA ∧ senderG.packets 3 = some psB ∧
      ∀ wire, ∃ r' log, deliverLog (fun _ => true) quietReceiver (psA ++ psB) wire =
        some (r', log) ∧ log = [senderF.file [100], senderG.file [100]] := by
  have hF := letterSender_packets 0 3 102 97 (by decide) (by decide)
  have hG := letterSender_packets 1 3 103 98 (by decide) (by decide)
  refine ⟨_, _, hF, hG, ?_⟩
  intro wire
  obtain ⟨r', log, hlog, hturn, _⟩ := concurrent_uploads (fun _ => true)
    (a := senderF) (b := senderG) (r := quietReceiver) hF hG (by decide) (by decide) rfl rfl
    (Interleaves.left (.left (.right (.right .nil)))) wire
  exact ⟨r', log, hlog, hturn rfl⟩

/-- Both senders start, then both end: `g` is written twice, first with the byte of `f`. -/
theorem overlapping_uploads_mix :
    ∃ psA psB zs, senderF.packets 3 = some psA ∧ senderG.packets 3 = some psB ∧
      Interleaves psA psB zs ∧
      ∀ wire, ∃ r' log, deliverLog (fun _ => true) quietReceiver zs wire = some (r', log) ∧
        log = [(pathOf [100] [103], [97]), (pathOf [100] [103], [98])] ∧
        ¬∀ f ∈ log, f = senderF.file [100] ∨ f = senderG.file [100] := by
  have hF := letterSender_packets 0 3 102 97 (by decide) (by decide)
  have hG := letterSender_packets 1 3 103 98 (by decide) (by decide)
  obtain ⟨hFs, hFe⟩ := letterSender_shows 0 3 102 97
  obtain ⟨hGs, hGe⟩ := letterSender_shows 1 3 103 98
  refine ⟨_, _, _, hF, hG, Interleaves.left (.right (.left (.right .nil))), ?_⟩
  intro wire
  have hgood : ∀ name, .start name ∈
      [Piece.start [102], .start [103], .last [97], .last [98]] → GoodName [100] name := by
    intro name hm
    simp only [List.mem_cons, Piece.start.injEq, reduceCtorEq, List.not_mem_nil, or_false] at hm
    rcases hm with rfl | rfl
    · exact senderF.good (by decide)
    · exact senderG.good (by decide)
  obtain ⟨r', hlog⟩ := deliverLog_start (fun _ => true) (h := quietReceiver) hFs
    (.cons hGs (.cons hFe (.cons hGe .nil))) hgood rfl rfl wire
  refine ⟨r', _, hlog, by decide, ?_⟩
  intro h
  have hfirst := h (pathOf [100] [103], [97]) (by decide)
  revert hfirst
  decide

end ConcurrentUploads
