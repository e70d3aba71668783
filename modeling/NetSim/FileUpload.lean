import NetSim.FileSplit
import Mathlib.Data.List.TakeWhile

/-! The receiving side of an upload: JOB_FILE_UPLOAD_RECV_START, MIDDLE and END of host.c, and
a whole upload from the file of one host to the file of the other. -/
namespace FileUpload

open PacketCodec FileBuffer FileSplit

/-- `canOpen path` says whether `fopen(path, "w")` succeeds. -/
structure Receiver where
  hostId : ℤ
  dir : Option (List Int8)
  fBufUpload : FileBuf
  disk : Disk

/-- What `%s` prints of a string. -/
def cString (l : List Int8) : List Int8 := l.takeWhile (· ≠ 0)

def recvStart (h : Receiver) (p : Packet) : Option Receiver :=
  (payloadBytes p).map fun bytes =>
    { h with fBufUpload := fileBufPutName (fileBufInit h.fBufUpload) bytes p.length }

def recvMiddle (h : Receiver) (p : Packet) : Option Receiver :=
  (payloadBytes p).map fun bytes => { h with fBufUpload := (fileBufAdd h.fBufUpload bytes).1 }

def recvEnd (canOpen : List Int8 → Bool) (h : Receiver) (p : Packet) : Option Receiver :=
  (payloadBytes p).bind fun bytes =>
    let f := (fileBufAdd h.fBufUpload bytes).1
    match h.dir with
    | none => some { h with fBufUpload := f }
    | some d =>
      (fileBufGetName f).bind fun string =>
        (printPath d (cString string)).map fun path =>
          if canOpen path then
            { h with
              fBufUpload := (drain f).1
              disk := Function.update h.disk path (some (drain f).2) }
          else { h with fBufUpload := f }

def handleUpload (canOpen : List Int8 → Bool) (h : Receiver) (p : Packet) : Option Receiver :=
  if p.dst.toInt = h.hostId then
    if p.type = pktFileUploadStart then recvStart h p
    else if p.type = pktFileUploadEnd then recvEnd canOpen h p
    else if p.type = pktFileUploadMiddle then recvMiddle h p
    else some h
  else some h

/-- The packets are read one at a time, the i-th into the memory `mem i`. -/
def deliverAll (canOpen : List Int8 → Bool) :
    Receiver → List Packet → (ℕ → Memory) → Option Receiver
  | h, [], _ => some h
  | h, p :: ps, mem =>
    (match packetRecv (packetSend p) (mem 0).stale (mem 0).prior with
    | none => some h
    | some r => handleUpload canOpen h r).bind
      fun h' => deliverAll canOpen h' ps fun i => mem (i + 1)

theorem payloadBytes_deliver {p : Packet} (hf : Fits p) (prior : Fin payloadMax → Int8) :
    payloadBytes (p.deliver prior) = payloadBytes p := by
  have hlen : (p.deliver prior).length = p.length := hf.length_char
  obtain ⟨h0, h1⟩ := hf
  rw [payloadBytes, payloadBytes, hlen, if_pos h1, if_pos h1]
  congr 1
  apply List.ext_getElem (by simp)
  intro i hi hi'
  simp only [List.length_take, List.length_ofFn] at hi
  rw [List.getElem_take, List.getElem_take, List.getElem_ofFn, List.getElem_ofFn]
  refine if_pos ?_
  change (i : ℤ) < (p.deliver prior).length
  omega

theorem deliverAll_cons {canOpen : List Int8 → Bool} {h : Receiver} {p : Packet} (hf : Fits p)
    (ps : List Packet) (mem : ℕ → Memory) :
    deliverAll canOpen h (p :: ps) mem =
      (handleUpload canOpen h (p.deliver (mem 0).prior)).bind
        fun h' => deliverAll canOpen h' ps fun i => mem (i + 1) := by
  rw [deliverAll, packetRecv_packetSend hf]

theorem handleUpload_deliver {canOpen : List Int8 → Bool} {h : Receiver} {p : Packet}
    (hdst : p.dst.toInt = h.hostId) (prior : Fin payloadMax → Int8) :
    handleUpload canOpen h (p.deliver prior) =
      if p.type = pktFileUploadStart then recvStart h (p.deliver prior)
      else if p.type = pktFileUploadEnd then recvEnd canOpen h (p.deliver prior)
      else if p.type = pktFileUploadMiddle then recvMiddle h (p.deliver prior)
      else some h := if_pos hdst

/-- The receiver has the name of an upload and the bytes q of its contents so far. -/
structure Receiving (h : Receiver) (fname q : List Int8) : Prop where
  name : fileBufGetName h.fBufUpload = some fname
  bytes : h.fBufUpload.Holds q

theorem recvStart_receiving {h : Receiver} {p : Packet} {fname : List Int8}
    (hb : payloadBytes p = some fname) (hp : p.length = fname.length)
    (hl : fname.length ≤ pktPayloadMax) :
    ∃ h', recvStart h p = some h' ∧ Receiving h' fname [] ∧ h'.hostId = h.hostId ∧
      h'.dir = h.dir ∧ h'.disk = h.disk := by
  refine ⟨{ h with fBufUpload := fileBufPutName (fileBufInit h.fBufUpload) fname p.length },
    by rw [recvStart, hb]; rfl, ⟨?_, ?_⟩, rfl, rfl, rfl⟩
  · rw [hp]
    exact fileBufGetName_putName _ hl
  · exact fileBufPutName_holds (fileBufInit_holds _) _ _

theorem take_append_room (q a l : List Int8) {n : ℕ} (hq : q.length ≤ n) :
    (q ++ a.take (n - q.length) ++ l).take n = (q ++ (a ++ l)).take n := by
  rcases le_total a.length (n - q.length) with h | h
  · rw [List.take_of_length_le h, List.append_assoc]
  · have hlen : (q ++ a.take (n - q.length)).length = n := by
      rw [List.length_append, List.length_take]
      omega
    rw [List.take_append_of_le_length hlen.ge, List.take_of_length_le hlen.le, List.take_append,
      List.take_of_length_le hq, List.take_append_of_le_length h]

/-- The packets of a file fill the buffer up to its capacity, and the last one empties it into
the file with the name. -/
theorem carries_written {dst : Int8} {l : List Int8} {ps : List Packet} (hc : Carries dst l ps)
    {canOpen : List Int8 → Bool} {h : Receiver} {d fname q path : List Int8}
    (hr : Receiving h fname q) (hdst : dst.toInt = h.hostId) (hdir : h.dir = some d)
    (hpath : printPath d (cString fname) = some path) (hcan : canOpen path = true)
    (mem : ℕ → Memory) :
    ∃ h', deliverAll canOpen h ps mem = some h' ∧ h'.fBufUpload.Holds [] ∧
      h'.disk = Function.update h.disk path (some ((q ++ l).take maxFileBuffer)) := by
  have hroom : q.length ≤ maxFileBuffer := hr.bytes.occ ▸ hr.bytes.1.occ_le
  induction hc generalizing h q mem with
  | @last l p hd ht hf hb =>
    rw [deliverAll_cons hf, handleUpload_deliver (hd ▸ hdst), ht, if_neg (by decide), if_pos rfl,
      recvEnd, payloadBytes_deliver hf, hb]
    have hadd := fileBufAdd_holds hr.bytes l
    obtain ⟨hempty, hout⟩ := drain_holds hadd
    simp only [Option.bind_some, hdir, fileBufGetName_add, hr.name, hpath, Option.map_some, hcan,
      if_true]
    refine ⟨_, rfl, hempty, ?_⟩
    have hfull : (q ++ l.take (maxFileBuffer - q.length)).length ≤ maxFileBuffer :=
      hadd.occ ▸ hadd.1.occ_le
    have htake := take_append_room q l [] hroom
    rw [List.append_nil, List.append_nil, List.take_of_length_le hfull] at htake
    rw [← htake, ← hout]
  | @more a l p ps hd ht hf hb _ ih =>
    rw [deliverAll_cons hf, handleUpload_deliver (hd ▸ hdst), ht, if_neg (by decide),
      if_neg (by decide), if_pos rfl, recvMiddle, payloadBytes_deliver hf, hb]
    have hadd := fileBufAdd_holds hr.bytes a
    obtain ⟨h', h1, h2, h3⟩ := ih (h := { h with fBufUpload := (fileBufAdd h.fBufUpload a).1 })
      ⟨hr.name, hadd⟩ hdst hdir (fun i => mem (i + 1)) (hadd.occ ▸ hadd.1.occ_le)
    refine ⟨h', h1, h2, ?_⟩
    rw [h3, take_append_room q a l hroom]

theorem cString_of_ne {l : List Int8} (h : ∀ b ∈ l, b ≠ 0) : cString l = l := by
  rw [cString, List.takeWhile_eq_self_iff]
  intro b hb
  exact decide_eq_true (h b hb)

/-- An uploaded text file arrives under its name, with its first 1000 bytes, and leaves the
upload buffer empty. -/
theorem upload_faithful {hostId dst : ℤ} {dir fname path content : List Int8} {disk : Disk}
    (mem : Scratch) {canOpen : List Int8 → Bool} {r : Receiver} {rdir : List Int8}
    (hcontent : ∀ b ∈ content, b ≠ 0) (hname : 1 ≤ fname.length ∧ fname.length ≤ 99)
    (hnul : ∀ b ∈ fname, b ≠ 0) (hpath : printPath dir fname = some path)
    (hopen : disk path = some content) (hdst : (Int8.ofInt dst).toInt = r.hostId)
    (hdir : r.dir = some rdir) (hfit : (pathOf rdir fname).length < maxFileName)
    (hcan : canOpen (pathOf rdir fname) = true) :
    ∃ packets, uploadSend hostId dst (some dir) fname disk mem = some packets ∧
      ∀ wire, ∃ r', deliverAll canOpen r packets wire = some r' ∧
        r'.disk = Function.update r.disk (pathOf rdir fname)
          (some (content.take maxFileBuffer)) ∧
        r'.fBufUpload.occ = 0 := by
  obtain ⟨ps, hps, hc⟩ := uploadSend_carries hostId dst mem hpath hopen hcontent
  refine ⟨_, hps, ?_⟩
  intro wire
  have hlen : fname.length ≤ payloadMax := by
    simp only [payloadMax]
    omega
  have hf : Fits (startPacket hostId dst fname (mem.blank 0)) := fits_of_length rfl hlen
  have hbytes : payloadBytes ((startPacket hostId dst fname (mem.blank 0)).deliver (wire 0).prior)
      = some fname := by
    rw [payloadBytes_deliver hf, startPacket_payload hostId dst hlen]
  obtain ⟨s, hs, hrecv, hsid, hsdir, hsdisk⟩ :=
    recvStart_receiving (h := r) hbytes hf.length_char hlen
  rw [deliverAll_cons hf, handleUpload_deliver hdst,
    if_pos (show (startPacket hostId dst fname (mem.blank 0)).type = pktFileUploadStart from rfl),
    hs]
  have hrpath : printPath rdir (cString fname) = some (pathOf rdir fname) := by
    rw [cString_of_ne hnul, printPath, if_pos hfit]
  obtain ⟨r', h1, h2, h3⟩ := carries_written hc hrecv (hsid ▸ hdst) (hsdir.trans hdir) hrpath
    hcan fun i => wire (i + 1)
  refine ⟨r', h1, ?_, h2.occ⟩
  rw [h3, hsdisk, List.nil_append, List.take_take, Nat.min_self]

def longText : List Int8 := List.replicate 1200 97

def longFile : Disk := fun path => if path = pathOf [100] [102] then some longText else none

def zeroPacket : Packet := ⟨0, 0, 0, 0, fun _ => 0, 0, 0, 0, 0⟩

def fullReceiver : Receiver :=
  ⟨1, some [101], ⟨⟨fun _ => 1, 7, 6, maxFileBuffer⟩, fun _ => 1, 3⟩, fun _ => none⟩

theorem upload_faithful_longText :
    ∃ packets, uploadSend 0 1 (some [100]) [102] longFile
        ⟨fun _ => zeroPacket, fun _ => 1, fun _ _ => 1⟩ = some packets ∧
      ∀ wire, ∃ r', deliverAll (fun _ => true) fullReceiver packets wire = some r' ∧
        r'.disk = Function.update fullReceiver.disk (pathOf [101] [102])
          (some (longText.take maxFileBuffer)) ∧
        r'.fBufUpload.occ = 0 := by
  have hpath : printPath [100] [102] = some (pathOf [100] [102]) := by decide
  have htext : ∀ b ∈ longText, b ≠ 0 := by
    intro b hb
    rw [List.eq_of_mem_replicate hb]
    decide
  have hname : ∀ b ∈ ([102] : List Int8), b ≠ 0 := by
    intro b hb
    rw [List.mem_singleton.mp hb]
    decide
  apply upload_faithful _ htext ⟨le_rfl, by decide⟩ hname hpath
  · exact if_pos rfl
  · decide
  · rfl
  · decide
  · rfl

end FileUpload
