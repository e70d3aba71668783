import NetSim.FileUpload
import NetSim.OrderedReads
import NetSim.SwitchPings

/-! A file on its way through the whole simulation: the upload packets of one host cross the
network, wait in the job queue of another, and end up as a file on its disk. -/
namespace UploadDelivery

open PacketCodec FileBuffer FileSplit FileUpload HostNode Simulation SimulatedNetwork
  SimulationRefinement SentPackets OrderedReads
open FrameHistory (CopyOf)
open EventRuns (Run)

def isUpload : HostJob → Bool
  | .fileUploadRecvStart _ | .fileUploadRecvEnd _ | .fileUploadRecvMiddle _ => true
  | _ => false

/-- The jobs for upload packets that wait in the queue. -/
def pending (s : HostState) : List HostJob := s.jobQ.filter isUpload

def uploadJobs (id : ℤ) (p : Packet) : List HostJob :=
  if p.dst.toInt = id then
    if p.type = pktFileUploadStart then [.fileUploadRecvStart p]
    else if p.type = pktFileUploadEnd then [.fileUploadRecvEnd p]
    else if p.type = pktFileUploadMiddle then [.fileUploadRecvMiddle p]
    else []
  else []

def runUpload (canOpen : List Int8 → Bool) (r : Receiver) : HostJob → Option Receiver
  | .fileUploadRecvStart p => recvStart r p
  | .fileUploadRecvEnd p => recvEnd canOpen r p
  | .fileUploadRecvMiddle p => recvMiddle r p
  | _ => some r

/-- The receiver of the host as if its directory were `dir`. -/
def inDir (dir : List Int8) (s : HostState) : Receiver := { s.toReceiver with dir := some dir }

def arriving (s : HostState) : HostEvent → List HostJob
  | .receive n p => if n > 0 then uploadJobs s.hostId p else []
  | _ => []

/-- Whenever the host ends an upload it is in directory `dir`, and `canOpen` says what it can
open. -/
def Lands (dir : List Int8) (canOpen : List Int8 → Bool) (s : HostState) : HostEvent → Prop
  | .execute opens _ => ∀ p q, s.jobQ = .fileUploadRecvEnd p :: q →
      s.dir = some dir ∧ opens = canOpen
  | _ => True

section

variable {dir : List Int8} {canOpen : List Int8 → Bool} {s u : HostState}

structure Apart (s u : HostState) : Prop where
  pending : pending u = pending s
  receiver : ∀ dir, inDir dir u = inDir dir s

theorem Apart.trans {v : HostState} (h : Apart s u) (k : Apart u v) : Apart s v :=
  ⟨k.pending.trans h.pending, fun dir => (k.receiver dir).trans (h.receiver dir)⟩

/-- Only jobs that are about no upload are queued. -/
theorem apart_enqueue {jobs : List HostJob} (hjobs : jobs.filter isUpload = [])
    (h : Apart s u) : Apart s (enqueue jobs u) := by
  refine ⟨?_, h.receiver⟩
  change (u.jobQ ++ jobs).filter isUpload = _
  rw [List.filter_append, hjobs, List.append_nil]
  exact h.pending

theorem executeCommand_apart {c : ManCommand} {arg : List Int8} {blank : Packet}
    {t : ReplyBook.Ticket ManCommand} (h : executeCommand c arg blank t s = some u) :
    Apart s u := by
  have scanned : ∀ v : HostState, Scanned s v → Apart s v := by
    rintro v ⟨_, _, _, rfl⟩
    exact ⟨rfl, fun _ => rfl⟩
  cases executeCommand_commanded h with
  | displayHostState | setHostDir | unknown => exact ⟨rfl, fun _ => rfl⟩
  | ping => exact apart_enqueue rfl ⟨rfl, fun _ => rfl⟩
  | fileUpload hv => exact apart_enqueue rfl (scanned _ (scanDstName_scanned hv))
  | fileDownload hv => exact apart_enqueue rfl (scanned _ (scanDstName_scanned hv))
  | dnsRegister hv | dnsLookup hv | dnsPing hv =>
    exact apart_enqueue rfl ((scanned _ (scanDomainName_scanned hv)).trans ⟨rfl, fun _ => rfl⟩)
  | dnsFileDownload hv =>
    exact apart_enqueue rfl ((scanned _ (scanDomainNameName_scanned hv)).trans
      ⟨rfl, fun _ => rfl⟩)

theorem controlTimer_apart (blank : Packet) (s : HostState) : Apart s (controlTimer blank s) := by
  unfold controlTimer
  split
  · exact apart_enqueue rfl ⟨rfl, fun _ => rfl⟩
  · exact ⟨rfl, fun _ => rfl⟩

theorem translate_upload {n : ℤ} {p : Packet} (h : HostNode.translate n p s = some u)
    (hdst : p.dst.toInt = s.hostId) :
    pending u = pending s ++ uploadJobs s.hostId p ∧ ∀ dir, inDir dir u = inDir dir s := by
  have queued : ∀ jobs : List HostJob, u = enqueue jobs s → (jobs.filter isUpload = jobs) →
      uploadJobs s.hostId p = jobs →
      pending u = pending s ++ uploadJobs s.hostId p ∧ ∀ dir, inDir dir u = inDir dir s := by
    rintro jobs rfl hall hjobs
    refine ⟨?_, fun _ => rfl⟩
    change (s.jobQ ++ jobs).filter isUpload = _
    rw [List.filter_append, hall, hjobs]
    rfl
  rw [uploadJobs, if_pos hdst] at queued ⊢
  by_cases hstart : p.type = pktFileUploadStart
  · rw [HostNode.translate, hstart] at h
    cases h
    exact queued _ rfl rfl (if_pos hstart)
  by_cases hend : p.type = pktFileUploadEnd
  · rw [HostNode.translate, hend] at h
    cases h
    exact queued _ rfl rfl (by rw [if_neg hstart, if_pos hend])
  by_cases hmiddle : p.type = pktFileUploadMiddle
  · rw [HostNode.translate, hmiddle] at h
    cases h
    exact queued _ rfl rfl (by rw [if_neg hstart, if_neg hend, if_pos hmiddle])
  have hapart : Apart s u := by
    cases translate_translated h with
    | fileUploadStart htype => exact absurd htype hstart
    | fileUploadEnd htype => exact absurd htype hend
    | fileUploadMiddle htype => exact absurd htype hmiddle
    | pingReq | fileDownloadReq => exact apart_enqueue rfl ⟨rfl, fun _ => rfl⟩
    | pingReply | dnsRegisterReply | dnsLookupReply | other => exact ⟨rfl, fun _ => rfl⟩
  rw [if_neg hstart, if_neg hend, if_neg hmiddle, List.append_nil]
  exact ⟨hapart.pending, hapart.receiver⟩

theorem receive_upload {n : ℤ} {p : Packet} (h : receive n p s = some u) :
    pending u = pending s ++ arriving s (.receive n p) ∧ ∀ dir, inDir dir u = inDir dir s := by
  have hsame : uploadJobs s.hostId p = [] ∨ ¬ n > 0 → u = s →
      pending u = pending s ++ arriving s (.receive n p) ∧
        ∀ dir, inDir dir u = inDir dir s := by
    rintro hnone rfl
    refine ⟨?_, fun _ => rfl⟩
    rw [arriving]
    rcases hnone with hnone | hn
    · rw [hnone, ite_self, List.append_nil]
    · rw [if_neg hn, List.append_nil]
  unfold receive at h
  split_ifs at h with hcontrol hus
  · cases h
    refine hsame (.inl ?_) rfl
    rw [uploadJobs, hcontrol.2]
    exact ite_self _
  · rw [arriving, if_pos hus.1]
    exact translate_upload h hus.2
  · cases h
    refine hsame ?_ rfl
    by_cases hn : n > 0
    · exact .inl (if_neg fun hdst => hus ⟨hn, hdst⟩)
    · exact .inr hn

theorem waitForReply_apart {received : Bool} {answered : Option HostState} {timer : ℕ}
    {again : ℕ → HostJob} {t : ReplyBook.Ticket ManCommand} {timeOut : String}
    (h : waitForReply received answered timer again t timeOut s = some u)
    (hagain : ∀ n, isUpload (again n) = false) (hanswered : answered = some u → Apart s u) :
    Apart s u := by
  rcases HostWaits.waitForReply_cases h with ⟨-, ha⟩ | ⟨-, -, rfl⟩ | ⟨-, -, rfl⟩
  · exact hanswered ha
  · exact apart_enqueue (by simp [hagain]) ⟨rfl, fun _ => rfl⟩
  · exact ⟨rfl, fun _ => rfl⟩

/-- Every job but those of uploads. -/
theorem execute_apart {opens : List Int8 → Bool} {mem : Scratch} {job : HostJob}
    {q : List HostJob} (hs : s.jobQ = job :: q) (h : execute opens mem s = some u)
    (hjob : isUpload job = false) : Apart { s with jobQ := q } u := by
  simp only [execute, hs] at h
  cases job with
  | fileUploadRecvStart p | fileUploadRecvMiddle p | fileUploadRecvEnd p => cases hjob
  | sendPktAllPorts p =>
    cases h
    exact ⟨rfl, fun _ => rfl⟩
  | pingSendReply p =>
    cases h
    exact apart_enqueue rfl ⟨rfl, fun _ => rfl⟩
  | fileUploadSend fname dst =>
    obtain ⟨packets, hpackets, rfl⟩ := Option.map_eq_some_iff.mp h
    refine apart_enqueue ?_ ⟨rfl, fun _ => rfl⟩
    rw [List.filter_eq_nil_iff]
    exact List.forall_mem_map.mpr fun p _ => by simp [isUpload]
  | pingWaitForReply t timer | dnsRegisterWaitForReply t timer
  | dnsLookupWaitForReply t fname timer =>
    refine waitForReply_apart h (fun _ => rfl) ?_
    intro ha
    cases ha
    exact ⟨rfl, fun _ => rfl⟩
  | dnsPingWaitForReply t timer =>
    refine waitForReply_apart h (fun _ => rfl) ?_
    intro ha
    cases ha
    split
    · exact ⟨rfl, fun _ => rfl⟩
    · exact (apart_enqueue (s := { s with jobQ := q }) rfl ⟨rfl, fun _ => rfl⟩).trans
        ⟨rfl, fun _ => rfl⟩
  | dnsDownloadWaitForReply t fname timer =>
    refine waitForReply_apart h (fun _ => rfl) ?_
    intro ha
    split at ha
    · cases ha
      exact ⟨rfl, fun _ => rfl⟩
    · obtain ⟨p, hp, rfl⟩ := Option.map_eq_some_iff.mp ha
      exact (apart_enqueue (s := { s with jobQ := q }) rfl ⟨rfl, fun _ => rfl⟩).trans
        ⟨rfl, fun _ => rfl⟩

theorem recvEnd_keeps {r r' : Receiver} {p : Packet} (h : recvEnd canOpen r p = some r') :
    r'.dir = r.dir ∧ r'.hostId = r.hostId := by
  obtain ⟨bytes, -, h⟩ := Option.bind_eq_some_iff.mp h
  cases hdir : r.dir with
  | none =>
    simp only [hdir, Option.some.injEq] at h
    subst h
    exact ⟨rfl, rfl⟩
  | some d =>
    simp only [hdir] at h
    obtain ⟨string, -, h⟩ := Option.bind_eq_some_iff.mp h
    obtain ⟨path, -, rfl⟩ := Option.map_eq_some_iff.mp h
    split
    · exact ⟨rfl, rfl⟩
    · exact ⟨rfl, rfl⟩

theorem inDir_self (h : s.dir = some dir) : inDir dir s = s.toReceiver := by
  rw [inDir, ← h]

theorem execute_upload {opens : List Int8 → Bool} {mem : Scratch} {job : HostJob}
    {q : List HostJob} (hs : s.jobQ = job :: q) (h : execute opens mem s = some u)
    (hjob : isUpload job = true) (hl : Lands dir canOpen s (.execute opens mem)) :
    pending s = job :: pending u ∧ runUpload canOpen (inDir dir s) job = some (inDir dir u) := by
  have hpending : ∀ v : HostState, v.jobQ = q → pending s = job :: pending v := by
    intro v hv
    rw [pending, hs, List.filter_cons_of_pos hjob, pending, hv]
  simp only [execute, hs] at h
  cases job with
  | fileUploadRecvStart p =>
    obtain ⟨r, hr, rfl⟩ := Option.map_eq_some_iff.mp h
    obtain ⟨bytes, hbytes, rfl⟩ := Option.map_eq_some_iff.mp hr
    refine ⟨hpending _ rfl, ?_⟩
    rw [runUpload, recvStart, hbytes]
    rfl
  | fileUploadRecvMiddle p =>
    obtain ⟨r, hr, rfl⟩ := Option.map_eq_some_iff.mp h
    obtain ⟨bytes, hbytes, rfl⟩ := Option.map_eq_some_iff.mp hr
    refine ⟨hpending _ rfl, ?_⟩
    rw [runUpload, recvMiddle, hbytes]
    rfl
  | fileUploadRecvEnd p =>
    obtain ⟨hdir, rfl⟩ := hl p q hs
    obtain ⟨r, hr, rfl⟩ := Option.map_eq_some_iff.mp h
    have hr : recvEnd opens s.toReceiver p = some r := hr
    refine ⟨hpending _ rfl, ?_⟩
    rw [runUpload, inDir_self hdir, hr]
    exact congrArg some (inDir_self (s := { s with toReceiver := r })
      ((recvEnd_keeps hr).1.trans hdir)).symm
  | _ => cases hjob

/-- What a part of the loop makes of the uploads: some jobs for packets are done, in the order in
which the packets came in. -/
theorem hostStep_upload {e : HostEvent} (h : hostStep s e = some u)
    (hl : Lands dir canOpen s e) :
    ∃ done, pending s ++ arriving s e = done ++ pending u ∧
      done.foldlM (runUpload canOpen) (inDir dir s) = some (inDir dir u) := by
  have none_done : ∀ v : HostState, pending v = pending s ++ arriving s e →
      (∀ dir, inDir dir v = inDir dir s) → ∀ k, u = { v with phase := k } →
      ∃ done, pending s ++ arriving s e = done ++ pending u ∧
        done.foldlM (runUpload canOpen) (inDir dir s) = some (inDir dir u) := by
    rintro v hpending hreceiver k rfl
    exact ⟨[], hpending.symm, congrArg some (hreceiver dir).symm⟩
  cases hostStep_part h with
  | @control blank =>
    have hapart := controlTimer_apart blank s
    exact none_done _ (hapart.pending.trans (List.append_nil _).symm) hapart.receiver _ rfl
  | noCommand => exact none_done s (List.append_nil _).symm (fun _ => rfl) _ rfl
  | command _ hv =>
    obtain ⟨-, hv⟩ := Option.ite_none_right_eq_some.mp hv
    have hapart := executeCommand_apart hv
    exact none_done _ (hapart.pending.trans (List.append_nil _).symm) hapart.receiver _ rfl
  | receive _ _ hv =>
    obtain ⟨hpending, hreceiver⟩ := receive_upload hv
    exact none_done _ hpending hreceiver _ rfl
  | @execute opens mem v _ hv =>
    rcases hs : s.jobQ with _ | ⟨job, q⟩
    · simp only [execute, hs, Option.some.injEq] at hv
      subst hv
      exact none_done s (List.append_nil _).symm (fun _ => rfl) _ rfl
    have hnone : arriving s (.execute opens mem) = [] := rfl
    rw [hnone, List.append_nil] at none_done ⊢
    cases hjob : isUpload job with
    | true =>
      obtain ⟨hpending, hrun⟩ := execute_upload hs hv hjob hl
      refine ⟨[job], hpending, ?_⟩
      rw [List.foldlM_cons, hrun]
      rfl
    | false =>
      have hapart := execute_apart hs hv hjob
      refine none_done v (hapart.pending.trans ?_) hapart.receiver _ rfl
      rw [pending, pending, hs, List.filter_cons_of_neg (by simp [hjob])]

end

variable {c : Config}

/-- Whenever host b ends an upload, it is in directory `dir` and `canOpen` says what it opens. -/
def LandingStep (c : Config) (b : ℕ) (dir : List Int8) (canOpen : List Int8 → Bool) (s : SimState)
    (e : SimEvent) (u : SimState) : Prop :=
  WholeStep c s e u ∧ ∀ x, e = .host b x → Lands dir canOpen (s.host b) x

section

variable {dir : List Int8} {canOpen : List Int8 → Bool} {b : ℕ} {s u : SimState}

theorem step_upload (hb : c.typeOf b = some .host) {e : SimEvent}
    (h : LandingStep c b dir canOpen s e u) :
    (u.host b).hostId = (s.host b).hostId ∧ ∃ done,
      pending (s.host b) ++ (readNow c s b e).flatMap (fun read =>
        uploadJobs (s.host b).hostId read.2) = done ++ pending (u.host b) ∧
      done.foldlM (runUpload canOpen) (inDir dir (s.host b)) = some (inDir dir (u.host b)) := by
  obtain ⟨⟨-, hstep⟩, hlands⟩ := h
  cases host_moves hb hstep with
  | rests _ hsame hreads =>
    rw [hsame, hreads]
    exact ⟨rfl, [], List.append_nil _, rfl⟩
  | @part x he hreceive hreads hpart =>
    obtain ⟨done, hdone, hrun⟩ := hostStep_upload hpart (hlands x he)
    refine ⟨(HostJobs.hostStep_does hpart).hostId, done, ?_, hrun⟩
    rw [hreads]
    cases x with
    | receive => cases hreceive
    | control | command | execute => exact hdone
  | @reads k n p _ hreads hpart =>
    have hlands : Lands dir canOpen (s.host b) (.receive n p) := trivial
    obtain ⟨done, hdone, hrun⟩ := hostStep_upload hpart hlands
    refine ⟨(HostJobs.hostStep_does hpart).hostId, done, ?_, hrun⟩
    rw [hreads, ← hdone, arriving]
    split
    · exact congrArg _ (List.flatMap_singleton _ _)
    · rfl

/-- The uploads that were done are those that were read, in this order, up to those that still
wait in the queue. -/
theorem run_upload (hb : c.typeOf b = some .host) {es : List SimEvent}
    (h : Run (LandingStep c b dir canOpen) s es u) : ∃ done,
      pending (s.host b) ++ (readings c b s es).flatMap (fun read =>
        uploadJobs (s.host b).hostId read.2) = done ++ pending (u.host b) ∧
      done.foldlM (runUpload canOpen) (inDir dir (s.host b)) = some (inDir dir (u.host b)) := by
  induction h with
  | nil s => exact ⟨[], List.append_nil _, rfl⟩
  | @cons s e t es u hstep _ ih =>
    obtain ⟨hid, done, hdone, hrun⟩ := step_upload hb hstep
    obtain ⟨done', hdone', hrun'⟩ := ih
    refine ⟨done ++ done', ?_, ?_⟩
    · rw [readings_cons hstep.1.2, List.flatMap_append, ← List.append_assoc, hdone,
        List.append_assoc, ← hid, hdone', List.append_assoc]
    · rw [List.foldlM_append, hrun]
      exact hrun'

end

/-- An upload packet for the node with this id. -/
def UploadTo (id : ℤ) (p : Packet) : Prop :=
  p.dst.toInt = id ∧
    (p.type = pktFileUploadStart ∨ p.type = pktFileUploadEnd ∨ p.type = pktFileUploadMiddle)

instance (id : ℤ) : DecidablePred (UploadTo id) := fun _ => inferInstanceAs (Decidable (_ ∧ _))

theorem UploadTo.data {id : ℤ} {p : Packet} (h : UploadTo id p) : p.type ≠ pktControlPacket := by
  rcases h.2 with htype | htype | htype
  · rw [htype]
    decide
  · rw [htype]
    decide
  · rw [htype]
    decide

section

variable {canOpen : List Int8 → Bool} {r r' : Receiver} {p g : Packet}

theorem handleUpload_hostId (h : handleUpload canOpen r p = some r') : r'.hostId = r.hostId := by
  unfold handleUpload at h
  split_ifs at h
  · obtain ⟨bytes, -, rfl⟩ := Option.map_eq_some_iff.mp h
    rfl
  · exact (recvEnd_keeps h).2
  · obtain ⟨bytes, -, rfl⟩ := Option.map_eq_some_iff.mp h
    rfl
  · cases h
    rfl
  · cases h
    rfl

theorem uploadJobs_run (canOpen : List Int8 → Bool) (r : Receiver) (p : Packet) :
    (uploadJobs r.hostId p).foldlM (runUpload canOpen) r = handleUpload canOpen r p := by
  unfold uploadJobs handleUpload
  split_ifs
  · exact bind_pure _
  · exact bind_pure _
  · exact bind_pure _
  · rfl
  · rfl

theorem handleUpload_other (h : ¬ UploadTo r.hostId p) : handleUpload canOpen r p = some r := by
  unfold handleUpload
  split_ifs with hdst hstart hend hmiddle
  · exact absurd ⟨hdst, .inl hstart⟩ h
  · exact absurd ⟨hdst, .inr (.inl hend)⟩ h
  · exact absurd ⟨hdst, .inr (.inr hmiddle)⟩ h
  · rfl
  · rfl

/-- Only the upload packets count. -/
theorem uploads_run {id : ℤ} (ps : List Packet) (hid : r.hostId = id) :
    (ps.flatMap (uploadJobs id)).foldlM (runUpload canOpen) r =
      (ps.filter (UploadTo id)).foldlM (handleUpload canOpen) r := by
  induction ps generalizing r with
  | nil => rfl
  | cons p ps ih =>
    rw [List.flatMap_cons, List.foldlM_append, ← hid, uploadJobs_run]
    by_cases hp : UploadTo r.hostId p
    · rw [List.filter_cons_of_pos (by simpa using hp), List.foldlM_cons]
      cases hnext : handleUpload canOpen r p with
      | none => rfl
      | some r' =>
        have hsame := handleUpload_hostId hnext
        have hrest := ih (r := r') (hsame.trans hid)
        rw [← hid] at hrest
        exact hrest
    · rw [List.filter_cons_of_neg (by simpa using hp), handleUpload_other hp]
      have hrest := ih hid
      rw [← hid] at hrest
      exact hrest

theorem payloadBytes_copy (hf : Fits g) (h : CopyOf g p) : payloadBytes p = payloadBytes g := by
  have hlen := h.length hf
  rw [payloadBytes, payloadBytes, hlen]
  split
  · congr 1
    apply List.ext_getElem (by simp)
    intro i hi hi'
    simp only [List.length_take, List.length_ofFn] at hi
    rw [List.getElem_take, List.getElem_take, List.getElem_ofFn, List.getElem_ofFn]
    refine h.payload hf _ ?_
    have hnonneg := hf.1
    change (i : ℤ) < g.length
    omega
  · rfl

theorem handleUpload_copy (hf : Fits g) (h : CopyOf g p) :
    handleUpload canOpen r p = handleUpload canOpen r g := by
  simp only [handleUpload, recvStart, recvEnd, recvMiddle, h.dst, h.type, h.length hf,
    payloadBytes_copy hf h]

theorem copies_run {ps qs : List Packet} (h : List.Forall₂ (fun p g => CopyOf g p) ps qs)
    (hf : ∀ g ∈ qs, Fits g) (mem : ℕ → Memory) :
    ps.foldlM (handleUpload canOpen) r = deliverAll canOpen r qs mem := by
  induction h generalizing r mem with
  | nil => rfl
  | @cons p g ps qs hcopy _ ih =>
    obtain ⟨hg, hrest⟩ := List.forall_mem_cons.mp hf
    rw [List.foldlM_cons, deliverAll_cons hg, handleUpload_copy hg hcopy,
      handleUpload_copy hg ((CopyOf.refl g).deliver (mem 0).prior)]
    apply congrArg
    funext r'
    exact ih hrest _

end

theorem uploaded_file {hostId dst : ℤ} {dir rdir fname path content : List Int8} {disk : Disk}
    {mem : Scratch} {canOpen : List Int8 → Bool} {r : Receiver} {packets : List Packet}
    (hsend : uploadSend hostId dst (some dir) fname disk mem = some packets)
    (hcontent : ∀ b ∈ content, b ≠ 0) (hlen : fname.length ≤ 99) (hnul : ∀ b ∈ fname, b ≠ 0)
    (hpath : printPath dir fname = some path) (hopen : disk path = some content)
    (hdst : (Int8.ofInt dst).toInt = r.hostId) (hdir : r.dir = some rdir)
    (hfit : (pathOf rdir fname).length < maxFileName) (hcan : canOpen (pathOf rdir fname) = true)
    (wire : ℕ → Memory) : ∃ r', deliverAll canOpen r packets wire = some r' ∧
      r'.disk (pathOf rdir fname) = some (content.take maxFileBuffer) := by
  obtain ⟨ps, hps, hcarries⟩ := uploadSend_carries hostId dst mem hpath hopen hcontent
  obtain rfl := Option.some.inj (hps.symm.trans hsend)
  have hmax : fname.length ≤ payloadMax := hlen.trans (by decide)
  have hfits : Fits (startPacket hostId dst fname (mem.blank 0)) := fits_of_length rfl hmax
  have hbytes : payloadBytes ((startPacket hostId dst fname (mem.blank 0)).deliver (wire 0).prior)
      = some fname := by
    rw [payloadBytes_deliver hfits, startPacket_payload hostId dst hmax]
  obtain ⟨t, ht, hrecv, hid, htdir, -⟩ := recvStart_receiving (h := r) hbytes hfits.length_char hmax
  have hstart : (startPacket hostId dst fname (mem.blank 0)).type = pktFileUploadStart := rfl
  rw [deliverAll_cons hfits, handleUpload_deliver hdst, if_pos hstart, ht]
  have hprint : printPath rdir (cString fname) = some (pathOf rdir fname) := by
    rw [cString_of_ne hnul, printPath, if_pos hfit]
  obtain ⟨r', hlast, -, hdisk⟩ := carries_written hcarries hrecv (hid ▸ hdst) (htdir.trans hdir)
    hprint hcan fun i => wire (i + 1)
  refine ⟨r', hlast, ?_⟩
  rw [hdisk, Function.update_self, List.nil_append, List.take_take, Nat.min_self]

theorem read_was_sent (hc : Piped c) {memory : SimMemory} {es : List SimEvent} {s : SimState}
    (h : Run (WholeStep c) (simInit c memory) es s) {b : Node c} {read : ℕ × Packet}
    (hread : read ∈ readings c b (simInit c memory) es) (hd : read.2.type ≠ pktControlPacket) :
    ∃ v : Node c, c.typeOf v ≠ some .switch ∧ read.2.src.toInt = c.idOf v ∧
      ∃ g ∈ sentBy c s v, CopyOf g read.2 := by
  obtain ⟨as, st, hrun, hsent, hframes⟩ := read_frames hc memory h
  obtain ⟨f, hf, hp⟩ := mem_frames (hframes b) hread
  have hport := readings_isPort hc hread
  rw [← hp] at hd ⊢
  have horigin := (SwitchPings.reachable_origin
    (NetworkSchedules.actionRuns_of_run hrun)).taken _ hport f hf
  obtain ⟨v, hv, hsrc⟩ := horigin.2 hd
  have hnode : c.typeOf v ≠ some .switch := fun hs => hv ((isSwitch_iff hc v).mpr hs)
  obtain ⟨log, hlog, hlogged⟩ := OrderedDelivery.logged_at hrun v
  obtain ⟨g, hg, -, hcopy⟩ := hlogged.copied.taken _ hport f hf hd hsrc
  refine ⟨v, hnode, hsrc, g.toPacket, ?_, hcopy⟩
  rw [← hsent v hnode, ← hlog]
  exact List.mem_map_of_mem hg

theorem uploadTo_copy {id : ℤ} {p g : Packet} (h : CopyOf g p) : UploadTo id p ↔ UploadTo id g := by
  rw [UploadTo, UploadTo, h.dst, h.type]

/-- The upload packets that a node has read are copies of those that were sent to it, if only one
node has sent any and none was lost. -/
theorem uploads_read (hc : Piped c) (hf : (topology hc).Forest) {memory : SimMemory}
    {es : List SimEvent} {s : SimState} (h : Run (WholeStep c) (simInit c memory) es s)
    {a b : Node c} (hab : a ≠ b) (ha : c.typeOf a ≠ some .switch)
    (hb : c.typeOf b ≠ some .switch)
    (honly : ∀ v, v ≠ a → ∀ p ∈ sentBy c s v, ¬ UploadTo (c.idOf b) p)
    (hall : (((readings c b (simInit c memory) es).map Prod.snd).filter
      (UploadTo (c.idOf b))).length = ((sentBy c s a).filter (UploadTo (c.idOf b))).length) :
    List.Forall₂ (fun p g => CopyOf g p)
      (((readings c b (simInit c memory) es).map Prod.snd).filter (UploadTo (c.idOf b)))
      ((sentBy c s a).filter (UploadTo (c.idOf b))) := by
  have horder := (reads_ordered hc hf h ha hb hab).2
  have hfiltered := sublistForall₂_filter (P := UploadTo (c.idOf b)) (Q := UploadTo (c.idOf b))
    (fun p g hcopy => decide_eq_decide.mpr (uploadTo_copy hcopy)) horder
  have hfrom : ((readings c b (simInit c memory) es).map Prod.snd).filter
      (UploadTo (c.idOf b)) = (((readings c b (simInit c memory) es).map Prod.snd).filter
        (Between (c.idOf a) (c.idOf b))).filter (UploadTo (c.idOf b)) := by
    rw [List.filter_filter]
    apply List.filter_congr
    intro p hp
    obtain ⟨read, hread, rfl⟩ := List.mem_map.mp hp
    by_cases hto : UploadTo (c.idOf b) read.2
    · obtain ⟨v, -, hsrc, g, hg, hcopy⟩ := read_was_sent hc h hread hto.data
      have hva : v = a := by
        by_contra hne
        exact honly v hne g hg ((uploadTo_copy hcopy).mp hto)
      have hbetween : Between (c.idOf a) (c.idOf b) read.2 := ⟨hto.data, hva ▸ hsrc, hto.1⟩
      simp [hto, hbetween]
    · simp [hto]
  rw [hfrom] at hall ⊢
  obtain ⟨l, hl, hsub⟩ := List.sublistForall₂_iff.mp hfiltered
  rw [← hsub.eq_of_length (by rw [← hl.length_eq, hall])]
  exact hl

/-- A text file that one host uploads to another over a network without cycles arrives, if no
upload packet is lost, no other node uploads to the host, and the host has done all uploads and
could open the file in its directory when it came to the end of each. -/
theorem uploads_arrive (hc : Piped c) (hf : (topology hc).Forest) (memory : SimMemory)
    {a b : Node c} (hab : a ≠ b) (ha : c.typeOf a ≠ some .switch) (hb : c.typeOf b = some .host)
    {rdir : List Int8} {canOpen : List Int8 → Bool} {es : List SimEvent} {s : SimState}
    (h : Run (LandingStep c b rdir canOpen) (simInit c memory) es s)
    {dir fname path content : List Int8} {disk : Disk} {mem : Scratch} {packets : List Packet}
    (hsend : uploadSend (c.idOf a) (c.idOf b) (some dir) fname disk mem = some packets)
    (hcontent : ∀ byte ∈ content, byte ≠ 0) (hlen : fname.length ≤ 99)
    (hnul : ∀ byte ∈ fname, byte ≠ 0) (hpath : printPath dir fname = some path)
    (hopen : disk path = some content) (hfit : (pathOf rdir fname).length < maxFileName)
    (hcan : canOpen (pathOf rdir fname) = true)
    (hsent : (sentBy c s a).filter (UploadTo (c.idOf b)) = packets)
    (honly : ∀ v, v ≠ a → ∀ p ∈ sentBy c s v, ¬ UploadTo (c.idOf b) p)
    (hread : (((readings c b (simInit c memory) es).map Prod.snd).filter
      (UploadTo (c.idOf b))).length = packets.length)
    (hdone : pending (s.host b) = []) :
    (s.host b).disk (pathOf rdir fname) = some (content.take maxFileBuffer) := by
  have hwhole : Run (WholeStep c) (simInit c memory) es s := h.mono fun _ _ _ hstep => hstep.1
  have hnode : c.typeOf b ≠ some .switch := by
    rw [hb]
    decide
  have hcopies := uploads_read hc hf hwhole hab ha hnode honly (by rw [hread, hsent])
  rw [hsent] at hcopies
  obtain ⟨done, hjobs, hrun⟩ := run_upload hb h
  have hqueue : pending ((simInit c memory).host b) = [] := rfl
  have hid : ((simInit c memory).host b).hostId = c.idOf b := rfl
  rw [hqueue, hdone, List.nil_append, List.append_nil, hid] at hjobs
  have hmap : (readings c b (simInit c memory) es).flatMap (fun read =>
      uploadJobs (c.idOf b) read.2) =
        ((readings c b (simInit c memory) es).map Prod.snd).flatMap (uploadJobs (c.idOf b)) :=
    (List.flatMap_map _ _ _).symm
  have hreceiver : (inDir rdir ((simInit c memory).host b)).hostId = c.idOf b := rfl
  have hfits : ∀ g ∈ packets, Fits g := fun g hg => (HostJobs.uploadSend_made hsend g hg).fits
  rw [← hjobs, hmap, uploads_run _ hreceiver,
    copies_run hcopies hfits fun _ => ⟨fun _ => 0, fun _ => 0⟩] at hrun
  have hdst : (Int8.ofInt (c.idOf b)).toInt = (inDir rdir ((simInit c memory).host b)).hostId :=
    (topology hc).id_toInt b
  obtain ⟨r', hlast, hdisk⟩ := uploaded_file hsend hcontent hlen hnul hpath hopen hdst rfl hfit
    hcan fun _ => ⟨fun _ => 0, fun _ => 0⟩
  rw [hlast] at hrun
  rw [Option.some.inj hrun] at hdisk
  exact hdisk

section TwoBytes

deriving instance DecidableEq for Packet

def twoBytes : Disk := fun path => if path = pathOf [100] [102] then some [97, 98] else none

def twoBytesMemory : SimMemory :=
  ⟨fun _ => { HostReplies.quietHost with disk := twoBytes }, fun _ => 0⟩

def blankScratch : Scratch := ⟨fun _ => HostReplies.noPacket, fun _ => 0, fun _ _ => 0⟩

def iteration (v : ℕ) (command : Option (List Int8)) : List SimEvent :=
  [.host v (.control HostReplies.noPacket), .host v (.command command HostReplies.noPacket),
    TableIndices.quietRecv v, .host v (.execute (fun _ => true) blankScratch)]

/-- Host 0 goes to directory "d" and uploads "f"; host 1 goes to directory "e" and gets it. -/
def twoBytesEvents : List SimEvent :=
  iteration 0 (some [109, 32, 100]) ++ iteration 0 (some [117, 32, 49, 32, 102]) ++
    iteration 0 none ++ iteration 1 (some [109, 32, 101]) ++ iteration 0 none ++ iteration 1 none

def landed (s : SimState) : SimEvent → Bool
  | .host 1 (.execute _ _) =>
    match (s.host 1).jobQ with
    | .fileUploadRecvEnd _ :: _ => (s.host 1).dir = some [101]
    | _ => true
  | _ => true

def Opens : SimEvent → Prop
  | .host _ (.execute opens _) => opens = fun _ => true
  | _ => True

theorem twoBytesEvents_opens : ∀ e ∈ twoBytesEvents, Opens e := by
  have opens : ∀ v command, ∀ e ∈ iteration v command, Opens e := by
    intro v command
    exact List.forall_mem_cons.mpr ⟨trivial, List.forall_mem_cons.mpr ⟨trivial,
      List.forall_mem_cons.mpr ⟨trivial, List.forall_mem_singleton.mpr rfl⟩⟩⟩
  simp only [twoBytesEvents, List.forall_mem_append]
  exact ⟨⟨⟨⟨⟨opens _ _, opens _ _⟩, opens _ _⟩, opens _ _⟩, opens _ _⟩, opens _ _⟩

theorem landed_lands {s : SimState} {e : SimEvent} (h : landed s e = true) (hopens : Opens e) :
    ∀ x, e = .host 1 x → Lands [101] (fun _ => true) (s.host 1) x := by
  rintro x rfl
  cases x with
  | execute opens mem =>
    intro p q hq
    simp only [landed, hq, decide_eq_true_eq] at h
    exact ⟨h, hopens⟩
  | control | command | receive => trivial

def twoBytesPackets : List Packet :=
  (uploadSend 0 1 (some [100]) [102] twoBytes blankScratch).getD []

theorem twoBytes_run : ∃ s,
    Run (LandingStep hostPair 1 [101] fun _ => true) (simInit hostPair twoBytesMemory)
      twoBytesEvents s ∧
    (sentBy hostPair s 0).filter (UploadTo 1) = twoBytesPackets ∧ sentBy hostPair s 1 = [] ∧
      pending (s.host 1) = [] := by
  have hrun : (twoBytesEvents.foldlM
      (fun s e => if landed s e then wholeStep hostPair s e else none)
      (simInit hostPair twoBytesMemory)).map (fun s =>
        ((sentBy hostPair s 0).filter (UploadTo 1), sentBy hostPair s 1,
          (pending (s.host 1)).length)) = some (twoBytesPackets, [], 0) := by
    decide +kernel
  obtain ⟨s, hs, hlast⟩ := Option.map_eq_some_iff.mp hrun
  obtain ⟨hsent, hlast⟩ := Prod.mk.inj hlast
  obtain ⟨hnone, hdone⟩ := Prod.mk.inj hlast
  refine ⟨s, ?_, hsent, hnone, List.eq_nil_of_length_eq_zero hdone⟩
  refine ((Run.of_foldlM hs).restrict twoBytesEvents_opens).mono ?_
  rintro s e u ⟨hstep, hopens⟩
  obtain ⟨hlanded, hstep⟩ := Option.ite_none_right_eq_some.mp hstep
  exact ⟨wholeStep_some hstep, landed_lands hlanded hopens⟩

theorem hostPair_forest : (topology hostPair_piped).Forest :=
  NetworkTopology.Topology.forest_of_rank (fun v => v.val) (by decide +kernel) (by decide +kernel)

theorem uploads_arrive_twoBytes : ∃ s,
    Run (LandingStep hostPair 1 [101] fun _ => true) (simInit hostPair twoBytesMemory)
      twoBytesEvents s ∧ (s.host 1).disk (pathOf [101] [102]) = some [97, 98] := by
  obtain ⟨s, hs, hsent, hnone, hdone⟩ := twoBytes_run
  have hbytes : ∀ byte ∈ ([97, 98] : List Int8), byte ≠ 0 :=
    List.forall_mem_cons.mpr ⟨by decide, List.forall_mem_singleton.mpr (by decide)⟩
  have hnul : ∀ byte ∈ ([102] : List Int8), byte ≠ 0 :=
    List.forall_mem_singleton.mpr (by decide)
  have hsend : uploadSend (hostPair.idOf 0) (hostPair.idOf 1) (some [100]) [102] twoBytes
      blankScratch = some twoBytesPackets := by
    decide +kernel
  have hpath : printPath [100] [102] = some (pathOf [100] [102]) := by decide
  have hopen : twoBytes (pathOf [100] [102]) = some [97, 98] := if_pos rfl
  have hread : (((readings hostPair 1 (simInit hostPair twoBytesMemory) twoBytesEvents).map
      Prod.snd).filter (UploadTo (hostPair.idOf 1))).length = twoBytesPackets.length := by
    decide +kernel
  have honly : ∀ v : Node hostPair, v ≠ ⟨0, by decide⟩ → ∀ p ∈ sentBy hostPair s v,
      ¬ UploadTo (hostPair.idOf 1) p := by
    intro v hv p hp
    have hone : ∀ w : Node hostPair, w ≠ ⟨0, by decide⟩ → w.val = 1 := by decide
    rw [hone v hv, hnone] at hp
    cases hp
  exact ⟨s, hs, uploads_arrive hostPair_piped hostPair_forest twoBytesMemory
    (a := ⟨0, by decide⟩) (b := ⟨1, by decide⟩) (by decide) (by decide) (by decide) hs hsend hbytes
    (by decide) hnul hpath hopen (by decide) rfl hsent honly hread hdone⟩

end TwoBytes

end UploadDelivery
