import NetSim.RingQueue
import NetSim.EventRuns
import NetSim.PacketCodec

/-! The `file_buf` of host.c: a file name and a ring buffer for the contents. -/
namespace FileBuffer

open RingQueue PacketCodec

def maxFileBuffer : ℕ := 1000
def maxFileName : ℕ := 100
def pktPayloadMax : ℕ := 100

structure FileBuf extends RingBuf Int8 where
  name : ℕ → Int8
  nameLength : ℤ

def fileBufInit (f : FileBuf) : FileBuf :=
  { f with head := 0, tail := maxFileBuffer, occ := 0, nameLength := 0 }

/-- `bytes` is what the copy loop finds at its argument. -/
def fileBufPutName (f : FileBuf) (bytes : List Int8) (length : ℤ) : FileBuf :=
  { f with name := fun i => bytes.getD i (f.name i), nameLength := length }

/-- The name without its NULL character; nothing if it does not fit `string`. -/
def fileBufGetName (f : FileBuf) : Option (List Int8) :=
  if 0 ≤ f.nameLength ∧ f.nameLength ≤ pktPayloadMax then
    some ((List.range f.nameLength.toNat).map f.name)
  else none

def fileBufAdd (f : FileBuf) (bytes : List Int8) : FileBuf × ℕ :=
  let r := f.toRingBuf.add maxFileBuffer bytes
  ({ f with toRingBuf := r.1 }, r.2)

def fileBufRemove (f : FileBuf) (length : ℕ) : FileBuf × List Int8 :=
  let r := f.toRingBuf.remove maxFileBuffer length
  ({ f with toRingBuf := r.1 }, r.2)

/-- The buffer is in order and holds the bytes of q. -/
def FileBuf.Holds (f : FileBuf) (q : List Int8) : Prop := f.toRingBuf.Refines maxFileBuffer q

theorem fileBufInit_holds (f : FileBuf) : (fileBufInit f).Holds [] :=
  ⟨⟨Nat.zero_le _, le_rfl, Nat.zero_le _, Nat.modEq_zero_iff_dvd.mpr (dvd_refl _)⟩, rfl⟩

theorem fileBufPutName_holds {f : FileBuf} {q : List Int8} (h : f.Holds q) (bytes : List Int8)
    (length : ℤ) : (fileBufPutName f bytes length).Holds q := h

theorem fileBufGetName_putName (f : FileBuf) {bytes : List Int8}
    (h : bytes.length ≤ pktPayloadMax) :
    fileBufGetName (fileBufPutName f bytes bytes.length) = some bytes := by
  have hlen : 0 ≤ (fileBufPutName f bytes bytes.length).nameLength ∧
      (fileBufPutName f bytes bytes.length).nameLength ≤ pktPayloadMax := by
    simp only [fileBufPutName]
    omega
  rw [fileBufGetName, if_pos hlen]
  congr 1
  apply List.ext_getElem
  · simp [fileBufPutName]
  · intro i _ hi
    simp [fileBufPutName, hi]

theorem fileBufAdd_holds {f : FileBuf} {q : List Int8} (h : f.Holds q) (bytes : List Int8) :
    (fileBufAdd f bytes).1.Holds (q ++ bytes.take (maxFileBuffer - q.length)) :=
  (add_refines bytes h).1

theorem fileBufGetName_add (f : FileBuf) (bytes : List Int8) :
    fileBufGetName (fileBufAdd f bytes).1 = fileBufGetName f := rfl

theorem fileBufRemove_holds {f : FileBuf} {q : List Int8} (h : f.Holds q) (n : ℕ) :
    (fileBufRemove f n).1.Holds (q.drop n) ∧ (fileBufRemove f n).2 = q.take n :=
  remove_refines n h

/-- The loop that writes the buffer out, PKT_PAYLOAD_MAX bytes at a time: the emptied buffer
and all that was written. -/
def drain (f : FileBuf) : FileBuf × List Int8 :=
  if 0 < f.occ then
    let r := fileBufRemove f pktPayloadMax
    let s := drain r.1
    (s.1, r.2 ++ s.2)
  else (f, [])
termination_by f.occ
decreasing_by
  have := remove_occ (c := maxFileBuffer) pktPayloadMax f.toRingBuf
  simp only [fileBufRemove, pktPayloadMax] at *
  omega

theorem drain_holds {f : FileBuf} {q : List Int8} (h : f.Holds q) :
    (drain f).1.Holds [] ∧ (drain f).2 = q := by
  induction hn : q.length using Nat.strong_induction_on generalizing f q with
  | h n ih =>
    have hocc : f.occ = q.length := h.occ
    rw [drain]
    by_cases hc : 0 < f.occ
    · rw [if_pos hc]
      obtain ⟨hd, ht⟩ := fileBufRemove_holds h pktPayloadMax
      have hlt : (q.drop pktPayloadMax).length < n := by
        rw [List.length_drop, pktPayloadMax]
        omega
      obtain ⟨h1, h2⟩ := ih _ hlt hd rfl
      refine ⟨h1, ?_⟩
      change (fileBufRemove f pktPayloadMax).2 ++ (drain (fileBufRemove f pktPayloadMax).1).2 = q
      rw [ht, h2, List.take_append_drop]
    · rw [if_neg hc]
      have hq : q = [] := List.eq_nil_of_length_eq_zero (by omega)
      exact ⟨hq ▸ h, hq.symm⟩

/-- `string` is the array that is passed to file_buf_add. -/
inductive BufOp where
  | add (string : ℕ → Int8) (length : ℕ)
  | remove (length : ℕ)

/-- What is returned, and what is stored in `string[]`. -/
structure BufResult where
  count : ℕ
  string : List Int8
  deriving DecidableEq

def bytesAt (string : ℕ → Int8) (length : ℕ) : List Int8 := (List.range length).map string

def bufStep (f : FileBuf) : BufOp → FileBuf × BufResult
  | .add string length =>
    let r := fileBufAdd f (bytesAt string length)
    (r.1, ⟨r.2, []⟩)
  | .remove length =>
    let r := fileBufRemove f length
    (r.1, ⟨r.2.length, r.2⟩)

def byteQueueStep (q : List Int8) : BufOp → List Int8 × BufResult
  | .add string length =>
    let n := min length (maxFileBuffer - q.length)
    (q ++ (bytesAt string length).take n, ⟨n, []⟩)
  | .remove length =>
    let n := min length q.length
    (q.drop n, ⟨n, q.take n⟩)

theorem bufStep_holds {f : FileBuf} {q : List Int8} (h : f.Holds q) (op : BufOp) :
    (bufStep f op).1.Holds (byteQueueStep q op).1 ∧
      (bufStep f op).2 = (byteQueueStep q op).2 := by
  cases op with
  | add string length =>
    have hlen : (bytesAt string length).length = length := by simp [bytesAt]
    obtain ⟨hq, hn⟩ := add_refines (bytesAt string length) h
    rw [hlen] at hn
    refine ⟨?_, ?_⟩
    · change FileBuf.Holds _ (q ++ (bytesAt string length).take _)
      rw [List.take_eq_take_min, hlen, min_comm] at hq
      exact hq
    · simp [bufStep, byteQueueStep, fileBufAdd, hn]
  | remove length =>
    obtain ⟨hq, hn⟩ := fileBufRemove_holds h length
    have hdrop : q.drop (min length q.length) = q.drop length := by
      rcases le_total length q.length with hle | hle
      · rw [min_eq_left hle]
      · rw [min_eq_right hle, List.drop_length, List.drop_of_length_le hle]
    have htake : q.take (min length q.length) = q.take length := List.take_eq_take_min.symm
    refine ⟨?_, ?_⟩
    · change FileBuf.Holds _ (q.drop (min length q.length))
      rw [hdrop]
      exact hq
    · simp only [bufStep, byteQueueStep, hn, htake, List.length_take]

/-- From file_buf_init on the buffer is a byte queue of capacity MAX_FILE_BUFFER. -/
theorem file_buf_bounded_fifo (f : FileBuf) (ops : List BufOp) :
    let r := EventRuns.outputs bufStep (fileBufInit f) ops
    let q := EventRuns.outputs byteQueueStep [] ops
    r.2 = q.2 ∧ r.1.contents maxFileBuffer = q.1 ∧ r.1.occ = q.1.length ∧
      r.1.occ ≤ maxFileBuffer ∧ r.1.head ≤ maxFileBuffer ∧ r.1.tail ≤ maxFileBuffer ∧
      ((maxFileBuffer + 1 : ℕ) : ℤ) ∣ (r.1.tail : ℤ) + 1 - r.1.head - r.1.occ := by
  intro r q
  obtain ⟨hholds, hresults⟩ :=
    EventRuns.outputs_simulates (R := FileBuf.Holds) (fun _ _ op h => bufStep_holds h op)
      (fileBufInit_holds f) ops
  have hv := hholds.1
  refine ⟨hresults, hholds.2, hholds.occ, hv.occ_le, hv.head_le, hv.tail_le, ?_⟩
  have haligned := (Nat.modEq_iff_dvd.mp hv.aligned.symm)
  push_cast at haligned ⊢
  rw [sub_sub]
  exact haligned

end FileBuffer
