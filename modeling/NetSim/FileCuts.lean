import NetSim.FileSplit

/-! Files with any bytes in them: which of them the packets carry unchanged, and which indices
the loops of JOB_FILE_UPLOAD_SEND use. -/
namespace FileCuts

open PacketCodec FileBuffer FileSplit BlockShift

/-- The n bytes that come through: in a part that a MIDDLE packet carries, only NULL bytes follow
one; and from the first one behind the first 100 bytes on, the bytes repeat every 100. -/
structure Survives (f : ℕ → Int8) (n : ℕ) : Prop where
  padded : ∀ p q, partStart p + maxMsgLength < n → partStart q = partStart p → p ≤ q →
    f p = 0 → f q = 0
  repeats : ∀ z q, maxMsgLength ≤ z → z ≤ q → q + maxMsgLength < n → f z = 0 →
    f (q + maxMsgLength) = f q

theorem partStart_le (p : ℕ) : partStart p ≤ p := Nat.mul_div_le _ _

theorem lt_partStart (p : ℕ) : p < partStart p + maxMsgLength := by
  simp only [partStart, maxMsgLength]
  omega

theorem partStart_eq {p q : ℕ} (h : partStart p ≤ q) (hq : q < partStart p + maxMsgLength) :
    partStart q = partStart p := by
  simp only [partStart, maxMsgLength] at *
  omega

theorem partStart_sub {p : ℕ} (h : maxMsgLength ≤ p) :
    partStart (p - maxMsgLength) + maxMsgLength = partStart p := by
  simp only [partStart, maxMsgLength] at *
  omega

theorem sentByte_middle {f : ℕ → Int8} {n p : ℕ} (hn : partStart p + maxMsgLength < n) :
    sentByte f n p =
      if ∀ j ≤ p, partStart p ≤ j → held maxMsgLength f j ≠ 0 then held maxMsgLength f p
      else 0 := by
  have hp := partStart_le p
  rw [sentByte, if_pos hn, strncpy, Nat.add_sub_cancel' hp]
  have hiff : (∀ j ≤ p - partStart p, held maxMsgLength f (partStart p + j) ≠ 0) ↔
      ∀ j ≤ p, partStart p ≤ j → held maxMsgLength f j ≠ 0 := by
    constructor
    · intro h j hj hpart
      have := h (j - partStart p) (by omega)
      rwa [Nat.add_sub_cancel' hpart] at this
    · intro h j hj
      exact h _ (by omega) (Nat.le_add_right _ _)
  simp only [hiff]

theorem sentByte_last {f : ℕ → Int8} {n p : ℕ} (hn : ¬ partStart p + maxMsgLength < n) :
    sentByte f n p = held maxMsgLength f p := by
  rw [sentByte, if_neg hn]

theorem Survives.held_eq {f : ℕ → Int8} {n : ℕ} (h : Survives f n) {p : ℕ} (hp : p < n) :
    held maxMsgLength f p = f p := by
  induction p using Nat.strong_induction_on with
  | h p ih =>
    by_cases hnone : NoneUpTo maxMsgLength f (p - maxMsgLength)
    · exact held_of_none hnone
    · obtain ⟨z, hz, hmin, hzero⟩ := exists_of_not_none hnone
      have hpos : 0 < maxMsgLength := by decide
      rw [held_of_zero hnone, ih _ (by omega) (by omega)]
      have hrep := h.repeats z (p - maxMsgLength) hmin hz (by omega) hzero
      rw [Nat.sub_add_cancel (by omega)] at hrep
      exact hrep.symm

theorem Survives.sent {f : ℕ → Int8} {n : ℕ} (h : Survives f n) {p : ℕ} (hp : p < n) :
    sentByte f n p = f p := by
  by_cases hn : partStart p + maxMsgLength < n
  · rw [sentByte_middle hn, h.held_eq hp]
    split
    · rfl
    · next hnot =>
      simp only [not_forall, not_not] at hnot
      obtain ⟨j, hj, hpart, hzero⟩ := hnot
      rw [h.held_eq (by omega)] at hzero
      have hsame : partStart j = partStart p :=
        partStart_eq hpart (hj.trans_lt (lt_partStart p))
      exact (h.padded j p (hsame ▸ hn) hsame.symm hj hzero).symm
  · rw [sentByte_last hn, h.held_eq hp]

section

variable {f : ℕ → Int8} {n : ℕ} (h : ∀ p < n, sentByte f n p = f p)

include h

/-- A NULL byte in a part that is copied by `strncpy` is the first one that comes out of it, or
stands behind it. -/
theorem exists_zero_of_sent {p : ℕ} (hn : partStart p + maxMsgLength < n) (hzero : f p = 0) :
    ∃ j ≤ p, partStart p ≤ j ∧ held maxMsgLength f j = 0 := by
  have hp := h p ((lt_partStart p).trans hn)
  rw [sentByte_middle hn, hzero] at hp
  by_contra hnone
  have hall : ∀ j ≤ p, partStart p ≤ j → held maxMsgLength f j ≠ 0 :=
    fun j hj hpart h0 => hnone ⟨j, hj, hpart, h0⟩
  rw [if_pos hall] at hp
  exact hall p le_rfl (partStart_le p) hp

theorem zero_of_sent {j p : ℕ} (hn : partStart p + maxMsgLength < n) (hj : j ≤ p)
    (hpart : partStart p ≤ j) (hzero : held maxMsgLength f j = 0) : f p = 0 := by
  have hp := h p ((lt_partStart p).trans hn)
  rwa [sentByte_middle hn, if_neg fun hall => hall j hj hpart hzero, eq_comm] at hp

theorem padded_of_sent {p q : ℕ} (hn : partStart p + maxMsgLength < n)
    (hq : partStart q = partStart p) (hpq : p ≤ q) (hzero : f p = 0) : f q = 0 := by
  obtain ⟨j, hj, hpart, h0⟩ := exists_zero_of_sent h hn hzero
  exact zero_of_sent h (hq ▸ hn) (hj.trans hpq) (hq ▸ hpart) h0

theorem held_of_sent {p : ℕ} (hp : p < n) : held maxMsgLength f p = f p := by
  induction p using Nat.strong_induction_on with
  | h p ih =>
    by_cases hnone : NoneUpTo maxMsgLength f (p - maxMsgLength)
    · exact held_of_none hnone
    obtain ⟨z, hz, hmin, hzero⟩ := exists_of_not_none hnone
    have hpos : 0 < maxMsgLength := by decide
    have hlow : maxMsgLength ≤ p := by omega
    by_cases hn : partStart p + maxMsgLength < n
    · by_cases hall : ∀ j ≤ p, partStart p ≤ j → held maxMsgLength f j ≠ 0
      · have hsent := h p hp
        rwa [sentByte_middle hn, if_pos hall] at hsent
      · -- a NULL byte 100 places before one that comes out in this part
        simp only [not_forall, not_not] at hall
        obtain ⟨j, hj, hpart, h0⟩ := hall
        have hprev := partStart_sub hlow
        have hfp : f p = 0 := zero_of_sent h hn hj hpart h0
        obtain ⟨i, hi, hipart, hi0⟩ : ∃ i ≤ p - maxMsgLength,
            partStart (p - maxMsgLength) ≤ i ∧ f i = 0 := by
          by_cases hnj : NoneUpTo maxMsgLength f (j - maxMsgLength)
          · have hlate : ¬ z ≤ j - maxMsgLength := fun hle => hnj z hle hmin hzero
            exact ⟨z, hz, by omega, hzero⟩
          · obtain ⟨y, hy, hymin, -⟩ := exists_of_not_none hnj
            rw [held_of_zero hnj, ih (j - maxMsgLength) (by omega) (by omega)] at h0
            exact ⟨j - maxMsgLength, by omega, by omega, h0⟩
        have hsame : partStart i = partStart (p - maxMsgLength) :=
          partStart_eq hipart (hi.trans_lt (lt_partStart _))
        have hback : f (p - maxMsgLength) = 0 :=
          padded_of_sent h (by omega) hsame.symm hi hi0
        rw [held_of_zero hnone, ih _ (by omega) (by omega), hback, hfp]
    · have hsent := h p hp
      rwa [sentByte_last hn] at hsent

theorem survives_of_sent : Survives f n := by
  constructor
  · intro p q hn hq hpq hzero
    exact padded_of_sent h hn hq hpq hzero
  · intro z q hmin hz hq hzero
    have hheld := held_of_sent h (p := q + maxMsgLength) hq
    rw [held_of_zero, Nat.add_sub_cancel, held_of_sent h (by omega)] at hheld
    · exact hheld.symm
    · rw [Nat.add_sub_cancel]
      exact fun hnone => hnone z hz hmin hzero

end

theorem sentBytes_eq_iff (f : ℕ → Int8) (n : ℕ) :
    sentBytes f n = (List.range n).map f ↔ Survives f n := by
  rw [sentBytes, List.map_inj_left]
  simp only [List.mem_range]
  exact ⟨survives_of_sent, fun h p hp => h.sent hp⟩

theorem carries_unique {dst : Int8} {l m : List Int8} {ps : List Packet} (h : Carries dst l ps)
    (k : Carries dst m ps) : l = m := by
  induction h generalizing m with
  | last _ _ _ hp =>
    cases k with
    | last _ _ _ hk => exact Option.some.inj (hp.symm.trans hk)
    | more _ _ _ _ hk => cases hk
  | more _ _ _ hp hrest ih =>
    cases k with
    | last => cases hrest
    | more _ _ _ hk hkrest => rw [Option.some.inj (hp.symm.trans hk), ih hkrest]

theorem map_firstBytes (content : List Int8) :
    (List.range (content.take maxFileBuffer).length).map (firstBytes content) =
      content.take maxFileBuffer := by
  apply List.ext_getElem
  · simp
  · intro i _ hi
    rw [List.getElem_map, List.getElem_range, firstBytes, List.getD_eq_getElem _ _ hi]

/-- The packets behind the one with the name carry the first 1000 bytes of the file. -/
def Preserved (hostId dst : ℤ) (dir fname content : List Int8) (disk : Disk) (mem : Scratch) :
    Prop :=
  ∃ ps, uploadSend hostId dst (some dir) fname disk mem =
      some (startPacket hostId dst fname (mem.blank 0) :: ps) ∧
    Carries (Int8.ofInt dst) (content.take maxFileBuffer) ps

theorem preserved_iff_sent (hostId dst : ℤ) {dir fname path content : List Int8} {disk : Disk}
    (mem : Scratch) (hpath : printPath dir fname = some path) (hopen : disk path = some content) :
    Preserved hostId dst dir fname content disk mem ↔
      sentBytes (firstBytes content) (content.take maxFileBuffer).length =
        content.take maxFileBuffer := by
  obtain ⟨ps, hps, hc⟩ := uploadSend_sends hostId dst mem hpath hopen
  constructor
  · rintro ⟨qs, hqs, hcq⟩
    rw [hps, Option.some.injEq, List.cons.injEq] at hqs
    rw [← hqs.2] at hcq
    exact carries_unique hc hcq
  · intro h
    rw [h] at hc
    exact ⟨ps, hps, hc⟩

/-- Exactly the contents that survive are preserved. -/
theorem fragmentation_preserves_iff (hostId dst : ℤ) {dir fname path content : List Int8}
    {disk : Disk} (mem : Scratch) (hpath : printPath dir fname = some path)
    (hopen : disk path = some content) :
    Preserved hostId dst dir fname content disk mem ↔
      Survives (firstBytes content) (content.take maxFileBuffer).length := by
  rw [preserved_iff_sent hostId dst mem hpath hopen, ← sentBytes_eq_iff, map_firstBytes]

def oneFile (content : List Int8) : Disk := fun _ => some content

theorem oneFile_opens (content path : List Int8) : oneFile content path = some content := rfl

def emptyScratch : Scratch :=
  ⟨fun _ => ⟨0, 0, 0, 0, fun _ => 0, 0, 0, 0, 0⟩, fun _ => 0, fun _ _ => 0⟩

theorem printPath_short : printPath [97] [98] = some (pathOf [97] [98]) := by decide

/-- 150 NULL bytes come through. -/
theorem fragmentation_preserves_nulls :
    Preserved 1 2 [97] [98] (List.replicate 150 0) (oneFile (List.replicate 150 0))
      emptyScratch := by
  refine (fragmentation_preserves_iff 1 2 emptyScratch printPath_short (oneFile_opens _ _)).mpr ?_
  have hzero : ∀ p, firstBytes (List.replicate 150 0) p = 0 := by
    intro p
    rw [firstBytes, List.take_replicate, List.getD_eq_getElem?_getD, List.getElem?_replicate]
    split <;> rfl
  exact ⟨fun _ q _ _ _ _ => hzero q, fun _ q _ _ _ _ => by rw [hzero, hzero]⟩

/-- A NULL byte and 100 others: the MIDDLE packet carries only NULL bytes. -/
theorem null_byte_cut : ¬ Preserved 1 2 [97] [98] (0 :: List.replicate 100 1)
    (oneFile (0 :: List.replicate 100 1)) emptyScratch := by
  rw [preserved_iff_sent 1 2 emptyScratch printPath_short (oneFile_opens _ _)]
  intro h
  have hs := (sentBytes_eq_iff _ _).mp (h.trans (map_firstBytes _).symm)
  have hlost := hs.padded 0 1 (by decide) (by decide) (by decide) (by decide)
  exact absurd hlost (by decide)

inductive LoopArray where
  | buffer | string | payload
  deriving DecidableEq, Repr

def LoopArray.size : LoopArray → ℕ
  | .buffer => maxFileBuffer + 1
  | .string => pktPayloadMax + 1
  | .payload => payloadMax

abbrev Access := LoopArray × ℕ

def readAccesses (n : ℕ) : List Access :=
  (List.range n).map (fun i => (LoopArray.buffer, i)) ++ [(.buffer, n)]

/-- `strncpy` reads up to the first NULL character and writes to the end. -/
def strncpyAccesses (source : ℕ → Int8) : List Access :=
  (List.range maxMsgLength).flatMap fun i =>
    if ∀ j < i, source j ≠ 0 then [(.buffer, i), (.string, i)] else [(.string, i)]

def shiftAccesses (stray : ℕ → Int8) : ℕ → ℕ → (ℕ → Int8) → List Access
  | 0, _, _ => []
  | fuel + 1, j, buffer =>
    if readBuffer buffer (stray j) j ≠ 0 ∨ j < maxMsgLength then
      [(.buffer, j), (.buffer, j + maxMsgLength), (.buffer, j)] ++
        if j ≤ maxFileBuffer then
          shiftAccesses stray fuel (j + 1)
            (Function.update buffer j (readBuffer buffer (stray j) (j + maxMsgLength)))
        else []
    else [(.buffer, j)]

def payloadAccesses (source : LoopArray) (n : ℕ) : List Access :=
  (List.range n).flatMap fun i => [(source, i), (.payload, i)]

def splitAccesses (mem : Scratch) (k n : ℕ) (buffer : ℕ → Int8) : List Access :=
  if n > maxMsgLength then
    strncpyAccesses buffer ++ shiftAccesses (mem.stray k) (maxFileBuffer + 2) 0 buffer ++
      payloadAccesses .string maxMsgLength ++
      match shiftBuffer (mem.stray k) buffer with
      | none => []
      | some shifted => splitAccesses mem (k + 1) (n - maxMsgLength) shifted
  else payloadAccesses .buffer n
termination_by n
decreasing_by
  simp only [maxMsgLength] at *
  omega

/-- All the indices that the job uses for a file. -/
def uploadAccesses (content : List Int8) (mem : Scratch) : List Access :=
  let n := (content.take maxFileBuffer).length
  readAccesses n ++ splitAccesses mem 0 n (readFile content mem.buffer)

def InArray (a : Access) : Prop := a.2 < a.1.size

instance (a : Access) : Decidable (InArray a) := inferInstanceAs (Decidable (_ < _))

theorem readAccesses_in {n : ℕ} (hn : n ≤ maxFileBuffer) : ∀ a ∈ readAccesses n, InArray a := by
  intro a ha
  simp only [readAccesses, List.mem_append, List.mem_map, List.mem_range,
    List.mem_singleton] at ha
  rcases ha with ⟨i, hi, rfl⟩ | rfl
  · change i < maxFileBuffer + 1
    omega
  · change n < maxFileBuffer + 1
    omega

theorem strncpyAccesses_in (source : ℕ → Int8) : ∀ a ∈ strncpyAccesses source, InArray a := by
  intro a ha
  obtain ⟨i, hi, ha⟩ := List.mem_flatMap.mp ha
  have hi := List.mem_range.mp hi
  have hbuffer : InArray (.buffer, i) := by
    change i < maxFileBuffer + 1
    simp only [maxMsgLength, maxFileBuffer] at *
    omega
  have hstring : InArray (.string, i) := by
    change i < pktPayloadMax + 1
    simp only [maxMsgLength, pktPayloadMax] at *
    omega
  split at ha
  · simp only [List.mem_cons, List.not_mem_nil, or_false] at ha
    rcases ha with rfl | rfl
    · exact hbuffer
    · exact hstring
  · rw [List.mem_singleton.mp ha]
    exact hstring

theorem payloadAccesses_in {source : LoopArray} {n : ℕ} (hn : n ≤ maxMsgLength)
    (hs : maxMsgLength ≤ source.size) : ∀ a ∈ payloadAccesses source n, InArray a := by
  intro a ha
  obtain ⟨i, hi, ha⟩ := List.mem_flatMap.mp ha
  have hi := List.mem_range.mp hi
  simp only [List.mem_cons, List.not_mem_nil, or_false] at ha
  rcases ha with rfl | rfl
  · change i < source.size
    omega
  · change i < payloadMax
    simp only [maxMsgLength, payloadMax] at *
    omega

/-- The shift that stops at z reads z, and writes and reads up to one place before and 99 behind. -/
theorem mem_shiftAccesses {buffer : ℕ → Int8} {z : ℕ} (hz : FirstStop buffer z)
    (hmax : z ≤ maxFileBuffer) (stray : ℕ → Int8) (fuel j : ℕ) (current : ℕ → Int8)
    (hj : j ≤ z) (hfuel : z < fuel + j) (habove : ∀ i, j ≤ i → current i = buffer i)
    (a : Access) :
    a ∈ shiftAccesses stray fuel j current ↔
      a.1 = .buffer ∧ (j ≤ a.2 ∧ a.2 ≤ z ∨
        j + maxMsgLength ≤ a.2 ∧ a.2 < z + maxMsgLength) := by
  obtain ⟨arr, i⟩ := a
  induction fuel generalizing j current with
  | zero => omega
  | succ fuel ih =>
    have hread : readBuffer current (stray j) j = buffer j := by
      rw [readBuffer, if_pos (hj.trans hmax), habove j le_rfl]
    rw [shiftAccesses, hread]
    rcases hj.eq_or_lt with rfl | hlt
    · have hstop : ¬ (buffer j ≠ 0 ∨ j < maxMsgLength) := by
        rw [not_or]
        exact ⟨fun h => h hz.zero, not_lt.mpr hz.min⟩
      rw [if_neg hstop, List.mem_singleton, Prod.mk.injEq]
      simp only
      constructor
      · rintro ⟨rfl, rfl⟩
        exact ⟨rfl, Or.inl ⟨le_rfl, le_rfl⟩⟩
      · rintro ⟨rfl, h⟩
        exact ⟨rfl, by omega⟩
    · have hgo : buffer j ≠ 0 ∨ j < maxMsgLength := by
        by_cases hb : j < maxMsgLength
        · exact Or.inr hb
        · exact Or.inl (hz.first j hlt (by omega))
      have habove' : ∀ i, j + 1 ≤ i →
          Function.update current j (readBuffer current (stray j) (j + maxMsgLength)) i =
            buffer i := by
        intro i hi
        rw [Function.update_of_ne (by omega)]
        exact habove i (by omega)
      rw [if_pos hgo, if_pos (by omega), List.mem_append, ih (j + 1) _ hlt (by omega) habove']
      simp only [List.mem_cons, Prod.mk.injEq, List.not_mem_nil, or_false]
      by_cases harr : arr = .buffer
      · simp only [harr, true_and]
        omega
      · simp only [harr, false_and, or_self]

/-- The highest place where the first NULL character keeps the shift inside `buffer`. -/
def lastStop : ℕ := maxFileBuffer + 1 - maxMsgLength

theorem shiftAccesses_in_iff {buffer : ℕ → Int8} {z : ℕ} (hz : FirstStop buffer z)
    (hmax : z ≤ maxFileBuffer) (stray : ℕ → Int8) :
    (∀ a ∈ shiftAccesses stray (maxFileBuffer + 2) 0 buffer, InArray a) ↔ z ≤ lastStop := by
  have hmem := mem_shiftAccesses hz hmax stray (maxFileBuffer + 2) 0 buffer (Nat.zero_le _)
    (by omega) (fun _ _ => rfl)
  have hlow := hz.min
  constructor
  · intro h
    have hlast := h (.buffer, z - 1 + maxMsgLength) ((hmem _).mpr ⟨rfl, Or.inr ?_⟩)
    · change z - 1 + maxMsgLength < maxFileBuffer + 1 at hlast
      simp only [lastStop, maxMsgLength, maxFileBuffer] at *
      omega
    · simp only [maxMsgLength] at *
      omega
  · rintro h ⟨arr, i⟩ ha
    obtain ⟨harr, hi⟩ := (hmem _).mp ha
    simp only at harr hi
    subst harr
    change i < maxFileBuffer + 1
    simp only [lastStop, maxMsgLength, maxFileBuffer] at *
    omega

theorem splitAccesses_in {m n : ℕ} (hm : m ≤ lastStop) (mem : Scratch) (k : ℕ)
    {buffer : ℕ → Int8} (hstop : maxMsgLength < n → Stops m buffer) :
    ∀ a ∈ splitAccesses mem k n buffer, InArray a := by
  induction n using Nat.strong_induction_on generalizing k buffer with
  | h n ih =>
    rw [splitAccesses]
    by_cases hlong : n > maxMsgLength
    · rw [if_pos hlong]
      have hle : lastStop ≤ maxFileBuffer := by decide
      obtain ⟨z, hzm, hz⟩ := (hstop hlong).exists_first
      obtain ⟨last, hlast, hstops, -⟩ :=
        shiftBuffer_spec (hstop hlong) (hm.trans hle) (mem.stray k)
      rw [hlast]
      intro a ha
      simp only [List.mem_append] at ha
      rcases ha with ((ha | ha) | ha) | ha
      · exact strncpyAccesses_in buffer a ha
      · exact (shiftAccesses_in_iff hz (by omega) _).mpr (hzm.trans hm) a ha
      · exact payloadAccesses_in le_rfl (by decide) a ha
      · refine ih _ ?_ (k + 1) (fun _ => hstops) a ha
        simp only [maxMsgLength] at *
        omega
    · rw [if_neg hlong]
      exact payloadAccesses_in (by omega) (by decide)

theorem readFile_zero {content : List Int8} (buffer : ℕ → Int8) {i : ℕ}
    (hi : i < (content.take maxFileBuffer).length) :
    readFile content buffer i = 0 ↔ content[i]? = some 0 := by
  have hlen : i < maxFileBuffer ∧ i < content.length := by
    rw [List.length_take] at hi
    omega
  rw [readFile_byte content buffer hi.le, firstBytes, List.getD_eq_getElem _ _ hi,
    List.getElem_take, List.getElem?_eq_getElem hlen.2, Option.some.injEq]

theorem firstStop_le_iff {content : List Int8} {buffer : ℕ → Int8} {z : ℕ}
    (hz : FirstStop (readFile content buffer) z)
    (hle : z ≤ (content.take maxFileBuffer).length) :
    z ≤ lastStop ↔ content.length ≤ lastStop ∨
      ∃ y, maxMsgLength ≤ y ∧ y ≤ lastStop ∧ content[y]? = some 0 := by
  have hlast : lastStop < maxFileBuffer := by decide
  rw [List.length_take] at hle
  constructor
  · intro h
    by_cases hend : z < (content.take maxFileBuffer).length
    · exact Or.inr ⟨z, hz.min, h, (readFile_zero buffer hend).mp hz.zero⟩
    · rw [List.length_take] at hend
      exact Or.inl (by omega)
  · rintro (h | ⟨y, hmin, hy, hzero⟩)
    · omega
    · obtain ⟨hlen, -⟩ := List.getElem?_eq_some_iff.mp hzero
      have hin : y < (content.take maxFileBuffer).length := by
        rw [List.length_take]
        omega
      by_contra hlate
      exact hz.first y (by omega) hmin ((readFile_zero buffer hin).mpr hzero)

theorem firstStop_of_in {content : List Int8} {mem : Scratch}
    (hlong : maxMsgLength < (content.take maxFileBuffer).length)
    (h : ∀ a ∈ uploadAccesses content mem, InArray a) {z : ℕ}
    (hz : FirstStop (readFile content mem.buffer) z) (hmax : z ≤ maxFileBuffer) :
    z ≤ lastStop := by
  rw [← shiftAccesses_in_iff hz hmax (mem.stray 0)]
  intro a ha
  apply h
  rw [uploadAccesses, splitAccesses, if_pos hlong]
  simp only [List.mem_append]
  exact Or.inr (Or.inl (Or.inl (Or.inr ha)))

/-- No index leaves its array exactly when the file is no longer than 901 bytes or has a NULL byte
among the bytes 100 to 901. -/
theorem accesses_in_iff (content : List Int8) (mem : Scratch) :
    (∀ a ∈ uploadAccesses content mem, InArray a) ↔
      content.length ≤ lastStop ∨
        ∃ y, maxMsgLength ≤ y ∧ y ≤ lastStop ∧ content[y]? = some 0 := by
  have hread := readAccesses_in (n := (content.take maxFileBuffer).length)
    (List.length_take_le _ _)
  by_cases hlong : maxMsgLength < (content.take maxFileBuffer).length
  · obtain ⟨z, hle, hz⟩ := (readFile_stops hlong mem.buffer).exists_first
    rw [← firstStop_le_iff hz hle]
    constructor
    · intro h
      exact firstStop_of_in hlong h hz (hle.trans (List.length_take_le _ _))
    · intro h a ha
      rcases List.mem_append.mp ha with ha | ha
      · exact hread a ha
      · exact splitAccesses_in le_rfl mem 0 (fun _ => ⟨z, hz.min, h, hz.zero⟩) a ha
  · have hshort : content.length ≤ lastStop := by
      rw [List.length_take] at hlong
      simp only [lastStop, maxFileBuffer, maxMsgLength] at *
      omega
    refine iff_of_true ?_ (Or.inl hshort)
    intro a ha
    rcases List.mem_append.mp ha with ha | ha
    · exact hread a ha
    · exact splitAccesses_in le_rfl mem 0 (fun h => absurd h hlong) a ha

/-- 902 bytes that are not NULL: the shift reads `buffer[1001]`. -/
theorem long_file_read_outside :
    ¬ ∀ a ∈ uploadAccesses (List.replicate 902 1) emptyScratch, InArray a := by
  intro h
  have hlong : maxMsgLength < ((List.replicate 902 (1 : Int8)).take maxFileBuffer).length := by
    rw [List.length_take, List.length_replicate]
    decide
  obtain ⟨z, hle, hz⟩ := (readFile_stops hlong emptyScratch.buffer).exists_first
  have hstop := firstStop_of_in hlong h hz (hle.trans (List.length_take_le _ _))
  rcases (firstStop_le_iff hz hle).mp hstop with hlen | ⟨y, -, -, hzero⟩
  · rw [List.length_replicate] at hlen
    exact absurd hlen (by decide)
  · rw [List.getElem?_replicate] at hzero
    split at hzero
    · exact absurd hzero (by decide)
    · cases hzero

end FileCuts
