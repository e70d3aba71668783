import NetSim.PacketCodec
import NetSim.FileBuffer
import NetSim.BlockShift

/-! JOB_FILE_UPLOAD_SEND of host.c: the path of the file, the read, and the loop that cuts the
contents into packets by copying 100 bytes out and shifting the rest of `buffer` down.
C strings are lists without their NULL character. A write outside an array gives no result;
a read past the end of `buffer` gives any byte. -/
namespace FileSplit

open PacketCodec FileBuffer BlockShift

def maxMsgLength : ℕ := 100

instance : NeZero maxMsgLength := ⟨by decide⟩

def charDot : Int8 := 46
def charSlash : Int8 := 47

def pathOf (dir fname : List Int8) : List Int8 := [charDot, charSlash] ++ dir ++ charSlash :: fname

/-- `sprintf(name, "./%s/%s", dir, fname)`. -/
def printPath (dir fname : List Int8) : Option (List Int8) :=
  if (pathOf dir fname).length < maxFileName then some (pathOf dir fname) else none

/-- The files that can be opened for reading, by path. -/
abbrev Disk := List Int8 → Option (List Int8)

/-- What the sender does not set: packet i as malloc returns it, `buffer` before the read, and
what step j of the shift in round k finds past the end of `buffer`. -/
structure Scratch where
  blank : ℕ → Packet
  buffer : ℕ → Int8
  stray : ℕ → ℕ → Int8

/-- `buffer` after the read and after its NULL termination. -/
def readFile (content : List Int8) (buffer : ℕ → Int8) : ℕ → Int8 :=
  Function.update (fun i => (content.take maxFileBuffer).getD i (buffer i))
    (content.take maxFileBuffer).length 0

def readBuffer (buffer : ℕ → Int8) (stray : Int8) (i : ℕ) : Int8 :=
  if i ≤ maxFileBuffer then buffer i else stray

/-- The bytes before the first NULL character, and NULL characters from there on. -/
def strncpy (source : ℕ → Int8) (i : ℕ) : Int8 := if ∀ j ≤ i, source j ≠ 0 then source i else 0

/-- The shift loop from step j. The fuel is the number of steps left until j leaves `buffer`. -/
def shiftFrom (stray : ℕ → Int8) : ℕ → ℕ → (ℕ → Int8) → Option (ℕ → Int8)
  | 0, _, _ => none
  | fuel + 1, j, buffer =>
    if readBuffer buffer (stray j) j ≠ 0 ∨ j < maxMsgLength then
      if j ≤ maxFileBuffer then
        shiftFrom stray fuel (j + 1)
          (Function.update buffer j (readBuffer buffer (stray j) (j + maxMsgLength)))
      else none
    else some buffer

def shiftBuffer (stray : ℕ → Int8) (buffer : ℕ → Int8) : Option (ℕ → Int8) :=
  shiftFrom stray (maxFileBuffer + 2) 0 buffer

def startPacket (hostId dst : ℤ) (fname : List Int8) (blank : Packet) : Packet :=
  { blank with
    dst := Int8.ofInt dst
    src := Int8.ofInt hostId
    type := pktFileUploadStart
    payload := fun i => fname.getD i (blank.payload i)
    length := fname.length }

def middlePacket (hostId dst : ℤ) (string : ℕ → Int8) (blank : Packet) : Packet :=
  { blank with
    dst := Int8.ofInt dst
    src := Int8.ofInt hostId
    type := pktFileUploadMiddle
    payload := fun i => string i
    length := maxMsgLength }

def endPacket (hostId dst : ℤ) (n : ℕ) (buffer : ℕ → Int8) (blank : Packet) : Packet :=
  { blank with
    dst := Int8.ofInt dst
    src := Int8.ofInt hostId
    type := pktFileUploadEnd
    payload := fun i => if i < n then buffer i else blank.payload i
    length := n }

/-- The splitting loop from round k, with n bytes of `buffer` left. -/
def splitBuffer (hostId dst : ℤ) (mem : Scratch) (k n : ℕ) (buffer : ℕ → Int8) :
    Option (List Packet) :=
  if n > maxMsgLength then
    match shiftBuffer (mem.stray k) buffer with
    | none => none
    | some shifted =>
      (splitBuffer hostId dst mem (k + 1) (n - maxMsgLength) shifted).map
        (middlePacket hostId dst (strncpy buffer) (mem.blank (k + 1)) :: ·)
  else some [endPacket hostId dst n buffer (mem.blank (k + 1))]
termination_by n
decreasing_by
  simp only [maxMsgLength] at *
  omega

def uploadSend (hostId dst : ℤ) (dir : Option (List Int8)) (fname : List Int8) (disk : Disk)
    (mem : Scratch) : Option (List Packet) :=
  match dir with
  | none => some []
  | some d =>
    (printPath d fname).bind fun path =>
      match disk path with
      | none => some []
      | some content =>
        (splitBuffer hostId dst mem 0 (content.take maxFileBuffer).length
          (readFile content mem.buffer)).map
          (startPacket hostId dst fname (mem.blank 0) :: ·)

/-- There is a NULL character for the shift to stop at, no later than at place m. -/
def Stops (m : ℕ) (buffer : ℕ → Int8) : Prop := ∃ z, maxMsgLength ≤ z ∧ z ≤ m ∧ buffer z = 0

structure FirstStop (buffer : ℕ → Int8) (z : ℕ) : Prop where
  min : maxMsgLength ≤ z
  zero : buffer z = 0
  first : ∀ j < z, maxMsgLength ≤ j → buffer j ≠ 0

theorem Stops.exists_first {m : ℕ} {buffer : ℕ → Int8} (h : Stops m buffer) :
    ∃ z ≤ m, FirstStop buffer z := by
  have hex : ∃ z, maxMsgLength ≤ z ∧ buffer z = 0 := by
    obtain ⟨z, hmin, -, hzero⟩ := h
    exact ⟨z, hmin, hzero⟩
  obtain ⟨hmin, hzero⟩ := Nat.find_spec hex
  refine ⟨Nat.find hex, ?_, hmin, hzero, ?_⟩
  · obtain ⟨z, hz, hle, h0⟩ := h
    exact (Nat.find_min' hex ⟨hz, h0⟩).trans hle
  · exact fun j hj hb h0 => Nat.find_min hex hj ⟨hb, h0⟩

theorem Stops.mono {m n : ℕ} {buffer : ℕ → Int8} (h : Stops m buffer) (hmn : m ≤ n) :
    Stops n buffer := by
  obtain ⟨z, hmin, hz, hzero⟩ := h
  exact ⟨z, hmin, hz.trans hmn, hzero⟩

/-- Up to step j the loop has moved the bytes below j and nothing else, so each byte it moves is
the one that was there at the start. -/
theorem shiftFrom_spec {buffer : ℕ → Int8} {z : ℕ} (hz : FirstStop buffer z)
    (hmax : z ≤ maxFileBuffer) (stray : ℕ → Int8) (fuel j : ℕ) (current : ℕ → Int8)
    (hj : j ≤ z) (hfuel : z < fuel + j)
    (hbelow : ∀ i < j, current i = readBuffer buffer (stray i) (i + maxMsgLength))
    (habove : ∀ i, j ≤ i → current i = buffer i) :
    ∃ last, shiftFrom stray fuel j current = some last ∧
      ∀ i, last i = if i < z then readBuffer buffer (stray i) (i + maxMsgLength) else buffer i := by
  induction fuel generalizing j current with
  | zero => omega
  | succ fuel ih =>
    have hread : readBuffer current (stray j) j = buffer j := by
      rw [readBuffer, if_pos (hj.trans hmax), habove j le_rfl]
    rw [shiftFrom, hread]
    rcases hj.eq_or_lt with rfl | hlt
    · refine ⟨current, if_neg ?_, ?_⟩
      · rw [not_or]
        exact ⟨fun h => h hz.zero, not_lt.mpr hz.min⟩
      · intro i
        split
        · next hi => exact hbelow i hi
        · next hi => exact habove i (by omega)
    · have hgo : buffer j ≠ 0 ∨ j < maxMsgLength := by
        by_cases hb : j < maxMsgLength
        · exact Or.inr hb
        · exact Or.inl (hz.first j hlt (by omega))
      rw [if_pos hgo, if_pos (by omega)]
      have hnext : readBuffer current (stray j) (j + maxMsgLength) =
          readBuffer buffer (stray j) (j + maxMsgLength) := by
        rw [readBuffer, readBuffer, habove _ (Nat.le_add_right _ _)]
      apply ih (j + 1) _ hlt (by omega)
      · intro i hi
        by_cases hij : i = j
        · subst hij
          rw [Function.update_self, hnext]
        · rw [Function.update_of_ne hij]
          exact hbelow i (by omega)
      · intro i hi
        rw [Function.update_of_ne (by omega)]
        exact habove i (by omega)

/-- The shift moves the bytes up to the first NULL character behind the first 100 bytes, which
stays where it is. -/
theorem shiftBuffer_spec {m : ℕ} {buffer : ℕ → Int8} (h : Stops m buffer) (hm : m ≤ maxFileBuffer)
    (stray : ℕ → Int8) :
    ∃ last, shiftBuffer stray buffer = some last ∧ Stops m last ∧
      ∀ i, i + maxMsgLength ≤ maxFileBuffer → last i = shifted maxMsgLength buffer i := by
  obtain ⟨z, hzm, hz⟩ := h.exists_first
  obtain ⟨last, hrun, hlast⟩ := shiftFrom_spec hz (hzm.trans hm) stray (maxFileBuffer + 2) 0
    buffer (Nat.zero_le _) (by omega) (fun i hi => absurd hi (by omega)) (fun i _ => rfl)
  refine ⟨last, hrun, ⟨z, hz.min, hzm, ?_⟩, ?_⟩
  · rw [hlast, if_neg (lt_irrefl _), hz.zero]
  · intro i hi
    rw [hlast, shifted]
    by_cases hlt : i < z
    · have hnone : NoneUpTo maxMsgLength buffer i := fun j hj hb => hz.first j (by omega) hb
      rw [if_pos hlt, if_pos hnone, readBuffer, if_pos hi]
    · have hnot : ¬ NoneUpTo maxMsgLength buffer i := fun hn => hn _ (by omega) hz.min hz.zero
      rw [if_neg hlt, if_neg hnot]

/-- Where the part of `buffer` begins that byte p is sent with. -/
def partStart (p : ℕ) : ℕ := maxMsgLength * (p / maxMsgLength)

/-- Byte p of n bytes in the packets: `strncpy` puts NULL characters behind the first one of the
part that a MIDDLE packet carries. -/
def sentByte (buffer : ℕ → Int8) (n p : ℕ) : Int8 :=
  if partStart p + maxMsgLength < n then
    strncpy (fun i => held maxMsgLength buffer (partStart p + i)) (p - partStart p)
  else held maxMsgLength buffer p

def sentBytes (buffer : ℕ → Int8) (n : ℕ) : List Int8 := (List.range n).map (sentByte buffer n)

theorem length_sentBytes (buffer : ℕ → Int8) (n : ℕ) : (sentBytes buffer n).length = n := by
  simp [sentBytes]

theorem strncpy_congr {f g : ℕ → Int8} {i : ℕ} (h : ∀ j ≤ i, f j = g j) :
    strncpy f i = strncpy g i := by
  have hiff : (∀ j ≤ i, f j ≠ 0) ↔ ∀ j ≤ i, g j ≠ 0 := by
    constructor
    · intro hf j hj
      rw [← h j hj]
      exact hf j hj
    · intro hg j hj
      rw [h j hj]
      exact hg j hj
  simp only [strncpy, hiff, h i le_rfl]

theorem sentByte_congr {f g : ℕ → Int8} {n p : ℕ} (hp : p < n) (h : ∀ i < n, f i = g i) :
    sentByte f n p = sentByte g n p := by
  have hheld : ∀ q < n, held maxMsgLength f q = held maxMsgLength g q :=
    fun q hq => held_congr fun j hj => h j (by omega)
  have hpart : partStart p ≤ p := Nat.mul_div_le _ _
  rw [sentByte, sentByte, hheld p hp]
  congr 1
  apply strncpy_congr
  intro j hj
  exact hheld _ (by omega)

theorem sentBytes_congr {f g : ℕ → Int8} {n : ℕ} (h : ∀ i < n, f i = g i) :
    sentBytes f n = sentBytes g n := by
  apply List.map_congr_left
  intro p hp
  exact sentByte_congr (List.mem_range.mp hp) h

theorem sentBytes_short (buffer : ℕ → Int8) {n : ℕ} (hn : n ≤ maxMsgLength) :
    sentBytes buffer n = (List.range n).map buffer := by
  apply List.map_congr_left
  intro p hp
  have hp := List.mem_range.mp hp
  rw [sentByte, if_neg (by omega), held_of_lt _ (by omega)]

theorem strncpy_held (buffer : ℕ → Int8) {i : ℕ} (hi : i < maxMsgLength) :
    strncpy (fun j => held maxMsgLength buffer j) i = strncpy buffer i :=
  strncpy_congr fun j hj => held_of_lt buffer (by omega)

theorem sentByte_shifted (buffer : ℕ → Int8) {n : ℕ} (hn : maxMsgLength < n) (p : ℕ) :
    sentByte buffer n (maxMsgLength + p) =
      sentByte (shifted maxMsgLength buffer) (n - maxMsgLength) p := by
  have hpart : partStart (maxMsgLength + p) = maxMsgLength + partStart p := by
    simp only [partStart, maxMsgLength]
    omega
  have hheld : ∀ q, held maxMsgLength buffer (maxMsgLength + q) =
      held maxMsgLength (shifted maxMsgLength buffer) q := by
    intro q
    rw [held_shifted, Nat.add_comm]
  have hmore : maxMsgLength + (partStart p + maxMsgLength) < n ↔
      partStart p + maxMsgLength < n - maxMsgLength := by omega
  simp only [sentByte, hpart, hheld, hmore, Nat.add_assoc, Nat.add_sub_add_left]

theorem sentBytes_split (buffer : ℕ → Int8) {n : ℕ} (hn : maxMsgLength < n) :
    sentBytes buffer n = (List.range maxMsgLength).map (strncpy buffer) ++
      sentBytes (shifted maxMsgLength buffer) (n - maxMsgLength) := by
  obtain ⟨m, rfl⟩ : ∃ m, n = maxMsgLength + m := ⟨n - maxMsgLength, by omega⟩
  rw [sentBytes, List.range_add, List.map_append, List.map_map, Nat.add_sub_cancel_left]
  congr 1
  · apply List.map_congr_left
    intro p hp
    have hp := List.mem_range.mp hp
    have hpart : partStart p = 0 := by
      simp only [partStart, maxMsgLength] at *
      omega
    rw [sentByte, hpart, if_pos (by omega), Nat.sub_zero]
    simp only [Nat.zero_add]
    exact strncpy_held buffer hp
  · apply List.map_congr_left
    intro p _
    have := sentByte_shifted buffer hn p
    rwa [Nat.add_sub_cancel_left] at this

theorem sentBytes_eq {l : List Int8} (hl : ∀ b ∈ l, b ≠ 0) :
    sentBytes (fun i => l.getD i 0) l.length = l := by
  have hne : ∀ i < l.length, l.getD i 0 ≠ 0 := by
    intro i hi
    rw [List.getD_eq_getElem _ _ hi]
    exact hl _ (List.getElem_mem hi)
  have hheld : ∀ i < l.length, held maxMsgLength (fun i => l.getD i 0) i = l.getD i 0 :=
    fun i hi => held_of_none fun j hj _ => hne j (by omega)
  apply List.ext_getElem (length_sentBytes _ _)
  intro p _ hp
  have hpart : partStart p ≤ p := Nat.mul_div_le _ _
  have hcopied : ∀ j ≤ p - partStart p,
      held maxMsgLength (fun i => l.getD i 0) (partStart p + j) ≠ 0 := by
    intro j hj
    rw [hheld _ (by omega)]
    exact hne _ (by omega)
  have hcopy : strncpy (fun i => held maxMsgLength (fun i => l.getD i 0) (partStart p + i))
      (p - partStart p) = l.getD p 0 := by
    rw [strncpy, if_pos hcopied, Nat.add_sub_cancel' hpart, hheld p hp]
  simp only [sentBytes, List.getElem_map, List.getElem_range, sentByte]
  rw [hcopy, hheld p hp, ite_self, List.getD_eq_getElem _ _ hp]

/-- The payload bytes of a packet, if its length leaves them inside `payload`. -/
def payloadBytes (p : Packet) : Option (List Int8) :=
  if p.length ≤ payloadMax then some ((List.ofFn p.payload).take p.length.toNat) else none

theorem fits_of_length {p : Packet} {n : ℕ} (h : p.length = n) (hn : n ≤ payloadMax) : Fits p := by
  rw [Fits, h]
  exact ⟨Int.natCast_nonneg n, by exact_mod_cast hn⟩

theorem payloadBytes_eq {p : Packet} {l : List Int8} (hlen : p.length = l.length)
    (hl : l.length ≤ payloadMax)
    (h : ∀ (i : Fin payloadMax) (hi : i.val < l.length), p.payload i = l[i.val]) :
    payloadBytes p = some l := by
  rw [payloadBytes, hlen, if_pos (by exact_mod_cast hl), Int.toNat_natCast]
  congr 1
  apply List.ext_getElem
  · simpa using hl
  · intro i hi hi'
    rw [List.getElem_take, List.getElem_ofFn]
    exact h ⟨i, by omega⟩ hi'

/-- MIDDLE packets with the bytes of l in order, then one END packet with the last of them. -/
inductive Carries (dst : Int8) : List Int8 → List Packet → Prop where
  | last {l p} : p.dst = dst → p.type = pktFileUploadEnd → Fits p → payloadBytes p = some l →
      Carries dst l [p]
  | more {a l p ps} : p.dst = dst → p.type = pktFileUploadMiddle → Fits p →
      payloadBytes p = some a → Carries dst l ps → Carries dst (a ++ l) (p :: ps)

theorem splitBuffer_carries (hostId dst : ℤ) (mem : Scratch) (k : ℕ) {n : ℕ} {buffer : ℕ → Int8}
    (hn : n ≤ maxFileBuffer) (hstop : maxMsgLength < n → Stops maxFileBuffer buffer) :
    ∃ ps, splitBuffer hostId dst mem k n buffer = some ps ∧
      Carries (Int8.ofInt dst) (sentBytes buffer n) ps := by
  induction n using Nat.strong_induction_on generalizing k buffer with
  | h n ih =>
    rw [splitBuffer]
    by_cases hlong : n > maxMsgLength
    · obtain ⟨last, hlast, hstops, hmoved⟩ := shiftBuffer_spec (hstop hlong) le_rfl (mem.stray k)
      have hless : n - maxMsgLength < n := by
        simp only [maxMsgLength] at *
        omega
      obtain ⟨ps, hps, hc⟩ := ih _ hless (k + 1) (by omega) (fun _ => hstops)
      rw [if_pos hlong, hlast]
      refine ⟨middlePacket hostId dst (strncpy buffer) (mem.blank (k + 1)) :: ps, ?_, ?_⟩
      · simp only [hps, Option.map_some]
      · rw [sentBytes_split buffer hlong, ← sentBytes_congr fun i hi => hmoved i (by omega)]
        refine .more rfl rfl (fits_of_length rfl (by decide)) ?_ hc
        apply payloadBytes_eq
        · simp [middlePacket]
        · simp [maxMsgLength, payloadMax]
        · intro i hi
          simp [middlePacket]
    · have hle : n ≤ payloadMax := by
        simp only [maxMsgLength, payloadMax] at *
        omega
      rw [if_neg hlong, sentBytes_short buffer (by omega)]
      refine ⟨_, rfl, .last rfl rfl (fits_of_length rfl hle) ?_⟩
      apply payloadBytes_eq
      · simp [endPacket]
      · simpa using hle
      · intro i hi
        rw [List.length_map, List.length_range] at hi
        change (if _ then buffer i else _) = _
        rw [if_pos hi]
        simp

theorem startPacket_payload (hostId dst : ℤ) {fname : List Int8}
    (h : fname.length ≤ payloadMax) (blank : Packet) :
    payloadBytes (startPacket hostId dst fname blank) = some fname := by
  apply payloadBytes_eq rfl h
  intro i hi
  exact List.getD_eq_getElem _ _ hi

/-- The first bytes of a file as the program has them in `buffer`. -/
def firstBytes (content : List Int8) (i : ℕ) : Int8 := (content.take maxFileBuffer).getD i 0

theorem readFile_byte (content : List Int8) (buffer : ℕ → Int8) {i : ℕ}
    (hi : i ≤ (content.take maxFileBuffer).length) :
    readFile content buffer i = firstBytes content i := by
  by_cases he : i = (content.take maxFileBuffer).length
  · subst he
    rw [readFile, Function.update_self, firstBytes, List.getD_eq_default _ _ le_rfl]
  · have hlt : i < (content.take maxFileBuffer).length := by omega
    rw [readFile, Function.update_of_ne he, firstBytes, List.getD_eq_getElem _ _ hlt,
      List.getD_eq_getElem _ _ hlt]

theorem readFile_stops {content : List Int8}
    (h : maxMsgLength < (content.take maxFileBuffer).length) (buffer : ℕ → Int8) :
    Stops (content.take maxFileBuffer).length (readFile content buffer) := by
  refine ⟨_, h.le, le_rfl, ?_⟩
  rw [readFile_byte content buffer le_rfl, firstBytes, List.getD_eq_default _ _ le_rfl]

theorem uploadSend_sends (hostId dst : ℤ) {dir fname path content : List Int8} {disk : Disk}
    (mem : Scratch) (hpath : printPath dir fname = some path) (hopen : disk path = some content) :
    ∃ ps, uploadSend hostId dst (some dir) fname disk mem =
        some (startPacket hostId dst fname (mem.blank 0) :: ps) ∧
      Carries (Int8.ofInt dst)
        (sentBytes (firstBytes content) (content.take maxFileBuffer).length) ps := by
  obtain ⟨ps, hps, hc⟩ := splitBuffer_carries hostId dst mem 0 (List.length_take_le _ content)
    fun h => (readFile_stops h mem.buffer).mono (List.length_take_le _ _)
  rw [sentBytes_congr fun i hi => readFile_byte content mem.buffer hi.le] at hc
  refine ⟨ps, ?_, hc⟩
  simp only [uploadSend, hpath, Option.bind_some, hopen, hps, Option.map_some]

theorem uploadSend_carries (hostId dst : ℤ) {dir fname path content : List Int8} {disk : Disk}
    (mem : Scratch) (hpath : printPath dir fname = some path) (hopen : disk path = some content)
    (hl : ∀ b ∈ content, b ≠ 0) :
    ∃ ps, uploadSend hostId dst (some dir) fname disk mem =
        some (startPacket hostId dst fname (mem.blank 0) :: ps) ∧
      Carries (Int8.ofInt dst) (content.take maxFileBuffer) ps := by
  have hsent : sentBytes (firstBytes content) (content.take maxFileBuffer).length =
      content.take maxFileBuffer := sentBytes_eq fun b hb => hl b (List.mem_of_mem_take hb)
  have hsends := uploadSend_sends hostId dst mem hpath hopen
  rwa [hsent] at hsends

end FileSplit
