import Mathlib.Data.Int.Basic
import Mathlib.Data.List.OfFn
import Mathlib.Data.List.GetD

/-! Packets of main.h and the PIPE branches of packet_send and packet_recv.
A C `char` is an `Int8`; a C `int` is an `Int`, because no field leaves its range.
Uninitialised memory is a parameter: `stale` is what `msg` held before the read and
`prior` is what the packet buffer held before it was filled. -/
namespace PacketCodec

def payloadMax : ℕ := 100

def pktPingReq : Int8 := 0
def pktPingReply : Int8 := 1
def pktFileUploadStart : Int8 := 2
def pktFileUploadEnd : Int8 := 3
def pktFileUploadMiddle : Int8 := 4
def pktFileDownloadReq : Int8 := 5
def pktControlPacket : Int8 := 6
def pktDnsRegister : Int8 := 7
def pktDnsRegisterReply : Int8 := 8
def pktDnsLookup : Int8 := 9
def pktDnsLookupReply : Int8 := 10

def charH : Int8 := 72
def charN : Int8 := 78
def charS : Int8 := 83
def charY : Int8 := 89

inductive NetLinkType where
  | pipe | socket
  deriving DecidableEq, Repr

structure Packet where
  src : Int8
  dst : Int8
  type : Int8
  length : ℤ
  payload : Fin payloadMax → Int8
  packetRootID : Int8
  packetRootDist : ℤ
  packetSenderType : Int8
  packetSenderChild : Int8

/-- The eight header bytes `msg[0..7]`, in wire order. -/
def headerBytes (p : Packet) : List Int8 :=
  [p.src, p.dst, p.type, Int8.ofInt p.length, p.packetRootID, Int8.ofInt p.packetRootDist,
    p.packetSenderType, p.packetSenderChild]

/-- The bytes `write` puts on the link: `length + 8` of them. A length outside
`0..payloadMax` makes the copy loop read past `payload`, and nothing is said there. -/
def packetSend (p : Packet) : List Int8 :=
  (headerBytes p ++ (List.ofFn p.payload).take p.length.toNat).take (p.length + 8).toNat

/-- `msg` after a read of `bytes` over its old contents. -/
def overlay (bytes : List Int8) (stale : ℕ → Int8) (i : ℕ) : Int8 := bytes.getD i (stale i)

/-- The assignments of packet_recv once `n > 0` bytes are in `msg`. -/
def decode (msg : ℕ → Int8) (prior : Fin payloadMax → Int8) : Packet where
  src := msg 0
  dst := msg 1
  type := msg 2
  length := (msg 3).toInt
  packetRootID := msg 4
  packetRootDist := (msg 5).toInt
  packetSenderType := msg 6
  packetSenderChild := msg 7
  payload := fun i => if (i : ℤ) < (msg 3).toInt then msg (i + 8) else prior i

def packetRecv (bytes : List Int8) (stale : ℕ → Int8) (prior : Fin payloadMax → Int8) :
    Option Packet :=
  if bytes = [] then none else some (decode (overlay bytes stale) prior)

/-- What `msg` and the packet buffer hold before one call of packet_recv. -/
structure Memory where
  stale : ℕ → Int8
  prior : Fin payloadMax → Int8

def Fits (p : Packet) : Prop := 0 ≤ p.length ∧ p.length ≤ payloadMax

instance (p : Packet) : Decidable (Fits p) := inferInstanceAs (Decidable (_ ∧ _))

/-- What the far end of a link makes of `p` when it reads it alone: every header field has
been through a `char`, and the payload past `length` is the receiving buffer's own. -/
def Packet.deliver (p : Packet) (prior : Fin payloadMax → Int8) : Packet :=
  { p with
    length := (Int8.ofInt p.length).toInt
    packetRootDist := (Int8.ofInt p.packetRootDist).toInt
    payload := fun i => if (i : ℤ) < (Int8.ofInt p.length).toInt then p.payload i else prior i }

theorem char_of_small {n : ℤ} (h : -128 ≤ n) (k : n ≤ 127) : (Int8.ofInt n).toInt = n :=
  Int8.toInt_ofInt_of_le (by omega) (by omega)

theorem Fits.length_char {p : Packet} (h : Fits p) : (Int8.ofInt p.length).toInt = p.length := by
  obtain ⟨h0, h1⟩ := h
  simp only [payloadMax] at h1
  exact char_of_small (by omega) (by omega)

theorem packetSend_eq {p : Packet} (h : Fits p) :
    packetSend p = headerBytes p ++ (List.ofFn p.payload).take p.length.toNat := by
  obtain ⟨h0, h1⟩ := h
  simp only [payloadMax] at h1
  refine List.take_of_length_le ?_
  simp only [headerBytes, List.length_append, List.length_cons, List.length_nil,
    List.length_take, payloadMax]
  omega

theorem packetSend_length {p : Packet} (h : Fits p) :
    (packetSend p).length = 8 + p.length.toNat := by
  rw [packetSend_eq h]
  obtain ⟨h0, h1⟩ := h
  simp only [headerBytes, List.length_append, List.length_cons, List.length_nil,
    List.length_take, List.length_ofFn]
  omega

theorem overlay_header {p : Packet} (h : Fits p) (rest : List Int8) (stale : ℕ → Int8)
    {i : ℕ} (hi : i < 8) :
    overlay (packetSend p ++ rest) stale i = (headerBytes p).getD i 0 := by
  have hl : i < (headerBytes p).length := by simpa [headerBytes] using hi
  rw [overlay, packetSend_eq h, List.append_assoc, List.getD_append _ _ _ _ hl,
    List.getD_eq_getElem _ _ hl, List.getD_eq_getElem _ _ hl]

theorem overlay_payload {p : Packet} (h : Fits p) (rest : List Int8) (stale : ℕ → Int8)
    {i : Fin payloadMax} (hi : (i : ℤ) < p.length) :
    overlay (packetSend p ++ rest) stale (i + 8) = p.payload i := by
  have hl : i.val + 8 < (packetSend p).length := by rw [packetSend_length h]; omega
  rw [overlay, List.getD_append _ _ _ _ hl, List.getD_eq_getElem _ _ hl]
  simp only [packetSend_eq h]
  rw [List.getElem_append_right (by simp [headerBytes])]
  simp [headerBytes]

/-- Decoding a message that starts with the bytes of `p` gives `p`, whatever follows it in
the buffer. -/
theorem decode_packetSend {p : Packet} (h : Fits p) (rest : List Int8) (stale : ℕ → Int8)
    (prior : Fin payloadMax → Int8) :
    decode (overlay (packetSend p ++ rest) stale) prior = p.deliver prior := by
  have hd : ∀ i, i < 8 → overlay (packetSend p ++ rest) stale i = (headerBytes p).getD i 0 :=
    fun i hi => overlay_header h rest stale hi
  unfold decode Packet.deliver
  simp only [hd 0 (by omega), hd 1 (by omega), hd 2 (by omega), hd 3 (by omega),
    hd 4 (by omega), hd 5 (by omega), hd 6 (by omega), hd 7 (by omega)]
  congr 1
  funext i
  change (if (i : ℤ) < (Int8.ofInt p.length).toInt then _ else _) = _
  split
  · next hi => exact overlay_payload h rest stale (by rwa [h.length_char] at hi)
  · rfl

theorem packetRecv_packetSend {p : Packet} (h : Fits p) (stale : ℕ → Int8)
    (prior : Fin payloadMax → Int8) :
    packetRecv (packetSend p) stale prior = some (p.deliver prior) := by
  have hne : packetSend p ≠ [] := by
    intro he
    have hl := packetSend_length h
    rw [he] at hl
    simp at hl
    omega
  have hd := decode_packetSend h [] stale prior
  rw [List.append_nil] at hd
  rw [packetRecv, if_neg hne, hd]

end PacketCodec
