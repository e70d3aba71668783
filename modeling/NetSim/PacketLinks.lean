import NetSim.PacketCodec
import Mathlib.Logic.Function.Basic

/-! packet_send and packet_recv of packet.c on both kinds of link, with their copy loops.
The accesses of packet_recv are logged, because the length byte of the peer drives them. -/
namespace PacketLinks

open PacketCodec

/-- `msg[i + 8] = p->payload[i]`; a read behind `payload` is undefined. -/
def copyOut (p : Packet) (i : ℕ) (msg : ℕ → Int8) : Option (ℕ → Int8) :=
  if h : i < payloadMax then some (Function.update msg (i + 8) (p.payload ⟨i, h⟩)) else none

/-- `write` or `send` of the first `n` bytes of `msg`; a negative count is a huge one. -/
def writeBytes (n : ℤ) (msg : ℕ → Int8) : Option (List Int8) :=
  if n < 0 then none else some ((List.range n.toNat).map msg)

def sendPipe (p : Packet) (msg : ℕ → Int8) : Option (List Int8) :=
  let msg := Function.update msg 0 p.src
  let msg := Function.update msg 1 p.dst
  let msg := Function.update msg 2 p.type
  let msg := Function.update msg 3 (Int8.ofInt p.length)
  let msg := Function.update msg 4 p.packetRootID
  let msg := Function.update msg 5 (Int8.ofInt p.packetRootDist)
  let msg := Function.update msg 6 p.packetSenderType
  let msg := Function.update msg 7 p.packetSenderChild
  (p.length.toNat.fold (fun i _ m => m.bind (copyOut p i)) (some msg)).bind
    (writeBytes (p.length + 8))

/-- The connection is up; `getaddrinfo` and `connect` touch neither `msg` nor the packet. -/
def sendSocket (p : Packet) (msg : ℕ → Int8) : Option (List Int8) :=
  let msg := Function.update msg 0 p.src
  let msg := Function.update msg 1 p.dst
  let msg := Function.update msg 2 p.type
  let msg := Function.update msg 3 (Int8.ofInt p.length)
  let msg := Function.update msg 4 p.packetRootID
  let msg := Function.update msg 5 (Int8.ofInt p.packetRootDist)
  let msg := Function.update msg 6 p.packetSenderType
  let msg := Function.update msg 7 p.packetSenderChild
  (p.length.toNat.fold (fun i _ m => m.bind (copyOut p i)) (some msg)).bind
    (writeBytes (p.length + 8))

/-- packet_send: the bytes on the link, from a `msg` of any content. -/
def packetSendOn (t : NetLinkType) (p : Packet) (msg : ℕ → Int8) : Option (List Int8) :=
  match t with
  | .pipe => sendPipe p msg
  | .socket => sendSocket p msg

/-- The packet being filled and the indices of `msg` read and of `payload` written so far,
oldest first. A write behind `payload` is logged; what it hits is not modelled. -/
structure Receiving where
  packet : Packet
  msgReads : List ℕ
  payloadWrites : List ℕ

/-- One assignment from `msg[i]` to a field of the packet. -/
def Receiving.assign (r : Receiving) (msg : ℕ → Int8) (i : ℕ) (set : Int8 → Packet → Packet) :
    Receiving :=
  { r with packet := set (msg i) r.packet, msgReads := r.msgReads ++ [i] }

/-- `p->payload[i] = msg[i + 8]`. -/
def Receiving.copyIn (r : Receiving) (msg : ℕ → Int8) (i : ℕ) : Receiving where
  packet := { r.packet with
    payload := fun j => if j.val = i then msg (i + 8) else r.packet.payload j }
  msgReads := r.msgReads ++ [i + 8]
  payloadWrites := r.payloadWrites ++ [i]

def recvPipe (msg : ℕ → Int8) (p : Packet) : Receiving :=
  let r : Receiving := ⟨p, [], []⟩
  let r := r.assign msg 0 fun c p => { p with src := c }
  let r := r.assign msg 1 fun c p => { p with dst := c }
  let r := r.assign msg 2 fun c p => { p with type := c }
  let r := r.assign msg 3 fun c p => { p with length := c.toInt }
  let r := r.assign msg 4 fun c p => { p with packetRootID := c }
  let r := r.assign msg 5 fun c p => { p with packetRootDist := c.toInt }
  let r := r.assign msg 6 fun c p => { p with packetSenderType := c }
  let r := r.assign msg 7 fun c p => { p with packetSenderChild := c }
  r.packet.length.toNat.fold (fun i _ r => r.copyIn msg i) r

def recvSocket (msg : ℕ → Int8) (p : Packet) : Receiving :=
  let r : Receiving := ⟨p, [], []⟩
  let r := r.assign msg 0 fun c p => { p with src := c }
  let r := r.assign msg 1 fun c p => { p with dst := c }
  let r := r.assign msg 2 fun c p => { p with type := c }
  let r := r.assign msg 3 fun c p => { p with length := c.toInt }
  let r := r.assign msg 4 fun c p => { p with packetRootID := c }
  let r := r.assign msg 5 fun c p => { p with packetRootDist := c.toInt }
  let r := r.assign msg 6 fun c p => { p with packetSenderType := c }
  let r := r.assign msg 7 fun c p => { p with packetSenderChild := c }
  r.packet.length.toNat.fold (fun i _ r => r.copyIn msg i) r

/-- packet_recv with `bytes` at the port: the returned `n` and the packet. One read takes at
most `payloadMax + 8` bytes, and nothing is assigned when it gets none. -/
def packetRecvOn (t : NetLinkType) (bytes : List Int8) (stale : ℕ → Int8) (p : Packet) :
    ℕ × Receiving :=
  let got := bytes.take (payloadMax + 8)
  if got = [] then (0, ⟨p, [], []⟩)
  else
    match t with
    | .pipe => (got.length, recvPipe (overlay got stale) p)
    | .socket => (got.length, recvSocket (overlay got stale) p)

theorem update_overlay {l : List Int8} {n : ℕ} (hn : l.length = n) (stale : ℕ → Int8) (c : Int8) :
    Function.update (overlay l stale) n c = overlay (l ++ [c]) stale := by
  subst hn
  funext i
  rcases Nat.lt_trichotomy i l.length with h | h | h
  · rw [Function.update_of_ne (by omega), overlay, overlay, List.getD_append _ _ _ _ h]
  · subst h
    rw [Function.update_self, overlay, List.getD_append_right _ _ _ _ le_rfl]
    simp
  · rw [Function.update_of_ne (by omega), overlay, overlay,
      List.getD_eq_default _ _ (by omega), List.getD_eq_default _ _ (by simp; omega)]

theorem range_map_overlay {l : List Int8} (stale : ℕ → Int8) {n : ℕ} (hn : n ≤ l.length) :
    (List.range n).map (overlay l stale) = l.take n := by
  apply List.ext_getElem
  · simp [hn]
  · intro i hi _
    have hl : i < l.length := by simp at hi; omega
    simp [overlay, List.getElem?_eq_getElem hl]

theorem copyOut_loop (p : Packet) (stale : ℕ → Int8) {n : ℕ} (hn : n ≤ payloadMax) :
    n.fold (fun i _ m => m.bind (copyOut p i)) (some (overlay (headerBytes p) stale)) =
      some (overlay (headerBytes p ++ (List.ofFn p.payload).take n) stale) := by
  induction n with
  | zero => simp
  | succ n ih =>
    have hlt : n < payloadMax := by omega
    have hlen : (headerBytes p ++ (List.ofFn p.payload).take n).length = n + 8 := by
      simp [headerBytes]
      omega
    have hnext : (List.ofFn p.payload).take (n + 1) =
        (List.ofFn p.payload).take n ++ [p.payload ⟨n, hlt⟩] := by
      rw [List.take_add_one, List.getElem?_eq_getElem (by simpa using hlt)]
      simp
    rw [Nat.fold_succ, ih (by omega), Option.bind_some, copyOut, dif_pos hlt,
      update_overlay hlen, List.append_assoc, hnext]

theorem copyOut_stuck (p : Packet) (m : Option (ℕ → Int8)) {n : ℕ} (hn : payloadMax < n) :
    n.fold (fun i _ m => m.bind (copyOut p i)) m = none := by
  induction n with
  | zero => omega
  | succ n ih =>
    rw [Nat.fold_succ]
    by_cases hp : payloadMax < n
    · rw [ih hp, Option.bind_none]
    · have hout : copyOut p n = fun _ => none := by
        funext m
        simp [copyOut, show ¬n < payloadMax by omega]
      rw [hout]
      cases n.fold (fun i _ m => m.bind (copyOut p i)) m <;> rfl

theorem header_overlay (p : Packet) (msg : ℕ → Int8) :
    Function.update (Function.update (Function.update (Function.update (Function.update
      (Function.update (Function.update (Function.update msg 0 p.src) 1 p.dst) 2 p.type) 3
      (Int8.ofInt p.length)) 4 p.packetRootID) 5 (Int8.ofInt p.packetRootDist)) 6
      p.packetSenderType) 7 p.packetSenderChild = overlay (headerBytes p) msg := by
  have h0 : Function.update msg 0 p.src = overlay [p.src] msg :=
    update_overlay (l := []) rfl msg p.src
  simp (disch := simp) only [h0, update_overlay, List.cons_append, List.nil_append, headerBytes]

theorem writeBytes_overlay (p : Packet) (stale : ℕ → Int8) (h0 : -8 ≤ p.length)
    (h1 : p.length ≤ payloadMax) :
    writeBytes (p.length + 8)
        (overlay (headerBytes p ++ (List.ofFn p.payload).take p.length.toNat) stale) =
      some (packetSend p) := by
  rw [writeBytes, if_neg (by omega), range_map_overlay]
  · rfl
  · simp only [headerBytes, List.length_append, List.length_cons, List.length_nil,
      List.length_take, List.length_ofFn]
    omega

/-- Both branches write the bytes of `packetSend`, whatever `msg` held before. -/
theorem packetSendOn_eq (t : NetLinkType) (p : Packet) (msg : ℕ → Int8) :
    packetSendOn t p msg =
      if -8 ≤ p.length ∧ p.length ≤ payloadMax then some (packetSend p) else none := by
  have hbranch : packetSendOn t p msg =
      (p.length.toNat.fold (fun i _ m => m.bind (copyOut p i))
        (some (overlay (headerBytes p) msg))).bind (writeBytes (p.length + 8)) := by
    rw [← header_overlay]
    cases t <;> rfl
  rw [hbranch]
  by_cases hmax : p.length ≤ payloadMax
  · rw [copyOut_loop p msg (by omega), Option.bind_some]
    by_cases hmin : -8 ≤ p.length
    · rw [writeBytes_overlay p msg hmin hmax, if_pos ⟨hmin, hmax⟩]
    · rw [writeBytes, if_pos (by omega), if_neg (by omega)]
  · rw [copyOut_stuck p _ (by omega), Option.bind_none, if_neg (by omega)]

theorem packetSendOn_fits (t : NetLinkType) {p : Packet} (h : Fits p) (msg : ℕ → Int8) :
    packetSendOn t p msg = some (packetSend p) := by
  obtain ⟨h0, h1⟩ := h
  rw [packetSendOn_eq, if_pos ⟨by omega, h1⟩]

theorem copyIn_loop (msg : ℕ → Int8) (r : Receiving) (n : ℕ) :
    n.fold (fun i _ r => r.copyIn msg i) r =
      { packet := { r.packet with
          payload := fun j => if j.val < n then msg (j + 8) else r.packet.payload j }
        msgReads := r.msgReads ++ (List.range n).map (· + 8)
        payloadWrites := r.payloadWrites ++ List.range n } := by
  induction n with
  | zero => simp
  | succ n ih =>
    rw [Nat.fold_succ, ih]
    simp only [Receiving.copyIn, List.range_succ, List.map_append, List.map_cons, List.map_nil,
      List.append_assoc]
    congr 2
    funext j
    rcases Nat.lt_trichotomy j.val n with h | h | h
    · rw [if_neg (by omega), if_pos h, if_pos (by omega)]
    · rw [if_pos h, if_pos (by omega), h]
    · rw [if_neg (by omega), if_neg (by omega), if_neg (by omega)]

theorem recv_eq (t : NetLinkType) {bytes : List Int8} (hne : bytes ≠ [])
    (hmax : bytes.length ≤ payloadMax + 8) (stale : ℕ → Int8) (p : Packet) :
    packetRecvOn t bytes stale p =
      (bytes.length,
        { packet := decode (overlay bytes stale) p.payload
          msgReads := List.range 8 ++
            (List.range (overlay bytes stale 3).toInt.toNat).map (· + 8)
          payloadWrites := List.range (overlay bytes stale 3).toInt.toNat }) := by
  have hbranch : packetRecvOn t bytes stale p =
      (bytes.length, recvPipe (overlay bytes stale) p) := by
    simp only [packetRecvOn, List.take_of_length_le hmax, if_neg hne]
    cases t <;> rfl
  rw [hbranch, recvPipe]
  simp only [Receiving.assign, copyIn_loop]
  congr 2
  simp only [decode]
  congr 1
  funext j
  congr 1
  simp only [eq_iff_iff]
  omega

theorem recv_same (bytes : List Int8) (stale : ℕ → Int8) (p : Packet) :
    packetRecvOn .pipe bytes stale p = packetRecvOn .socket bytes stale p := by
  unfold packetRecvOn
  split <;> rfl

def WellFramed (wire : List Int8) : Prop :=
  (wire.length : ℤ) = 8 + (wire.getD 3 0).toInt ∧
    0 ≤ (wire.getD 3 0).toInt ∧ (wire.getD 3 0).toInt ≤ payloadMax

instance (wire : List Int8) : Decidable (WellFramed wire) := inferInstanceAs (Decidable (_ ∧ _))

theorem packetSend_decode {wire : List Int8} (h : WellFramed wire) (stale : ℕ → Int8)
    (prior : Fin payloadMax → Int8) :
    Fits (decode (overlay wire stale) prior) ∧
      packetSend (decode (overlay wire stale) prior) = wire := by
  obtain ⟨hlen, h0, h1⟩ := h
  rcases wire with _ | ⟨a, _ | ⟨b, _ | ⟨c, _ | ⟨d, _ | ⟨e, _ | ⟨f, _ | ⟨g, _ | ⟨k, rest⟩⟩⟩⟩⟩⟩⟩⟩
  case cons.cons.cons.cons.cons.cons.cons.cons =>
    simp only [List.getD_cons_succ, List.getD_cons_zero, List.length_cons] at hlen h0 h1
    have hd : (decode (overlay (a :: b :: c :: d :: e :: f :: g :: k :: rest) stale) prior).length =
        d.toInt := rfl
    have hfits : Fits (decode (overlay (a :: b :: c :: d :: e :: f :: g :: k :: rest) stale)
        prior) := by
      constructor
      · rw [hd]
        exact h0
      · rw [hd]
        exact h1
    refine ⟨hfits, ?_⟩
    rw [packetSend_eq hfits]
    have hhead : headerBytes (decode (overlay (a :: b :: c :: d :: e :: f :: g :: k :: rest) stale)
        prior) = [a, b, c, d, e, f, g, k] := by
      simp [headerBytes, decode, overlay]
    have hbody : (List.ofFn (decode (overlay (a :: b :: c :: d :: e :: f :: g :: k :: rest) stale)
        prior).payload).take d.toInt.toNat = rest := by
      apply List.ext_getElem
      · simp only [List.length_take, List.length_ofFn]
        omega
      · intro i hi hr
        have hid : (i : ℤ) < d.toInt := by omega
        simp [decode, overlay, hid, hr]
    rw [hhead, hd, hbody]
    rfl
  all_goals simp at hlen h0 <;> omega

theorem deliver_of_small {p : Packet} (hf : Fits p) (hlo : -128 ≤ p.packetRootDist)
    (hhi : p.packetRootDist ≤ 127) (prior : Fin payloadMax → Int8) :
    p.deliver prior =
      { p with payload := fun i => if (i : ℤ) < p.length then p.payload i else prior i } := by
  simp only [Packet.deliver, hf.length_char, char_of_small hlo hhi]

theorem packetSend_recv (t : NetLinkType) {p : Packet} (hf : Fits p) (stale : ℕ → Int8)
    (prior : Packet) :
    (packetRecvOn t (packetSend p) stale prior).1 = 8 + p.length.toNat ∧
      (packetRecvOn t (packetSend p) stale prior).2.packet = p.deliver prior.payload := by
  have hlen := packetSend_length hf
  have hne : packetSend p ≠ [] := by
    intro he
    simp only [he, List.length_nil] at hlen
    omega
  have hmax : (packetSend p).length ≤ payloadMax + 8 := by
    have := hf.2
    omega
  have hdecode := decode_packetSend hf [] stale prior.payload
  rw [List.append_nil] at hdecode
  rw [recv_eq t hne hmax]
  exact ⟨hlen, hdecode⟩

/-- On either kind of link a packet arrives as it was sent, over a `payload` that keeps what
lies behind the length; the two kinds write and read alike; and a well framed byte string is
reproduced by sending what was received from it. -/
theorem packet_codec_round_trip :
    (∀ (t u : NetLinkType) (p prior : Packet) (msg stale : ℕ → Int8), Fits p →
      -128 ≤ p.packetRootDist → p.packetRootDist ≤ 127 →
      ∃ bytes r, packetSendOn t p msg = some bytes ∧
        packetRecvOn u bytes stale prior = (8 + p.length.toNat, r) ∧
        r.packet = { p with
          payload := fun i => if (i : ℤ) < p.length then p.payload i else prior.payload i }) ∧
    (∀ (p : Packet) (msg msg' : ℕ → Int8),
      packetSendOn .pipe p msg = packetSendOn .socket p msg') ∧
    (∀ (bytes : List Int8) (stale : ℕ → Int8) (prior : Packet),
      packetRecvOn .pipe bytes stale prior = packetRecvOn .socket bytes stale prior) ∧
    (∀ (t u : NetLinkType) (wire : List Int8) (msg stale : ℕ → Int8) (prior : Packet),
      WellFramed wire →
      packetSendOn u (packetRecvOn t wire stale prior).2.packet msg = some wire) := by
  refine ⟨?_, ?_, recv_same, ?_⟩
  · intro t u p prior msg stale hf hlo hhi
    obtain ⟨hn, hp⟩ := packetSend_recv u hf stale prior
    refine ⟨packetSend p, _, packetSendOn_fits t hf msg, Prod.ext hn rfl, ?_⟩
    rw [hp, deliver_of_small hf hlo hhi]
  · intro p msg msg'
    rw [packetSendOn_eq, packetSendOn_eq]
  · intro t u wire msg stale prior hw
    obtain ⟨hfits, hsend⟩ := packetSend_decode hw stale prior.payload
    obtain ⟨hlen, h0, h1⟩ := hw
    have hne : wire ≠ [] := by
      intro he
      subst he
      simp only [List.length_nil] at hlen
      omega
    rw [recv_eq t hne (by omega), packetSendOn_fits u hfits, hsend]

theorem packet_codec_round_trip_hello :
    packetSendOn .socket (packetRecvOn .pipe [1, 2, -3, 2, 5, -6, 72, 89, 104, 105]
      (fun _ => 9) ⟨0, 0, 0, 0, fun _ => 7, 0, 0, 0, 0⟩).2.packet (fun _ => 4) =
        some [1, 2, -3, 2, 5, -6, 72, 89, 104, 105] :=
  packet_codec_round_trip.2.2.2 .pipe .socket _ _ _ _ (by decide)

/-- What one read of `bytes` should never do: look at bytes that did not come, write behind
`payload`, or hand on a length that the bytes do not bear out. -/
structure ReceivesSafely (t : NetLinkType) (bytes : List Int8) (stale : ℕ → Int8)
    (prior : Packet) : Prop where
  reads : ∀ i ∈ (packetRecvOn t bytes stale prior).2.msgReads, i < bytes.length
  writes : ∀ i ∈ (packetRecvOn t bytes stale prior).2.payloadWrites, i < payloadMax
  fits : Fits (packetRecvOn t bytes stale prior).2.packet
  within : 8 + (packetRecvOn t bytes stale prior).2.packet.length ≤ bytes.length

theorem overlay_length {bytes : List Int8} (h : 4 ≤ bytes.length) (stale : ℕ → Int8) :
    overlay bytes stale 3 = bytes.getD 3 0 := by
  rw [overlay, List.getD_eq_getElem _ _ (by omega), List.getD_eq_getElem _ _ (by omega)]

/-- There is no check in packet_recv: it is safe exactly on a whole header whose length byte
is neither negative nor larger than what came after the header. -/
theorem receivesSafely_iff (t : NetLinkType) {bytes : List Int8} (hne : 1 ≤ bytes.length)
    (hmax : bytes.length ≤ 108) (stale : ℕ → Int8) (prior : Packet) :
    ReceivesSafely t bytes stale prior ↔
      8 ≤ bytes.length ∧ 0 ≤ (bytes.getD 3 0).toInt ∧
        (bytes.getD 3 0).toInt ≤ bytes.length - 8 := by
  have hr := recv_eq t (List.ne_nil_of_length_pos hne) hmax stale prior
  constructor
  · intro h
    have h8 : 8 ≤ bytes.length := by
      have h7 := h.reads 7 (by simp [hr])
      omega
    have hfits := h.fits
    have hwithin := h.within
    rw [hr] at hfits hwithin
    simp only [decode, Fits, overlay_length (show 4 ≤ bytes.length by omega)] at hfits hwithin
    refine ⟨h8, hfits.1, ?_⟩
    omega
  · intro h
    obtain ⟨h8, h0, hle⟩ := h
    have hb := overlay_length (show 4 ≤ bytes.length by omega) stale
    constructor
    · intro i hi
      simp only [hr, hb, List.mem_append, List.mem_map, List.mem_range] at hi
      rcases hi with hi | ⟨j, hj, rfl⟩ <;> omega
    · intro i hi
      simp only [hr, hb, List.mem_range] at hi
      simp only [payloadMax]
      omega
    · simp only [hr, Fits, decode, hb, payloadMax]
      omega
    · simp only [hr, decode, hb]
      omega

theorem receivesSafely_iff_header :
    ReceivesSafely .pipe [1, 2, 0, 0, 0, 0, 0, 0] (fun _ => 0)
      ⟨0, 0, 0, 0, fun _ => 7, 0, 0, 0, 0⟩ :=
  (receivesSafely_iff .pipe (by decide) (by decide) _ _).mpr (by decide)

/-- A message of bytes 127 makes either branch write `payload[126]`. -/
theorem length_byte_overruns :
    ¬ReceivesSafely .pipe (List.replicate 108 127) (fun _ => 0)
        ⟨0, 0, 0, 0, fun _ => 0, 0, 0, 0, 0⟩ ∧
      ¬ReceivesSafely .socket (List.replicate 108 127) (fun _ => 0)
        ⟨0, 0, 0, 0, fun _ => 0, 0, 0, 0, 0⟩ := by
  constructor
  · intro h
    have hw := h.writes 126 (by decide +kernel)
    simp [payloadMax] at hw
  · intro h
    have hw := h.writes 126 (by decide +kernel)
    simp [payloadMax] at hw

end PacketLinks
