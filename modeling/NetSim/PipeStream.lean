import NetSim.PacketCodec
import NetSim.ByteStream
import Mathlib.Data.List.OfFn

/-! One direction of a PIPE link: the calls of packet_send at one end and of packet_recv at the
other, over the bytes in the pipe. Nothing on the wire says where a packet ends, so a read
that finds two packets returns one and drops bytes of the other. -/
namespace PipeStream

open PacketCodec ByteStream

inductive Call where
  | send (p : Packet)
  | recv

def msgMax : ℕ := payloadMax + 8

/-- The packets that packet_recv returns with n > 0. The memory of call i is `mem i`. -/
def received : List Int8 → List Call → (ℕ → Memory) → List Packet
  | _, [], _ => []
  | pipe, .send p :: calls, mem => received (pipe ++ packetSend p) calls mem
  | pipe, .recv :: calls, mem =>
    (packetRecv (pipe.take msgMax) (mem 0).stale (mem 0).prior).toList ++
      received (pipe.drop msgMax) calls fun i => mem (i + 1)

def sent : List Call → List Packet
  | [] => []
  | .send p :: calls => p :: sent calls
  | .recv :: calls => sent calls

def unread : List Int8 → List Call → List Int8
  | pipe, [] => pipe
  | pipe, .send p :: calls => unread (pipe ++ packetSend p) calls
  | pipe, .recv :: calls => unread (pipe.drop msgMax) calls

/-- The receiver has the packet: all fields, and the payload up to its length. -/
def Same (p r : Packet) : Prop :=
  r.src = p.src ∧ r.dst = p.dst ∧ r.type = p.type ∧ r.length = p.length ∧
    r.packetRootID = p.packetRootID ∧ r.packetRootDist = p.packetRootDist ∧
    r.packetSenderType = p.packetSenderType ∧ r.packetSenderChild = p.packetSenderChild ∧
    ∀ i : Fin payloadMax, (i : ℤ) < p.length → r.payload i = p.payload i

/-- No call of packet_recv finds a second packet behind one it has not filled itself with:
the packets waiting when it is called are none, one, or begin with one of full length. -/
def ReadsAlone : List Packet → List Call → Prop
  | _, [] => True
  | q, .send p :: calls => ReadsAlone (q ++ [p]) calls
  | [], .recv :: calls => ReadsAlone [] calls
  | p :: q, .recv :: calls => (q = [] ∨ p.length = payloadMax) ∧ ReadsAlone q calls

def ops : List Call → List (Op Int8)
  | [] => []
  | .send p :: calls => .write (packetSend p) :: ops calls
  | .recv :: calls => .read :: ops calls

theorem writes_ops (calls : List Call) : writes (ops calls) = (sent calls).map packetSend := by
  induction calls with
  | nil => rfl
  | cons c calls ih => cases c <;> simp [ops, writes, sent, ih]

theorem rest_ops (calls : List Call) (pipe : List Int8) :
    rest msgMax pipe (ops calls) = unread pipe calls := by
  induction calls generalizing pipe with
  | nil => rfl
  | cons c calls ih =>
    cases c with
    | send p => exact ih _
    | recv => exact ih _

theorem aligned_ops (calls : List Call) (q : List Packet)
    (hf : ∀ p ∈ q ++ sent calls, Fits p) :
    Aligned msgMax (q.map packetSend) (ops calls) ↔ ReadsAlone q calls := by
  induction calls generalizing q with
  | nil => exact Iff.rfl
  | cons c calls ih =>
    cases c with
    | send p =>
      have := ih (q ++ [p]) (by simpa [sent] using hf)
      rwa [List.map_append] at this
    | recv =>
      cases q with
      | nil => exact ih [] hf
      | cons p q =>
        have hp := hf p (by simp)
        have hlen : (packetSend p).length = msgMax ↔ p.length = payloadMax := by
          rw [packetSend_length hp, msgMax]
          have := hp.1
          omega
        have hq := ih q fun x hx => hf x (by rw [List.cons_append]; exact List.mem_cons_of_mem _ hx)
        simp only [List.map_cons, ops, Aligned, ReadsAlone, hlen, hq, List.map_eq_nil_iff]

theorem message_ok {p : Packet} (h : Fits p) :
    packetSend p ≠ [] ∧ (packetSend p).length ≤ msgMax := by
  have hl := packetSend_length h
  obtain ⟨h0, h1⟩ := h
  refine ⟨?_, ?_⟩
  · intro he
    rw [he, List.length_nil] at hl
    omega
  · rw [hl, msgMax]
    omega

theorem messages_ok {calls : List Call} (hf : ∀ p ∈ sent calls, Fits p) :
    ∀ m ∈ writes (ops calls), m ≠ [] ∧ m.length ≤ msgMax := by
  rw [writes_ops]
  intro m hm
  obtain ⟨p, hp, rfl⟩ := List.mem_map.mp hm
  exact message_ok (hf p hp)

theorem received_pieces (calls : List Call) (pipe : List Int8) (mem : ℕ → Memory) :
    List.Forall₂ (fun c r => ∃ i, decode (overlay c (mem i).stale) (mem i).prior = r)
      (pieces msgMax pipe (ops calls)) (received pipe calls mem) := by
  induction calls generalizing pipe mem with
  | nil => exact .nil
  | cons c calls ih =>
    cases c with
    | send p => exact ih (pipe ++ packetSend p) mem
    | recv =>
      have hrest := (ih (pipe.drop msgMax) fun i => mem (i + 1)).imp
        (S := fun c r => ∃ i, decode (overlay c (mem i).stale) (mem i).prior = r)
        (fun c r ⟨i, hi⟩ => ⟨i + 1, hi⟩)
      rw [ops, received]
      by_cases he : pipe.take msgMax = []
      · have hp : pipe = [] := (List.take_eq_nil_iff.mp he).resolve_left (by decide)
        subst hp
        rw [pieces_read_nil]
        exact hrest
      · rw [pieces_read he, packetRecv, if_neg he]
        exact .cons ⟨0, rfl⟩ hrest

theorem received_const (calls : List Call) (m : Memory) :
    received [] calls (fun _ => m) =
      (pieces msgMax [] (ops calls)).map fun c => decode (overlay c m.stale) m.prior := by
  symm
  rw [← List.forall₂_eq_eq_eq, List.forall₂_map_left_iff]
  exact (received_pieces calls [] fun _ => m).imp fun c r ⟨_, hi⟩ => hi

theorem same_deliver {p : Packet} (hf : Fits p) (prior : Fin payloadMax → Int8) :
    Same p (p.deliver prior) ↔ -128 ≤ p.packetRootDist ∧ p.packetRootDist ≤ 127 := by
  constructor
  · rintro ⟨_, _, _, _, _, hd, _⟩
    change (Int8.ofInt p.packetRootDist).toInt = _ at hd
    rw [← hd]
    exact ⟨Int8.le_toInt _, Int8.toInt_le _⟩
  · rintro ⟨h0, h1⟩
    refine ⟨rfl, rfl, rfl, hf.length_char, rfl, char_of_small h0 h1, rfl, rfl, ?_⟩
    intro i hi
    exact if_pos (by rwa [hf.length_char])

theorem headerBytes_decode (msg : ℕ → Int8) (prior : Fin payloadMax → Int8) :
    headerBytes (decode msg prior) = (List.range 8).map msg := by
  simp [headerBytes, decode, List.range_succ]

/-- A packet that is right whatever the memory held was read whole. -/
theorem same_covers {p : Packet} (hf : Fits p) {bytes : List Int8} {prior : Fin payloadMax → Int8}
    (h0 : Same p (decode (overlay bytes fun _ => 0) prior))
    (h1 : Same p (decode (overlay bytes fun _ => 1) prior)) :
    (packetSend p).length ≤ bytes.length := by
  rw [packetSend_length hf]
  by_contra hlt
  have hstale : ∀ b, overlay bytes (fun _ => b) bytes.length = b := by
    intro b
    exact List.getD_eq_default _ _ le_rfl
  have hne : overlay bytes (fun _ => 0) bytes.length ≠ overlay bytes (fun _ => 1) bytes.length := by
    rw [hstale, hstale]
    decide
  apply hne
  -- the first byte that was not read is in the header or in the payload
  by_cases hb : bytes.length < 8
  · have hh : headerBytes (decode (overlay bytes fun _ => 0) prior) =
        headerBytes (decode (overlay bytes fun _ => 1) prior) := by
      obtain ⟨a1, a2, a3, a4, a5, a6, a7, a8, _⟩ := h0
      obtain ⟨b1, b2, b3, b4, b5, b6, b7, b8, _⟩ := h1
      simp only [headerBytes, a1, a2, a3, a4, a5, a6, a7, a8, b1, b2, b3, b4, b5, b6, b7, b8]
    rw [headerBytes_decode, headerBytes_decode] at hh
    exact List.map_inj_left.mp hh _ (List.mem_range.mpr hb)
  · obtain ⟨_, hle⟩ := hf
    have hi : bytes.length - 8 < payloadMax := by omega
    have hlow : ((⟨bytes.length - 8, hi⟩ : Fin payloadMax) : ℤ) < p.length := by
      change ((bytes.length - 8 : ℕ) : ℤ) < _
      omega
    have hread : ∀ b, Same p (decode (overlay bytes fun _ => b) prior) →
        overlay bytes (fun _ => b) bytes.length = p.payload ⟨bytes.length - 8, hi⟩ := by
      rintro b ⟨_, _, _, hlen, _, _, _, _, hpay⟩
      rw [← hpay _ hlow]
      change _ = if _ < _ then overlay bytes (fun _ => b) (bytes.length - 8 + 8) else _
      rw [if_pos (by rw [← hlen] at hlow; exact hlow), Nat.sub_add_cancel (by omega)]
    rw [hread 0 h0, hread 1 h1]

theorem received_deliver {calls : List Call} (hf : ∀ p ∈ sent calls, Fits p)
    (hd : unread [] calls = []) (ha : ReadsAlone [] calls) (mem : ℕ → Memory) :
    List.Forall₂ (fun p r => ∃ i, r = p.deliver (mem i).prior) (sent calls)
      (received [] calls mem) := by
  have hpieces : pieces msgMax [] (ops calls) = (sent calls).map packetSend := by
    rw [← writes_ops]
    exact pieces_eq_messages (ops calls) [] (messages_ok hf) ((aligned_ops calls [] hf).mpr ha)
      ((rest_ops calls []).trans hd)
  have hr := received_pieces calls [] mem
  rw [hpieces, List.forall₂_map_left_iff] at hr
  refine ((List.forall₂_and_left _ _).mpr ⟨hf, hr⟩).imp ?_
  rintro p r ⟨hp, i, rfl⟩
  have := decode_packetSend hp [] (mem i).stale (mem i).prior
  rw [List.append_nil] at this
  exact ⟨i, this⟩

theorem readsAlone_of_same {calls : List Call} (hf : ∀ p ∈ sent calls, Fits p)
    (hd : unread [] calls = [])
    (h : ∀ mem, List.Forall₂ Same (sent calls) (received [] calls mem)) :
    ReadsAlone [] calls := by
  have hconst : ∀ b : Int8, List.Forall₂
      (fun p c => Same p (decode (overlay c fun _ => b) fun _ => 0)) (sent calls)
      (pieces msgMax [] (ops calls)) := by
    intro b
    have hb := h fun _ => ⟨fun _ => b, fun _ => 0⟩
    rwa [received_const, List.forall₂_map_right_iff] at hb
  apply (aligned_ops calls [] hf).mp
  apply aligned_of_le (messages_ok hf) ((rest_ops calls []).trans hd)
  rw [writes_ops, List.forall₂_map_left_iff, List.forall₂_iff_zip]
  refine ⟨(hconst 0).length_eq, ?_⟩
  intro p c hz
  exact same_covers (hf p (List.of_mem_zip hz).1) (List.forall₂_zip (hconst 0) hz)
    (List.forall₂_zip (hconst 1) hz)

theorem exists_mem_zip {α β : Type*} {l : List α} {k : List β} (h : l.length = k.length) {a : α}
    (ha : a ∈ l) : ∃ b, (a, b) ∈ l.zip k := by
  obtain ⟨i, hi, rfl⟩ := List.getElem_of_mem ha
  refine ⟨k[i], ?_⟩
  rw [← List.getElem_zip (h := by rw [List.length_zip]; omega)]
  exact List.getElem_mem _

/-- The packets that come out are those that went in, whatever memory held, exactly when every
read is alone with its packet and every distance fits a byte. -/
theorem pipe_faithful_iff {calls : List Call} (hf : ∀ p ∈ sent calls, Fits p)
    (hd : unread [] calls = []) :
    (∀ mem, List.Forall₂ Same (sent calls) (received [] calls mem)) ↔
      ReadsAlone [] calls ∧
        ∀ p ∈ sent calls, -128 ≤ p.packetRootDist ∧ p.packetRootDist ≤ 127 := by
  constructor
  · intro h
    have ha := readsAlone_of_same hf hd h
    refine ⟨ha, ?_⟩
    intro p hp
    have hs := h fun _ => ⟨fun _ => 0, fun _ => 0⟩
    obtain ⟨r, hz⟩ := exists_mem_zip hs.length_eq hp
    obtain ⟨_, rfl⟩ := List.forall₂_zip (received_deliver hf hd ha _) hz
    exact (same_deliver (hf p hp) _).mp (List.forall₂_zip hs hz)
  · rintro ⟨ha, hr⟩ mem
    refine ((List.forall₂_and_left _ _).mpr ⟨?_, received_deliver hf hd ha mem⟩).imp
      (R := fun p r => (Fits p ∧ -128 ≤ p.packetRootDist ∧ p.packetRootDist ≤ 127) ∧
        ∃ i, r = p.deliver (mem i).prior) ?_
    · exact fun p hp => ⟨hf p hp, hr p hp⟩
    · rintro p r ⟨⟨hp, hdist⟩, i, rfl⟩
      exact (same_deliver hp _).mpr hdist

def ping : Packet where
  src := 0
  dst := 1
  type := pktPingReq
  length := 0
  payload := fun _ => 0
  packetRootID := 0
  packetRootDist := 0
  packetSenderType := charH
  packetSenderChild := charY

def pingsOneByOne : List Call := [.send ping, .recv, .send ping, .recv]

def pingsTogether : List Call := [.send ping, .send ping, .recv]

theorem pipe_faithful_pingsOneByOne : ReadsAlone [] pingsOneByOne ∧
    ∀ mem, List.Forall₂ Same (sent pingsOneByOne) (received [] pingsOneByOne mem) := by
  have halone : ReadsAlone [] pingsOneByOne := ⟨Or.inl rfl, Or.inl rfl, trivial⟩
  exact ⟨halone, (pipe_faithful_iff (by decide) (by decide)).mpr ⟨halone, by decide⟩⟩

/-- Two pings sent before the first read come out as one packet. -/
theorem pingsTogether_merge : (∀ p ∈ sent pingsTogether, Fits p) ∧ unread [] pingsTogether = [] ∧
    ∀ mem, ¬ List.Forall₂ Same (sent pingsTogether) (received [] pingsTogether mem) := by
  refine ⟨by decide, by decide, ?_⟩
  intro mem h
  have hone : (received [] pingsTogether mem).length = 1 := rfl
  have htwo : (sent pingsTogether).length = 2 := rfl
  have := h.length_eq
  omega

end PipeStream
