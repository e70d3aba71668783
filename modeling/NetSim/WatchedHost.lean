import NetSim.HostQueries

/-! A host with a record of the requests that it makes and of the replies that it hears. The
record only grows, and no branch of the loop reads it. -/
namespace WatchedHost

open PacketCodec ReplyBook HostNode HostBook HostWaits HostQueries

/-- A kind of request: the serial number of the command that a step makes it for, its type and
that of its reply. -/
structure Kind where
  asks : HostState → HostEvent → Option ℕ
  request : Int8
  reply : Int8
  sends : ∀ {s e u n}, hostStep s e = some u → asks s e = some n →
    ∃ q ps, outgoing u = outgoing s ++ q :: ps ∧ q.type = request

/-- A reply, the number of packets sent before it came, and the place among them of the request
that it answers. -/
structure Heard where
  place : ℕ
  sent : ℕ
  packet : Packet

/-- `asked` pairs the serial number of a command with the place of its request among the packets
of the host. -/
structure Watched where
  host : HostState
  asked : List (ℕ × ℕ)
  heard : List Heard

def askedBy (K : Kind) (s : HostState) (e : HostEvent) : List (ℕ × ℕ) :=
  match K.asks s e with
  | some n => [(n, (outgoing s).length)]
  | none => []

/-- An event comes with the place of the request that it answers, if it is a reply. -/
def heardBy (K : Kind) (s : HostState) : HostEvent × ℕ → List Heard
  | (.receive n p, k) => if Comes K.reply n p s then [⟨k, s.sent.length, p⟩] else []
  | _ => []

def watch (K : Kind) (w : Watched) (e : HostEvent × ℕ) : Option Watched :=
  (hostStep w.host e.1).map fun u =>
    ⟨u, w.asked ++ askedBy K w.host e.1, w.heard ++ heardBy K w.host e⟩

/-- A step that is taken only where P allows it. -/
def watchIf (K : Kind) (P : Watched → HostEvent × ℕ → Prop) [∀ w e, Decidable (P w e)]
    (w : Watched) (e : HostEvent × ℕ) : Option Watched := if P w e then watch K w e else none

def watchInit (garbage : HostState) : Watched := ⟨hostInit garbage, [], []⟩

/-- The reply r was heard after the request q of the command was sent, and answers it. -/
def Answered (K : Kind) (w : Watched) (serial : ℕ) (q r : Packet) : Prop :=
  ∃ k sent, (serial, k) ∈ w.asked ∧ w.host.sent[k]? = some q ∧ q.type = K.request ∧
    ⟨k, sent, r⟩ ∈ w.heard ∧ k < sent ∧ r.type = K.reply

def Placed (K : Kind) (w : Watched) : Prop :=
  ∀ a ∈ w.asked, ∃ q, (outgoing w.host)[a.2]? = some q ∧ q.type = K.request

section

variable {K : Kind} {w v : Watched} {e : HostEvent × ℕ}

theorem watchIf_eq_some_iff {P : Watched → HostEvent × ℕ → Prop} [∀ w e, Decidable (P w e)] :
    watchIf K P w e = some v ↔ P w e ∧ watch K w e = some v := by
  rw [watchIf, Option.ite_none_right_eq_some]

theorem run_of_watchIf {P : Watched → HostEvent × ℕ → Prop} [∀ w e, Decidable (P w e)]
    {R : Watched → HostEvent × ℕ → Watched → Prop} {es : List (HostEvent × ℕ)}
    (h : es.foldlM (watchIf K P) w = some v)
    (hR : ∀ {a e b}, watch K a e = some b → P a e → R a e b) : EventRuns.Run R w es v := by
  refine (EventRuns.Run.of_foldlM h).mono ?_
  intro a e b hab
  obtain ⟨hallowed, hwatch⟩ := watchIf_eq_some_iff.mp hab
  exact hR hwatch hallowed

theorem watch_host (h : watch K w e = some v) : hostStep w.host e.1 = some v.host := by
  obtain ⟨u, hu, rfl⟩ := Option.map_eq_some_iff.mp h
  exact hu

theorem watch_asked (h : watch K w e = some v) : v.asked = w.asked ++ askedBy K w.host e.1 := by
  obtain ⟨u, -, rfl⟩ := Option.map_eq_some_iff.mp h
  rfl

theorem watch_heard (h : watch K w e = some v) : v.heard = w.heard ++ heardBy K w.host e := by
  obtain ⟨u, -, rfl⟩ := Option.map_eq_some_iff.mp h
  rfl

theorem watch_follows (h : watch K w e = some v) : Follows w.host v.host :=
  (hostStep_moves (watch_host h)).follows

theorem getElem?_of_initial {α : Type*} {xs ys : List α} (h : xs <+: ys) {k : ℕ} {a : α}
    (ha : xs[k]? = some a) : ys[k]? = some a := by
  obtain ⟨zs, rfl⟩ := h
  obtain ⟨hk, -⟩ := List.getElem?_eq_some_iff.mp ha
  rw [List.getElem?_append_left hk, ha]

theorem Answered.mono {serial : ℕ} {q r : Packet} (h : watch K w e = some v)
    (ha : Answered K w serial q r) : Answered K v serial q r := by
  obtain ⟨k, sent, hasked, hsent, htype, hheard, hlt, hreply⟩ := ha
  refine ⟨k, sent, ?_, getElem?_of_initial (watch_follows h).sent hsent, htype, ?_, hlt, hreply⟩
  · rw [watch_asked h]
    exact List.mem_append_left _ hasked
  · rw [watch_heard h]
    exact List.mem_append_left _ hheard

theorem placed_init (garbage : HostState) : Placed K (watchInit garbage) := by
  intro a ha
  cases ha

theorem placed_step (h : watch K w e = some v) (hp : Placed K w) : Placed K v := by
  intro a ha
  rw [watch_asked h] at ha
  rcases List.mem_append.mp ha with ha | ha
  · obtain ⟨q, hq, htype⟩ := hp a ha
    exact ⟨q, getElem?_of_initial (watch_follows h).outgoing hq, htype⟩
  · unfold askedBy at ha
    split at ha
    case h_1 n hn =>
      obtain ⟨q, ps, hout, htype⟩ := K.sends (watch_host h) hn
      rw [List.mem_singleton.mp ha]
      exact ⟨q, by simp [hout], htype⟩
    case h_2 => cases ha

theorem answered_receive {n : ℤ} {p q : Packet} {k serial : ℕ}
    (h : watch K w (.receive n p, k) = some v) (hp : Placed K w) (hc : Comes K.reply n p w.host)
    (hasked : (serial, k) ∈ w.asked) (hsent : w.host.sent[k]? = some q) :
    Answered K v serial q p := by
  obtain ⟨hk, -⟩ := List.getElem?_eq_some_iff.mp hsent
  have htype : q.type = K.request := by
    obtain ⟨q', hq', htype⟩ := hp _ hasked
    have hsame : (outgoing w.host)[k]? = some q :=
      getElem?_of_initial (List.prefix_append _ _) hsent
    rw [hsame] at hq'
    cases hq'
    exact htype
  refine ⟨k, w.host.sent.length, ?_, getElem?_of_initial (watch_follows h).sent hsent, htype, ?_,
    hk, hc.2.2⟩
  · rw [watch_asked h]
    exact List.mem_append_left _ hasked
  · rw [watch_heard h]
    apply List.mem_append_right
    rw [heardBy, if_pos hc]
    exact List.mem_singleton_self _

end

end WatchedHost
