import NetSim.EventRuns
import Mathlib.Data.List.Perm.Basic
import Mathlib.Data.List.Nodup

/-! Commands that are answered later. An accepted command gets a ticket. Its answer is written
at once, or after some tries of a waiting entry; the entry tried is the oldest one. -/
namespace ReplyBook

variable {κ : Type*}

/-- `serial` counts the commands accepted before, `tries` the tries made so far. -/
structure Ticket (κ : Type*) where
  serial : ℕ
  command : κ
  tries : ℕ
  deriving DecidableEq, Repr

def Ticket.tried (t : Ticket κ) : Ticket κ := { t with tries := t.tries + 1 }

def Ticket.key (t : Ticket κ) : κ × ℕ := (t.command, t.serial)

/-- `left` bounds the tries that are still to come. -/
structure Wait (κ : Type*) where
  ticket : Ticket κ
  left : ℕ

structure Book (κ : Type*) where
  commands : List κ
  waits : List (Wait κ)
  written : List (Ticket κ)

def Book.empty : Book κ := ⟨[], [], []⟩

def Book.issue (b : Book κ) (c : κ) : Ticket κ := ⟨b.commands.length, c, 0⟩

def Book.tickets (b : Book κ) : List (Ticket κ) := b.written ++ b.waits.map Wait.ticket

/-- `owed c`: the command is to be answered. `limit c`: the tries its answer may take. The label
is what the step writes. -/
inductive Step (owed : κ → Bool) (limit : κ → ℕ) : Book κ → List (Ticket κ) → Book κ → Prop where
  | stay (b) : Step owed limit b [] b
  | pass (b) {c} : owed c = false →
      Step owed limit b [] { b with commands := b.commands ++ [c] }
  | answer (b) {c} : owed c = true →
      Step owed limit b [b.issue c]
        { b with commands := b.commands ++ [c], written := b.written ++ [b.issue c] }
  | wait (b) {c left} : 0 < left → left ≤ limit c →
      Step owed limit b []
        { b with commands := b.commands ++ [c], waits := b.waits ++ [⟨b.issue c, left⟩] }
  | delay (b) {w ws left} : b.waits = w :: ws → 0 < left → left < w.left →
      Step owed limit b [] { b with waits := ws ++ [⟨w.ticket.tried, left⟩] }
  | close (b) {w ws} : b.waits = w :: ws →
      Step owed limit b [w.ticket.tried]
        { b with waits := ws, written := b.written ++ [w.ticket.tried] }
  | drop (b) {w ws} : b.waits = w :: ws → owed w.ticket.command = false →
      Step owed limit b [] { b with waits := ws }

/-- The keys of the commands that meet `f`. -/
def accepted (f : κ → Bool) (cs : List κ) : List (κ × ℕ) := cs.zipIdx.filter fun k => f k.1

/-- The keys of the tickets that meet `f`. -/
def keys (f : κ → Bool) (ts : List (Ticket κ)) : List (κ × ℕ) :=
  (ts.map Ticket.key).filter fun k => f k.1

structure Balanced (owed : κ → Bool) (limit : κ → ℕ) (b : Book κ) : Prop where
  waiting : ∀ w ∈ b.waits, 0 < w.left ∧ w.ticket.tries + w.left ≤ limit w.ticket.command
  answered : ∀ t ∈ b.written, t.tries ≤ limit t.command
  genuine : ∀ t ∈ b.tickets, b.commands[t.serial]? = some t.command
  balance : (accepted owed b.commands).Perm (keys owed b.tickets)

section

variable {owed f : κ → Bool} {limit : κ → ℕ} {b b' : Book κ} {ts : List (Ticket κ)}

theorem keys_append (f : κ → Bool) (ts us : List (Ticket κ)) :
    keys f (ts ++ us) = keys f ts ++ keys f us := by
  simp [keys]

theorem keys_cons (f : κ → Bool) (t : Ticket κ) (ts : List (Ticket κ)) :
    keys f (t :: ts) = keys f [t] ++ keys f ts :=
  keys_append f [t] ts

theorem keys_tried (f : κ → Bool) (t : Ticket κ) : keys f [t.tried] = keys f [t] := rfl

theorem keys_not {t : Ticket κ} (h : f t.command = false) : keys f [t] = [] := by
  simp [keys, Ticket.key, h]

theorem accepted_append (f : κ → Bool) (cs : List κ) (c : κ) :
    accepted f (cs ++ [c]) = accepted f cs ++ if f c then [(c, cs.length)] else [] := by
  by_cases h : f c <;> simp [accepted, List.zipIdx_append, h]

theorem accepted_initial (f : κ → Bool) (cs ds : List κ) :
    accepted f cs <+: accepted f (cs ++ ds) := by
  rw [accepted, accepted, List.zipIdx_append, List.filter_append]
  exact List.prefix_append _ _

theorem keys_issue (f : κ → Bool) (b : Book κ) (c : κ) :
    keys f [b.issue c] = if f c then [(c, b.commands.length)] else [] := by
  by_cases h : f c <;> simp [keys, Ticket.key, Book.issue, h]

theorem step_written (h : Step owed limit b ts b') : b'.written = b.written ++ ts := by
  cases h <;> simp

theorem balanced_empty (owed : κ → Bool) (limit : κ → ℕ) :
    Balanced owed limit (Book.empty : Book κ) := by
  constructor
  · simp [Book.empty]
  · simp [Book.empty]
  · simp [Book.empty, Book.tickets]
  · exact .refl _

theorem perm_written {as ws qs k : List (κ × ℕ)} (h : as.Perm (ws ++ qs)) :
    (as ++ k).Perm (ws ++ k ++ qs) := by
  have hend : (as ++ k).Perm (ws ++ qs ++ k) := h.append_right k
  rw [List.append_assoc] at hend ⊢
  exact hend.trans (List.perm_append_comm.append_left ws)

theorem Balanced.perm (h : Balanced owed limit b) :
    (accepted owed b.commands).Perm
      (keys owed b.written ++ keys owed (b.waits.map Wait.ticket)) := by
  have := h.balance
  rwa [Book.tickets, keys_append] at this

theorem forall_tickets {P : Ticket κ → Prop} :
    (∀ t ∈ b.tickets, P t) ↔ (∀ t ∈ b.written, P t) ∧ ∀ w ∈ b.waits, P w.ticket := by
  simp only [Book.tickets, List.forall_mem_append, List.forall_mem_map]

theorem genuine_step (h : ∀ t ∈ b.tickets, b.commands[t.serial]? = some t.command)
    (hs : Step owed limit b ts b') : ∀ t ∈ b'.tickets, b'.commands[t.serial]? = some t.command := by
  have hold : ∀ (c : κ) (t : Ticket κ), b.commands[t.serial]? = some t.command →
      (b.commands ++ [c])[t.serial]? = some t.command := by
    intro c t ht
    obtain ⟨hlt, -⟩ := List.getElem?_eq_some_iff.mp ht
    rw [List.getElem?_append_left hlt, ht]
  have hnew : ∀ c, (b.commands ++ [c])[(b.issue c).serial]? = some (b.issue c).command := by
    intro c
    simp [Book.issue]
  obtain ⟨hwritten, hwaits⟩ := forall_tickets.mp h
  rw [forall_tickets]
  cases hs with
  | stay => exact ⟨hwritten, hwaits⟩
  | pass =>
    constructor
    · exact fun t ht => hold _ t (hwritten t ht)
    · exact fun w hw => hold _ _ (hwaits w hw)
  | answer =>
    constructor
    · refine List.forall_mem_append.mpr ⟨fun t ht => hold _ t (hwritten t ht), ?_⟩
      exact List.forall_mem_singleton.mpr (hnew _)
    · exact fun w hw => hold _ _ (hwaits w hw)
  | wait =>
    constructor
    · exact fun t ht => hold _ t (hwritten t ht)
    · refine List.forall_mem_append.mpr ⟨fun w hw => hold _ _ (hwaits w hw), ?_⟩
      exact List.forall_mem_singleton.mpr (hnew _)
  | @delay w ws left hw =>
    rw [hw, List.forall_mem_cons] at hwaits
    constructor
    · exact hwritten
    · exact List.forall_mem_append.mpr ⟨hwaits.2, List.forall_mem_singleton.mpr hwaits.1⟩
  | @close w ws hw =>
    rw [hw, List.forall_mem_cons] at hwaits
    constructor
    · exact List.forall_mem_append.mpr ⟨hwritten, List.forall_mem_singleton.mpr hwaits.1⟩
    · exact hwaits.2
  | @drop w ws hw =>
    rw [hw, List.forall_mem_cons] at hwaits
    exact ⟨hwritten, hwaits.2⟩

theorem balanced_step (h : Balanced owed limit b) (hs : Step owed limit b ts b') :
    Balanced owed limit b' := by
  have hp := h.perm
  have hgen := genuine_step h.genuine hs
  have hwaiting := h.waiting
  cases hs with
  | stay => exact h
  | @pass c hc =>
    constructor
    · exact h.waiting
    · exact h.answered
    · exact hgen
    · change (accepted owed (b.commands ++ [c])).Perm _
      rw [accepted_append, hc, if_neg Bool.false_ne_true, List.append_nil]
      exact h.balance
  | @answer c hc =>
    constructor
    · exact h.waiting
    · refine List.forall_mem_append.mpr ⟨h.answered, ?_⟩
      exact List.forall_mem_singleton.mpr (Nat.zero_le _)
    · exact hgen
    · simp only [Book.tickets, accepted_append, keys_append, keys_issue]
      exact perm_written hp
  | @wait c left h0 hl =>
    constructor
    · refine List.forall_mem_append.mpr ⟨h.waiting, ?_⟩
      exact List.forall_mem_singleton.mpr ⟨h0, by simpa [Book.issue] using hl⟩
    · exact h.answered
    · exact hgen
    · simp only [Book.tickets, accepted_append, keys_append, List.map_append, List.map_cons,
        List.map_nil, keys_issue, ← List.append_assoc]
      exact hp.append_right _
  | @delay w ws left hw h0 hl =>
    rw [hw, List.forall_mem_cons] at hwaiting
    constructor
    · refine List.forall_mem_append.mpr ⟨hwaiting.2, List.forall_mem_singleton.mpr ⟨h0, ?_⟩⟩
      change w.ticket.tries + 1 + left ≤ limit w.ticket.command
      omega
    · exact h.answered
    · exact hgen
    · rw [hw, List.map_cons, keys_cons] at hp
      simp only [Book.tickets, keys_append, List.map_append, List.map_cons, List.map_nil,
        keys_tried]
      exact hp.trans (List.perm_append_comm.append_left _)
  | @close w ws hw =>
    rw [hw, List.forall_mem_cons] at hwaiting
    constructor
    · exact hwaiting.2
    · refine List.forall_mem_append.mpr ⟨h.answered, List.forall_mem_singleton.mpr ?_⟩
      change w.ticket.tries + 1 ≤ limit w.ticket.command
      omega
    · exact hgen
    · rw [hw, List.map_cons, keys_cons, ← List.append_assoc] at hp
      simpa only [Book.tickets, keys_append, keys_tried] using hp
  | @drop w ws hw hc =>
    rw [hw, List.forall_mem_cons] at hwaiting
    constructor
    · exact hwaiting.2
    · exact h.answered
    · exact hgen
    · rw [hw, List.map_cons, keys_cons, keys_not hc, List.nil_append] at hp
      simpa only [Book.tickets, keys_append] using hp

/-- The tickets that meet `f` are those of the accepted commands that meet it, when an answer is
owed to all of these. -/
theorem Balanced.keys_perm (h : Balanced owed limit b) (hf : ∀ c, f c = true → owed c = true) :
    (accepted f b.commands).Perm (keys f b.tickets) := by
  have hall : ∀ ks : List (κ × ℕ),
      (ks.filter fun k => owed k.1).filter (fun k => f k.1) = ks.filter fun k => f k.1 := by
    intro ks
    rw [List.filter_filter]
    apply List.filter_congr
    intro k _
    rw [Bool.and_eq_left_iff_imp]
    exact hf k.1
  have := h.balance.filter fun k => f k.1
  rwa [accepted, keys, hall, hall] at this

theorem length_accepted (f : κ → Bool) (cs : List κ) :
    (accepted f cs).length = (cs.filter f).length := by
  have : (cs.zipIdx.map Prod.fst).filter f = (accepted f cs).map Prod.fst := by
    rw [List.filter_map]
    rfl
  rw [List.zipIdx_map_fst] at this
  rw [this, List.length_map]

theorem length_keys (f : κ → Bool) (ts : List (Ticket κ)) :
    (keys f ts).length = (ts.filter fun t => f t.command).length := by
  rw [keys, List.filter_map, List.length_map]
  rfl

theorem Balanced.length_eq (h : Balanced owed limit b) (hf : ∀ c, f c = true → owed c = true) :
    (b.commands.filter f).length = (b.tickets.filter fun t => f t.command).length := by
  rw [← length_accepted, ← length_keys]
  exact (h.keys_perm hf).length_eq

theorem mem_accepted {cs : List κ} {c : κ} {n : ℕ} :
    (c, n) ∈ accepted f cs ↔ cs[n]? = some c ∧ f c = true := by
  simp [accepted, List.mem_zipIdx_iff_getElem?]

theorem nodup_serials (f : κ → Bool) (cs : List κ) : ((accepted f cs).map Prod.snd).Nodup := by
  apply List.Nodup.sublist (List.Sublist.map _ List.filter_sublist)
  rw [List.zipIdx_map_snd]
  exact List.nodup_range' ..

theorem count_serial_filter {n : ℕ} (hf : ∀ t ∈ ts, t.serial = n → f t.command = true) :
    ((ts.filter fun t => f t.command).map Ticket.serial).count n =
      (ts.map Ticket.serial).count n := by
  simp only [List.count, List.countP_map, List.countP_filter]
  apply List.countP_congr
  intro t ht
  simp only [Function.comp_apply, beq_iff_eq, Bool.and_eq_true]
  constructor
  · intro h
    exact h.1
  · intro h
    exact ⟨h, hf t ht h⟩

/-- Every accepted command that an answer is owed to has exactly one ticket. -/
theorem Balanced.exactly_one (h : Balanced owed limit b) {n : ℕ} {c : κ}
    (hn : b.commands[n]? = some c) (hc : owed c = true) :
    (b.tickets.map Ticket.serial).count n = 1 := by
  have hown : ∀ t ∈ b.tickets, t.serial = n → owed t.command = true := by
    intro t ht htn
    have := h.genuine t ht
    rw [htn, hn, Option.some.injEq] at this
    rwa [← this]
  have hserials : (b.tickets.filter fun t => owed t.command).map Ticket.serial =
      (keys owed b.tickets).map Prod.snd := by
    rw [keys, List.filter_map, List.map_map]
    rfl
  rw [← count_serial_filter hown, hserials, ← (h.balance.map Prod.snd).count_eq]
  apply List.count_eq_one_of_mem (nodup_serials owed b.commands)
  exact List.mem_map.mpr ⟨(c, n), mem_accepted.mpr ⟨hn, hc⟩, rfl⟩

end

end ReplyBook
