import NetSim.EventRuns
import Mathlib.Order.Filter.AtTopBot.Basic
import Mathlib.Order.OrderIsoNat

/-! Infinite runs of a labelled step relation. What a fair schedule brings about: a counter
reaches its limit again and again, and what waits in a queue comes to the front. -/
namespace InfiniteRuns

open Filter
open EventRuns (Run)

variable {σ τ α β : Type}

structure Execution (step : σ → α → σ → Prop) where
  state : ℕ → σ
  label : ℕ → α
  valid : ∀ t, step (state t) (label t) (state (t + 1))

theorem Execution.invariant {step : σ → α → σ → Prop} (e : Execution step) {P : σ → Prop}
    (hstep : ∀ s a u, step s a u → P s → P u) {t u : ℕ} (htu : t ≤ u) (h : P (e.state t)) :
    P (e.state u) := by
  induction u, htu using Nat.le_induction with
  | base => exact h
  | succ u _ ih => exact hstep _ _ _ (e.valid u) ih

theorem Execution.relates {step : σ → α → σ → Prop} (e : Execution step) {R : σ → σ → Prop}
    (hrefl : ∀ s, R s s) (htrans : ∀ s a u v, R s u → step u a v → R s v) {t u : ℕ}
    (htu : t ≤ u) : R (e.state t) (e.state u) :=
  e.invariant (P := R (e.state t)) (fun s a v hv hs => htrans _ a s v hs hv) htu (hrefl _)

def Execution.mono {step step' : σ → α → σ → Prop} (e : Execution step)
    (h : ∀ s a u, step s a u → step' s a u) : Execution step' where
  state := e.state
  label := e.label
  valid t := h _ _ _ (e.valid t)

theorem exists_first {P : ℕ → Prop} {t : ℕ} (h : ∃ u, t ≤ u ∧ P u) :
    ∃ u, t ≤ u ∧ P u ∧ ∀ v, t ≤ v → v < u → ¬ P v := by
  classical
  refine ⟨Nat.find h, (Nat.find_spec h).1, (Nat.find_spec h).2, ?_⟩
  intro v htv hvu hv
  exact Nat.find_min h hvu ⟨htv, hv⟩

/-- A part of a system takes a step, or waits while the rest of the system does. -/
inductive Stutters (step : σ → α → σ → Prop) (s : σ) : Option α → σ → Prop where
  | waits : Stutters step s none s
  | moves {a u} : step s a u → Stutters step s (some a) u

theorem Stutters.invariant {step : σ → α → σ → Prop} {P : σ → Prop}
    (hstep : ∀ s a u, step s a u → P s → P u) :
    ∀ s a u, Stutters step s a u → P s → P u := by
  intro s a u h hs
  cases h with
  | waits => exact hs
  | moves hm => exact hstep _ _ _ hm hs

theorem Stutters.guarded {step : σ → α → σ → Prop} {G : σ → α → Prop} {s u : σ} {o : Option α}
    (h : Stutters step s o u) (hG : ∀ a ∈ o, G s a) :
    Stutters (fun s a u => step s a u ∧ G s a) s o u := by
  cases h with
  | waits => exact .waits
  | @moves a _ hs => exact .moves ⟨hs, hG a rfl⟩

theorem Execution.waited {step : σ → α → σ → Prop} (e : Execution (Stutters step)) {t : ℕ}
    (ht : e.label t = none) : e.state (t + 1) = e.state t := by
  have h := e.valid t
  rw [ht] at h
  generalize e.state (t + 1) = u at h
  cases h
  rfl

theorem Execution.moved {step : σ → α → σ → Prop} (e : Execution (Stutters step)) {t : ℕ} {a : α}
    (ht : e.label t = some a) : step (e.state t) a (e.state (t + 1)) := by
  have h := e.valid t
  rw [ht] at h
  cases h with
  | moves hs => exact hs

/-- A run as one of a part that never waits. -/
def Execution.unpaused {step : σ → α → σ → Prop} (e : Execution step) :
    Execution (Stutters step) where
  state := e.state
  label t := some (e.label t)
  valid t := .moves (e.valid t)

section Parts

variable {step : σ → α → σ → Prop} {step' : τ → β → τ → Prop} (view : σ → τ) (event : α → Option β)
  (h : ∀ s a u, step s a u → Stutters step' (view s) (event a) (view u))
include h

def Execution.part (e : Execution step) : Execution (Stutters step') where
  state t := view (e.state t)
  label t := event (e.label t)
  valid t := h _ _ _ (e.valid t)

theorem run_part {s u : σ} {as : List α} (hrun : Run step s as u) :
    Run step' (view s) (as.filterMap event) (view u) := by
  induction hrun with
  | nil => exact .nil _
  | @cons s a v as u hs _ ih =>
    have hpart := h s a v hs
    rw [List.filterMap_cons]
    cases ha : event a with
    | none =>
      rw [ha] at hpart
      generalize view v = w at hpart ih
      cases hpart
      exact ih
    | some b =>
      rw [ha] at hpart
      cases hpart with
      | moves hmove => exact .cons hmove ih

end Parts

def Execution.driven {step : σ → α → σ → Prop} {I : σ → Prop} (label : σ → α) (next : σ → σ)
    (h : ∀ s, I s → step s (label s) (next s) ∧ I (next s)) {start : σ} (h0 : I start) :
    Execution step where
  state := fun t => next^[t] start
  label := fun t => label (next^[t] start)
  valid t := by
    have hI : ∀ t, I (next^[t] start) := by
      intro t
      induction t with
      | zero => exact h0
      | succ t ih =>
        rw [Function.iterate_succ_apply']
        exact (h _ ih).2
    rw [Function.iterate_succ_apply']
    exact (h _ (hI t)).1

section Ranks

theorem goal_of_rank (rank : ℕ → ℕ) (turn goal : ℕ → Prop) {a : ℕ}
    (hturns : ∀ t, a ≤ t → ∃ u, t ≤ u ∧ (turn u ∨ goal u))
    (hkeep : ∀ t, a ≤ t → ¬ turn t → rank (t + 1) = rank t)
    (hfall : ∀ t, a ≤ t → turn t → ¬ goal t → rank (t + 1) < rank t) : ∃ u, a ≤ u ∧ goal u := by
  have same : ∀ {t u}, a ≤ t → t ≤ u → (∀ v, t ≤ v → v < u → ¬ (turn v ∨ goal v)) →
      rank u = rank t := by
    intro t u hat htu
    induction u, htu using Nat.le_induction with
    | base => exact fun _ => rfl
    | succ u htu ih =>
      intro hno
      rw [hkeep u (hat.trans htu) fun hu => hno u htu (Nat.lt_succ_self u) (.inl hu)]
      exact ih fun v hv hlt => hno v hv (Nat.lt_succ_of_lt hlt)
  have reach : ∀ r t, a ≤ t → rank t = r → ∃ u, t ≤ u ∧ goal u := by
    intro r
    induction r using Nat.strong_induction_on with
    | _ r ih =>
      intro t hat hr
      obtain ⟨u, htu, hu, hno⟩ := exists_first (hturns t hat)
      by_cases hgoal : goal u
      · exact ⟨u, htu, hgoal⟩
      · have hlt := hfall u (hat.trans htu) (hu.resolve_right hgoal) hgoal
        rw [same hat htu hno, hr] at hlt
        obtain ⟨v, huv, hv⟩ := ih _ hlt (u + 1) (by omega) rfl
        exact ⟨v, by omega, hv⟩
  exact reach _ a le_rfl rfl

theorem tick_of_rank (rank : ℕ → ℕ) {turn tick : ℕ → Prop} (hturns : ∃ᶠ t in atTop, turn t) {a : ℕ}
    (hkeep : ∀ t, a ≤ t → ¬ turn t → rank (t + 1) = rank t)
    (hfall : ∀ t, a ≤ t → turn t → ¬ tick t → rank (t + 1) < rank t) :
    ∃ u, a ≤ u ∧ tick u := by
  refine goal_of_rank rank turn tick ?_ hkeep hfall
  intro t _
  obtain ⟨u, htu, hu⟩ := frequently_atTop.mp hturns t
  exact ⟨u, htu, .inl hu⟩

end Ranks

section Timers

/-- A counter that goes up by one at every tick that leaves it under its limit. -/
structure Timer (count : ℕ → ℕ) (tick : ℕ → Prop) (limit : ℕ) : Prop where
  keeps : ∀ t, ¬ tick t → count (t + 1) = count t
  counts : ∀ t, tick t → count t + 1 < limit → count (t + 1) = count t + 1

variable {count : ℕ → ℕ} {tick : ℕ → Prop} {limit : ℕ}

theorem Timer.waits (h : Timer count tick limit) {t u : ℕ} (htu : t ≤ u)
    (hno : ∀ v, t ≤ v → v < u → ¬ tick v) : count u = count t := by
  induction u, htu using Nat.le_induction with
  | base => rfl
  | succ u htu ih =>
    rw [h.keeps u (hno u htu (Nat.lt_succ_self u))]
    exact ih fun v hv hlt => hno v hv (Nat.lt_succ_of_lt hlt)

theorem Timer.fires (h : Timer count tick limit) (hticks : ∃ᶠ t in atTop, tick t) :
    ∃ᶠ t in atTop, tick t ∧ limit ≤ count t + 1 := by
  have reach : ∀ n t, limit ≤ count t + 1 + n → ∃ u, t ≤ u ∧ tick u ∧ limit ≤ count u + 1 := by
    intro n
    induction n with
    | zero =>
      intro t ht
      obtain ⟨u, htu, hu, hno⟩ := exists_first (frequently_atTop.mp hticks t)
      exact ⟨u, htu, hu, by rw [h.waits htu hno]; exact ht⟩
    | succ n ih =>
      intro t ht
      obtain ⟨u, htu, hu, hno⟩ := exists_first (frequently_atTop.mp hticks t)
      have hcount := h.waits htu hno
      by_cases hlim : count u + 1 < limit
      · obtain ⟨v, huv, hv⟩ := ih (u + 1) (by rw [h.counts u hu hlim]; omega)
        exact ⟨v, by omega, hv⟩
      · exact ⟨u, htu, hu, by omega⟩
  rw [frequently_atTop]
  exact fun t => reach limit t (by omega)

end Timers

section Queues

theorem initial_getElem? {xs ys : List β} (h : xs <+: ys) {i : ℕ} {x : β}
    (hx : xs[i]? = some x) : ys[i]? = some x := by
  obtain ⟨hlt, rfl⟩ := List.getElem?_eq_some_iff.mp hx
  exact List.prefix_iff_getElem?.mp h i hlt

/-- A queue that grows at its end, and whose head leaves at the times of `served`. -/
structure Queue (queue : ℕ → List β) (served : ℕ → Prop) : Prop where
  waits : ∀ t, ¬ served t → queue t <+: queue (t + 1)
  leaves : ∀ t, served t → (queue t).tail <+: queue (t + 1)

variable {queue : ℕ → List β} {served : ℕ → Prop}

theorem Queue.grows (h : Queue queue served) {t u : ℕ} (htu : t ≤ u)
    (hno : ∀ v, t ≤ v → v < u → ¬ served v) : queue t <+: queue u := by
  induction u, htu using Nat.le_induction with
  | base => exact List.prefix_rfl
  | succ u htu ih =>
    have hstep := h.waits u (hno u htu (Nat.lt_succ_self u))
    exact (ih fun v hv hlt => hno v hv (Nat.lt_succ_of_lt hlt)).trans hstep

/-- Whatever waits in a queue that is served again and again comes to the front. -/
theorem Queue.served_at_front (h : Queue queue served) (hs : ∃ᶠ t in atTop, served t) {i t : ℕ}
    {x : β} (hx : (queue t)[i]? = some x) :
    ∃ u, t ≤ u ∧ served u ∧ (queue u)[0]? = some x := by
  induction i generalizing t with
  | zero =>
    obtain ⟨u, htu, hu, hno⟩ := exists_first (frequently_atTop.mp hs t)
    exact ⟨u, htu, hu, initial_getElem? (h.grows htu hno) hx⟩
  | succ i ih =>
    obtain ⟨u, htu, hu, hno⟩ := exists_first (frequently_atTop.mp hs t)
    have hmid : (queue u).tail[i]? = some x := by
      rw [List.getElem?_tail]
      exact initial_getElem? (h.grows htu hno) hx
    obtain ⟨v, huv, hv⟩ := ih (initial_getElem? (h.leaves u hu) hmid)
    exact ⟨v, by omega, hv⟩

theorem Queue.mem_served (h : Queue queue served) (hs : ∃ᶠ t in atTop, served t) {t : ℕ} {x : β}
    (hx : x ∈ queue t) : ∃ u, t ≤ u ∧ served u ∧ (queue u)[0]? = some x := by
  obtain ⟨i, hi⟩ := List.mem_iff_getElem?.mp hx
  exact h.served_at_front hs hi

theorem Queue.retried (h : Queue queue served) (hs : ∃ᶠ t in atTop, served t) {good : β → Prop}
    (rank : β → ℕ) {done : ℕ → Prop}
    (hretry : ∀ t x, served t → (queue t)[0]? = some x → good x →
      done (t + 1) ∨ ∃ y ∈ queue (t + 1), good y ∧ rank y < rank x) {t : ℕ} {x : β}
    (hx : x ∈ queue t) (hg : good x) : ∃ u, t ≤ u ∧ done u := by
  have main : ∀ r x t, rank x = r → x ∈ queue t → good x → ∃ u, t ≤ u ∧ done u := by
    intro r
    induction r using Nat.strong_induction_on with
    | _ r ih =>
      intro x t hr hx hg
      obtain ⟨u, htu, hu, hfront⟩ := h.mem_served hs hx
      rcases hretry u x hu hfront hg with hdone | ⟨y, hy, hgood, hlt⟩
      · exact ⟨u + 1, by omega, hdone⟩
      · rw [hr] at hlt
        obtain ⟨v, huv, hv⟩ := ih _ hlt y (u + 1) rfl hy hgood
        exact ⟨v, by omega, hv⟩
  exact main _ x t rfl hx hg

end Queues

section Cycles

variable {step : σ → α → σ → Prop} {f : σ → α → σ} {l : List α}

theorem cycle_lt (hl : l ≠ []) (t : ℕ) : t % l.length < l.length :=
  Nat.mod_lt t (List.length_pos_iff.mpr hl)

def Execution.cycle (hl : l ≠ []) (start : σ) (h : ∀ s, ∀ a ∈ l, step s a (f s a)) :
    Execution step where
  state := fun t => (List.range t).foldl (fun s i => f s (l.get ⟨_, cycle_lt hl i⟩)) start
  label := fun t => l.get ⟨_, cycle_lt hl t⟩
  valid t := by
    rw [List.range_succ, List.foldl_append]
    exact h _ _ (List.get_mem _ _)

theorem Execution.cycle_often (hl : l ≠ []) (start : σ) (h : ∀ s, ∀ a ∈ l, step s a (f s a))
    {a : α} (ha : a ∈ l) : ∃ᶠ t in atTop, (Execution.cycle hl start h).label t = a := by
  obtain ⟨i, rfl⟩ := List.mem_iff_get.mp ha
  rw [frequently_atTop]
  intro t
  have hle : t ≤ l.length * t := Nat.le_mul_of_pos_left t (List.length_pos_iff.mpr hl)
  refine ⟨i + l.length * t, by omega, ?_⟩
  have hmod : (i + l.length * t) % l.length = i := by
    rw [Nat.add_mul_mod_self_left, Nat.mod_eq_of_lt i.isLt]
  simp only [Execution.cycle, hmod]

end Cycles

end InfiniteRuns
