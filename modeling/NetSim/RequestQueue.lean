import NetSim.InfiniteRuns

/-! A queue of jobs. A request that is executed goes to the back of the queue as its answer, and
an answer that is executed is given. Answers are given in the order of the requests, each of them
once, and all of them if jobs are executed again and again. -/
namespace RequestQueue

open Filter InfiniteRuns

variable {β κ : Type}

/-- The request that a job serves, or the request that it gives the answer to. -/
structure Kinds (β κ : Type) where
  asks : β → Option κ
  gives : β → Option κ
  apart : ∀ job k, gives job = some k → asks job = none

structure State (β κ : Type) where
  queue : List β
  answered : List κ

inductive Event (κ : Type) where
  | takes (requests : List κ)
  | executes

def Event.requests : Event κ → List κ
  | .takes ks => ks
  | .executes => []

section

variable (K : Kinds β κ)

def Kinds.Quiet (job : β) : Prop := K.asks job = none ∧ K.gives job = none

inductive Step : State β κ → Event κ → State β κ → Prop where
  | take (s) (jobs) : (∀ job ∈ jobs, K.gives job = none) →
      Step s (.takes (jobs.filterMap K.asks)) { s with queue := s.queue ++ jobs }
  | idle (s) : s.queue = [] → Step s .executes s
  | serve (s) {job rest k answer} : s.queue = job :: rest → K.asks job = some k →
      K.gives answer = some k → Step s .executes { s with queue := rest ++ [answer] }
  | give (s) {job rest k} : s.queue = job :: rest → K.gives job = some k →
      Step s .executes ⟨rest, s.answered ++ [k]⟩
  | other (s) {job rest} (jobs) : s.queue = job :: rest → K.Quiet job →
      (∀ j ∈ jobs, K.Quiet j) → Step s .executes { s with queue := rest ++ jobs }

/-- The requests that are answered, then those whose answers are queued, then the others. -/
def requests (s : State β κ) : List κ :=
  s.answered ++ s.queue.filterMap K.gives ++ s.queue.filterMap K.asks

end

variable {K : Kinds β κ} {s u : State β κ} {e : Event κ}

theorem gives_none_of_asks {job : β} {k : κ} (h : K.asks job = some k) :
    K.gives job = none := by
  cases hg : K.gives job with
  | none => rfl
  | some k' =>
    rw [K.apart job k' hg] at h
    cases h

theorem Kinds.Quiet.gives_nil {jobs : List β} (h : ∀ job ∈ jobs, K.Quiet job) :
    jobs.filterMap K.gives = [] :=
  List.filterMap_eq_nil_iff.mpr fun job hjob => (h job hjob).2

theorem Kinds.Quiet.asks_nil {jobs : List β} (h : ∀ job ∈ jobs, K.Quiet job) :
    jobs.filterMap K.asks = [] :=
  List.filterMap_eq_nil_iff.mpr fun job hjob => (h job hjob).1

theorem step_requests (h : Step K s e u) : requests K u = requests K s ++ e.requests := by
  cases h with
  | @take jobs hgives =>
    have hnone := List.filterMap_eq_nil_iff.mpr hgives
    simp only [requests, Event.requests, List.filterMap_append, hnone, List.append_nil,
      List.append_assoc]
  | idle => simp [Event.requests]
  | @serve job rest k answer hq hasks hgives =>
    have hjob := gives_none_of_asks hasks
    have hanswer := K.apart answer k hgives
    simp [requests, Event.requests, hq, hasks, hgives, hjob, hanswer]
  | @give job rest k hq hgives =>
    have hjob := K.apart job k hgives
    simp [requests, Event.requests, hq, hgives, hjob]
  | @other job rest jobs hq hjob hjobs =>
    have hgives := Kinds.Quiet.gives_nil hjobs
    have hasks := Kinds.Quiet.asks_nil hjobs
    simp [requests, Event.requests, hq, hjob.1, hjob.2, hgives, hasks]

theorem step_answered (h : Step K s e u) : s.answered <+: u.answered := by
  cases h with
  | give => exact List.prefix_append _ _
  | take | idle | serve | other => exact List.prefix_rfl

section

variable (e : Execution (Step K))

/-- The requests that were taken before time t. -/
def taken (t : ℕ) : List κ := (List.range t).flatMap fun i => (e.label i).requests

theorem requests_taken (h0 : requests K (e.state 0) = []) (t : ℕ) :
    requests K (e.state t) = taken e t := by
  induction t with
  | zero => exact h0
  | succ t ih =>
    rw [step_requests (e.valid t), ih, taken, taken, List.range_succ, List.flatMap_append]
    simp

theorem taken_grows {t u : ℕ} (htu : t ≤ u) : taken e t <+: taken e u := by
  induction u, htu using Nat.le_induction with
  | base => exact List.prefix_rfl
  | succ u _ ih =>
    apply ih.trans
    rw [taken, taken, List.range_succ, List.flatMap_append]
    exact List.prefix_append _ _

theorem answered_grows {t u : ℕ} (htu : t ≤ u) : (e.state t).answered <+: (e.state u).answered :=
  e.relates (R := fun s v => s.answered <+: v.answered) (fun _ => List.prefix_rfl)
    (fun _ _ _ _ h hs => h.trans (step_answered hs)) htu

/-- The answers given so far are those to the first requests, in their order. -/
theorem answered_in_order (h0 : requests K (e.state 0) = []) (t : ℕ) :
    (e.state t).answered <+: taken e t := by
  rw [← requests_taken e h0 t, requests, List.append_assoc]
  exact List.prefix_append _ _

theorem job_queue : Queue (fun t => (e.state t).queue) (fun t => e.label t = .executes) where
  waits t ht := by
    have hs := e.valid t
    generalize e.label t = x at hs ht
    generalize e.state (t + 1) = next at hs ⊢
    cases hs with
    | take => exact List.prefix_append _ _
    | idle | serve | give | other => exact absurd rfl ht
  leaves t ht := by
    have hs := e.valid t
    rw [ht] at hs
    generalize e.state (t + 1) = next at hs ⊢
    cases hs with
    | idle hq =>
      rw [hq]
      exact List.nil_prefix
    | serve hq =>
      rw [hq]
      exact List.prefix_append _ _
    | give hq =>
      rw [hq]
      exact List.prefix_rfl
    | other _ hq =>
      rw [hq]
      exact List.prefix_append _ _

theorem given (hexec : ∃ᶠ t in atTop, e.label t = .executes) {t : ℕ} {job : β} {k : κ}
    (hjob : job ∈ (e.state t).queue) (hk : K.gives job = some k) :
    ∃ u, t ≤ u ∧ (e.state t).answered.length < (e.state u).answered.length := by
  obtain ⟨u, htu, hu, hfront⟩ := (job_queue e).mem_served hexec hjob
  refine ⟨u + 1, by omega, ?_⟩
  have hgrown := (answered_grows e htu).length_le
  have hs := e.valid u
  rw [hu] at hs
  generalize e.state (u + 1) = next at hs ⊢
  have hasks := K.apart job k hk
  cases hs with
  | idle hq =>
    rw [hq] at hfront
    cases hfront
  | serve hq hk' =>
    rw [hq] at hfront
    cases hfront
    rw [hasks] at hk'
    cases hk'
  | give =>
    rw [List.length_append]
    exact Nat.lt_succ_of_le hgrown
  | other _ hq hquiet =>
    rw [hq] at hfront
    cases hfront
    rw [hquiet.2] at hk
    cases hk

theorem served (hexec : ∃ᶠ t in atTop, e.label t = .executes) {t : ℕ} {job : β} {k : κ}
    (hjob : job ∈ (e.state t).queue) (hk : K.asks job = some k) :
    ∃ u, t ≤ u ∧ (e.state t).answered.length < (e.state u).answered.length := by
  obtain ⟨u, htu, hu, hfront⟩ := (job_queue e).mem_served hexec hjob
  have hanswer : ∃ answer ∈ (e.state (u + 1)).queue, K.gives answer = some k := by
    have hs := e.valid u
    rw [hu] at hs
    generalize e.state (u + 1) = next at hs ⊢
    cases hs with
    | idle hq =>
      rw [hq] at hfront
      cases hfront
    | @serve _ rest _ answer hq hk' hgives =>
      rw [hq] at hfront
      cases hfront
      rw [hk] at hk'
      cases hk'
      exact ⟨answer, List.mem_append_right _ (List.mem_singleton.mpr rfl), hgives⟩
    | give hq hgives =>
      rw [hq] at hfront
      cases hfront
      rw [K.apart _ _ hgives] at hk
      cases hk
    | other _ hq hquiet =>
      rw [hq] at hfront
      cases hfront
      rw [hquiet.1] at hk
      cases hk
  obtain ⟨answer, hmem, hgives⟩ := hanswer
  obtain ⟨v, huv, hlt⟩ := given e hexec hmem hgives
  have hnext : t ≤ u + 1 := by omega
  have hgrown := (answered_grows e hnext).length_le
  exact ⟨v, by omega, by omega⟩

theorem one_more (hexec : ∃ᶠ t in atTop, e.label t = .executes) {t : ℕ}
    (hlt : (e.state t).answered.length < (requests K (e.state t)).length) :
    ∃ u, t ≤ u ∧ (e.state t).answered.length < (e.state u).answered.length := by
  have hjob : ∃ job ∈ (e.state t).queue, ∃ k, K.gives job = some k ∨ K.asks job = some k := by
    by_contra hno
    push Not at hno
    have hquiet : ∀ job ∈ (e.state t).queue, K.Quiet job := fun job hjob =>
      ⟨Option.eq_none_iff_forall_ne_some.mpr fun k => (hno job hjob k).2,
        Option.eq_none_iff_forall_ne_some.mpr fun k => (hno job hjob k).1⟩
    rw [requests, Kinds.Quiet.gives_nil hquiet, Kinds.Quiet.asks_nil hquiet, List.append_nil,
      List.append_nil] at hlt
    exact lt_irrefl _ hlt
  obtain ⟨job, hmem, k, hgives | hasks⟩ := hjob
  · exact given e hexec hmem hgives
  · exact served e hexec hmem hasks

theorem answered_eventually (hexec : ∃ᶠ t in atTop, e.label t = .executes)
    (h0 : requests K (e.state 0) = []) (t : ℕ) :
    ∃ u, t ≤ u ∧ taken e t <+: (e.state u).answered := by
  have hcount : ∀ n, n ≤ (taken e t).length → ∃ u, t ≤ u ∧ n ≤ (e.state u).answered.length := by
    intro n
    induction n with
    | zero => exact fun _ => ⟨t, le_rfl, Nat.zero_le _⟩
    | succ n ih =>
      intro hn
      obtain ⟨u, htu, hle⟩ := ih (by omega)
      by_cases hmore : n + 1 ≤ (e.state u).answered.length
      · exact ⟨u, htu, hmore⟩
      · have hall := (taken_grows e htu).length_le
        have hleft : (e.state u).answered.length < (requests K (e.state u)).length := by
          rw [requests_taken e h0]
          omega
        obtain ⟨v, huv, hlt⟩ := one_more e hexec hleft
        exact ⟨v, htu.trans huv, by omega⟩
  obtain ⟨u, htu, hle⟩ := hcount _ le_rfl
  exact ⟨u, htu, List.prefix_of_prefix_length_le (taken_grows e htu) (answered_in_order e h0 u) hle⟩

end

end RequestQueue
