import NetSim.LinkedCells
import NetSim.EventRuns
import NetSim.NetworkTopology

/-! The job queues of host.c, server.c and switch2.c: jobs in memory that are linked by their
`next` fields. Adding to an empty queue leaves the field of the job as `malloc` returned it, so
removing that job may leave a stale pointer in `head`. -/
namespace JobQueues

open LinkedCells EventRuns NetworkTopology

/-- `next` is what the next fields of all the jobs in memory hold. -/
structure JobQueue (J : Type*) where
  next : J → Option J
  head : Option J
  tail : Option J
  occ : ℕ

variable {J : Type*} [DecidableEq J]

def addJob (q : JobQueue J) (j : J) : Option (JobQueue J) :=
  match q.head with
  | none => some { q with head := some j, tail := some j, occ := 1 }
  | some _ =>
    q.tail.map fun t =>
      { q with
        next := Function.update (Function.update q.next t (some j)) j none
        tail := some j
        occ := q.occ + 1 }

def removeJob (q : JobQueue J) : Option (Option J × JobQueue J) :=
  if q.occ = 0 then some (none, q)
  else q.head.map fun j => (some j, { q with head := q.next j, occ := q.occ - 1 })

def initJobs (q : JobQueue J) : JobQueue J := { q with occ := 0, head := none, tail := none }

def hJobQAdd (jQ : JobQueue J) (j : J) : Option (JobQueue J) := addJob jQ j
def hJobQRemove (jQ : JobQueue J) : Option (Option J × JobQueue J) := removeJob jQ
def hJobQInit (jQ : JobQueue J) : JobQueue J := initJobs jQ

def jobQAdd (jQ : JobQueue J) (j : J) : Option (JobQueue J) := addJob jQ j
def jobQRemove (jQ : JobQueue J) : Option (Option J × JobQueue J) := removeJob jQ
def jobQInit (jQ : JobQueue J) : JobQueue J := initJobs jQ

def sJobQAdd (jQ : JobQueue J) (j : J) : Option (JobQueue J) := addJob jQ j
def sJobQRemove (jQ : JobQueue J) : Option (Option J × JobQueue J) := removeJob jQ
def sJobQInit (jQ : JobQueue J) : JobQueue J := initJobs jQ

def qAdd : NetNodeType → JobQueue J → J → Option (JobQueue J)
  | .host => hJobQAdd
  | .server => jobQAdd
  | .switch => sJobQAdd

def qRemove : NetNodeType → JobQueue J → Option (Option J × JobQueue J)
  | .host => hJobQRemove
  | .server => jobQRemove
  | .switch => sJobQRemove

def qInit : NetNodeType → JobQueue J → JobQueue J
  | .host => hJobQInit
  | .server => jobQInit
  | .switch => sJobQInit

theorem qAdd_eq (node : NetNodeType) : (qAdd node : JobQueue J → J → _) = addJob := by
  cases node <;> rfl

omit [DecidableEq J] in
theorem qRemove_eq (node : NetNodeType) : (qRemove node : JobQueue J → _) = removeJob := by
  cases node <;> rfl

omit [DecidableEq J] in
theorem qInit_eq (node : NetNodeType) : (qInit node : JobQueue J → _) = initJobs := by
  cases node <;> rfl

/-- The jobs of l are linked from `head` on, and `tail` is the last of them. -/
structure Linked (q : JobQueue J) (l : List J) : Prop where
  nodup : l.Nodup
  occ : q.occ = l.length
  chain : ∃ r, Chain q.next q.head l r
  tail : l ≠ [] → q.tail = l.getLast?
  started : q.head ≠ none → q.tail ≠ none

/-- What `head` may hold when a job is added to an empty queue. -/
def Clean (q : JobQueue J) (l : List J) (j : J) : Prop :=
  l = [] → q.head = none ∨ q.head = some j

omit [DecidableEq J] in
theorem linked_init (q : JobQueue J) : Linked (initJobs q) [] where
  nodup := List.nodup_nil
  occ := rfl
  chain := ⟨none, .nil none⟩
  tail h := absurd rfl h
  started h := absurd rfl h

omit [DecidableEq J] in
theorem Linked.remove {q : JobQueue J} {l : List J} (h : Linked q l) :
    ∃ q', removeJob q = some (l.head?, q') ∧ Linked q' l.tail := by
  cases l with
  | nil =>
    have hocc : q.occ = 0 := h.occ
    exact ⟨q, by rw [removeJob, if_pos hocc]; rfl, h⟩
  | cons j l =>
    obtain ⟨r, hr⟩ := h.chain
    obtain ⟨hhead, hrest⟩ := chain_cons.mp hr
    have hocc : q.occ = l.length + 1 := h.occ
    refine ⟨{ q with head := q.next j, occ := q.occ - 1 }, ?_, ?_⟩
    · rw [removeJob, if_neg (by omega), hhead]
      rfl
    · constructor
      · exact (List.nodup_cons.mp h.nodup).2
      · simp only [List.tail_cons]
        omega
      · exact ⟨r, hrest⟩
      · intro hl
        have hlast := h.tail (List.cons_ne_nil j l)
        obtain ⟨b, m, hm⟩ := List.exists_cons_of_ne_nil hl
        simp only [List.tail_cons] at hm
        subst hm
        exact hlast.trans List.getLast?_cons_cons
      · intro _
        exact h.started (by rw [hhead]; simp)

/-- A job in `malloc`ed memory. -/
def withNext (q : JobQueue J) (j : J) (garbage : Option J) : JobQueue J :=
  { q with next := Function.update q.next j garbage }

theorem Linked.add {q : JobQueue J} {l : List J} (h : Linked q l) {j : J} (hj : j ∉ l)
    (hc : Clean q l j) (garbage : Option J) :
    ∃ q', addJob (withNext q j garbage) j = some q' ∧ Linked q' (l ++ [j]) := by
  have hnodup : (l ++ [j]).Nodup := by
    rw [List.nodup_append_comm]
    exact List.nodup_cons.mpr ⟨hj, h.nodup⟩
  obtain ⟨r, hr⟩ := h.chain
  have hr' : Chain (withNext q j garbage).next q.head l r := hr.frame hj garbage
  cases hhead : q.head with
  | none =>
    have hl : l = [] := by
      by_contra hne
      have := hr.head hne
      rw [hhead, eq_comm, List.head?_eq_none_iff] at this
      exact hne this
    subst hl
    refine ⟨_, by rw [addJob, withNext, hhead], hnodup, rfl, ?_, ?_, ?_⟩
    · exact ⟨garbage, chain_update q.next j garbage⟩
    · intro _
      rfl
    · simp
  | some x =>
    obtain ⟨t, ht⟩ := Option.ne_none_iff_exists'.mp (h.started (by rw [hhead]; simp))
    refine ⟨_, by rw [addJob, withNext, hhead, ht]; rfl, hnodup, ?_, ?_, ?_, ?_⟩
    · simp [h.occ]
    · refine ⟨none, ?_⟩
      rcases l.eq_nil_or_concat with rfl | ⟨m, a, rfl⟩
      · obtain hnull | hself := hc rfl
        · rw [hhead] at hnull
          cases hnull
        · rw [hhead] at hself
          cases hself
          exact chain_update _ _ none
      · rw [List.concat_eq_append] at *
        have hat : a = t := by
          have := h.tail (by simp)
          rw [ht] at this
          simpa using this.symm
        subst hat
        have ha : a ∉ m := by
          have := List.nodup_append_comm.mp h.nodup
          exact (List.nodup_cons.mp this).1
        have hlink := hr'.link ha hj none
        rw [hhead] at hlink
        exact hlink
    · intro _
      simp
    · simp

theorem add_stale {q : JobQueue J} (h : Linked q []) {j x : J} (hhead : q.head = some x)
    (garbage : Option J) :
    ∃ q', addJob (withNext q j garbage) j = some q' ∧
      ∀ p u, removeJob q' = some (p, u) → p = some x := by
  obtain ⟨t, ht⟩ := Option.ne_none_iff_exists'.mp (h.started (by rw [hhead]; simp))
  refine ⟨_, by rw [addJob, withNext, hhead, ht]; rfl, ?_⟩
  intro p u hu
  rw [removeJob, if_neg (by simp)] at hu
  cases hu
  rfl

/-- A queue with all the jobs that were added to it and all those that it returned. -/
structure Tracked (J : Type*) where
  queue : JobQueue J
  added : List J
  returned : List J

def Tracked.waiting (s : Tracked J) : List J := s.added.drop s.returned.length

def trackedInit (node : NetNodeType) (garbage : JobQueue J) : Tracked J :=
  ⟨qInit node garbage, [], []⟩

/-- A job is added with anything in its next field. -/
inductive QueueEvent (J : Type*) where
  | add (j : J) (garbage : Option J)
  | remove

def queueStep (node : NetNodeType) (s : Tracked J) : QueueEvent J → Option (Tracked J)
  | .add j garbage =>
    (qAdd node (withNext s.queue j garbage) j).map fun q =>
      { s with queue := q, added := s.added ++ [j] }
  | .remove =>
    (qRemove node s.queue).map fun r =>
      { s with queue := r.2, returned := s.returned ++ r.1.toList }

/-- A job that is added is not in the queue. -/
def Allowed (s : Tracked J) : QueueEvent J → Prop
  | .add j _ => j ∉ s.waiting
  | .remove => True

/-- A job that is added to an empty queue finds NULL in `head`, or the very pointer to it. -/
def StartsClean (s : Tracked J) : QueueEvent J → Prop
  | .add j _ => Clean s.queue s.waiting j
  | .remove => True

/-- One operation of a program that adds no job twice. -/
structure QueueStep (node : NetNodeType) (s : Tracked J) (e : QueueEvent J) (t : Tracked J) :
    Prop where
  allowed : Allowed s e
  step : queueStep node s e = some t

/-- The jobs came out in the order in which they went in, and so does the next one. -/
structure Fifo (node : NetNodeType) (s : Tracked J) : Prop where
  returned : s.returned ++ s.waiting = s.added
  once : s.waiting.Nodup
  occ : s.queue.occ = s.waiting.length
  oldest : ∃ q, qRemove node s.queue = some (s.waiting.head?, q)

structure Ordered (s : Tracked J) : Prop where
  returned : s.returned ++ s.waiting = s.added
  linked : Linked s.queue s.waiting

omit [DecidableEq J] in
theorem Ordered.fifo {s : Tracked J} (h : Ordered s) (node : NetNodeType) : Fifo node s := by
  constructor
  · exact h.returned
  · exact h.linked.nodup
  · exact h.linked.occ
  · obtain ⟨q, hq, -⟩ := h.linked.remove
    exact ⟨q, by rw [qRemove_eq, hq]⟩

omit [DecidableEq J] in
theorem ordered_init (node : NetNodeType) (garbage : JobQueue J) :
    Ordered (trackedInit node garbage) := by
  constructor
  · rfl
  · rw [trackedInit, qInit_eq]
    exact linked_init garbage

theorem ordered_add {node : NetNodeType} {s : Tracked J} (h : Ordered s) {j : J}
    (hj : j ∉ s.waiting) (hc : Clean s.queue s.waiting j) (garbage : Option J) :
    ∃ t, queueStep node s (.add j garbage) = some t ∧ Ordered t := by
  obtain ⟨q, hq, hl⟩ := h.linked.add hj hc garbage
  refine ⟨_, by rw [queueStep, qAdd_eq, hq]; rfl, ?_⟩
  have hwait : (s.added ++ [j]).drop s.returned.length = s.waiting ++ [j] := by
    rw [← h.returned, List.append_assoc, List.drop_left]
  constructor
  · change s.returned ++ (s.added ++ [j]).drop s.returned.length = s.added ++ [j]
    rw [hwait, ← List.append_assoc, h.returned]
  · change Linked q ((s.added ++ [j]).drop s.returned.length)
    rw [hwait]
    exact hl

theorem ordered_remove {node : NetNodeType} {s : Tracked J} (h : Ordered s) :
    ∃ t, queueStep node s .remove = some t ∧ Ordered t := by
  obtain ⟨q, hq, hl⟩ := h.linked.remove
  refine ⟨_, by rw [queueStep, qRemove_eq, hq]; rfl, ?_⟩
  have hwait : s.added.drop (s.returned ++ s.waiting.head?.toList).length = s.waiting.tail := by
    rw [← h.returned]
    cases s.waiting with
    | nil => simp
    | cons j l => simp [List.drop_append]
  constructor
  · change (s.returned ++ s.waiting.head?.toList) ++
      s.added.drop (s.returned ++ s.waiting.head?.toList).length = s.added
    rw [hwait, List.append_assoc, ← h.returned]
    congr 1
    cases s.waiting <;> rfl
  · change Linked q (s.added.drop (s.returned ++ s.waiting.head?.toList).length)
    rw [hwait]
    exact hl

theorem ordered_step (node : NetNodeType) {s : Tracked J} {e : QueueEvent J} (h : Ordered s)
    (ha : Allowed s e) (hc : StartsClean s e) : ∃ t, queueStep node s e = some t ∧ Ordered t := by
  cases e with
  | add j garbage => exact ordered_add h ha hc garbage
  | remove => exact ordered_remove h

theorem clean_of_fifo {node : NetNodeType} {s t : Tracked J} {e : QueueEvent J} (h : Ordered s)
    (hs : queueStep node s e = some t) (ht : Fifo node t) : StartsClean s e := by
  cases e with
  | remove => trivial
  | add j garbage =>
    intro hempty
    by_contra hstale
    rw [not_or] at hstale
    obtain ⟨x, hx⟩ := Option.ne_none_iff_exists'.mp hstale.1
    have hl := h.linked
    rw [hempty] at hl
    obtain ⟨q, hq, hout⟩ := add_stale hl (j := j) hx garbage
    rw [queueStep, qAdd_eq, hq] at hs
    cases hs
    have hwait : (s.added ++ [j]).drop s.returned.length = [j] := by
      rw [← h.returned, hempty, List.append_nil, List.drop_left]
    obtain ⟨u, hu⟩ := ht.oldest
    rw [qRemove_eq] at hu
    have hjx := hout _ u hu
    change ((s.added ++ [j]).drop s.returned.length).head? = some x at hjx
    rw [hwait] at hjx
    exact hstale.2 (hx.trans hjx.symm)

/-- While every job that is added to an empty queue finds NULL in `head`, or itself, the queue is
first in, first out; and an operation keeps it so exactly when it is none that finds another
pointer there. -/
theorem job_queue_fifo (node : NetNodeType) {garbage : JobQueue J} {s : Tracked J}
    {es : List (QueueEvent J)}
    (h : Run (fun s e t => QueueStep node s e t ∧ StartsClean s e)
      (trackedInit node garbage) es s) :
    Fifo node s ∧ ∀ e, Allowed s e →
      ((∃ t, queueStep node s e = some t ∧ Fifo node t) ↔ StartsClean s e) := by
  have hs : Ordered s := by
    refine h.invariant (I := Ordered) ?_ (ordered_init node garbage)
    rintro s e t ⟨hstep, hc⟩ hs
    obtain ⟨u, hu, ho⟩ := ordered_step node hs hstep.allowed hc
    rw [hstep.step] at hu
    cases hu
    exact ho
  refine ⟨hs.fifo node, ?_⟩
  intro e ha
  constructor
  · rintro ⟨t, ht, hf⟩
    exact clean_of_fifo hs ht hf
  · intro hc
    obtain ⟨t, ht, ho⟩ := ordered_step node hs ha hc
    exact ⟨t, ht, ho.fifo node⟩

def noJobs : JobQueue ℕ := ⟨fun _ => none, none, none, 0⟩

/-- Job 0 goes through the queue twice; the second time its next field is not NULL. -/
def addedAgain : List (QueueEvent ℕ) := [.add 0 none, .remove, .add 0 (some 7)]

theorem job_queue_fifo_again : ∃ s,
    Run (fun s e t => QueueStep .host s e t ∧ StartsClean s e) (trackedInit .host noJobs)
      addedAgain s ∧ s.returned = [0] ∧ s.waiting = [0] ∧ Fifo .host s ∧
      ∀ e, Allowed s e →
        ((∃ t, queueStep .host s e = some t ∧ Fifo .host t) ↔ StartsClean s e) := by
  have hrun : Run (fun s e t => QueueStep .host s e t ∧ StartsClean s e)
      (trackedInit .host noJobs) addedAgain _ :=
    .cons ⟨⟨List.not_mem_nil, rfl⟩, fun _ => Or.inl rfl⟩
      (.cons ⟨⟨trivial, rfl⟩, trivial⟩
        (.cons ⟨⟨List.not_mem_nil, rfl⟩, fun _ => Or.inl rfl⟩ (.nil _)))
  exact ⟨_, hrun, rfl, rfl, job_queue_fifo .host hrun⟩

/-- Job 0 is added with 5 in its next field and removed; then job 1 is added, and 5 is removed. -/
def stalePointer : List (QueueEvent ℕ) := [.add 0 (some 5), .remove, .add 1 none, .remove]

theorem stale_pointer_removed : ¬ ∀ (garbage : JobQueue ℕ) (es : List (QueueEvent ℕ))
    (s : Tracked ℕ), Run (QueueStep .host) (trackedInit .host garbage) es s → Fifo .host s := by
  intro hall
  have hrun : Run (QueueStep .host) (trackedInit .host noJobs) stalePointer _ :=
    .cons ⟨List.not_mem_nil, rfl⟩ (.cons ⟨trivial, rfl⟩
      (.cons ⟨List.not_mem_nil, rfl⟩ (.cons ⟨trivial, rfl⟩ (.nil _))))
  have hreturned := (hall noJobs _ _ hrun).returned
  exact absurd hreturned (by decide)

end JobQueues
