import Mathlib.Data.List.Forall2
import Mathlib.Algebra.Order.BigOperators.Group.List
import Mathlib.Algebra.Order.Group.Nat
import Mathlib.Algebra.GroupWithZero.Nat

/-! A stream that writes append to and reads cut from the front, at most n elements at a time,
and when the pieces that come out are the messages that went in. Nothing here is about
packets. -/
namespace ByteStream

variable {α : Type*}

inductive Op (α : Type*) where
  | write (m : List α)
  | read

def writes : List (Op α) → List (List α)
  | [] => []
  | .write m :: ops => m :: writes ops
  | .read :: ops => writes ops

def chunks (n : ℕ) : List α → List (Op α) → List (List α)
  | _, [] => []
  | s, .write m :: ops => chunks n (s ++ m) ops
  | s, .read :: ops => s.take n :: chunks n (s.drop n) ops

def rest (n : ℕ) : List α → List (Op α) → List α
  | s, [] => s
  | s, .write m :: ops => rest n (s ++ m) ops
  | s, .read :: ops => rest n (s.drop n) ops

def pieces (n : ℕ) (s : List α) (ops : List (Op α)) : List (List α) :=
  (chunks n s ops).filter (· ≠ [])

/-- The queue of messages the stream stands for: a read that finds a message waiting finds no
other one behind it, or finds one that fills the read. -/
def Aligned (n : ℕ) : List (List α) → List (Op α) → Prop
  | _, [] => True
  | q, .write m :: ops => Aligned n (q ++ [m]) ops
  | [], .read :: ops => Aligned n [] ops
  | m :: q, .read :: ops => (q = [] ∨ m.length = n) ∧ Aligned n q ops

theorem chunks_flatten (n : ℕ) (ops : List (Op α)) (s : List α) :
    (chunks n s ops).flatten ++ rest n s ops = s ++ (writes ops).flatten := by
  induction ops generalizing s with
  | nil => simp [chunks, rest, writes]
  | cons op ops ih =>
    cases op with
    | write m => simp [chunks, rest, writes, ih]
    | read =>
      rw [chunks, rest, writes, List.flatten_cons, List.append_assoc, ih, ← List.append_assoc,
        List.take_append_drop]

theorem pieces_read_nil (n : ℕ) (ops : List (Op α)) :
    pieces n [] (.read :: ops) = pieces n [] ops := by
  simp [pieces, chunks]

theorem pieces_read {n : ℕ} {s : List α} (hs : s.take n ≠ []) (ops : List (Op α)) :
    pieces n s (.read :: ops) = s.take n :: pieces n (s.drop n) ops := by
  simp [pieces, chunks, hs]

theorem pieces_flatten {n : ℕ} {s : List α} {ops : List (Op α)} (h : rest n s ops = []) :
    (pieces n s ops).flatten = s ++ (writes ops).flatten := by
  have hf := chunks_flatten n ops s
  rw [h, List.append_nil] at hf
  rw [← hf, pieces, List.flatten_filter_ne_nil]

theorem take_flatten_cons {n : ℕ} {m : List α} {q : List (List α)} (hm : m.length ≤ n)
    (h : q = [] ∨ m.length = n) :
    (m :: q).flatten.take n = m ∧ (m :: q).flatten.drop n = q.flatten := by
  rcases h with rfl | rfl
  · simp [hm]
  · simp

theorem eq_nil_of_flatten {q : List (List α)} (hq : ∀ m ∈ q, m ≠ []) (h : q.flatten = []) :
    q = [] := by
  cases q with
  | nil => rfl
  | cons m q =>
    rw [List.flatten_cons, List.append_eq_nil_iff] at h
    exact absurd h.1 (hq m (by simp))

theorem pieces_waiting {n : ℕ} (ops : List (Op α)) (q : List (List α))
    (hm : ∀ m ∈ q ++ writes ops, m ≠ [] ∧ m.length ≤ n) (ha : Aligned n q ops) :
    ∃ k, rest n q.flatten ops = k.flatten ∧ pieces n q.flatten ops ++ k = q ++ writes ops := by
  induction ops generalizing q with
  | nil => exact ⟨q, rfl, by simp [pieces, chunks, writes]⟩
  | cons op ops ih =>
    cases op with
    | write m =>
      have hq : (q ++ [m]).flatten = q.flatten ++ m := by simp
      have := ih (q ++ [m]) (by simpa [writes] using hm) ha
      rw [hq] at this
      simpa [writes, pieces, chunks, rest] using this
    | read =>
      cases q with
      | nil =>
        rw [List.flatten_nil, pieces_read_nil, rest, List.drop_nil]
        exact ih [] hm ha
      | cons m q =>
        obtain ⟨hne, hlen⟩ := hm m (by simp)
        obtain ⟨htake, hdrop⟩ := take_flatten_cons hlen ha.1
        rw [pieces_read (by rw [htake]; exact hne), htake, hdrop, rest, hdrop]
        obtain ⟨k, hrest, hpieces⟩ := ih q
          (fun x hx => hm x (by rw [List.cons_append]; exact List.mem_cons_of_mem _ hx)) ha.2
        refine ⟨k, hrest, ?_⟩
        rw [List.cons_append, hpieces]
        rfl

theorem pieces_eq_messages {n : ℕ} (ops : List (Op α)) (q : List (List α))
    (hm : ∀ m ∈ q ++ writes ops, m ≠ [] ∧ m.length ≤ n) (ha : Aligned n q ops)
    (hr : rest n q.flatten ops = []) : pieces n q.flatten ops = q ++ writes ops := by
  obtain ⟨k, hrest, hpieces⟩ := pieces_waiting ops q hm ha
  have hk : k = [] := by
    apply eq_nil_of_flatten _ (hrest.symm.trans hr)
    intro m hmem
    exact (hm m (by rw [← hpieces]; exact List.mem_append_right _ hmem)).1
  rwa [hk, List.append_nil] at hpieces

theorem eq_of_forall₂_le_of_sum_eq {l k : List ℕ} (h : List.Forall₂ (· ≤ ·) l k)
    (hs : l.sum = k.sum) : l = k := by
  induction h with
  | nil => rfl
  | cons hab hlk ih =>
    have hle := hlk.sum_le_sum
    rw [List.sum_cons, List.sum_cons] at hs
    obtain rfl := Nat.le_antisymm hab (by omega)
    rw [ih (by omega)]

/-- Pieces that are taken for the first messages leave only aligned schedules, when what is read
while other messages wait is never taken for the first of them, unless that fills the read. -/
theorem aligned_of_pieces {n : ℕ} {P : List α → Prop} {R : List α → List α → Prop}
    (hR : ∀ m q, P m → (∀ x ∈ q, P x) → R m ((m :: q).flatten.take n) → q = [] ∨ m.length = n)
    (hP : ∀ m, P m → m ≠ [] ∧ m.length ≤ n) (ops : List (Op α)) (q ms : List (List α))
    (hm : ∀ m ∈ q ++ writes ops, P m) (hms : ms <+: q ++ writes ops)
    (h : List.Forall₂ R ms (pieces n q.flatten ops)) : Aligned n q ops := by
  induction ops generalizing q ms with
  | nil => trivial
  | cons op ops ih =>
    cases op with
    | write m =>
      have hq : (q ++ [m]).flatten = q.flatten ++ m := by simp
      refine ih (q ++ [m]) ms (by simpa [writes] using hm) (by simpa [writes] using hms) ?_
      rw [hq]
      simpa [pieces, chunks] using h
    | read =>
      cases q with
      | nil =>
        rw [List.flatten_nil, pieces_read_nil] at h
        exact ih [] ms hm hms h
      | cons m q =>
        have hrest : ∀ x ∈ q ++ writes ops, P x := fun x hx =>
          hm x (by rw [List.cons_append]; exact List.mem_cons_of_mem _ hx)
        obtain ⟨hne, hlen⟩ := hP m (hm m (by simp))
        have htake : (m :: q).flatten.take n ≠ [] := by
          cases m with
          | nil => exact absurd rfl hne
          | cons a m =>
            rw [List.length_cons] at hlen
            obtain ⟨n, rfl⟩ : ∃ n', n = n' + 1 := ⟨n - 1, by omega⟩
            simp
        rw [pieces_read htake] at h
        cases ms with
        | nil => cases h
        | cons m' ms =>
          obtain ⟨hfirst, htail⟩ := List.forall₂_cons.mp h
          obtain ⟨rfl, hrms⟩ := List.cons_prefix_cons.mp hms
          have hlast := hR m' q (hm m' (by simp))
            (fun x hx => hrest x (List.mem_append_left _ hx)) hfirst
          refine ⟨hlast, ih q ms hrest hrms ?_⟩
          rwa [(take_flatten_cons hlen hlast).2] at htail

/-- Pieces of the lengths of the messages leave only aligned schedules. -/
theorem aligned_of_lengths {n : ℕ} (ops : List (Op α)) (q : List (List α))
    (hm : ∀ m ∈ q ++ writes ops, m ≠ [] ∧ m.length ≤ n)
    (hl : (pieces n q.flatten ops).map List.length = (q ++ writes ops).map List.length) :
    Aligned n q ops := by
  refine aligned_of_pieces (P := fun m => m ≠ [] ∧ m.length ≤ n)
    (R := fun m c => m.length = c.length) ?_ (fun m h => h) ops q _ hm List.prefix_rfl ?_
  · intro m q hm hq hlen
    rw [List.length_take, List.flatten_cons, List.length_append] at hlen
    by_cases hn : m.length = n
    · exact Or.inr hn
    · apply Or.inl
      apply eq_nil_of_flatten fun x hx => (hq x hx).1
      apply List.eq_nil_of_length_eq_zero
      omega
  · have hsame : List.Forall₂ (· = ·) ((q ++ writes ops).map List.length)
        ((pieces n q.flatten ops).map List.length) := by rw [hl, List.forall₂_eq_eq_eq]
    rwa [List.forall₂_map_left_iff, List.forall₂_map_right_iff] at hsame

theorem aligned_of_le {n : ℕ} {ops : List (Op α)} (hm : ∀ m ∈ writes ops, m ≠ [] ∧ m.length ≤ n)
    (hr : rest n [] ops = [])
    (h : List.Forall₂ (fun m c => m.length ≤ c.length) (writes ops) (pieces n [] ops)) :
    Aligned n [] ops := by
  refine aligned_of_lengths ops [] hm ?_
  have hle : List.Forall₂ (· ≤ ·) ((writes ops).map List.length)
      ((pieces n [] ops).map List.length) := by
    rwa [List.forall₂_map_left_iff, List.forall₂_map_right_iff]
  refine (eq_of_forall₂_le_of_sum_eq hle ?_).symm
  rw [← List.length_flatten, ← List.length_flatten, pieces_flatten hr, List.nil_append]

end ByteStream
