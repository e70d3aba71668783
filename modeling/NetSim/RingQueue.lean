import Mathlib.Data.Nat.ModEq
import Mathlib.Logic.Function.Basic

/-! A queue of capacity c in an array of c + 1 slots that is used round and round. `tail` is the
slot written last. Nothing here is about files. -/
namespace RingQueue

structure RingBuf (α : Type*) where
  buffer : ℕ → α
  head : ℕ
  tail : ℕ
  occ : ℕ

variable {α : Type*} {c : ℕ} {r : RingBuf α}

def RingBuf.push (c : ℕ) (r : RingBuf α) (a : α) : RingBuf α where
  buffer := Function.update r.buffer ((r.tail + 1) % (c + 1)) a
  head := r.head
  tail := (r.tail + 1) % (c + 1)
  occ := r.occ + 1

def RingBuf.pop (c : ℕ) (r : RingBuf α) : RingBuf α :=
  { r with head := (r.head + 1) % (c + 1), occ := r.occ - 1 }

/-- Push until the list is used up or the queue is full; also how many were pushed. -/
def RingBuf.add (c : ℕ) (r : RingBuf α) : List α → RingBuf α × ℕ
  | [] => (r, 0)
  | a :: l =>
    if r.occ < c then
      let s := (r.push c a).add c l
      (s.1, s.2 + 1)
    else (r, 0)

/-- Pop n times or until the queue is empty; also what was popped. -/
def RingBuf.remove (c : ℕ) (r : RingBuf α) : ℕ → RingBuf α × List α
  | 0 => (r, [])
  | n + 1 =>
    if 0 < r.occ then
      let s := (r.pop c).remove c n
      (s.1, r.buffer r.head :: s.2)
    else (r, [])

def RingBuf.contents (c : ℕ) (r : RingBuf α) : List α :=
  (List.range r.occ).map fun i => r.buffer ((r.head + i) % (c + 1))

structure RingBuf.Valid (c : ℕ) (r : RingBuf α) : Prop where
  head_le : r.head ≤ c
  tail_le : r.tail ≤ c
  occ_le : r.occ ≤ c
  aligned : r.tail + 1 ≡ r.head + r.occ [MOD c + 1]

def RingBuf.Refines (c : ℕ) (r : RingBuf α) (q : List α) : Prop := r.Valid c ∧ r.contents c = q

theorem RingBuf.Refines.occ {q : List α} (h : r.Refines c q) : r.occ = q.length := by
  rw [← h.2, RingBuf.contents, List.length_map, List.length_range]

theorem slot_ne {h i n : ℕ} (hi : i < n) (hn : n ≤ c) : (h + i) % (c + 1) ≠ (h + n) % (c + 1) := by
  intro he
  have hmod : h + i ≡ h + n [MOD c + 1] := he
  have := (Nat.ModEq.add_left_cancel' h hmod).eq_of_lt_of_lt (by omega) (by omega)
  omega

theorem push_refines {q : List α} (h : r.Refines c q) (hc : r.occ < c) (a : α) :
    (r.push c a).Refines c (q ++ [a]) := by
  obtain ⟨hv, rfl⟩ := h
  have hslot : (r.tail + 1) % (c + 1) = (r.head + r.occ) % (c + 1) := hv.aligned
  refine ⟨⟨hv.head_le, ?_, hc, ?_⟩, ?_⟩
  · exact Nat.lt_succ_iff.mp (Nat.mod_lt _ (Nat.succ_pos c))
  · have hstep : (r.tail + 1) % (c + 1) + 1 ≡ r.tail + 1 + 1 [MOD c + 1] :=
      (Nat.mod_modEq _ _).add_right 1
    exact hstep.trans (hv.aligned.add_right 1)
  · rw [RingBuf.contents, RingBuf.push, List.range_succ, List.map_append, List.map_singleton, hslot]
    congr 1
    · apply List.map_congr_left
      intro i hi
      exact Function.update_of_ne (slot_ne (List.mem_range.mp hi) hv.occ_le) _ _
    · exact congrArg (fun x => [x]) (Function.update_self _ _ _)

theorem contents_pop (h : r.Valid c) (hc : 0 < r.occ) :
    r.contents c = r.buffer r.head :: (r.pop c).contents c := by
  obtain ⟨n, hn⟩ : ∃ n, r.occ = n + 1 := ⟨r.occ - 1, by omega⟩
  rw [RingBuf.contents, RingBuf.contents, RingBuf.pop, hn, List.range_succ_eq_map, List.map_cons,
    List.map_map, Nat.add_zero, Nat.mod_eq_of_lt (Nat.lt_succ_of_le h.head_le)]
  congr 1
  apply List.map_congr_left
  intro i _
  change r.buffer ((r.head + (i + 1)) % (c + 1)) = r.buffer (((r.head + 1) % (c + 1) + i) % (c + 1))
  rw [Nat.mod_add_mod, Nat.add_assoc, Nat.add_comm 1 i]

theorem pop_valid (h : r.Valid c) (hc : 0 < r.occ) : (r.pop c).Valid c where
  head_le := Nat.lt_succ_iff.mp (Nat.mod_lt _ (Nat.succ_pos c))
  tail_le := h.tail_le
  occ_le := (Nat.sub_le _ _).trans h.occ_le
  aligned := by
    have hstep : (r.head + 1) % (c + 1) + (r.occ - 1) ≡ r.head + 1 + (r.occ - 1) [MOD c + 1] :=
      (Nat.mod_modEq _ _).add_right _
    have hsum : r.head + 1 + (r.occ - 1) = r.head + r.occ := by omega
    exact h.aligned.trans (hsum ▸ hstep.symm)

theorem add_refines (l : List α) {q : List α} (h : r.Refines c q) :
    (r.add c l).1.Refines c (q ++ l.take (c - q.length)) ∧
      (r.add c l).2 = min l.length (c - q.length) := by
  induction l generalizing r q with
  | nil => simpa [RingBuf.add] using h
  | cons a l ih =>
    have hocc := h.occ
    by_cases hc : r.occ < c
    · obtain ⟨n, hn⟩ : ∃ n, c - q.length = n + 1 := ⟨c - q.length - 1, by omega⟩
      have hlen : c - (q ++ [a]).length = n := by
        rw [List.length_append, List.length_singleton]
        omega
      obtain ⟨h1, h2⟩ := ih (push_refines h hc a)
      rw [hlen] at h1 h2
      rw [RingBuf.add, if_pos hc, hn, List.take_succ_cons, List.length_cons]
      rw [List.append_assoc, List.singleton_append] at h1
      refine ⟨h1, ?_⟩
      change ((r.push c a).add c l).2 + 1 = _
      omega
    · have hz : c - q.length = 0 := by omega
      rw [RingBuf.add, if_neg hc, hz]
      exact ⟨by simpa using h, by simp⟩

theorem remove_refines (n : ℕ) {q : List α} (h : r.Refines c q) :
    (r.remove c n).1.Refines c (q.drop n) ∧ (r.remove c n).2 = q.take n := by
  induction n generalizing r q with
  | zero => exact ⟨h, rfl⟩
  | succ n ih =>
    have hocc := h.occ
    by_cases hc : 0 < r.occ
    · obtain ⟨hv, rfl⟩ := h
      rw [RingBuf.remove, if_pos hc, contents_pop hv hc]
      obtain ⟨h1, h2⟩ := ih ⟨pop_valid hv hc, rfl⟩
      exact ⟨h1, congrArg (r.buffer r.head :: ·) h2⟩
    · have hq : q = [] := List.eq_nil_of_length_eq_zero (by omega)
      subst q
      rw [RingBuf.remove, if_neg hc]
      exact ⟨h, rfl⟩

theorem remove_occ (n : ℕ) (r : RingBuf α) : (r.remove c n).1.occ = r.occ - n := by
  induction n generalizing r with
  | zero => rfl
  | succ n ih =>
    by_cases hc : 0 < r.occ
    · rw [RingBuf.remove, if_pos hc]
      change ((r.pop c).remove c n).1.occ = _
      rw [ih]
      change r.occ - 1 - n = _
      omega
    · rw [RingBuf.remove, if_neg hc]
      change r.occ = _
      omega

end RingQueue
