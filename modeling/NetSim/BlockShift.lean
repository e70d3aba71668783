import Mathlib.Algebra.NeZero
import Mathlib.Algebra.GroupWithZero.Nat
import Mathlib.Data.Nat.Init

/-! A buffer that is moved down in place by b places, up to its first zero at or behind place b.
The zero stays where it is, so later moves end at it too, and what lies behind it comes out again
and again. -/
namespace BlockShift

variable {α : Type*} [Zero α] {b : ℕ}

def NoneUpTo (b : ℕ) (f : ℕ → α) (i : ℕ) : Prop := ∀ j ≤ i, b ≤ j → f j ≠ 0

theorem exists_of_not_none {f : ℕ → α} {i : ℕ} (h : ¬ NoneUpTo b f i) :
    ∃ j ≤ i, b ≤ j ∧ f j = 0 := by
  simpa [NoneUpTo] using h

theorem NoneUpTo.mono {f : ℕ → α} {i j : ℕ} (h : NoneUpTo b f i) (hj : j ≤ i) : NoneUpTo b f j :=
  fun k hk => h k (Nat.le_trans hk hj)

theorem noneUpTo_of_lt (f : ℕ → α) {i : ℕ} (hi : i < b) : NoneUpTo b f i :=
  fun j hj hb => absurd hb (by omega)

theorem noneUpTo_congr {f g : ℕ → α} {i : ℕ} (h : ∀ j ≤ i, f j = g j) :
    NoneUpTo b f i ↔ NoneUpTo b g i := by
  constructor
  · intro hf j hj hb
    rw [← h j hj]
    exact hf j hj hb
  · intro hg j hj hb
    rw [h j hj]
    exact hg j hj hb

variable [DecidableEq α]

instance (b : ℕ) (f : ℕ → α) (i : ℕ) : Decidable (NoneUpTo b f i) :=
  inferInstanceAs (Decidable (∀ j ≤ i, b ≤ j → f j ≠ 0))

def shifted (b : ℕ) (f : ℕ → α) (i : ℕ) : α := if NoneUpTo b f i then f (i + b) else f i

theorem shifted_zero {f : ℕ → α} {j : ℕ} (hb : b ≤ j) (hj : f j = 0) : shifted b f j = 0 := by
  have hnot : ¬ NoneUpTo b f j := fun h => h j (Nat.le_refl j) hb hj
  rw [shifted, if_neg hnot, hj]

variable [NeZero b]

/-- What the moves bring to place p of all that was in the buffer: from b places behind the first
zero on, the bytes b places before. -/
def held (b : ℕ) [NeZero b] (f : ℕ → α) (p : ℕ) : α :=
  if NoneUpTo b f (p - b) then f p else held b f (p - b)
termination_by p
decreasing_by
  obtain ⟨j, hj, hb, -⟩ := exists_of_not_none ‹_›
  have := NeZero.ne b
  omega

theorem held_of_none {f : ℕ → α} {p : ℕ} (h : NoneUpTo b f (p - b)) : held b f p = f p := by
  rw [held, if_pos h]

theorem held_of_zero {f : ℕ → α} {p : ℕ} (h : ¬ NoneUpTo b f (p - b)) :
    held b f p = held b f (p - b) := by
  rw [held, if_neg h]

theorem held_of_lt (f : ℕ → α) {p : ℕ} (hp : p < 2 * b) : held b f p = f p :=
  held_of_none (noneUpTo_of_lt f (by have := NeZero.ne b; omega))

theorem held_shifted (f : ℕ → α) (p : ℕ) : held b (shifted b f) p = held b f (p + b) := by
  induction p using Nat.strong_induction_on with
  | h p ih =>
    have hne := NeZero.ne b
    by_cases hp : NoneUpTo b f p
    · -- nothing of the first p places has been held back
      have hnone : NoneUpTo b (shifted b f) (p - b) := by
        intro j hj hb
        rw [shifted, if_pos (hp.mono (by omega))]
        exact hp (j + b) (by omega) (by omega)
      rw [held_of_none hnone, held_of_none (by simpa using hp), shifted, if_pos hp]
    · rw [held_of_zero (p := p + b) (by simpa using hp), Nat.add_sub_cancel]
      have hstay : shifted b f p = f p := by rw [shifted, if_neg hp]
      by_cases hnext : NoneUpTo b (shifted b f) (p - b)
      · have hnone : NoneUpTo b f (p - b) := by
          intro j hj hb hzero
          exact hnext j hj hb (shifted_zero hb hzero)
        rw [held_of_none hnext, held_of_none hnone, hstay]
      · obtain ⟨j, hj, hb, -⟩ := exists_of_not_none hnext
        rw [held_of_zero hnext, ih (p - b) (by omega), Nat.sub_add_cancel (by omega)]

theorem held_congr {f g : ℕ → α} {p : ℕ} (h : ∀ j ≤ p, f j = g j) : held b f p = held b g p := by
  induction p using Nat.strong_induction_on with
  | h p ih =>
    have hiff := noneUpTo_congr (b := b) (i := p - b) fun j hj => h j (by omega)
    by_cases hp : NoneUpTo b f (p - b)
    · rw [held_of_none hp, held_of_none (hiff.mp hp), h p (Nat.le_refl p)]
    · obtain ⟨j, hj, hb, -⟩ := exists_of_not_none hp
      have hne := NeZero.ne b
      rw [held_of_zero hp, held_of_zero (mt hiff.mpr hp)]
      exact ih (p - b) (by omega) fun j hj => h j (by omega)

end BlockShift
