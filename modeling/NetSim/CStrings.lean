import Mathlib.Data.List.TakeWhile
import Mathlib.Data.List.Infix

/-! NUL terminated strings in a buffer, over any alphabet whose zero is the terminator. -/
namespace CStrings

variable {α : Type*} [Zero α] [DecidableEq α]

/-- What a string function sees of a buffer: everything before the first terminator. -/
def text (buf : List α) : List α := buf.takeWhile (· ≠ 0)

/-- `strncmp(a, b, n) == 0`. Nothing is known once a buffer ends without a terminator. -/
def strncmpZero : List α → List α → ℕ → Bool
  | _, _, 0 => true
  | a :: as, b :: bs, n + 1 => a = b && (a = 0 || strncmpZero as bs n)
  | _, _, _ + 1 => false

@[simp] theorem text_cons_zero (buf : List α) : text (0 :: buf) = [] := by simp [text]

theorem text_cons {a : α} (h : a ≠ 0) (buf : List α) : text (a :: buf) = a :: text buf := by
  simp [text, h]

@[simp] theorem zero_not_mem_text (buf : List α) : (0 : α) ∉ text buf := by
  intro h
  have := List.mem_takeWhile_imp h
  simp at this

theorem text_initial (buf : List α) : text buf <+: buf := List.takeWhile_prefix _

theorem text_append {l : List α} (h : (0 : α) ∉ l) (rest : List α) :
    text (l ++ rest) = l ++ text rest := by
  induction l with
  | nil => rfl
  | cons a l ih =>
    simp only [List.mem_cons, not_or] at h
    rw [List.cons_append, text_cons (Ne.symm h.1), ih h.2, List.cons_append]

theorem text_of_not_mem {l : List α} (h : (0 : α) ∉ l) : text l = l := by
  have happend := text_append h []
  rwa [List.append_nil, show text ([] : List α) = [] from rfl, List.append_nil] at happend

/-- A text starts with characters that are no terminators exactly when its buffer does. -/
theorem prefix_text_iff {l : List α} (h : (0 : α) ∉ l) {buf : List α} :
    l <+: text buf ↔ l <+: buf := by
  constructor
  · intro hl
    exact hl.trans (text_initial buf)
  · rintro ⟨rest, rfl⟩
    rw [text_append h]
    exact List.prefix_append l _

/-- The text is short exactly when its terminator comes early. -/
theorem text_length_le_iff (buf : List α) {n : ℕ} (hn : n < buf.length) :
    (text buf).length ≤ n ↔ (0 : α) ∈ buf.take (n + 1) := by
  induction buf generalizing n with
  | nil => simp at hn
  | cons a buf ih =>
    by_cases ha : a = 0
    · subst ha
      simp
    · rw [text_cons ha, List.take_succ_cons, List.length_cons, List.mem_cons]
      cases n with
      | zero => simp [Ne.symm ha]
      | succ n =>
        have hrest := ih (n := n) (by simpa using hn)
        simp [Ne.symm ha, hrest]

/-- Comparing at most `n` characters with a terminated name compares that many characters of
the texts. -/
theorem strncmpZero_iff {name : List α} (h0 : (0 : α) ∉ name) {buf : List α}
    (hl : name.length < buf.length) (n : ℕ) :
    strncmpZero buf (name ++ [0]) n = true ↔ (text buf).take n = name.take n := by
  induction name generalizing buf n with
  | nil =>
    rcases buf with _ | ⟨a, buf⟩
    · simp at hl
    rcases n with _ | n
    · simp [strncmpZero]
    by_cases ha : a = 0
    · simp [strncmpZero, ha]
    · simp [strncmpZero, text_cons ha, ha]
  | cons b name ih =>
    rcases buf with _ | ⟨a, buf⟩
    · simp at hl
    rcases n with _ | n
    · simp [strncmpZero]
    simp only [List.mem_cons, not_or] at h0
    have hb : b ≠ 0 := Ne.symm h0.1
    have hlen : name.length < buf.length := by simpa using hl
    have hrest := ih h0.2 hlen n
    by_cases hab : a = b
    · subst hab
      simp [strncmpZero, text_cons hb, hb, hrest]
    · by_cases ha : a = 0
      · simp [strncmpZero, ha, Ne.symm hb]
      · simp [strncmpZero, text_cons ha, hab]

end CStrings
