import Mathlib.Data.List.Basic

/-! Queries that share one slot for their answers. The waiting queries take turns; the slot says
nothing about the query that its answer is for. -/
namespace AnswerSlot

variable {κ α : Type*}

/-- The queries that wait, the next one to look at the slot first, and what the slot holds. -/
structure Slot (κ α : Type*) where
  waiting : List κ
  answer : Option α

/-- The steps in which an answer comes while the query it belongs to is the next one, and is left
behind only when no other query waits. -/
inductive Step (Own : κ → α → Prop) : Slot κ α → Slot κ α → Prop where
  | stay (s) : Step Own s s
  | ask (s q) : Step Own s ⟨s.waiting ++ [q], none⟩
  | arrive (s) {a} : (∀ q ∈ s.waiting.head?, Own q a) → Step Own s ⟨s.waiting, some a⟩
  | again {q qs} : Step Own ⟨q :: qs, none⟩ ⟨qs ++ [q], none⟩
  | expire {q qs} : Step Own ⟨q :: qs, none⟩ ⟨qs, none⟩
  | use {q qs a} : Step Own ⟨q :: qs, some a⟩ ⟨qs, none⟩
  | leave {q a b} : Step Own ⟨[q], some a⟩ ⟨[], some b⟩

def Matched (Own : κ → α → Prop) (s : Slot κ α) : Prop :=
  ∀ a, s.answer = some a → ∀ q ∈ s.waiting.head?, Own q a

variable {Own Own' : κ → α → Prop} {s t : Slot κ α}

theorem matched_empty {waiting : List κ} : Matched Own ⟨waiting, none⟩ := by
  intro a h
  cases h

theorem Matched.mono (hle : ∀ q a, Own q a → Own' q a) (h : Matched Own s) : Matched Own' s :=
  fun a ha q hq => hle q a (h a ha q hq)

theorem matched_step (hs : Step Own s t) (h : Matched Own s) : Matched Own t := by
  cases hs with
  | stay => exact h
  | ask => exact matched_empty
  | arrive _ hown =>
    intro a ha q hq
    cases ha
    exact hown q hq
  | again => exact matched_empty
  | expire => exact matched_empty
  | use => exact matched_empty
  | leave =>
    intro a _ q hq
    simp at hq

end AnswerSlot
