import Mathlib.Data.List.Nodup
import Mathlib.Logic.Function.Basic

/-! Cells of memory that are linked by their `next` fields. A pointer is `none` when it is NULL. -/
namespace LinkedCells

variable {J : Type*}

/-- From the pointer p the next fields lead through the cells of l, in order, to the pointer r. -/
inductive Chain (next : J → Option J) : Option J → List J → Option J → Prop where
  | nil (p) : Chain next p [] p
  | cons {j l r} : Chain next (next j) l r → Chain next (some j) (j :: l) r

variable {next : J → Option J} {p q r : Option J} {l m : List J}

theorem chain_nil : Chain next p [] r ↔ p = r := by
  constructor
  · intro h
    cases h
    rfl
  · rintro rfl
    exact .nil p

theorem chain_cons {j : J} : Chain next p (j :: l) r ↔ p = some j ∧ Chain next (next j) l r := by
  constructor
  · intro h
    cases h with
    | cons h => exact ⟨rfl, h⟩
  · rintro ⟨rfl, h⟩
    exact .cons h

theorem Chain.append (h : Chain next p l q) (k : Chain next q m r) : Chain next p (l ++ m) r := by
  induction h with
  | nil => exact k
  | cons _ ih => exact .cons (ih k)

theorem Chain.split (h : Chain next p (l ++ m) r) : ∃ q, Chain next p l q ∧ Chain next q m r := by
  induction l generalizing p with
  | nil => exact ⟨p, .nil p, h⟩
  | cons j l ih =>
    obtain ⟨hp, hrest⟩ := chain_cons.mp h
    obtain ⟨q, hl, hm⟩ := ih hrest
    subst hp
    exact ⟨q, .cons hl, hm⟩

theorem Chain.head (h : Chain next p l r) (hl : l ≠ []) : p = l.head? := by
  cases h with
  | nil => exact absurd rfl hl
  | cons => rfl

theorem Chain.congr {next' : J → Option J} (h : Chain next p l r)
    (hsame : ∀ j ∈ l, next' j = next j) : Chain next' p l r := by
  induction h with
  | nil => exact .nil _
  | @cons j l r _ ih =>
    refine .cons ?_
    rw [hsame j List.mem_cons_self]
    exact ih fun k hk => hsame k (List.mem_cons_of_mem j hk)

variable [DecidableEq J]

theorem Chain.frame {j : J} (h : Chain next p l r) (hj : j ∉ l) (x : Option J) :
    Chain (Function.update next j x) p l r := by
  refine h.congr ?_
  intro k hk
  refine Function.update_of_ne ?_ _ _
  rintro rfl
  exact hj hk

theorem chain_update (next : J → Option J) (j : J) (x : Option J) :
    Chain (Function.update next j x) (some j) [j] x := by
  refine .cons ?_
  rw [Function.update_self]
  exact .nil x

theorem Chain.redirect {t : J} (h : Chain next p (l ++ [t]) r) (ht : t ∉ l) (x : Option J) :
    Chain (Function.update next t x) p (l ++ [t]) x := by
  obtain ⟨q, hl, hlast⟩ := h.split
  obtain ⟨rfl, -⟩ := chain_cons.mp hlast
  exact (hl.frame ht x).append (chain_update next t x)

theorem Chain.link {t j : J} (h : Chain next p (l ++ [t]) r) (ht : t ∉ l) (hj : j ∉ l ++ [t])
    (x : Option J) :
    Chain (Function.update (Function.update next t (some j)) j x) p (l ++ [t] ++ [j]) x :=
  ((h.redirect ht (some j)).frame hj x).append (chain_update _ j x)

end LinkedCells
