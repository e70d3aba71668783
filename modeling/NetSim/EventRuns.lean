import Mathlib.Logic.Basic
import Mathlib.Data.List.Basic
import Mathlib.Data.List.Forall2

/-! Finite runs of a labelled step relation, the rules that carry an invariant along them, step
functions that simulate one another, and interleavings of two sequences of events. -/
namespace EventRuns

variable {σ ε : Type*} {step : σ → ε → σ → Prop}

inductive Run (step : σ → ε → σ → Prop) : σ → List ε → σ → Prop where
  | nil (s) : Run step s [] s
  | cons {s e t es u} : step s e t → Run step t es u → Run step s (e :: es) u

theorem Run.append {s t u : σ} {xs ys : List ε} (h : Run step s xs t) (k : Run step t ys u) :
    Run step s (xs ++ ys) u := by
  induction h with
  | nil => exact k
  | cons hs _ ih => exact .cons hs (ih k)

theorem Run.snoc {s t u : σ} {es : List ε} {e : ε} (h : Run step s es t) (k : step t e u) :
    Run step s (es ++ [e]) u :=
  h.append (.cons k (.nil u))

theorem Run.of_foldlM {f : σ → ε → Option σ} {s t : σ} {es : List ε}
    (h : es.foldlM f s = some t) : Run (fun s e t => f s e = some t) s es t := by
  induction es generalizing s with
  | nil =>
    cases h
    exact .nil _
  | cons e es ih =>
    rw [List.foldlM_cons] at h
    obtain ⟨u, hu, ht⟩ := Option.bind_eq_some_iff.mp h
    exact .cons hu (ih ht)

theorem Run.mono {step' : σ → ε → σ → Prop} (hstep : ∀ s e t, step s e t → step' s e t)
    {s t : σ} {es : List ε} (h : Run step s es t) : Run step' s es t := by
  induction h with
  | nil => exact .nil _
  | cons hs _ ih => exact .cons (hstep _ _ _ hs) ih

theorem Run.restrict {G : ε → Prop} {s t : σ} {es : List ε} (h : Run step s es t)
    (hG : ∀ e ∈ es, G e) : Run (fun s e t => step s e t ∧ G e) s es t := by
  induction h with
  | nil => exact .nil _
  | cons hs _ ih =>
    obtain ⟨he, hrest⟩ := List.forall_mem_cons.mp hG
    exact .cons ⟨hs, he⟩ (ih hrest)

theorem Run.around {s u : σ} {pre post : List ε} {e : ε}
    (h : Run step s (pre ++ e :: post) u) :
    ∃ a b, Run step s pre a ∧ step a e b ∧ Run step b post u := by
  induction pre generalizing s with
  | nil =>
    cases h with
    | cons hs hr => exact ⟨s, _, .nil s, hs, hr⟩
  | cons x pre ih =>
    cases h with
    | cons hs hr =>
      obtain ⟨a, b, ha, he, hb⟩ := ih hr
      exact ⟨a, b, .cons hs ha, he, hb⟩

/-- A step that keeps `I` and yields `Q` whenever its event meets the guard `G` makes every
guarded run keep `I` and yield `Q` throughout. -/
theorem Run.guarded {I : σ → Prop} {G Q : ε → Prop}
    (hstep : ∀ s e t, step s e t → I s → G e → I t ∧ Q e) {s t : σ} {es : List ε}
    (h : Run step s es t) (hI : I s) (hG : ∀ e ∈ es, G e) : I t ∧ ∀ e ∈ es, Q e := by
  induction h with
  | nil => exact ⟨hI, by simp⟩
  | @cons s e t es u hs _ ih =>
    obtain ⟨ht, hq⟩ := hstep s e t hs hI (hG e List.mem_cons_self)
    obtain ⟨hu, hqs⟩ := ih ht fun f hf => hG f (List.mem_cons_of_mem e hf)
    refine ⟨hu, ?_⟩
    intro f hf
    rcases List.mem_cons.mp hf with rfl | hf
    · exact hq
    · exact hqs f hf

theorem Run.invariant {I : σ → Prop} (hstep : ∀ s e t, step s e t → I s → I t) {s t : σ}
    {es : List ε} (h : Run step s es t) (hI : I s) : I t :=
  (h.guarded (G := fun _ => True) (Q := fun _ => True)
    (fun s e t hs hi _ => ⟨hstep s e t hs hi, trivial⟩) hI (fun _ _ => trivial)).1

theorem Run.each {I : σ → Prop} {Q : ε → Prop} (hstep : ∀ s e t, step s e t → I s → I t ∧ Q e)
    {s t : σ} {es : List ε} (h : Run step s es t) (hI : I s) : ∀ e ∈ es, Q e :=
  (h.guarded (G := fun _ => True) (fun s e t hs hi _ => hstep s e t hs hi) hI
    (fun _ _ => trivial)).2

/-- The last state and the results of a list of events. -/
def outputs {σ ε ρ : Type*} (f : σ → ε → σ × ρ) (s : σ) : List ε → σ × List ρ
  | [] => (s, [])
  | e :: es =>
    let rest := outputs f (f s e).1 es
    (rest.1, (f s e).2 :: rest.2)

/-- A relation that every step keeps while it gives equal results makes the results of all
sequences equal. -/
theorem outputs_simulates {σ τ ε ρ : Type*} {R : σ → τ → Prop} {f : σ → ε → σ × ρ}
    {g : τ → ε → τ × ρ}
    (hstep : ∀ s t e, R s t → R (f s e).1 (g t e).1 ∧ (f s e).2 = (g t e).2) {s : σ} {t : τ}
    (h : R s t) (es : List ε) :
    R (outputs f s es).1 (outputs g t es).1 ∧ (outputs f s es).2 = (outputs g t es).2 := by
  induction es generalizing s t with
  | nil => exact ⟨h, rfl⟩
  | cons e es ih =>
    obtain ⟨hnext, hresult⟩ := hstep s t e h
    obtain ⟨hlast, hrest⟩ := ih hnext
    refine ⟨hlast, ?_⟩
    rw [outputs, outputs, hresult, hrest]

/-- `zs` is made of `xs` and `ys`, each in its own order. -/
inductive Interleaves {ε : Type*} : List ε → List ε → List ε → Prop where
  | nil : Interleaves [] [] []
  | left {x xs ys zs} : Interleaves xs ys zs → Interleaves (x :: xs) ys (x :: zs)
  | right {y xs ys zs} : Interleaves xs ys zs → Interleaves xs (y :: ys) (y :: zs)

namespace Interleaves

variable {xs ys zs : List ε}

theorem symm (h : Interleaves xs ys zs) : Interleaves ys xs zs := by
  induction h with
  | nil => exact .nil
  | left _ ih => exact .right ih
  | right _ ih => exact .left ih

theorem perm (h : Interleaves xs ys zs) : (xs ++ ys).Perm zs := by
  induction h with
  | nil => exact .refl _
  | left _ ih => exact ih.cons _
  | right _ ih => exact List.perm_middle.trans (ih.cons _)

theorem nil_left (h : Interleaves [] ys zs) : zs = ys := by
  generalize hx : ([] : List ε) = xs at h
  induction h with
  | nil => rfl
  | left _ _ => cases hx
  | right _ ih => rw [ih hx]

/-- What comes before the first event of the second sequence is a part of the first. -/
theorem split_second {y : ε} {ys : List ε} (h : Interleaves xs (y :: ys) zs) :
    ∃ us xs' vs, xs = us ++ xs' ∧ zs = us ++ y :: vs ∧ Interleaves xs' ys vs := by
  generalize hy : y :: ys = l at h
  induction h with
  | nil => cases hy
  | @left x xs l zs _ ih =>
    obtain ⟨us, xs', vs, hx, hz, hi⟩ := ih hy
    exact ⟨x :: us, xs', vs, by rw [hx, List.cons_append], by rw [hz, List.cons_append], hi⟩
  | right hi _ =>
    cases hy
    exact ⟨[], _, _, rfl, rfl, hi⟩

theorem forall₂ {δ : Type*} {R : δ → ε → Prop} {as bs : List δ} (h : Interleaves xs ys zs)
    (ha : List.Forall₂ R as xs) (hb : List.Forall₂ R bs ys) :
    ∃ cs, Interleaves as bs cs ∧ List.Forall₂ R cs zs := by
  induction h generalizing as bs with
  | nil =>
    cases ha
    cases hb
    exact ⟨[], .nil, .nil⟩
  | left _ ih =>
    cases ha with
    | cons hr ha =>
      obtain ⟨cs, hi, hc⟩ := ih ha hb
      exact ⟨_ :: cs, .left hi, .cons hr hc⟩
  | right _ ih =>
    cases hb with
    | cons hr hb =>
      obtain ⟨cs, hi, hc⟩ := ih ha hb
      exact ⟨_ :: cs, .right hi, .cons hr hc⟩

end Interleaves

end EventRuns
