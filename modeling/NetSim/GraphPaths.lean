import Mathlib.Combinatorics.SimpleGraph.Acyclic

/-! Paths that lead away from a source in an acyclic graph, and the forest of a parent
relation with a rank. Nothing here is about a network. -/
namespace GraphPaths

open SimpleGraph

variable {V : Type*} {G : SimpleGraph V}

/-- The edge from s to t leads away from h: some path from h reaches s without meeting t. -/
def Away (G : SimpleGraph V) (h s t : V) : Prop :=
  G.Adj s t ∧ ∃ p : G.Walk h s, p.IsPath ∧ t ∉ p.support

theorem away_start {h t : V} (ha : G.Adj h t) : Away G h h t :=
  ⟨ha, .nil, .nil, by simpa using ha.ne'⟩

theorem Away.adj {h s t : V} (ha : Away G h s t) : G.Adj s t := ha.1

theorem Away.reachable {h s t : V} (ha : Away G h s t) : G.Reachable h t := by
  obtain ⟨he, p, _, _⟩ := ha
  exact ⟨p.concat he⟩

theorem Away.step (hG : G.IsAcyclic) {h s t u : V} (ha : Away G h s t) (hu : G.Adj t u)
    (hne : u ≠ s) : Away G h t u := by
  obtain ⟨he, p, hp, ht⟩ := ha
  have hpath : (p.concat he).IsPath := hp.concat ht he
  refine ⟨hu, p.concat he, hpath, fun hmem => hne ?_⟩
  have hpen := hG.eq_penultimate_of_adj_end hpath hu hmem
  rwa [Walk.penultimate_concat] at hpen

theorem Away.unique (hG : G.IsAcyclic) {h s s' t : V} (ha : Away G h s t)
    (hb : Away G h s' t) : s = s' := by
  obtain ⟨he, p, hp, ht⟩ := ha
  obtain ⟨hf, q, hq, hs⟩ := hb
  have heq : p.concat he = q.concat hf :=
    congrArg Subtype.val ((hG.subsingleton_path h t).elim ⟨_, hp.concat ht he⟩ ⟨_, hq.concat hs hf⟩)
  have hpen := congrArg Walk.penultimate heq
  rwa [Walk.penultimate_concat, Walk.penultimate_concat] at hpen

theorem Away.not_back (hG : G.IsAcyclic) {h s t : V} (ha : Away G h s t) : ¬ Away G h t s := by
  rintro ⟨hf, q, hq, hs⟩
  obtain ⟨he, p, hp, ht⟩ := ha
  have heq : p.concat he = q :=
    congrArg Subtype.val ((hG.subsingleton_path h t).elim ⟨_, hp.concat ht he⟩ ⟨_, hq⟩)
  exact hs (heq ▸ p.support_subset_support_concat he p.end_mem_support)

theorem exists_away {h t : V} (hr : G.Reachable h t) (hne : t ≠ h) : ∃ s, Away G h s t := by
  classical
  obtain ⟨p, hp⟩ := hr.exists_isPath
  have hnil : ¬ p.Nil := Walk.not_nil_of_ne hne.symm
  have hadj := p.adj_penultimate hnil
  refine ⟨p.penultimate, hadj, p.dropLast, hp.dropLast, ?_⟩
  rw [← Walk.concat_dropLast hadj] at hp
  exact (Walk.concat_isPath_iff hadj).mp hp |>.2

/-- Before s, unless it is h, comes another node than the one after it. -/
theorem Away.before (hG : G.IsAcyclic) {h s t : V} (ha : Away G h s t) (hs : s ≠ h) :
    ∃ r, Away G h r s ∧ r ≠ t := by
  obtain ⟨r, hr⟩ := exists_away (ha.reachable.trans ha.adj.symm.reachable) hs
  refine ⟨r, hr, ?_⟩
  rintro rfl
  exact ha.not_back hG hr

/-- Induction along the way out from h: t may use the node it is entered from. -/
theorem Away.induction {h : V} {P : V → Prop}
    (step : ∀ s t, Away G h s t → (s = h ∨ P s) → P t) {s t : V} (ha : Away G h s t) : P t := by
  obtain ⟨he, p, hp, ht⟩ := ha
  obtain ⟨n, hn⟩ : ∃ n, p.length = n := ⟨_, rfl⟩
  induction n generalizing s t with
  | zero =>
    have hs : h = s := Walk.eq_of_length_eq_zero hn
    exact step s t ⟨he, p, hp, ht⟩ (Or.inl hs.symm)
  | succ n ih =>
    have hnil : ¬ p.Nil := by
      rw [Walk.not_nil_iff_lt_length]
      omega
    have hadj := p.adj_penultimate hnil
    have hq := hp
    rw [← Walk.concat_dropLast hadj] at hq
    have hs := ih hadj p.dropLast hp.dropLast ((Walk.concat_isPath_iff hadj).mp hq).2
      (by rw [Walk.length_dropLast]; omega)
    exact step s t ⟨he, p, hp, ht⟩ (Or.inr hs)

theorem adj_of_reachable {H : SimpleGraph V} (hG : G.IsAcyclic) (hle : H ≤ G) {s t : V}
    (ha : G.Adj s t) (hr : H.Reachable s t) : H.Adj s t := by
  obtain ⟨p, hp⟩ := hr.exists_isPath
  have hpath : (p.mapLe hle).IsPath := hp.mapLe hle
  have hedge : (Walk.cons ha .nil).IsPath := by simpa using ha.ne
  have heq : p.mapLe hle = Walk.cons ha .nil :=
    congrArg Subtype.val ((hG.subsingleton_path s t).elim ⟨_, hpath⟩ ⟨_, hedge⟩)
  have hlen : p.length = 1 := by
    have := congrArg Walk.length heq
    simpa using this
  exact Walk.adj_of_length_eq_one hlen

theorem acyclic_of_leaves {H : SimpleGraph V} (Inner : V → Prop) (hH : H.IsAcyclic)
    (hin : ∀ u v, G.Adj u v → Inner u → Inner v → H.Adj u v)
    (hleaf : ∀ v, ¬ Inner v → ∀ u w, G.Adj v u → G.Adj v w → u = w) : G.IsAcyclic := by
  classical
  intro v c hc
  have hinner : ∀ u ∈ c.support, Inner u := by
    intro u hu
    by_contra hno
    have hc' := hc.rotate hu
    exact hc'.snd_ne_penultimate (hleaf u hno _ _ (Walk.adj_snd hc'.not_nil)
      (Walk.adj_penultimate hc'.not_nil).symm)
  have hedges : ∀ e ∈ c.edges, e ∈ H.edgeSet := by
    intro e he
    induction e using Sym2.inductionOn with
    | hf a b =>
      exact hin a b (c.adj_of_mem_edges he) (hinner a (c.fst_mem_support_of_mem_edges he))
        (hinner b (c.snd_mem_support_of_mem_edges he))
  exact hH _ (hc.transfer hedges)

section ParentForest

variable {par : V → V → Prop} (rank : V → ℕ)

/-- A functional parent relation that lowers a rank spans a forest: the highest node of a
cycle would have two parents. -/
theorem parent_forest (hrank : ∀ s t, par s t → rank t < rank s)
    (hfun : ∀ s t u, par s t → par s u → t = u) : (SimpleGraph.fromRel par).IsAcyclic := by
  classical
  intro v c hc
  obtain ⟨u, hu, hmax⟩ := c.support.toFinset.exists_max_image rank ⟨v, by simp⟩
  simp only [List.mem_toFinset] at hu hmax
  have hc' := hc.rotate hu
  have up : ∀ w, (SimpleGraph.fromRel par).Adj u w → w ∈ c.support → par u w := by
    intro w hw hm
    rcases hw with ⟨_, h | h⟩
    · exact h
    · have := hrank _ _ h
      have := hmax w hm
      omega
  have hnil : ¬ (c.rotate u hu).Nil := hc'.not_nil
  have mem : ∀ w, w ∈ (c.rotate u hu).support → w ∈ c.support := by
    intro w hw
    exact (Walk.mem_support_rotate_iff c u hu).mp hw
  have h1 := up _ (Walk.adj_snd hnil) (mem _ (Walk.getVert_mem_support _ _))
  have h2 := up _ (Walk.adj_penultimate hnil).symm (mem _ (Walk.getVert_mem_support _ _))
  exact hc'.snd_ne_penultimate (hfun _ _ _ h1 h2)

theorem parent_reaches_root {P : V → Prop}
    (hup : ∀ s, P s → rank s ≠ 0 → ∃ t, P t ∧ par s t ∧ rank t < rank s) {s : V} (hs : P s) :
    ∃ r, P r ∧ rank r = 0 ∧ (SimpleGraph.fromRel par).Reachable s r := by
  induction hn : rank s using Nat.strong_induction_on generalizing s with
  | h n ih =>
    by_cases hz : rank s = 0
    · exact ⟨s, hs, hz, .refl s⟩
    · obtain ⟨t, ht, hpar, hlt⟩ := hup s hs hz
      obtain ⟨r, hr, hr0, hreach⟩ := ih (rank t) (hn ▸ hlt) ht rfl
      have hne : s ≠ t := by
        rintro rfl
        exact lt_irrefl _ hlt
      have hadj : (SimpleGraph.fromRel par).Adj s t := ⟨hne, Or.inl hpar⟩
      exact ⟨r, hr, hr0, hadj.reachable.trans hreach⟩

end ParentForest

end GraphPaths
