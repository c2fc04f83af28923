import AserPTA.Solver.Sound

/-!
# The copy phase

The solvers go through the stack of components from top to bottom.

* `Rest`              what holds of the components still on the stack, also after those above them
                      were collapsed (`Rest.collapse`);
* `Unsat`             a copy edge whose source holds something that its target does not;
* `Propagated`        the copy edges from one node were processed;
* `unsat_collapse`    which edges are not satisfied after a component was merged and collapsed.
-/

namespace AserPTA

open Relation

variable {Obj Val : Type}

theorem Topo.mono {G G' : SccGraph} {sccs : List (List NodeID)} (h : Topo G sccs)
    (hsub : ∀ u ∈ sccs.flatten, ∀ v ∈ G'.child u, v ∈ G.child u) : Topo G' sccs := by
  induction sccs with
  | nil => trivial
  | cons c sccs ih =>
    simp only [List.flatten_cons, List.mem_append] at hsub
    exact ⟨fun u hu v hv => h.1 u hu v (hsub u (.inl hu) v hv),
      ih h.2 fun u hu => hsub u (.inr hu)⟩

namespace ConsGraph

variable {g : ConsGraph Obj Val} {w : Walk}

theorem reach_copyGraph {u v : NodeID} : (g.copyGraph w).Reach u v ↔ g.CopyReach u v := by
  have h : (g.copyGraph w).Edge = fun u v => v ∈ g.succ .copy u := by
    funext u v
    exact propext (w.mem_walk _ _)
  rw [SccGraph.Reach, h, CopyReach]

theorem Inv.child_lt (h : g.Inv) : ∀ u v, v ∈ (g.copyGraph w).child u →
    v < (g.copyGraph w).nodeNum := by
  rw [copyGraph_eq]
  exact sccGraph_lt h.agree h.edge_lt

/-- the components that are still on the stack -/
structure Rest (w : Walk) (g : ConsGraph Obj Val) (sccs : List (List NodeID)) : Prop where
  topo : Topo (g.copyGraph w) sccs
  nodup : sccs.flatten.Nodup
  ne_nil : ∀ c ∈ sccs, c ≠ []
  reach : ∀ c ∈ sccs, ∀ u ∈ c, ∀ v ∈ c, g.CopyReach u v

namespace Rest

variable {scc : List NodeID} {sccs : List (List NodeID)}

theorem of_sccOrder {workList : NodeID → Bool}
    (h : SccOrder (g.copyGraph w) workList sccs) : Rest w g sccs :=
  ⟨h.topo, h.nodup, h.ne_nil, fun c hc u hu v hv => reach_copyGraph.mp (h.reach c hc u hu v hv)⟩

theorem tail (h : Rest w g (scc :: sccs)) : Rest w g sccs :=
  ⟨h.topo.2, (List.nodup_append'.mp h.nodup).2.1, fun c hc => h.ne_nil c (List.mem_cons_of_mem _ hc),
    fun c hc => h.reach c (List.mem_cons_of_mem _ hc)⟩

theorem nodup_head (h : Rest w g (scc :: sccs)) : scc.Nodup := (List.nodup_append'.mp h.nodup).1

theorem notMem_head (h : Rest w g (scc :: sccs)) {u : NodeID} (hu : u ∈ sccs.flatten) : u ∉ scc :=
  fun hu' => (List.nodup_append'.mp h.nodup).2.2 hu' hu

theorem reach_head (h : Rest w g (scc :: sccs)) : ∀ u ∈ scc, ∀ v ∈ scc, g.CopyReach u v :=
  h.reach scc (List.mem_cons_self ..)

/-- the edges of the first component stay in it or go to the others -/
theorem succ_head (h : Rest w g (scc :: sccs)) {u v : NodeID} (hu : u ∈ scc)
    (huv : v ∈ g.succ .copy u) : v ∈ scc ∨ v ∈ sccs.flatten :=
  h.topo.1 u hu v ((w.mem_walk _ _).mpr huv)

theorem succ_mem (h : Rest w g sccs) {u v : NodeID} (hu : u ∈ sccs.flatten)
    (huv : v ∈ g.succ .copy u) : v ∈ sccs.flatten :=
  h.topo.mem_flatten hu ((w.mem_walk _ _).mpr huv)

/-- collapsing the first component concerns none of the others -/
theorem collapse (h : Rest w g (scc :: sccs)) (hg : g.Inv) (hlen : 1 < scc.length) {s : NodeID}
    (hs : s ∈ scc) : Rest w (g.collapseSCCTo w scc s) sccs := by
  obtain ⟨-, hcol⟩ := hg.collapse_scc w h.nodup_head hs hlen h.reach_head
  have hreach : ∀ u v, g.CopyReach u v →
      (g.collapseSCCTo w scc s).CopyReach (target scc s u) (target scc s v) := by
    intro u v huv
    induction huv with
    | refl => exact .refl
    | @tail a b _ hab ih =>
      by_cases he : target scc s a = target scc s b
      · exact he ▸ ih
      · exact ih.tail ((hcol.succ _ _ _).mpr ⟨⟨a, b, hab, rfl, rfl⟩, fun h1 => he h1.1⟩)
  refine ⟨h.tail.topo.mono fun u hu v hv => ?_, h.tail.nodup, h.tail.ne_nil, fun c hc u hu v hv => ?_⟩
  · have hv' : v ∈ (g.collapseSCCTo w scc s).succ .copy u := (w.mem_walk _ _).mp hv
    obtain ⟨⟨a, b, hab, ha, hb⟩, -⟩ := (hcol.succ _ _ _).mp hv'
    have hus := h.notMem_head hu
    have hac : a ∉ scc := fun hac => hus (by rw [← ha, target_of_mem s hac]; exact hs)
    rw [target_of_notMem s hac] at ha
    have hbr := h.tail.succ_mem (ha ▸ hu) hab
    rw [target_of_notMem s (h.notMem_head hbr)] at hb
    exact (w.mem_walk _ _).mpr (ha ▸ hb ▸ hab)
  · have huf := h.notMem_head (List.mem_flatten_of_mem hc hu)
    have hvf := h.notMem_head (List.mem_flatten_of_mem hc hv)
    have := hreach u v (h.tail.reach c hc u hu v hv)
    rwa [target_of_notMem s huf, target_of_notMem s hvf] at this

/-- the edges of the node that the first component was collapsed into go to the others -/
theorem succ_collapsed (h : Rest w g (scc :: sccs)) {g' : ConsGraph Obj Val} {s v : NodeID}
    (hcol : Collapsed g g' scc s) (hs : s ∈ scc) (hv : v ∈ g'.succ .copy s) (hne : v ≠ s) :
    v ∈ sccs.flatten := by
  obtain ⟨⟨a, b, hab, ha, hb⟩, -⟩ := (hcol.succ _ _ _).mp hv
  have has : a ∈ scc := by
    by_contra has
    rw [target_of_notMem s has] at ha
    exact has (ha ▸ hs)
  rcases h.succ_head has hab with h1 | h1
  · rw [target_of_mem s h1] at hb
    exact absurd hb.symm hne
  · rw [target_of_notMem s (h.notMem_head h1)] at hb
    exact hb ▸ h1

end Rest

end ConsGraph

namespace Core

open ConsGraph

variable {c : Core Obj Val} {G : NodeID → Prop}

/-- a copy edge whose source holds something that its target does not -/
def Unsat (c : Core Obj Val) (u v : NodeID) : Prop :=
  v ∈ c.graph.succ .copy u ∧ ¬ c.pts u ⊆ c.pts v

theorem pts_subset_unionPts (v : NodeID) (new : Finset NodeID) (x : NodeID) :
    c.pts x ⊆ (c.unionPts v new).1.pts x := by
  rw [pts_unionPts]
  split
  · exact Finset.subset_union_left
  · exact Finset.Subset.refl _

/-- `c` is `c₀` after the copy edges from `u` were processed, except those to `l` -/
structure Propagated (c₀ c : Core Obj Val) (u : NodeID) (l : List NodeID) : Prop where
  graph : c.graph = c₀.graph
  handled : c.handledGEPMap = c₀.handledGEPMap
  grow : ∀ x, c₀.pts x ⊆ c.pts x
  changed : ∀ x, c.pts x ≠ c₀.pts x → x ∈ c₀.graph.succ .copy u
  done : ∀ y ∈ c₀.graph.succ .copy u, y ∈ l ∨ c₀.pts u ⊆ c.pts y

namespace Propagated

variable {c₀ : Core Obj Val} {u v : NodeID} {l : List NodeID}

theorem start (c₀ : Core Obj Val) (w : Walk) (u : NodeID) :
    Propagated c₀ c₀ u (w.walk (c₀.graph.succ .copy u)) :=
  ⟨rfl, rfl, fun _ => Finset.Subset.refl _, fun _ h => absurd rfl h,
    fun _ hy => .inl ((w.mem_walk _ _).mpr hy)⟩

/-- the source of the edges is not among their targets -/
theorem pts_self (h : Propagated c₀ c u l) (hg : c₀.graph.Inv) : c.pts u = c₀.pts u := by
  by_contra hne
  exact hg.noSelf u (h.changed u hne)

theorem copy (h : Propagated c₀ c u (v :: l)) (hg : c₀.graph.Inv)
    (hv : v ∈ c₀.graph.succ .copy u) : Propagated c₀ (c.processCopy u v).1 u l := by
  have hpts : ∀ x, (c.processCopy u v).1.pts x = if x = v then c.pts x ∪ c₀.pts u else c.pts x := by
    intro x
    rw [processCopy, pts_unionPts, h.pts_self hg]
  refine ⟨(graph_unionPts ..).trans h.graph, (handledGEPMap_unionPts ..).trans h.handled,
    fun x => (h.grow x).trans (pts_subset_unionPts ..), fun x hx => ?_, fun y hy => ?_⟩
  · rw [hpts] at hx
    by_cases hxv : x = v
    · exact hxv ▸ hv
    · rw [if_neg hxv] at hx
      exact h.changed x hx
  · rw [hpts]
    by_cases hyv : y = v
    · rw [if_pos hyv]
      exact .inr Finset.subset_union_right
    · rw [if_neg hyv]
      exact (h.done y hy).imp_left fun h1 => (List.mem_cons.mp h1).resolve_left hyv

/-- an edge that was satisfied can be left out -/
theorem skip (h : Propagated c₀ c u (v :: l)) (hv : ¬ c₀.Unsat u v) : Propagated c₀ c u l := by
  refine ⟨h.graph, h.handled, h.grow, h.changed, fun z hz => ?_⟩
  rcases h.done z hz with h1 | h1
  · rcases List.mem_cons.mp h1 with rfl | h1
    · have h2 : c₀.pts u ⊆ c₀.pts z := by
        by_contra h2
        exact hv ⟨hz, h2⟩
      exact .inr (h2.trans (h.grow z))
    · exact .inl h1
  · exact .inr h1

/-- At the end the edges from `u` are satisfied, and only edges from changed sets have become
unsatisfied. -/
theorem unsat (h : Propagated c₀ c u []) (hg : c₀.graph.Inv) {x y : NodeID} (hu : c.Unsat x y) :
    x ≠ u ∧ (c₀.Unsat x y ∨ c.pts x ≠ c₀.pts x) := by
  obtain ⟨hedge, hsub⟩ := hu
  rw [h.graph] at hedge
  constructor
  · rintro rfl
    rw [h.pts_self hg] at hsub
    exact hsub ((h.done y hedge).resolve_left List.not_mem_nil)
  · by_cases hx : c.pts x = c₀.pts x
    · rw [hx] at hsub
      exact .inl ⟨hedge, fun h1 => hsub (h1.trans (h.grow y))⟩
    · exact .inr hx

end Propagated

/-- A component is merged: `s` holds what its members held, and of the others nothing changes.  If
the edges into the component were satisfied, then the unsatisfied edges are those from `s` and those
that were unsatisfied and do not touch the component. -/
theorem unsat_collapse {c' : Core Obj Val} {scc : List NodeID} {s : NodeID}
    (hcol : Collapsed c.graph c'.graph scc s)
    (hmem : ∀ n ∈ scc, c.pts n ⊆ c'.pts s) (hother : ∀ n, n ∉ scc → c'.pts n = c.pts n)
    (hin : ∀ x, x ∉ scc → ∀ y ∈ scc, y ∈ c.graph.succ .copy x → c.pts x ⊆ c.pts y) {x y : NodeID}
    (h : c'.Unsat x y) : x = s ∨ (x ∉ scc ∧ y ∉ scc ∧ c.Unsat x y) := by
  obtain ⟨hedge, hsub⟩ := h
  obtain ⟨⟨a, b, hab, rfl, rfl⟩, -⟩ := (hcol.succ _ _ _).mp hedge
  by_cases ha : a ∈ scc
  · exact .inl (target_of_mem s ha)
  · right
    rw [target_of_notMem s ha] at hsub ⊢
    rw [hother a ha] at hsub
    by_cases hb : b ∈ scc
    · rw [target_of_mem s hb] at hsub
      exact absurd ((hin a ha b hb hab).trans (hmem b hb)) hsub
    · rw [target_of_notMem s hb, hother b hb] at hsub
      rw [target_of_notMem s hb]
      exact ⟨ha, hb, hab, hsub⟩

/-- so if all unsatisfied edges are from the components that are left, they are so afterwards: an edge
into the first component was satisfied, since its source is not in them -/
theorem unsat_collapse_rest {c' : Core Obj Val} {scc : List NodeID} {sccs : List (List NodeID)}
    {s : NodeID} {w : Walk} (hr : Rest w c.graph (scc :: sccs))
    (hunsat : ∀ u v, c.Unsat u v → u ∈ (scc :: sccs).flatten) (hcol : Collapsed c.graph c'.graph scc s)
    (hmem : ∀ n ∈ scc, c.pts n ⊆ c'.pts s) (hother : ∀ n, n ∉ scc → c'.pts n = c.pts n) {x y : NodeID}
    (h : c'.Unsat x y) : x = s ∨ (x ∈ sccs.flatten ∧ c.Unsat x y) := by
  have hin : ∀ x, x ∉ scc → ∀ y ∈ scc, y ∈ c.graph.succ .copy x → c.pts x ⊆ c.pts y := by
    intro x hx y hy hedge
    by_contra hsub
    have h2 := (List.mem_append.mp (hunsat x y ⟨hedge, hsub⟩)).resolve_left hx
    exact hr.notMem_head (hr.tail.succ_mem h2 hedge) hy
  obtain h1 | ⟨h1, -, h2⟩ := unsat_collapse hcol hmem hother hin h
  · exact .inl h1
  · exact .inr ⟨(List.mem_append.mp (hunsat x y h2)).resolve_left h1, h2⟩

end Core

end AserPTA
