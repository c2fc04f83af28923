import AserPTA.Solver.Copy
import AserPTA.Solver.Edges

/-!
# Waves

What `WavePropagation` and `DeepPropagation` have in common: the caches, and the wave that goes once
over the copy edges in topological order.

* `Caches`           the points-to sets that were propagated already;
* `wave`             SCC detection, and the copy edges;
* `Cached`           what was propagated is at the targets of the copy edges;
* `wave_spec`        the wave returns, in steps of a solver, and satisfies every copy edge.
-/

namespace AserPTA

open Relation Loop

namespace Wave

structure Caches where
  /-- an entry that the vector does not have yet is empty -/
  cachedPTS : NodeID → Finset NodeID := fun _ => ∅
  edgeCachedPTS : NodeID → NodeID → Constraints → Finset NodeID := fun _ _ _ => ∅

abbrev St (Obj Val : Type) := State Obj Val Caches

variable {Obj Val : Type} (w : Walk)

def setCached (n : NodeID) (p : Finset NodeID) (s : St Obj Val) : St Obj Val :=
  { s with self := { s.self with
      cachedPTS := fun m => if m = n then p else s.self.cachedPTS m } }

/-- one entry of the stack of components -/
def processEntry (s : St Obj Val) (scc : List NodeID) : St Obj Val :=
  match scc with
  | [] => s
  | curNode :: _ =>
    if 1 < scc.length then
      let s := { s with core := s.core.processCopySCC w scc }
      setCached curNode (s.core.pts curNode) s
    else
      let diffPTS := s.core.pts curNode \ s.self.cachedPTS curNode
      -- only when the diffed pts is not empty
      if diffPTS = ∅ then s
      else
        let s := setCached curNode (s.self.cachedPTS curNode ∪ diffPTS) s
        { s with core := s.core.propagate w curNode }

/-- SCC detection and topological sort, then the copy edges -/
def wave (s : St Obj Val) : Option (St Obj Val) :=
  let G := s.core.graph.copyGraph w
  ((SCCIterator.start G).bind (SCCIterator.sccStack G)).map fun sccs => sccs.foldl (processEntry w) s

/-! ## one entry -/

open AserPTA.Core ConsGraph

variable {M : MemModel Obj Val} {w} {s s₀ : St Obj Val} {G : NodeID → Prop}

/-- what was propagated from a node is in its set and at the targets of its copy edges -/
structure Cached (s : St Obj Val) : Prop where
  self : ∀ u, s.self.cachedPTS u ⊆ s.core.pts u
  succ : ∀ u v, v ∈ s.core.graph.succ .copy u → s.self.cachedPTS u ⊆ s.core.pts v

section
variable [DecidableEq Obj]

/-- the edges from `u` are processed -/
theorem propagate_spec {c : Core Obj Val} (hg : c.graph.Inv) (u : NodeID) :
    Propagated c (c.propagate w u) u [] ∧ Steps M w c (c.propagate w u) := by
  refine foldl_rest (I := fun c' l => Propagated c c' u l ∧ Steps M w c c') (fun c' v hv l h => ?_)
    ⟨.start .., .refl⟩
  have hedge := (w.mem_walk _ _).mp hv
  exact ⟨h.1.copy hg hedge,
    h.2.tail (.union u v _ (Finset.Subset.refl _) (.single (h.1.graph ▸ hedge)))⟩

/-- the sets of the members `scc` are added to that of `superNode`, except those of `l` -/
structure Merging (M : MemModel Obj Val) (w : Walk) (c₀ c : Core Obj Val) (superNode : NodeID)
    (scc l : List NodeID) : Prop where
  graph : c.graph = c₀.graph
  handled : c.handledGEPMap = c₀.handledGEPMap
  steps : Steps M w c₀ c
  merged : ∀ n ∈ scc, n ∈ l ∨ c₀.pts n ⊆ c.pts superNode
  other : ∀ n, n ≠ superNode → c.pts n = c₀.pts n

theorem Merging.next {c₀ c : Core Obj Val} {superNode n : NodeID} {scc l : List NodeID}
    (h : Merging M w c₀ c superNode scc (n :: l)) (hs : superNode ∈ scc) (hn : n ∈ scc)
    (hne : n ≠ superNode) (hr : ∀ u ∈ scc, ∀ v ∈ scc, c₀.graph.CopyReach u v) :
    Merging M w c₀ (c.processCopy n superNode).1 superNode scc l := by
  refine ⟨(graph_unionPts ..).trans h.graph, (handledGEPMap_unionPts ..).trans h.handled,
    h.steps.tail (.union n superNode _ (Finset.Subset.refl _) (h.graph ▸ hr n hn _ hs)),
    fun x hx => ?_, fun x hx => ?_⟩
  · rw [processCopy, pts_unionPts, if_pos rfl]
    rcases h.merged x hx with h1 | h1
    · rcases List.mem_cons.mp h1 with rfl | h1
      · rw [h.other x hne]
        exact .inr Finset.subset_union_right
      · exact .inl h1
    · exact .inr (h1.trans Finset.subset_union_left)
  · rw [processCopy, pts_unionPts, if_neg hx, h.other x hx]

theorem merging_spec {c : Core Obj Val} {superNode : NodeID} {rest : List NodeID}
    (hnd : (superNode :: rest).Nodup)
    (hr : ∀ u ∈ superNode :: rest, ∀ v ∈ superNode :: rest, c.graph.CopyReach u v) :
    Merging M w c (rest.foldl (fun c n => (c.processCopy n superNode).1) c) superNode
      (superNode :: rest) [] := by
  refine foldl_rest
    (I := fun c' l => Merging M w c c' superNode (superNode :: rest) l) (fun c' n hn l h => ?_)
    ⟨rfl, rfl, .refl, fun n hn => ?_, fun _ _ => rfl⟩
  · refine h.next (List.mem_cons_self ..) (List.mem_cons_of_mem _ hn) (fun e => ?_) hr
    exact (List.nodup_cons.mp hnd).1 (e ▸ hn)
  · rcases List.mem_cons.mp hn with rfl | hn
    · exact .inr (Finset.Subset.refl _)
    · exact .inl hn

/-- what the wave keeps -/
structure WaveRun (M : MemModel Obj Val) (w : Walk) (s₀ s : St Obj Val) : Prop where
  steps : Steps M w s₀.core s.core
  nodeNum : s.core.graph.nodeNum = s₀.core.graph.nodeNum
  handled : s.core.handledGEPMap = s₀.core.handledGEPMap
  edgeCachedPTS : s.self.edgeCachedPTS = s₀.self.edgeCachedPTS

theorem WaveRun.trans {s₁ s₂ s₃ : St Obj Val} (h : WaveRun M w s₁ s₂) (h' : WaveRun M w s₂ s₃) :
    WaveRun M w s₁ s₃ :=
  ⟨h.steps.trans h'.steps, h'.nodeNum.trans h.nodeNum, h'.handled.trans h.handled,
    h'.edgeCachedPTS.trans h.edgeCachedPTS⟩

/-- one entry, whatever the caches hold -/
theorem entry_run {scc : List NodeID} {sccs : List (List NodeID)} (hg : s.core.graph.Inv)
    (hr : Rest w s.core.graph (scc :: sccs)) :
    WaveRun M w s (processEntry w s scc) ∧ (processEntry w s scc).core.graph.Inv ∧
      Rest w (processEntry w s scc).core.graph sccs := by
  cases scc with
  | nil => exact absurd rfl (hr.ne_nil [] (List.mem_cons_self ..))
  | cons sn rest =>
    rw [processEntry]
    split
    · rename_i hlen
      have hreach := hr.reach_head
      have hsn : sn ∈ sn :: rest := List.mem_cons_self ..
      have hm := merging_spec (M := M) (w := w) hr.nodup_head hreach
      obtain ⟨hinv, hcol⟩ := hg.collapse_scc w hr.nodup_head hsn hlen hreach
      have hrest := hr.collapse hg hlen hsn
      dsimp only [processCopySCC]
      set c₁ := rest.foldl (fun c n => (c.processCopy n sn).1) s.core with hc₁
      have hgraph : (c₁.collapse w (sn :: rest) sn).graph =
          s.core.graph.collapseSCCTo w (sn :: rest) sn := by rw [graph_collapse, hm.graph]
      rw [← hgraph] at hinv hcol hrest
      obtain ⟨hp, hsteps⟩ := propagate_spec (M := M) (w := w) hinv sn
      exact ⟨⟨(hm.steps.tail (.collapse _ _ hr.nodup_head hsn hlen (hm.graph ▸ hreach))).trans hsteps,
        (congrArg nodeNum hp.graph).trans hcol.nodeNum,
        hp.handled.trans ((handledGEPMap_collapse ..).trans hm.handled), rfl⟩,
        hp.graph ▸ hinv, hp.graph ▸ hrest⟩
    · dsimp only
      split
      · exact ⟨⟨.refl, rfl, rfl, rfl⟩, hg, hr.tail⟩
      · obtain ⟨hp, hsteps⟩ := propagate_spec (M := M) (w := w) hg sn
        exact ⟨⟨hsteps, congrArg nodeNum hp.graph, hp.handled, rfl⟩, hp.graph ▸ hg,
          hp.graph ▸ hr.tail⟩

/-- The invariant of the wave: an edge that is not satisfied is still to come. -/
structure Sat (w : Walk) (s : St Obj Val) (sccs : List (List NodeID)) : Prop where
  inv : s.core.graph.Inv
  rest : Rest w s.core.graph sccs
  unsat : ∀ u v, s.core.Unsat u v → u ∈ sccs.flatten
  cached : Cached s

include M

/-- A component that is no scc.  If there is nothing new, then its edges are satisfied. -/
theorem Sat.node {u : NodeID} {sccs : List (List NodeID)} (h : Sat w s ([u] :: sccs)) :
    Sat w (processEntry w s [u]) sccs := by
  rw [processEntry, if_neg (by simp)]
  dsimp only
  split
  · rename_i hdiff
    refine ⟨h.inv, h.rest.tail, fun x y hxy => ?_, h.cached⟩
    refine (List.mem_append.mp (h.unsat x y hxy)).resolve_left fun hx => hxy.2 ?_
    have hxu := List.mem_singleton.mp hx
    rw [Finset.sdiff_eq_empty_iff_subset, ← hxu] at hdiff
    exact hdiff.trans (h.cached.succ x y hxy.1)
  · have hp := (propagate_spec (M := M) (w := w) h.inv u).1
    refine ⟨hp.graph ▸ h.inv, hp.graph ▸ h.rest.tail, fun x y hxy => ?_, fun x => ?_,
      fun x y hxy => ?_⟩
    · obtain ⟨hxu, hxy | hxy⟩ := hp.unsat h.inv hxy
      · exact (List.mem_append.mp (h.unsat x y hxy)).resolve_left fun hx =>
          hxu (List.mem_singleton.mp hx)
      · refine (h.rest.succ_head (List.mem_singleton_self u) (hp.changed x hxy)).resolve_left
          fun hx => hxu (List.mem_singleton.mp hx)
    · show (if x = u then _ else s.self.cachedPTS x) ⊆ (s.core.propagate w u).pts x
      split
      · rename_i hx
        rw [hx, hp.pts_self h.inv, Finset.union_sdiff_self_eq_union]
        exact Finset.union_subset (h.cached.self u) (Finset.Subset.refl _)
      · exact (h.cached.self x).trans (hp.grow x)
    · have hedge : y ∈ s.core.graph.succ .copy x := hp.graph ▸ hxy
      show (if x = u then _ else s.self.cachedPTS x) ⊆ (s.core.propagate w u).pts y
      split
      · rename_i hx
        rw [Finset.union_sdiff_self_eq_union]
        refine Finset.union_subset ((h.cached.succ u y (hx ▸ hedge)).trans (hp.grow y)) ?_
        exact (hp.done y (hx ▸ hedge)).resolve_left List.not_mem_nil
      · exact (h.cached.succ x y hedge).trans (hp.grow y)

/-- A component that is an scc: it is merged, and the edges of the super node are processed. -/
theorem Sat.scc {sn : NodeID} {rest : List NodeID} {sccs : List (List NodeID)}
    (h : Sat w s ((sn :: rest) :: sccs)) (hlen : 1 < (sn :: rest).length) :
    Sat w (processEntry w s (sn :: rest)) sccs := by
  have hnd := h.rest.nodup_head
  have hr := h.rest.reach_head
  have hsn : sn ∈ sn :: rest := List.mem_cons_self ..
  have hm := merging_spec (M := M) (w := w) hnd hr
  rw [processEntry, if_pos hlen]
  dsimp only [processCopySCC]
  set c₁ := rest.foldl (fun c n => (c.processCopy n sn).1) s.core with hc₁
  set c₂ := c₁.collapse w (sn :: rest) sn with hc₂
  have hgraph : c₂.graph = s.core.graph.collapseSCCTo w (sn :: rest) sn := by
    rw [hc₂, graph_collapse, hm.graph]
  obtain ⟨hinv, hcol⟩ := h.inv.collapse_scc w hnd hsn hlen hr
  have hrest := h.rest.collapse h.inv hlen hsn
  rw [← hgraph] at hinv hcol hrest
  have hpts : c₂.pts = c₁.pts := pts_collapse ..
  have hp := (propagate_spec (M := M) (w := w) hinv sn).1
  set c₃ := c₂.propagate w sn with hc₃
  have hmem : ∀ n ∈ sn :: rest, s.core.pts n ⊆ c₂.pts sn := fun n hn =>
    hpts ▸ (hm.merged n hn).resolve_left List.not_mem_nil
  have hother : ∀ n, n ∉ sn :: rest → c₂.pts n = s.core.pts n := fun n hn =>
    hpts ▸ hm.other n fun e => hn (e ▸ hsn)
  have hgrow : ∀ n, s.core.pts n ⊆ c₃.pts n := by
    intro n
    refine Finset.Subset.trans ?_ (hp.grow n)
    by_cases hn : n = sn
    · exact hn ▸ hmem sn hsn
    · rw [hpts, hm.other n hn]
  refine ⟨hp.graph ▸ hinv, hp.graph ▸ hrest, fun x y hxy => ?_, fun x => ?_, fun x y hxy => ?_⟩
  · obtain ⟨hxs, hxy | hxy⟩ := hp.unsat hinv hxy
    · exact ((unsat_collapse_rest h.rest h.unsat hcol hmem hother hxy).resolve_left hxs).1
    · exact h.rest.succ_collapsed hcol hsn (hp.changed x hxy) hxs
  · show (if x = sn then c₃.pts sn else s.self.cachedPTS x) ⊆ c₃.pts x
    split
    · rename_i hx
      rw [hx]
    · exact (h.cached.self x).trans (hgrow x)
  · have hedge : y ∈ c₂.graph.succ .copy x := hp.graph ▸ hxy
    show (if x = sn then c₃.pts sn else s.self.cachedPTS x) ⊆ c₃.pts y
    split
    · rename_i hx
      rw [hp.pts_self hinv]
      exact (hp.done y (hx ▸ hedge)).resolve_left List.not_mem_nil
    · rename_i hx
      obtain ⟨⟨a, b, hab, rfl, rfl⟩, -⟩ := (hcol.succ _ _ _).mp hedge
      have ha : a ∉ sn :: rest := fun ha => hx (target_of_mem sn ha)
      rw [target_of_notMem sn ha]
      by_cases hb : b ∈ sn :: rest
      · rw [target_of_mem sn hb]
        exact (h.cached.succ a b hab).trans ((hmem b hb).trans (hp.grow sn))
      · rw [target_of_notMem sn hb]
        exact (h.cached.succ a b hab).trans (hgrow b)

theorem Sat.entry {scc : List NodeID} {sccs : List (List NodeID)} (h : Sat w s (scc :: sccs)) :
    Sat w (processEntry w s scc) sccs ∧ WaveRun M w s (processEntry w s scc) := by
  refine ⟨?_, (entry_run h.inv h.rest).1⟩
  cases scc with
  | nil => exact absurd rfl (h.rest.ne_nil [] (List.mem_cons_self ..))
  | cons u rest =>
    cases rest with
    | nil => exact h.node (M := M)
    | cons v rest => exact h.scc (M := M) (by simp)

/-! ## the wave -/

/-- The wave returns, in steps of a solver, whatever the caches hold. -/
theorem wave_run (hg : s.core.graph.Inv) (hpos : 0 < s.core.graph.nodeNum) :
    ∃ s', wave w s = some s' ∧ WaveRun M w s s' := by
  obtain ⟨sccs, h1, h2⟩ := SCCIterator.start_spec (G := s.core.graph.copyGraph w) hg.child_lt hpos
  refine ⟨_, by rw [wave, h1]; rfl, ?_⟩
  refine (foldl_rest (f := processEntry w) (l := sccs) (s := s)
    (I := fun t l => WaveRun M w s t ∧ t.core.graph.Inv ∧ Rest w t.core.graph l)
    (fun t scc _ l ht => ?_) ⟨⟨.refl, rfl, rfl, rfl⟩, hg, .of_sccOrder h2⟩).1
  obtain ⟨h3, h4, h5⟩ := entry_run (M := M) ht.2.1 ht.2.2
  exact ⟨ht.1.trans h3, h4, h5⟩

/-- The wave returns, in steps of a solver, and satisfies every copy edge. -/
theorem wave_spec (hg : s.core.graph.Inv) (hpos : 0 < s.core.graph.nodeNum) (hc : Cached s) :
    ∃ s', wave w s = some s' ∧ WaveRun M w s s' ∧ s'.core.graph.Inv ∧ Cached s' ∧
      ∀ u v, ¬ s'.core.Unsat u v := by
  obtain ⟨sccs, h1, h2⟩ := SCCIterator.start_spec (G := s.core.graph.copyGraph w) hg.child_lt hpos
  refine ⟨_, by rw [wave, h1]; rfl, ?_⟩
  have h := foldl_rest (f := processEntry w) (l := sccs) (s := s)
    (I := fun t l => Sat w t l ∧ WaveRun M w s t) (fun t scc _ l ht => ?_)
    ⟨⟨hg, .of_sccOrder h2, fun u v huv => ?_, hc⟩, .refl, rfl, rfl, rfl⟩
  · exact ⟨h.2, h.1.inv, h.1.cached, fun u v huv => List.not_mem_nil (h.1.unsat u v huv)⟩
  · obtain ⟨h3, h4⟩ := ht.1.entry (M := M)
    exact ⟨h3, ht.2.trans h4⟩
  · refine h2.covers u (hg.edge_lt _ _ _ huv.1).1 rfl ?_
    show s.core.graph.hasSuperNode u = false
    rw [hasSuperNode, hg.source_none huv.1]
    rfl

end

end Wave

end AserPTA
