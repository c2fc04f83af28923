import AserPTA.Solver.Copy
import AserPTA.Solver.Edges
import AserPTA.Solver.PartialUpdate

/-!
# The copy phase of PartialUpdateSolver

* `CopyRun`            what the copy phase does to the state, on any graph with the representation
                       invariant;
* `Due`                a copy edge that the worklists mark;
* `Sat`                every copy edge that is not satisfied starts in a component still to come and
                       is marked, and the load, store and offset edges of a node whose bit in
                       `lsWorkList` is set are closed;
* `copyPhase_spec`     the copy phase returns, in steps of a solver, and satisfies every copy edge.
-/

namespace AserPTA

open Relation Loop

namespace PartialUpdate

open AserPTA.Core ConsGraph

variable {Obj Val : Type} [DecidableEq Obj] {F : Config Obj Val} {s s₀ : St Obj Val}
  {G : NodeID → Prop}

/-! ## one edge -/

section
omit [DecidableEq Obj]

theorem copyEdge_core (u v : NodeID) (s : St Obj Val) :
    (copyEdge u v s).core = (s.core.processCopy u v).1 := by
  unfold copyEdge
  dsimp only
  split <;> rfl

theorem copyEdge_self (u v : NodeID) (s : St Obj Val) :
    (copyEdge u v s).self = { s.self with lsWorkList := (copyEdge u v s).self.lsWorkList } := by
  unfold copyEdge
  dsimp only
  split <;> rfl

theorem copyEdge_size (u v : NodeID) (s : St Obj Val) :
    (copyEdge u v s).self.lsWorkList.size = s.self.lsWorkList.size := by
  unfold copyEdge
  dsimp only
  split <;> rfl

/-- a bit is only reset when the points-to set has grown, and then it is reset -/
theorem copyEdge_bit (u v x : NodeID) (s : St Obj Val)
    (h : (copyEdge u v s).self.lsWorkList.test x = true) :
    s.self.lsWorkList.test x = true ∧ (copyEdge u v s).core.pts x = s.core.pts x := by
  rw [copyEdge_core, processCopy, pts_unionPts]
  unfold copyEdge at h
  dsimp only at h
  by_cases hnew : (s.core.processCopy u v).2 = true
  · rw [if_pos hnew] at h
    have h' : (s.self.lsWorkList.reset v).test x = true := h
    rw [BitVector.test_reset] at h'
    split at h'
    · cases h'
    · rename_i hxv
      exact ⟨h', if_neg hxv⟩
  · rw [if_neg hnew] at h
    refine ⟨h, ?_⟩
    rw [processCopy, unionPts_snd, not_not] at hnew
    split
    · rename_i hxv
      rw [hxv]
      exact Finset.union_eq_left.mpr hnew
    · rfl

end

/-- what the steps of the copy phase keep, and how the worklists change -/
structure CopyRun (F : Config Obj Val) (s₀ s : St Obj Val) : Prop where
  steps : Steps F.mem F.walk s₀.core s.core
  inv : s.core.graph.Inv
  nodeNum : s.core.graph.nodeNum = s₀.core.graph.nodeNum
  handled : s.core.handledGEPMap = s₀.core.handledGEPMap
  copyWL : s.self.copyWorkList = s₀.self.copyWorkList
  required : s.self.requiredEdge = s₀.self.requiredEdge
  lsSize : s.self.lsWorkList.size = s₀.self.lsWorkList.size
  targetSize : s.self.targetList.size = s₀.self.targetList.size
  lsBit : ∀ x, s.self.lsWorkList.test x = true → s₀.self.lsWorkList.test x = true
  targetBit : ∀ x, s.self.targetList.test x = true → s₀.self.targetList.test x = true

namespace CopyRun

theorem refl (h : s.core.graph.Inv) : CopyRun F s s :=
  ⟨.refl, h, rfl, rfl, rfl, rfl, rfl, rfl, fun _ h => h, fun _ h => h⟩

theorem trans {s₁ s₂ s₃ : St Obj Val} (h : CopyRun F s₁ s₂) (h' : CopyRun F s₂ s₃) :
    CopyRun F s₁ s₃ :=
  ⟨h.steps.trans h'.steps, h'.inv, h'.nodeNum.trans h.nodeNum, h'.handled.trans h.handled,
    h'.copyWL.trans h.copyWL,
    h'.required.trans h.required, h'.lsSize.trans h.lsSize, h'.targetSize.trans h.targetSize,
    fun x hx => h.lsBit x (h'.lsBit x hx), fun x hx => h.targetBit x (h'.targetBit x hx)⟩

end CopyRun

/-- the copy edges from `u` were processed, except those to `l` -/
structure PropagatedSt (F : Config Obj Val) (s₀ s : St Obj Val) (u : NodeID) (l : List NodeID) :
    Prop where
  core : Propagated s₀.core s.core u l
  steps : Steps F.mem F.walk s₀.core s.core
  self : s.self = { s₀.self with lsWorkList := s.self.lsWorkList }
  size : s.self.lsWorkList.size = s₀.self.lsWorkList.size
  bit : ∀ x, s.self.lsWorkList.test x = true →
    s₀.self.lsWorkList.test x = true ∧ s.core.pts x = s₀.core.pts x

namespace PropagatedSt

variable {u v : NodeID} {l : List NodeID}

theorem start (F : Config Obj Val) (s₀ : St Obj Val) (u : NodeID) :
    PropagatedSt F s₀ s₀ u (F.walk.walk (s₀.core.graph.succ .copy u)) :=
  ⟨.start .., .refl, rfl, rfl, fun _ h => ⟨h, rfl⟩⟩

theorem copy (h : PropagatedSt F s₀ s u (v :: l)) (hg : s₀.core.graph.Inv)
    (hv : v ∈ s₀.core.graph.succ .copy u) : PropagatedSt F s₀ (copyEdge u v s) u l := by
  refine ⟨copyEdge_core u v s ▸ h.core.copy hg hv, ?_, ?_, (copyEdge_size u v s).trans h.size, ?_⟩
  · refine h.steps.tail ?_
    rw [copyEdge_core]
    exact .union u v _ (Finset.Subset.refl _) (.single (h.core.graph ▸ hv))
  · rw [copyEdge_self, h.self]
  · intro x hx
    obtain ⟨h1, h2⟩ := copyEdge_bit u v x s hx
    obtain ⟨h3, h4⟩ := h.bit x h1
    exact ⟨h3, h2.trans h4⟩

theorem copyRun (h : PropagatedSt F s₀ s u l) (hg : s₀.core.graph.Inv) : CopyRun F s₀ s := by
  have hs := h.self
  refine ⟨h.steps, h.core.graph ▸ hg, by rw [h.core.graph], h.core.handled, by rw [hs], by rw [hs],
    h.size, by rw [hs], fun x hx => (h.bit x hx).1, fun x hx => ?_⟩
  rw [hs] at hx
  exact hx

end PropagatedSt

/-- every edge from `u` is processed -/
theorem propagateAll_spec (hg : s₀.core.graph.Inv) (u : NodeID) :
    PropagatedSt F s₀ ((F.walk.walk (s₀.core.graph.succ .copy u)).foldl
      (fun s v => copyEdge u v s) s₀) u [] := by
  refine foldl_rest (I := fun s l => PropagatedSt F s₀ s u l) (fun s v hv rest h => ?_) (.start ..)
  exact h.copy hg ((F.walk.mem_walk _ _).mp hv)

/-! ## a component -/

/-- the sets of the members `scc` are merged into `superNode`, except those of `l` -/
structure Merging (F : Config Obj Val) (s₀ s : St Obj Val) (superNode : NodeID)
    (scc l : List NodeID) : Prop where
  graph : s.core.graph = s₀.core.graph
  handled : s.core.handledGEPMap = s₀.core.handledGEPMap
  steps : Steps F.mem F.walk s₀.core s.core
  nodup : (superNode :: l).Nodup
  sub : ∀ n ∈ l, n ∈ scc ∧ s.core.pts n = s₀.core.pts n
  merged : ∀ n ∈ scc, n ∈ l ∨ s₀.core.pts n ⊆ s.core.pts superNode
  other : ∀ n, n ∉ scc → s.core.pts n = s₀.core.pts n
  self : s.self = { s₀.self with targetList := s.self.targetList }
  targetSize : s.self.targetList.size = s₀.self.targetList.size
  targetBit : ∀ x, s.self.targetList.test x = true → s₀.self.targetList.test x = true

omit [DecidableEq Obj] in
theorem pts_mergeNode (superNode n : NodeID) (s : St Obj Val) (x : NodeID) (hne : superNode ≠ n) :
    (mergeNode superNode s n).core.pts x = if x = n then ∅
      else if x = superNode then s.core.pts superNode ∪ s.core.pts n else s.core.pts x := by
  show ((s.core.processCopy n superNode).1.setPts n ∅).pts x = _
  rw [pts_setPts, processCopy, pts_unionPts]
  by_cases hx : x = superNode
  · rw [hx, if_neg hne]
  · rw [if_neg hx, if_neg hx]

theorem Merging.next {superNode n : NodeID} {scc l : List NodeID}
    (h : Merging F s₀ s superNode scc (n :: l)) (hs : superNode ∈ scc)
    (hr : ∀ u ∈ scc, ∀ v ∈ scc, s₀.core.graph.CopyReach u v) :
    Merging F s₀ (mergeNode superNode s n) superNode scc l := by
  obtain ⟨hsn, hnd⟩ := List.nodup_cons.mp h.nodup
  obtain ⟨hnl, hnd'⟩ := List.nodup_cons.mp hnd
  have hne : superNode ≠ n := fun e => hsn (e ▸ List.mem_cons_self ..)
  obtain ⟨hnscc, hnpts⟩ := h.sub n (List.mem_cons_self ..)
  have hpts := pts_mergeNode superNode n s
  have hgraph : (mergeNode superNode s n).core.graph = s₀.core.graph :=
    (graph_unionPts ..).trans h.graph
  have hbit : ∀ x, (mergeNode superNode s n).self.targetList.test x = true →
      s.self.targetList.test x = true := by
    intro x hx
    have hx' : (if s.self.targetList.test n then s.self.targetList
        else s.self.targetList.reset superNode).test x = true := hx
    split at hx'
    · exact hx'
    · rw [BitVector.test_reset] at hx'
      split at hx'
      · cases hx'
      · exact hx'
  refine ⟨hgraph, (handledGEPMap_unionPts ..).trans h.handled, ?_, ?_, fun x hx => ?_, fun x hx => ?_,
    fun x hx => ?_, ?_, ?_, fun x hx => h.targetBit x (hbit x hx)⟩
  · have h1 : s.core.graph.CopyReach n superNode := h.graph ▸ hr n hnscc _ hs
    have h2 : s.core.graph.CopyReach superNode n := h.graph ▸ hr _ hs n hnscc
    refine (h.steps.tail (.union n superNode _ (Finset.Subset.refl _) h1)).tail ?_
    refine .clear (c := (s.core.unionPts superNode (s.core.pts n)).1) n superNode hne.symm ?_ ?_
    · rwa [graph_unionPts]
    · rwa [graph_unionPts]
  · exact List.nodup_cons.mpr ⟨fun h1 => hsn (List.mem_cons_of_mem _ h1), hnd'⟩
  · obtain ⟨h1, h2⟩ := h.sub x (List.mem_cons_of_mem _ hx)
    have hxn : x ≠ n := fun e => hnl (e ▸ hx)
    have hxs : x ≠ superNode := fun e => hsn (e ▸ List.mem_cons_of_mem _ hx)
    refine ⟨h1, ?_⟩
    rw [hpts x hne, if_neg hxn, if_neg hxs, h2]
  · rw [hpts superNode hne, if_neg hne, if_pos rfl]
    rcases h.merged x hx with h1 | h1
    · rcases List.mem_cons.mp h1 with rfl | h1
      · exact .inr (hnpts ▸ Finset.subset_union_right)
      · exact .inl h1
    · exact .inr (h1.trans Finset.subset_union_left)
  · have hxn : x ≠ n := fun e => hx (e ▸ hnscc)
    have hxs : x ≠ superNode := fun e => hx (e ▸ hs)
    rw [hpts x hne, if_neg hxn, if_neg hxs, h.other x hx]
  · have hself : (mergeNode superNode s n).self =
        { s.self with targetList := (mergeNode superNode s n).self.targetList } := rfl
    rw [hself, h.self]
  · refine Eq.trans ?_ h.targetSize
    show (if s.self.targetList.test n then s.self.targetList
      else s.self.targetList.reset superNode).size = _
    split <;> rfl

/-- the state after merging and collapsing, before the edges of the super node are processed -/
def collapseScc (F : Config Obj Val) (superNode : NodeID) (rest : List NodeID) (s : St Obj Val) :
    St Obj Val :=
  let s := resetLs superNode (rest.foldl (mergeNode superNode) s)
  { s with core := s.core.collapse F.walk (superNode :: rest) superNode }

omit [DecidableEq Obj] in
theorem processCopySCC_cons (superNode : NodeID) (rest : List NodeID) (s : St Obj Val) :
    processCopySCC F (superNode :: rest) s =
      (F.walk.walk ((collapseScc F superNode rest s).core.graph.succ .copy superNode)).foldl
        (fun s v => copyEdge superNode v s) (collapseScc F superNode rest s) := rfl

section component
variable {superNode : NodeID} {rest : List NodeID} (hg : s.core.graph.Inv)
  (hnd : (superNode :: rest).Nodup)
  (hr : ∀ u ∈ superNode :: rest, ∀ v ∈ superNode :: rest, s.core.graph.CopyReach u v)
include hnd hr

theorem merging_spec :
    Merging F s (rest.foldl (mergeNode superNode) s) superNode (superNode :: rest) [] := by
  refine foldl_rest (I := fun t l => Merging F s t superNode (superNode :: rest) l)
    (fun t n _ l h => h.next (List.mem_cons_self ..) hr) ?_
  refine ⟨rfl, rfl, .refl, hnd, fun n hn => ⟨List.mem_cons_of_mem _ hn, rfl⟩, fun n hn => ?_,
    fun _ _ => rfl, rfl, rfl, fun _ h => h⟩
  rcases List.mem_cons.mp hn with rfl | hn
  · exact .inr (Finset.Subset.refl _)
  · exact .inl hn

include hg

theorem collapseScc_spec (hlen : 1 < (superNode :: rest).length) :
    CopyRun F s (collapseScc F superNode rest s) ∧
      Collapsed s.core.graph (collapseScc F superNode rest s).core.graph (superNode :: rest)
        superNode ∧
      (collapseScc F superNode rest s).core.handledGEPMap = s.core.handledGEPMap ∧
      (∀ n ∈ superNode :: rest,
        s.core.pts n ⊆ (collapseScc F superNode rest s).core.pts superNode) ∧
      (∀ n, n ∉ superNode :: rest →
        (collapseScc F superNode rest s).core.pts n = s.core.pts n) ∧
      (collapseScc F superNode rest s).self.lsWorkList.test superNode = false := by
  have hm := merging_spec (F := F) hnd hr
  set t := rest.foldl (mergeNode superNode) s with ht
  have hcore : (collapseScc F superNode rest s).core =
      t.core.collapse F.walk (superNode :: rest) superNode := rfl
  have hself : (collapseScc F superNode rest s).self =
      { t.self with lsWorkList := t.self.lsWorkList.reset superNode } := rfl
  have hgraph : (collapseScc F superNode rest s).core.graph =
      s.core.graph.collapseSCCTo F.walk (superNode :: rest) superNode := by
    rw [hcore, graph_collapse, hm.graph]
  obtain ⟨hinv, hcol⟩ := hg.collapse_scc F.walk hnd (List.mem_cons_self ..) hlen hr
  rw [← hgraph] at hinv hcol
  have hts := hm.self
  have hhandled : (collapseScc F superNode rest s).core.handledGEPMap = s.core.handledGEPMap := by
    rw [hcore, handledGEPMap_collapse, hm.handled]
  refine ⟨⟨?_, hinv, hcol.nodeNum, hhandled, ?_, ?_, ?_, ?_, fun x hx => ?_, fun x hx => ?_⟩, hcol,
    hhandled, fun n hn => ?_, fun n hn => ?_, ?_⟩
  · refine hm.steps.tail ?_
    rw [hcore]
    exact .collapse _ _ hnd (List.mem_cons_self ..) hlen (hm.graph ▸ hr)
  · rw [hself, hts]
  · rw [hself, hts]
  · rw [hself, hts]
    exact BitVector.size_reset _
  · rw [hself]
    exact hm.targetSize
  · rw [hself] at hx
    dsimp only at hx
    rw [hts, BitVector.test_reset] at hx
    split at hx
    · cases hx
    · exact hx
  · rw [hself] at hx
    exact hm.targetBit x hx
  · rw [hcore, pts_collapse]
    exact (hm.merged n hn).resolve_left List.not_mem_nil
  · rw [hcore, pts_collapse]
    exact hm.other n hn
  · rw [hself, BitVector.test_reset, if_pos rfl]

end component

/-! ## one entry of the stack -/

/-- a guard that holds before some edges from `u` were processed still holds -/
theorem PropagatedSt.guard {u v : NodeID} {l : List NodeID}
    (h : PropagatedSt F s₀ s u l) (hs : shouldProcessCopy F u v s₀ = true) :
    shouldProcessCopy F u v s = true := by
  have hself := h.self
  have hbit := fun hx => (h.bit u hx).1
  unfold shouldProcessCopy at hs ⊢
  cases hls : s.self.lsWorkList.test u with
  | false => rfl
  | true =>
    rw [hbit hls] at hs
    rw [hself]
    exact hs

theorem processCopyNode_copyRun (hg : s.core.graph.Inv) (u : NodeID) :
    CopyRun F s (processCopyNode F u s) := by
  have h : CopyRun F s (processCopyNode F u s) ∧
      (processCopyNode F u s).core.graph = s.core.graph := by
    refine foldl_inv (I := fun t => CopyRun F s t ∧ t.core.graph = s.core.graph)
      (fun t v hv ⟨h1, h2⟩ => ?_) ⟨.refl hg, rfl⟩
    split
    · have hv' : v ∈ t.core.graph.succ .copy u := h2 ▸ (F.walk.mem_walk _ _).mp hv
      refine ⟨h1.trans ⟨?_, ?_, ?_, ?_, ?_, ?_, ?_, ?_, ?_, ?_⟩, ?_⟩
      · rw [copyEdge_core]
        exact .single (.union u v _ (Finset.Subset.refl _) (.single hv'))
      · rw [copyEdge_core, processCopy, graph_unionPts]
        exact h1.inv
      · rw [copyEdge_core, processCopy, graph_unionPts]
      · rw [copyEdge_core, processCopy, handledGEPMap_unionPts]
      · rw [copyEdge_self]
      · rw [copyEdge_self]
      · exact copyEdge_size u v t
      · rw [copyEdge_self]
      · exact fun x hx => (copyEdge_bit u v x t hx).1
      · intro x hx
        rw [copyEdge_self] at hx
        exact hx
      · rw [copyEdge_core, processCopy, graph_unionPts]
        exact h2
    · exact ⟨h1, h2⟩
  exact h.1

/-- an edge that is left out was satisfied -/
theorem processCopyNode_spec (hg : s.core.graph.Inv) (u : NodeID)
    (hguard : ∀ v, s.core.Unsat u v → shouldProcessCopy F u v s = true) :
    PropagatedSt F s (processCopyNode F u s) u [] := by
  refine foldl_rest (I := fun t l => PropagatedSt F s t u l) (fun t v hv l h => ?_) (.start ..)
  split
  · exact h.copy hg ((F.walk.mem_walk _ _).mp hv)
  · rename_i hno
    exact ⟨h.core.skip fun hun => hno (h.guard (hguard v hun)), h.steps, h.self, h.size, h.bit⟩

theorem processEntry_copyRun {scc : List NodeID} {sccs : List (List NodeID)}
    (hg : s.core.graph.Inv) (h : Rest F.walk s.core.graph (scc :: sccs)) :
    CopyRun F s (processEntry F s scc) ∧
      Rest F.walk (processEntry F s scc).core.graph sccs := by
  unfold processEntry
  split
  · rename_i hlen
    obtain ⟨sn, rest, rfl⟩ : ∃ sn rest, scc = sn :: rest := by
      cases scc with
      | nil => cases hlen
      | cons sn rest => exact ⟨sn, rest, rfl⟩
    obtain ⟨h1, -⟩ := collapseScc_spec (F := F) hg h.nodup_head h.reach_head hlen
    have h2 := propagateAll_spec (F := F) h1.inv sn
    rw [processCopySCC_cons]
    refine ⟨h1.trans (h2.copyRun h1.inv), ?_⟩
    have hm := merging_spec (F := F) h.nodup_head h.reach_head
    rw [h2.core.graph]
    have hgraph : (collapseScc F sn rest s).core.graph =
        s.core.graph.collapseSCCTo F.walk (sn :: rest) sn := by
      rw [← hm.graph]
      exact graph_collapse ..
    rw [hgraph]
    exact h.collapse hg hlen (List.mem_cons_self ..)
  · cases scc with
    | nil => exact ⟨.refl hg, h.tail⟩
    | cons u rest =>
      have h1 := processCopyNode_copyRun (F := F) hg u
      refine ⟨h1, ?_⟩
      have hgraph : (processCopyNode F u s).core.graph = s.core.graph := by
        refine foldl_inv (I := fun t : St Obj Val => t.core.graph = s.core.graph)
          (fun t v _ ht => ?_) rfl
        split
        · rw [copyEdge_core, processCopy, graph_unionPts]
          exact ht
        · exact ht
      rw [hgraph]
      exact h.tail

/-- the worklists mark the copy edge -/
def Due (F : Config Obj Val) (s : St Obj Val) (u v : NodeID) : Prop :=
  s.self.lsWorkList.test u = false ∨ (s.self.copyWorkList.test u = false ∧
    s.self.targetList.test v = false ∧ F.hashEdge u v ∈ s.self.requiredEdge)

omit [DecidableEq Obj] in
theorem Due.guard {u v : NodeID} (h : Due F s u v) : shouldProcessCopy F u v s = true := by
  unfold shouldProcessCopy
  rcases h with h | ⟨h1, h2, h3⟩
  · rw [h]
    rfl
  · rw [h1, h2]
    cases s.self.lsWorkList.test u with
    | false => rfl
    | true => simpa using h3

/-- the marks stay while the copy phase goes on -/
theorem Due.mono {u v : NodeID} (h : Due F s₀ u v) (hr : CopyRun F s₀ s) : Due F s u v := by
  rcases h with h | ⟨h1, h2, h3⟩
  · left
    cases hs : s.self.lsWorkList.test u with
    | false => rfl
    | true => rw [hr.lsBit u hs] at h; cases h
  · right
    refine ⟨by rw [hr.copyWL]; exact h1, ?_, by rw [hr.required]; exact h3⟩
    cases hs : s.self.targetList.test v with
    | false => rfl
    | true => rw [hr.targetBit v hs] at h2; cases h2

/-- The invariant of the copy phase.  An edge that is not satisfied is still to come and is marked. -/
structure Sat (F : Config Obj Val) (G : NodeID → Prop) (s : St Obj Val) (sccs : List (List NodeID)) :
    Prop where
  shape : s.core.Shape G
  rest : Rest F.walk s.core.graph sccs
  unsat : ∀ u v, s.core.Unsat u v → u ∈ sccs.flatten ∧ Due F s u v
  ls : ∀ n, s.self.lsWorkList.test n = true → s.core.LsClosed n

/-- A component that is no scc: its marked edges are processed. -/
theorem Sat.node {u : NodeID} {sccs : List (List NodeID)} (h : Sat F G s ([u] :: sccs)) :
    Sat F G (processCopyNode F u s) sccs := by
  have hg := h.shape.inv
  have hp := processCopyNode_spec (F := F) hg u fun v hv => (h.unsat u v hv).2.guard
  have hrun := hp.copyRun hg
  refine ⟨h.shape.run hp.steps, hp.core.graph ▸ h.rest.tail, fun x y hxy => ?_, fun n hn => ?_⟩
  · obtain ⟨hxu, hxy | hxy⟩ := hp.core.unsat hg hxy
    · obtain ⟨h1, h2⟩ := h.unsat x y hxy
      refine ⟨?_, h2.mono hrun⟩
      exact (List.mem_append.mp h1).resolve_left fun h3 => hxu (List.mem_singleton.mp h3)
    · refine ⟨?_, .inl ?_⟩
      · have hedge := hp.core.changed x hxy
        refine (h.rest.succ_head (List.mem_singleton_self u) hedge).resolve_left fun h3 => ?_
        exact hxu (List.mem_singleton.mp h3)
      · cases hb : (processCopyNode F u s).self.lsWorkList.test x with
        | false => rfl
        | true => exact absurd (hp.bit x hb).2 hxy
  · obtain ⟨h1, h2⟩ := hp.bit n hn
    exact (h.ls n h1).of_graph hp.core.graph hp.core.handled h2

/-- A component that is an scc: it is merged, and all the edges of the super node are processed. -/
theorem Sat.scc {sn : NodeID} {rest : List NodeID} {sccs : List (List NodeID)}
    (h : Sat F G s ((sn :: rest) :: sccs)) (hlen : 1 < (sn :: rest).length) :
    Sat F G (processCopySCC F (sn :: rest) s) sccs := by
  have hg := h.shape.inv
  have hnd := h.rest.nodup_head
  have hr := h.rest.reach_head
  have hsn : sn ∈ sn :: rest := List.mem_cons_self ..
  obtain ⟨hrun, hcol, hh, hmem, hother, hbit⟩ := collapseScc_spec (F := F) hg hnd hr hlen
  have hrest := (processEntry_copyRun (F := F) hg h.rest).2
  rw [processEntry, if_pos hlen] at hrest
  rw [processCopySCC_cons] at hrest ⊢
  set t := collapseScc F sn rest s with ht
  have hp := propagateAll_spec (F := F) hrun.inv sn
  set r := (F.walk.walk (t.core.graph.succ .copy sn)).foldl (fun s v => copyEdge sn v s) t
  have hrun' := hrun.trans (hp.copyRun hrun.inv)
  refine ⟨h.shape.run hrun'.steps, hrest, fun x y hxy => ?_, fun n hn => ?_⟩
  · obtain ⟨hxs, hxy | hxy⟩ := hp.core.unsat hrun.inv hxy
    · have hleft := unsat_collapse_rest h.rest (fun u v huv => (h.unsat u v huv).1) hcol hmem hother hxy
      obtain ⟨hx, hold⟩ := hleft.resolve_left hxs
      exact ⟨hx, (h.unsat x y hold).2.mono hrun'⟩
    · refine ⟨h.rest.succ_collapsed hcol hsn (hp.core.changed x hxy) hxs, .inl ?_⟩
      cases hb : r.self.lsWorkList.test x with
      | false => rfl
      | true => exact absurd (hp.bit x hb).2 hxy
  · obtain ⟨h1, h2⟩ := hp.bit n hn
    have hns : n ≠ sn := by
      rintro rfl
      rw [hbit] at h1; cases h1
    refine LsClosed.of_graph ?_ hp.core.graph hp.core.handled h2
    by_cases hn' : n ∈ sn :: rest
    · refine LsClosed.of_merged hrun.inv (m := sn) ?_
      rw [hcol.superOf, if_pos ⟨hn', hns⟩]
    · exact (h.ls n (hrun.lsBit n h1)).collapse h.shape hnd hsn hlen hr hcol hh hn' (hother n hn')

theorem Sat.entry {scc : List NodeID} {sccs : List (List NodeID)} (h : Sat F G s (scc :: sccs)) :
    Sat F G (processEntry F s scc) sccs := by
  have hne := h.rest.ne_nil scc (List.mem_cons_self ..)
  cases scc with
  | nil => exact absurd rfl hne
  | cons u rest =>
    unfold processEntry
    split
    · rename_i hlen
      exact h.scc hlen
    · rename_i hlen
      have hrest : rest = [] := by
        rw [List.length_cons] at hlen
        exact List.length_eq_zero_iff.mp (by omega)
      subst hrest
      exact h.node

/-! ## the whole phase -/

omit [DecidableEq Obj] in
/-- the stack of components that the copy phase goes through -/
theorem copyPhase_eq (hg : s.core.graph.Inv)
    (hsize : s.self.copyWorkList.size = s.core.graph.nodeNum) :
    ∃ sccs, copyPhase F s = some (sccs.foldl (processEntry F) s) ∧
      SccOrder (s.core.graph.copyGraph F.walk) s.self.copyWorkList.test sccs := by
  obtain ⟨sccs, h1, h2⟩ := SCCIterator.startFrom_spec (G := s.core.graph.copyGraph F.walk)
    hg.child_lt s.self.copyWorkList hsize
  exact ⟨sccs, by rw [copyPhase, h1]; rfl, h2⟩

/-- the copy phase returns, in steps of a solver -/
theorem copyPhase_copyRun (hg : s.core.graph.Inv)
    (hsize : s.self.copyWorkList.size = s.core.graph.nodeNum) :
    ∃ s', copyPhase F s = some s' ∧ CopyRun F s s' := by
  obtain ⟨sccs, h1, h2⟩ := copyPhase_eq (F := F) hg hsize
  refine ⟨_, h1, ?_⟩
  have h := foldl_rest (f := processEntry F) (l := sccs) (s := s)
    (I := fun t l => CopyRun F s t ∧ Rest F.walk t.core.graph l)
    (fun t scc _ l ⟨i1, i2⟩ => by
      obtain ⟨j1, j2⟩ := processEntry_copyRun (F := F) i1.inv i2
      exact ⟨i1.trans j1, j2⟩) ⟨.refl hg, .of_sccOrder h2⟩
  exact h.1

/-- If the copy edges that are not satisfied are marked and start in unset nodes, then after the
copy phase every copy edge is satisfied. -/
theorem copyPhase_spec (hsh : s.core.Shape G)
    (hsize : s.self.copyWorkList.size = s.core.graph.nodeNum)
    (hunsat : ∀ u v, s.core.Unsat u v → s.self.copyWorkList.test u = false ∧ Due F s u v)
    (hls : ∀ n, s.self.lsWorkList.test n = true → s.core.LsClosed n) :
    ∃ s', copyPhase F s = some s' ∧ (∀ u v, ¬ s'.core.Unsat u v) ∧
      ∀ n, s'.self.lsWorkList.test n = true → s'.core.LsClosed n := by
  obtain ⟨sccs, h1, h2⟩ := copyPhase_eq (F := F) hsh.inv hsize
  refine ⟨_, h1, ?_⟩
  have h := foldl_rest (f := processEntry F) (l := sccs) (s := s)
    (I := fun t l => Sat F G t l) (fun t scc _ l ht => ht.entry)
    ⟨hsh, .of_sccOrder h2, fun u v huv => ?_, hls⟩
  · exact ⟨fun u v huv => absurd (h.unsat u v huv).1 List.not_mem_nil, h.ls⟩
  · obtain ⟨h3, h4⟩ := hunsat u v huv
    have hu := hsh.inv.source_none huv.1
    refine ⟨h2.covers u (hsh.inv.edge_lt _ _ _ huv.1).1 h3 ?_, h4⟩
    show s.core.graph.hasSuperNode u = false
    rw [hasSuperNode, hu]
    rfl

end PartialUpdate

end AserPTA
