import AserPTA.Solver.Sound

/-!
# Function pointers that have grown

`updatedFunPtrs` holds the nodes with calls whose points-to sets have grown since it was cleared.  A
call stands at a node, in `indirectNodes` of its representative.  Every step keeps a call where it is,
and either no new object comes to it or its node is noted.  The exception is an insertion into a
points-to set past `processCopy`.

* `Noted`          a representative has a member in `updatedFunPtrs`;
* `InsertOk`       a step is no insertion that has to be noted and is not;
* `Watched`        the call stands at the node, and the objects in `F` are not known to the node
                   unless it is noted;
* `Watched.step`, `Watched.run`   a step keeps this, and so does a run.
-/

namespace AserPTA

open ConsGraph Relation

variable {Obj Val : Type}

namespace Core

/-- some member of the class of `r` is in `updatedFunPtrs` -/
def Noted (c : Core Obj Val) (r : NodeID) : Prop :=
  ∃ q ∈ c.updatedFunPtrs, c.graph.getSuperNode q = r

/-- the step is not the insertion of a new object in `F` into the set of a node with calls that is
not noted -/
def InsertOk (F : Obj → Prop) (c c' : Core Obj Val) : Prop :=
  ∀ d i f, c' = c.setPts d (insert i (c.pts d)) → c.graph.kind i = .objNode f → F f →
    i ∈ c.pts d ∨ c.graph.isFunctionPtr d = false ∨ d ∈ c.updatedFunPtrs

/-- no object in `F` is known to the representative `r` -/
def Without (F : Obj → Prop) (c : Core Obj Val) (r : NodeID) : Prop :=
  ∀ x ∈ c.pts r, ∀ o, c.graph.kind x = .objNode o → ¬ F o

/-- the call stands at the node, and the objects in `F` wait for it or are not there -/
structure Watched (F : Obj → Prop) (c : Core Obj Val) (n : NodeID) (id : CallNodeID) : Prop where
  lt : n < c.graph.nodeNum
  stands : id ∈ c.graph.indirect (c.graph.getSuperNode n)
  waits : c.Without F (c.graph.getSuperNode n) ∨ c.Noted (c.graph.getSuperNode n)

variable {F F' : Obj → Prop} {c c' : Core Obj Val} {G : NodeID → Prop} {n : NodeID} {id : CallNodeID}

theorem InsertOk.mono (h : InsertOk F c c') (hF : ∀ o, F' o → F o) : InsertOk F' c c' :=
  fun d i f hc hi hf => h d i f hc hi (hF f hf)

theorem isFunctionPtr_of_mem {g : ConsGraph Obj Val} {m : NodeID} (h : id ∈ g.indirect m) :
    g.isFunctionPtr m = true := by
  unfold isFunctionPtr
  rw [decide_eq_true_eq]
  exact Finset.ne_empty_of_mem h

/-- a representative represents itself -/
theorem rep_rep {g : ConsGraph Obj Val} (h : g.Inv) (m : NodeID) :
    g.getSuperNode (g.getSuperNode m) = g.getSuperNode m :=
  getSuperNode_of_none (h.superOf_getSuperNode m)

theorem updatedFunPtrs_unionPts {v : NodeID} {new : Finset NodeID} :
    c.updatedFunPtrs ⊆ (c.unionPts v new).1.updatedFunPtrs := by
  unfold unionPts
  split
  · exact Finset.Subset.refl _
  · dsimp only
    split
    · exact Finset.subset_insert ..
    · exact Finset.Subset.refl _

/-- a node with calls is noted when its set grows -/
theorem noted_unionPts {v : NodeID} {new : Finset NodeID} (hnew : ¬ new ⊆ c.pts v)
    (hv : c.graph.isFunctionPtr v = true) : v ∈ (c.unionPts v new).1.updatedFunPtrs := by
  unfold unionPts
  rw [if_neg hnew]
  dsimp only
  rw [if_pos hv]
  exact Finset.mem_insert_self ..

theorem updatedFunPtrs_collapse (w : Walk) (scc : List NodeID) (s : NodeID) :
    c.updatedFunPtrs ⊆ (c.collapse w scc s).updatedFunPtrs := by
  unfold collapse
  dsimp only
  split
  · exact Finset.subset_insert ..
  · exact Finset.Subset.refl _

theorem noted_collapse (w : Walk) {scc : List NodeID} {s : NodeID}
    (hs : (c.graph.collapseSCCTo w scc s).isFunctionPtr s = true) :
    s ∈ (c.collapse w scc s).updatedFunPtrs := by
  unfold collapse
  dsimp only
  rw [if_pos hs]
  exact Finset.mem_insert_self ..

namespace Watched

/-- where the nodes stay what they are and no set gets larger, nothing is to be noted -/
theorem same (h : Watched F c n id) (hle : c.graph.nodeNum ≤ c'.graph.nodeNum)
    (hrep : ∀ m, c'.graph.getSuperNode m = c.graph.getSuperNode m)
    (hind : c.graph.indirect (c.graph.getSuperNode n) ⊆
      c'.graph.indirect (c.graph.getSuperNode n))
    (hupd : c.updatedFunPtrs ⊆ c'.updatedFunPtrs)
    (hpts : c'.pts (c.graph.getSuperNode n) ⊆ c.pts (c.graph.getSuperNode n))
    (hkind : ∀ x ∈ c.pts (c.graph.getSuperNode n), c'.graph.kind x = c.graph.kind x) :
    Watched F c' n id := by
  refine ⟨h.lt.trans_le hle, ?_, ?_⟩
  · rw [hrep]
    exact hind h.stands
  · rw [hrep]
    rcases h.waits with hw | ⟨q, hq, hr⟩
    · left
      intro x hx o ho
      rw [hkind x (hpts hx)] at ho
      exact hw x (hpts hx) o ho
    · exact .inr ⟨q, hupd hq, (hrep q).trans hr⟩

/-- only the edges change -/
theorem insertConstraint (h : Watched F c n id) (a b : NodeID) (k : Constraints) :
    Watched F { c with graph := (c.graph.insertConstraint a b k).1 } n id := by
  have hs := insertConstraint_sameNodes (g := c.graph) a b k
  exact h.same hs.nodeNum.ge hs.getSuperNode (hs.indirect _).ge (Finset.Subset.refl _)
    (Finset.Subset.refl _) fun x _ => hs.kind x

/-- only the set of `d` changes -/
theorem setPts (h : Watched F c n id) (d : NodeID) (s : Finset NodeID)
    (hs : d = c.graph.getSuperNode n → s ⊆ c.pts d) : Watched F (c.setPts d s) n id := by
  refine h.same le_rfl (fun _ => rfl) (Finset.Subset.refl _) (Finset.Subset.refl _) ?_
    fun _ _ => rfl
  intro x hx
  rw [pts_setPts] at hx
  split at hx
  · rename_i hd
    exact hd ▸ hs hd.symm hx
  · exact hx

/-- a set that grows is noted -/
theorem unionPts (h : Watched F c n id) (hg : c.graph.Inv) (v : NodeID) (new : Finset NodeID) :
    Watched F (c.unionPts v new).1 n id := by
  by_cases hgrow : v = c.graph.getSuperNode n ∧ ¬ new ⊆ c.pts v
  · obtain ⟨hv, hnew⟩ := hgrow
    have hnoted := noted_unionPts hnew (hv ▸ isFunctionPtr_of_mem h.stands)
    have hroot : c.graph.getSuperNode v = v := hv ▸ rep_rep hg n
    refine ⟨?_, ?_, .inr ⟨v, hnoted, ?_⟩⟩ <;> rw [graph_unionPts]
    · exact h.lt
    · exact h.stands
    · rw [hroot, hv]
  · refine h.same (by rw [graph_unionPts]) (fun m => by rw [graph_unionPts])
      (by rw [graph_unionPts]) updatedFunPtrs_unionPts ?_ (fun x _ => by rw [graph_unionPts])
    intro x hx
    rw [pts_unionPts] at hx
    split at hx
    · rename_i hd
      have hsub : new ⊆ c.pts v := by
        by_contra hnew
        exact hgrow ⟨hd.symm, hnew⟩
      rcases Finset.mem_union.mp hx with hx | hx
      · exact hx
      · rw [hd]
        exact hsub hx
    · exact hx

/-- a component with calls is noted when it is merged -/
theorem collapse (h : Watched F c n id) (w : Walk) {scc : List NodeID} {s : NodeID}
    (hcol : Collapsed c.graph (c.graph.collapseSCCTo w scc s) scc s) (hs : s ∈ scc)
    (hs0 : c.graph.superOf s = none) : Watched F (c.collapse w scc s) n id := by
  have hrep : ∀ m, (c.collapse w scc s).graph.getSuperNode m =
      target scc s (c.graph.getSuperNode m) := by
    intro m
    rw [graph_collapse]
    exact hcol.getSuperNode m
  by_cases hn : c.graph.getSuperNode n ∈ scc
  · have hstands : id ∈ (c.graph.collapseSCCTo w scc s).indirect s :=
      (hcol.indirect s id).mpr (.inl ⟨rfl, _, .inr hn, h.stands⟩)
    have hnoted := noted_collapse w (isFunctionPtr_of_mem hstands)
    refine ⟨?_, ?_, .inr ⟨s, hnoted, ?_⟩⟩
    · rw [graph_collapse, hcol.nodeNum]
      exact h.lt
    · rw [hrep, target_of_mem s hn, graph_collapse]
      exact hstands
    · rw [hrep, hrep, getSuperNode_of_none hs0, target_of_mem s hs, target_of_mem s hn]
  · have hself := target_of_notMem s hn
    have hne : c.graph.getSuperNode n ≠ s := fun he => hn (he ▸ hs)
    refine ⟨?_, ?_, ?_⟩
    · rw [graph_collapse, hcol.nodeNum]
      exact h.lt
    · rw [hrep, hself, graph_collapse]
      exact (hcol.indirect _ id).mpr (.inr ⟨hne, hn, h.stands⟩)
    · rw [hrep, hself]
      rcases h.waits with hw | ⟨q, hq, hr⟩
      · left
        intro x hx o ho
        rw [pts_collapse] at hx
        rw [graph_collapse, hcol.kind] at ho
        exact hw x hx o ho
      · exact .inr ⟨q, updatedFunPtrs_collapse w scc s hq, by rw [hrep, hr, hself]⟩

/-- an insertion that is noted where it has to be -/
theorem insertPts (h : Watched F c n id) (hg : c.graph.Inv) {d i : NodeID} {f : Obj}
    (hi : c.graph.kind i = .objNode f)
    (hok : F f → i ∈ c.pts d ∨ c.graph.isFunctionPtr d = false ∨ d ∈ c.updatedFunPtrs) :
    Watched F (c.setPts d (insert i (c.pts d))) n id := by
  by_cases hd : d = c.graph.getSuperNode n
  · refine ⟨h.lt, h.stands, ?_⟩
    rcases h.waits with hw | hnoted
    · by_cases hf : F f
      · rcases hok hf with hmem | hno | hnoted
        · exact absurd hf (hw i (hd ▸ hmem) f hi)
        · rw [hd, isFunctionPtr_of_mem h.stands] at hno
          cases hno
        · right
          exact ⟨d, hnoted, hd ▸ rep_rep hg n⟩
      · left
        intro x hx o ho
        rw [graph_setPts, pts_setPts, if_pos hd.symm] at hx
        rcases Finset.mem_insert.mp hx with rfl | hx
        · rw [graph_setPts, hi] at ho
          cases ho
          exact hf
        · exact hw x (hd ▸ hx) o ho
    · exact .inr hnoted
  · exact h.setPts d _ fun he => absurd he hd

/-- a new node is far from the nodes that are there -/
theorem addCGNode (h : Watched F c n id) (hc : c.Shape G) (kind : NodeKind Obj Val) :
    Watched F (c.addCGNode kind) n id := by
  have hadd := hc.nodeAdded kind
  have hlt := hc.inv.getSuperNode_lt h.lt
  refine h.same hadd.lt.le hadd.getSuperNode (hadd.indirect _ hlt).ge (Finset.Subset.refl _) ?_
    fun x hx => hadd.kind_old x (hc.pts_obj _ x hx).1
  intro x hx
  rwa [Shape.pts_addCGNode_of_lt hlt] at hx

end Watched

/-! ## steps and runs -/

/-- a set that does not get the object has it already -/
theorem mem_of_pts_eq {d i : NodeID} (he : c' = c.setPts d (insert i (c.pts d)))
    (hp : c'.pts d = c.pts d) : i ∈ c.pts d := by
  rw [← hp, he, pts_setPts, if_pos rfl]
  exact Finset.mem_insert_self ..

variable [DecidableEq Obj] {M : MemModel Obj Val} {w : Walk}

/-- With a memory model that takes no objects in `F` as fields, no insertion has to be noted. -/
theorem Step.insertOk (hs : Step M w c c') (hc : c.Shape G)
    (hM : ∀ o gep f, M.indexObject o gep = some f → ¬ F f) : InsertOk F c c' := by
  intro d i f he hi hf
  cases hs with
  | unionAll v new _ =>
    by_cases hmem : i ∈ c.pts d
    · exact .inl hmem
    right
    have hd : d = v := by
      by_contra hne
      exact hmem (mem_of_pts_eq he (by rw [pts_unionPts, if_neg hne]))
    have hgrow : ¬ new ⊆ c.pts v := by
      intro hsub
      rw [unionPts_of_subset hsub] at he
      exact hmem (mem_of_pts_eq he rfl)
    cases hv : c.graph.isFunctionPtr d with
    | false => exact .inl rfl
    | true =>
      have hnoted := noted_unionPts hgrow (hd ▸ hv)
      rw [he] at hnoted
      exact .inr (hd ▸ hnoted)
  | clear n m _ _ _ =>
    left
    by_cases hd : d = n
    · have hp := congrArg (fun c : Core Obj Val => c.pts d) he
      rw [pts_setPts, pts_setPts, if_pos hd, if_pos rfl] at hp
      exact absurd hp.symm (Finset.insert_ne_empty _ _)
    · exact mem_of_pts_eq he (by rw [pts_setPts, if_neg hd])
  | collapse scc s _ _ _ _ => exact .inl (mem_of_pts_eq he (by rw [pts_collapse]))
  | load x u v _ _ => exact .inl (mem_of_pts_eq he rfl)
  | store x u v _ _ => exact .inl (mem_of_pts_eq he rfl)
  | handled u v new _ _ => exact .inl (mem_of_pts_eq he rfl)
  | addrOf v x j o f' gep _ _ _ _ _ _ => exact .inl (mem_of_pts_eq he rfl)
  | field v x o f' gep _ _ _ _ _ =>
    have hlt := (hc.nodeAdded (.objNode f')).lt
    have hgraph := congrArg (fun c : Core Obj Val => c.graph.nodeNum) he
    exact absurd hgraph hlt.ne'
  | insert v x j o f' gep _ _ _ hf' _ hj =>
    left
    by_contra hmem
    have hd : d = v := by
      by_contra hne
      exact hmem (mem_of_pts_eq he (by rw [pts_setPts, if_neg hne]))
    have hp := congrArg (fun c : Core Obj Val => c.pts d) he
    rw [pts_setPts, pts_setPts, if_pos hd, if_pos rfl, hd] at hp
    have hij : i ∈ Insert.insert j (c.pts v) := by
      rw [hp]
      exact Finset.mem_insert_self ..
    rcases Finset.mem_insert.mp hij with rfl | hij
    · rw [hj] at hi
      cases hi
      exact hM o gep f hf' hf
    · exact hmem (hd ▸ hij)

/-- so every run of a solver is one whose insertions are noted where they have to be -/
theorem insertOk_run (hc : c.Shape G) (hs : Steps M w c c')
    (hM : ∀ o gep f, M.indexObject o gep = some f → ¬ F f) :
    ReflTransGen (fun c c' => Step M w c c' ∧ InsertOk F c c') c c' := by
  induction hs with
  | refl => exact .refl
  | tail hrun hs ih => exact ih.tail ⟨hs, hs.insertOk (hc.run hrun) hM⟩

namespace Watched

/-- every step of a solver -/
theorem step (h : Watched F c n id) (hc : c.Shape G) (hs : Step M w c c') (hok : InsertOk F c c') :
    Watched F c' n id := by
  cases hs with
  | unionAll v new _ => exact h.unionPts hc.inv v new
  | clear m v _ _ _ => exact h.setPts m ∅ fun _ => Finset.empty_subset _
  | collapse scc s hnd hs hlen hr =>
    exact h.collapse w (hc.inv.collapse_scc w hnd hs hlen hr).2 hs
      (hc.inv.scc_not_merged hnd hlen hr hs).2
  | load x u v _ _ => exact h.insertConstraint _ _ _
  | store x u v _ _ => exact h.insertConstraint _ _ _
  | handled u d new _ _ =>
    exact h.same le_rfl (fun _ => rfl) (Finset.Subset.refl _) (Finset.Subset.refl _)
      (Finset.Subset.refl _) fun _ _ => rfl
  | field d x o f gep _ _ _ _ _ => exact h.addCGNode hc _
  | addrOf d x i o f gep _ _ _ _ _ _ => exact h.insertConstraint _ _ _
  | insert d x i o f gep _ _ _ _ _ hi => exact h.insertPts hc.inv hi fun hf => hok d i f rfl hi hf

/-- a run of a solver -/
theorem run (h : Watched F c n id) (hc : c.Shape G)
    (hs : ReflTransGen (fun c c' => Step M w c c' ∧ InsertOk F c c') c c') : Watched F c' n id := by
  have hboth : c'.Shape G ∧ Watched F c' n id := by
    induction hs with
    | refl => exact ⟨hc, h⟩
    | tail _ hs ih => exact ⟨ih.1.step hs.1, ih.2.step ih.1 hs.1 hs.2⟩
  exact hboth.2

end Watched

end Core

end AserPTA
