import AserPTA.Solver.PartialUpdateRun

/-!
# The rounds of PartialUpdateSolver

After a run `solve` lets `resolveFunPtrs` add nodes and constraints, calls `onNewConstraint` for the
new ones, and runs again.

* `processLoad_onNewCopy` and the like
                       what `onNewConstraint` adds is recorded once, whoever records it;
* `Recorded`           the constraints that `onNewConstraint` records at the right ids;
* `Between`            the invariant between two runs: it makes the next run right;
* `Late`, `Solved`     one edit between two runs, and the states after the runs of `solve`;
* `solved_least`       if every late constraint is `Recorded`, every run ends in the least solution.
-/

namespace AserPTA

open Relation Loop

variable {Obj Val : Type}

theorem ConsGraph.addConstraints_eq {g : ConsGraph Obj Val} (src dst : NodeID) (k : Constraints) :
    g.addConstraints src dst k = g.insertConstraint (k.source src) dst k.stored := by
  rw [addConstraints, Constraints.source, Constraints.stored]
  split
  · rename_i h
    rw [h.1, h.2]
    simp [insertConstraint]
  · split <;> rfl

namespace PartialUpdate

open AserPTA.Core ConsGraph State

variable [DecidableEq Obj] {F : Config Obj Val} {s s' t : St Obj Val} {N : Nat}

/-! ## recording twice -/

omit [DecidableEq Obj] in
theorem recordCopyEdge_self (a b : NodeID) (s : St Obj Val) :
    recordCopyEdge F a b (recordCopyEdge F a b s) = recordCopyEdge F a b s := by
  have hreset : ∀ (l : BitVector) (i : NodeID), (l.reset i).reset i = l.reset i := fun l i => by
    simp only [BitVector.reset, BitVector.mk.injEq, true_and]
    funext j
    split <;> rfl
  by_cases ha : a < s.self.copyWorkList.size <;> by_cases hb : b < s.self.targetList.size <;>
    simp only [recordCopyEdge, ha, hb, if_true, if_false, BitVector.size_reset, hreset,
      Finset.insert_idem]

omit [DecidableEq Obj] in
theorem recordCopyEdge_onNewCopy (a b : NodeID) (s : St Obj Val) :
    recordCopyEdge F a b (onNewCopy F N a b s) = recordCopyEdge F a b s := by
  rw [onNewCopy]
  split
  · exact recordCopyEdge_self a b s
  · rfl

omit [DecidableEq Obj] in
theorem addCopyThen_onNewCopy (a b : NodeID) (r : St Obj Val × Bool) :
    addCopyThen (onNewCopy F N) (recordCopyEdge F) a b r =
      addCopyThen noop (recordCopyEdge F) a b r := by
  rw [addCopyThen_eq, addCopyThen_eq]
  dsimp only [noop]
  rw [recordCopyEdge_onNewCopy]

omit [DecidableEq Obj] in
theorem processLoad_onNewCopy (dst : NodeID) (diff : Finset NodeID) (s : St Obj Val) :
    s.processLoad (onNewCopy F N) (recordCopyEdge F) dst diff =
      s.processLoad noop (recordCopyEdge F) dst diff := by
  simp only [processLoad, addCopyThen_onNewCopy]

omit [DecidableEq Obj] in
theorem processStore_onNewCopy (src : NodeID) (diff : Finset NodeID) (s : St Obj Val) :
    s.processStore (onNewCopy F N) (recordCopyEdge F) src diff =
      s.processStore noop (recordCopyEdge F) src diff := by
  simp only [processStore, addCopyThen_onNewCopy]

theorem processOffset_onNewCopy (src dst : NodeID) (s : St Obj Val) :
    s.processOffset F.mem (onNewCopy F N) (recordAddrOf F) src dst =
      s.processOffset F.mem noop (recordAddrOf F) src dst := by
  have hadd : ∀ (i d : NodeID) (s : St Obj Val),
      recordAddrOf F i d (addAddrOf s (onNewCopy F N) i d).1 =
        recordAddrOf F i d (addAddrOf s noop i d).1 := fun i d s => by
    rw [addAddrOf_eq, addAddrOf_eq]
    dsimp only [noop]
    split
    · exact recordCopyEdge_onNewCopy ..
    · rfl
  have hstep : ∀ (gep : Val), offsetStep F.mem (onNewCopy F N) (recordAddrOf F) dst gep =
      offsetStep F.mem noop (recordAddrOf F) dst gep := fun gep => by
    funext r x
    simp only [offsetStep, hadd]
  simp only [processOffset, hstep]

/-- the callback of one new constraint -/
theorem onNewConstraint_eq (src dst : NodeID) (k : Constraints) (s : St Obj Val) :
    onNewConstraint F N src dst k s =
      match k with
      | .copy => if src < N then recordCopyEdge F src dst s else s
      | .offset =>
        if src < N then (s.processOffset F.mem noop (recordAddrOf F) src dst).1 else s
      | .load =>
        if src < N then (s.processLoad noop (recordCopyEdge F) dst (s.core.pts src)).1 else s
      | .store =>
        if dst < N then (s.processStore noop (recordCopyEdge F) src (s.core.pts dst)).1 else s
      | .addrOf => s := by
  cases k <;>
    simp only [onNewConstraint, onNewCopy, processLoad_onNewCopy, processStore_onNewCopy,
      processOffset_onNewCopy]

theorem addConstraints_eq (src dst : NodeID) (k : Constraints) (s : St Obj Val) :
    addConstraints F N src dst k s =
      let r := s.core.graph.insertConstraint (k.source src) dst k.stored
      if r.2 then onNewConstraint F N (k.source src) dst k.stored (s.withGraph r.1)
      else s.withGraph r.1 := by
  rw [addConstraints, ConsGraph.addConstraints_eq]
  dsimp only [withGraph]
  cases k <;> rfl

/-! ## late constraints -/

/-- A late constraint of the kind that is stored, from `a` to `b`, that `onNewConstraint` gets right:
if it has to do something (the constraint is new, and it starts in one of the `N` old nodes, or ends in
one for a store), then it is called with nodes that are not merged. -/
def Recorded (N : Nat) (c : Core Obj Val) (a b : NodeID) (k : Constraints) : Prop :=
  c.graph.Covers k a b ∨
  match k with
  | .copy => a < N → (c.graph.superOf a = none ∧ c.graph.superOf b = none) ∨
      c.pts (c.graph.getSuperNode a) ⊆ c.pts (c.graph.getSuperNode b)
  | .load => a < N → c.graph.superOf a = none ∧ c.graph.superOf b = none
  | .store => b < N → c.graph.superOf a = none ∧ c.graph.superOf b = none
  | .offset => a < N → c.graph.superOf a = none
  | .addrOf => True

/-- an edit while the callback is registered -/
def lateEdit (F : Config Obj Val) (N : Nat) (s : St Obj Val) : Edit Obj Val → St Obj Val
  | .addCGNode kind => addCGNode kind s
  | .addConstraints src dst k => addConstraints F N src dst k s

/-- what `onNewConstraint` gets right -/
def RecordedEdit (N : Nat) (c : Core Obj Val) : Edit Obj Val → Prop
  | .addCGNode _ => True
  | .addConstraints src dst k => Recorded N c (k.source src) dst k.stored

/-- the invariant after a run on `N` nodes, until the next one -/
structure Between (F : Config Obj Val) (N : Nat) (g : Given Obj Val) (s : St Obj Val) : Prop where
  tracks : s.core.Tracks F.mem g.gep g.cons
  le : N ≤ s.core.graph.nodeNum
  copySize : s.self.copyWorkList.size = N
  lsSize : s.self.lsWorkList.size = N
  targetSize : s.self.targetList.size = N
  fresh : ∀ n, N ≤ n → s.core.graph.superOf n = none
  unsat : ∀ u v, s.core.Unsat u v → N ≤ u ∨ Marked F False False s u v
  closed : ∀ n < N, s.core.LsClosed n

omit [DecidableEq Obj] in
/-- extending the lists makes the state ready for the next run -/
theorem Between.ready {g : Given Obj Val} (h : Between F N g s) :
    Ready F g.gep (extendLists s) := by
  have hext : ∀ (l : BitVector) (n i : Nat), (i < l.size → l.test i = false) →
      (l.resize n false).test i = false := fun l n i hi => by
    rw [BitVector.test_resize]
    split
    · exact hi ‹_›
    · rfl
  have hnew : ∀ (l : BitVector) (n i : Nat), l.size = N → N ≤ i →
      (l.resize n false).test i = false := fun l n i hl hi =>
    hext l n i fun hlt => absurd (hl ▸ hlt) (not_lt.mpr hi)
  refine ⟨h.tracks.shape, sized_extendLists s, fun u v huv => ?_, fun n hn => ?_,
    h.tracks.indexed⟩
  · rcases h.unsat u v huv with hu | ⟨h1, h2⟩
    · exact ⟨hnew _ _ u h.copySize hu, .inl (hnew _ _ u h.lsSize hu)⟩
    · obtain ⟨-, h3, h4⟩ := h2.resolve_left fun h5 => h5.1
      exact ⟨hext _ _ u h1, .inr ⟨hext _ _ u h1, hext _ _ v h3, h4⟩⟩
  · refine h.closed n (Nat.lt_of_not_le fun hle => ?_)
    rw [show (extendLists s).self.lsWorkList.test n = _ from hnew _ _ n h.lsSize hle] at hn
    cases hn

/-- the constraint of kind `k` from `a` to `b`, two nodes that are not merged, needs no other work
after the callback than what the lists mark -/
def EdgeDone (F : Config Obj Val) (N : Nat) (a b : NodeID) (s : St Obj Val) : Constraints → Prop
  | .copy => s.core.Unsat a b → N ≤ a ∨ Marked F False False s a b
  | .load => a < N → ∀ x ∈ s.core.pts a, s.core.graph.Covers .copy x b
  | .store => b < N → ∀ x ∈ s.core.pts b, s.core.graph.Covers .copy a x
  | .offset => a < N → s.core.pts a ⊆ s.core.handledGEPMap b
  | .addrOf => True

section
variable {g g' : Given Obj Val} {a b : NodeID} {k : Constraints}

theorem LsRun.pts_old {s₀ : St Obj Val} (h : LsRun F False False s₀ s) {n : NodeID}
    (hn : n < s₀.core.graph.nodeNum) : s.core.pts n = s₀.core.pts n :=
  (h.pts n hn).resolve_right fun h1 => h1.1

omit [DecidableEq Obj] in
/-- recording alone -/
theorem Marked.of_self {u v : NodeID} (h : Marked F False False s u v) (hs : s'.self = s.self) :
    Marked F False False s' u v := by
  rwa [Marked, hs]

/-- A constraint is inserted, which makes `t` of `s`, and the callback makes `s'` of `t`. -/
theorem Between.inserted (h : Between F N g s)
    (ht : t = s.withGraph (s.core.graph.insertConstraint a b k).1)
    (htracks : t.core.Tracks F.mem g'.gep g'.cons) (hrun : LsRun F False False t s')
    (hi : s'.core.AllIndexed F.mem)
    (hedge : (s.core.graph.insertConstraint a b k).2 = true →
      EdgeDone F N (s.core.graph.getSuperNode a) (s.core.graph.getSuperNode b) s' k) :
    Between F N g' s' := by
  have hn := insertConstraint_sameNodes (g := s.core.graph) a b k
  subst ht
  set t := s.withGraph (s.core.graph.insertConstraint a b k).1 with ht
  -- an edge of `t` is an old one, or it is the new one and what is said of it holds
  have hsucc : ∀ k' u v, v ∈ t.core.graph.succ k' u → v ∈ s.core.graph.succ k' u ∨
      k' = k ∧ u = s.core.graph.getSuperNode a ∧ v = s.core.graph.getSuperNode b ∧
        EdgeDone F N u v s' k := by
    intro k' u v huv
    rcases (mem_succ_insertConstraint a b k k' u v).mp huv with h1 | ⟨rfl, rfl, rfl, h2⟩
    · exact .inl h1
    · by_cases hold : s.core.graph.getSuperNode b ∈ s.core.graph.succ k' (s.core.graph.getSuperNode a)
      · exact .inl hold
      · exact .inr ⟨rfl, rfl, rfl, hedge ((insertConstraint_snd a b k').mpr ⟨hold, h2⟩)⟩
  have hcov : ∀ k' u v, k' ≠ .addrOf → s.core.graph.Covers k' u v → s'.core.graph.Covers k' u v :=
    fun k' u v hk huv => hrun.ext.covers hk (covers_insertConstraint huv)
  have hpts : ∀ n < s.core.graph.nodeNum, s'.core.pts n = s.core.pts n := fun n hlt =>
    hrun.pts_old (hn.nodeNum.symm ▸ hlt)
  refine ⟨htracks.run hrun.ext.steps hi, h.le.trans (hn.nodeNum.symm ▸ hrun.ext.nodeNum),
    hrun.copySize.trans h.copySize, hrun.lsSize.trans h.lsSize, hrun.targetSize.trans h.targetSize,
    fun n hN => ?_, fun u v huv => ?_, fun n hN => ?_⟩
  · exact (hrun.ext.superOf n).trans ((hn.superOf n).trans (h.fresh n hN))
  · rcases hrun.unsat _ htracks.shape u v huv with ⟨h1, h2⟩ | h1
    · rcases hsucc _ u v h1 with h3 | ⟨rfl, rfl, rfl, h3⟩
      · refine (h.unsat u v ⟨h3, h2⟩).imp_right fun h4 => hrun.marked ?_
        exact Marked.of_self h4 rfl
      · exact h3 huv
    · exact .inr h1
  · have hc := h.closed n hN
    have hp := hpts n (hN.trans_le h.le)
    refine ⟨fun v hv x hx => ?_, fun u hu x hx => ?_, fun d hd => ?_⟩
    · rw [hrun.ext.succ .load (by decide) (by decide)] at hv
      rcases hsucc _ n v hv with h1 | ⟨rfl, rfl, rfl, h1⟩
      · exact hcov _ _ _ (by decide) (hc.load v h1 x (hp ▸ hx))
      · exact h1 hN x hx
    · rw [hrun.ext.succ .store (by decide) (by decide)] at hu
      rcases hsucc _ u n hu with h1 | ⟨rfl, rfl, rfl, h1⟩
      · exact hcov _ _ _ (by decide) (hc.store u h1 x (hp ▸ hx))
      · exact h1 hN x hx
    · rw [hrun.ext.succ .offset (by decide) (by decide)] at hd
      rcases hsucc _ n d hd with h1 | ⟨rfl, rfl, rfl, h1⟩
      · rw [hp]
        exact (hc.offset d h1).trans (hrun.ext.handled d)
      · exact h1 hN

omit [DecidableEq Obj] in
/-- where the insertion has just made the edge, between nodes that are not merged -/
theorem mem_of_new (hnew : (s.core.graph.insertConstraint a b k).2 = true)
    (ha : s.core.graph.superOf a = none) (hb : s.core.graph.superOf b = none) :
    b ∈ (s.core.graph.insertConstraint a b k).1.succ k a := by
  have h1 := (insertConstraint_snd a b k).mp hnew
  have h2 := mem_succ_insertConstraint (g := s.core.graph) a b k k a b
  rw [getSuperNode_of_none ha, getSuperNode_of_none hb] at h1 h2
  exact h2.mpr (.inr ⟨rfl, rfl, rfl, h1.2⟩)

/-- The callback of an edge from `a` to `b` handles a load, a store or an offset: the node whose points-to
set is read is one of the `N` old ones. -/
def Handles (N : Nat) (a b : NodeID) : Constraints → Prop
  | .load | .offset => a < N
  | .store => b < N
  | .copy | .addrOf => False

/-- what the callback does, where the edge that it handles is there -/
theorem onNewConstraint_run (h : s.core.Sane) (ha : a < s.core.graph.nodeNum)
    (hedge : Handles N a b k → b ∈ s.core.graph.succ k a) :
    LsRun F False False s (onNewConstraint F N a b k s) := by
  rw [onNewConstraint_eq]
  cases k with
  | addrOf => exact .refl ..
  | copy =>
    dsimp only
    split
    · exact .recordOnly ha
    · exact .refl ..
  | load =>
    dsimp only
    split
    · rename_i hN
      have hE := ends_load (M := F.mem) (w := F.walk) h (hedge hN) (Finset.Subset.refl _)
      exact (addCopies_run (F := F) (I := False) (A := False) h hE fun _ _ h => h.elim).1
    · exact .refl ..
  | store =>
    dsimp only
    split
    · rename_i hN
      have hE := ends_store (M := F.mem) (w := F.walk) h (hedge hN) (Finset.Subset.refl _)
      exact (addCopies_run (F := F) (I := False) (A := False) h hE fun _ _ h => h.elim).1
    · exact .refl ..
  | offset =>
    dsimp only
    split
    · rename_i hN
      exact recordAddrOf_run (F := F) (I := False) (A := False) h (hedge hN) fun h => h.elim
    · exact .refl ..

/-- What the callback does after the graph got the constraint.  The assertions of `processLoad`,
`processStore` and `processOffset` ask for nodes that are not merged. -/
theorem addConstraints_steps {src dst : NodeID} {k : Constraints} {c : Core Obj Val}
    (hc : c = { s.core with graph := (s.core.graph.addConstraints src dst k).1 }) (hsane : c.Sane)
    (hsrc : k.source src < s.core.graph.nodeNum)
    (hassert : Handles N (k.source src) dst k.stored →
      s.core.graph.superOf (k.source src) = none ∧ s.core.graph.superOf dst = none) :
    Steps F.mem F.walk c (addConstraints F N src dst k s).core := by
  rw [ConsGraph.addConstraints_eq] at hc
  rw [addConstraints_eq]
  have hsame := insertConstraint_sameNodes (g := s.core.graph) (k.source src) dst k.stored
  set t := s.withGraph (s.core.graph.insertConstraint (k.source src) dst k.stored).1 with ht
  have htc : t.core = c := hc.symm
  dsimp only
  split
  · rename_i hnew
    have hrun : LsRun F False False t (onNewConstraint F N (k.source src) dst k.stored t) :=
      onNewConstraint_run (htc ▸ hsane) (hsame.nodeNum.symm ▸ hsrc)
        fun hN => mem_of_new hnew (hassert hN).1 (hassert hN).2
    exact htc ▸ hrun.ext.steps
  · exact htc ▸ .refl

/-- what the callback of a new constraint does -/
theorem Between.callback (h : Between F N g s) {t : St Obj Val}
    (ht : t = s.withGraph (s.core.graph.insertConstraint a b k).1)
    (htracks : t.core.Tracks F.mem g'.gep g'.cons)
    (hnew : (s.core.graph.insertConstraint a b k).2 = true) (hrec : Recorded N s.core a b k)
    (ha : a < s.core.graph.nodeNum) (hok : s.core.EdgeOk g.gep a b k) :
    let s' := onNewConstraint F N a b k t
    LsRun F False False t s' ∧ s'.core.AllIndexed F.mem ∧
      EdgeDone F N (s.core.graph.getSuperNode a) (s.core.graph.getSuperNode b) s' k := by
  intro s'
  have hn := insertConstraint_sameNodes (g := s.core.graph) a b k
  have hsh := htracks.shape
  have hsane := hsh.sane
  have hsnd := (insertConstraint_snd a b k).mp hnew
  replace hrec := hrec.resolve_left fun hc => hc.elim hsnd.1 fun h1 => hsnd.2 ⟨h1.2, h1.1⟩
  have hold : ∀ {n : NodeID}, N ≤ n → s.core.graph.getSuperNode n = n := fun hN =>
    getSuperNode_of_none (h.fresh _ hN)
  have hs' : s' = _ := onNewConstraint_eq a b k t
  -- the nodes of an edge that is handled are not merged
  have hfree : Handles N a b k → s.core.graph.superOf a = none ∧ s.core.graph.superOf b = none := by
    intro hN
    cases k with
    | addrOf => exact hN.elim
    | copy => exact hN.elim
    | load => exact hrec hN
    | store => exact hrec hN
    | offset => exact ⟨hrec hN, (h.tracks.shape.gep_fixed b (hok.offset rfl)).1⟩
  have hedge : Handles N a b k → b ∈ t.core.graph.succ k a :=
    fun hN => ht ▸ mem_of_new hnew (hfree hN).1 (hfree hN).2
  have hrun : LsRun F False False t s' :=
    onNewConstraint_run hsane (ht ▸ hn.nodeNum.symm ▸ ha) hedge
  cases k with
  | addrOf => exact hs' ▸ ⟨.refl .., htracks.indexed, trivial⟩
  | copy =>
    dsimp only at hs' hrec
    split at hs'
    · rename_i hN
      rw [hs'] at hrun ⊢
      refine ⟨hrun, htracks.indexed, fun hunsat => ?_⟩
      rcases hrec hN with ⟨h1, h2⟩ | h1
      · rw [getSuperNode_of_none h1, getSuperNode_of_none h2]
        exact .inr (marked_recordCopyEdge fun h => h.elim)
      · refine absurd ?_ hunsat.2
        show t.core.pts _ ⊆ t.core.pts _
        rw [ht]
        exact h1
    · rename_i hN
      rw [hs']
      exact ⟨.refl .., htracks.indexed, fun _ => .inl ((hold (not_lt.mp hN)).symm ▸ not_lt.mp hN)⟩
  | load =>
    dsimp only at hs'
    split at hs'
    · rename_i hN
      obtain ⟨h1, h2⟩ := hfree hN
      replace hedge := hedge hN
      obtain ⟨-, h3, -, h4⟩ := processLoad_spec (M := F.mem) (w := F.walk) hsane neutral_noop
        (neutral_recordCopyEdge (F := F)).tame hedge (Finset.Subset.refl _)
      rw [hs'] at hrun ⊢
      rw [getSuperNode_of_none h1, getSuperNode_of_none h2]
      refine ⟨hrun, htracks.indexed.run hsh hrun.ext.steps h3, fun _ x hx => h4 x ?_⟩
      exact hrun.pts_old (hsane.inv.edge_lt _ _ _ hedge).1 ▸ hx
    · rename_i hN
      rw [hs', hold (not_lt.mp hN)]
      exact ⟨.refl .., htracks.indexed, fun h => absurd h hN⟩
  | store =>
    dsimp only at hs'
    split at hs'
    · rename_i hN
      obtain ⟨h1, h2⟩ := hfree hN
      replace hedge := hedge hN
      obtain ⟨-, h3, -, h4⟩ := processStore_spec (M := F.mem) (w := F.walk) hsane neutral_noop
        (neutral_recordCopyEdge (F := F)).tame hedge (Finset.Subset.refl _)
      rw [hs'] at hrun ⊢
      rw [getSuperNode_of_none h1, getSuperNode_of_none h2]
      refine ⟨hrun, htracks.indexed.run hsh hrun.ext.steps h3, fun _ x hx => h4 x ?_⟩
      exact hrun.pts_old (hsane.inv.edge_lt _ _ _ hedge).2 ▸ hx
    · rename_i hN
      rw [hs', hold (not_lt.mp hN)]
      exact ⟨.refl .., htracks.indexed, fun h => absurd h hN⟩
  | offset =>
    dsimp only at hs'
    split at hs'
    · rename_i hN
      obtain ⟨h1, h2⟩ := hfree hN
      replace hedge := hedge hN
      obtain ⟨-, -, -, h3, h4⟩ := processOffset_spec (M := F.mem) (w := F.walk)
        (recordAddrOf F) hsane neutral_noop hedge fun _ _ _ _ => .refl ..
      rw [hs'] at hrun ⊢
      rw [getSuperNode_of_none h1, getSuperNode_of_none h2]
      refine ⟨hrun, hrun.allIndexed hsh htracks.indexed ?_, fun _ => ?_⟩
      · intro e x hx
        rcases h4 e x hx with h5 | ⟨he, -, h5⟩
        · exact .inl h5
        · rw [he]
          refine .inr ⟨⟨a, ?_⟩, h5⟩
          rwa [hrun.ext.succ .offset (by decide) (by decide)]
      · rw [hrun.pts_old (hsane.inv.edge_lt _ _ _ hedge).1]
        exact h3 (hsh.wf.gep_kind b (hsh.wf.gep_target a b hedge)).2
    · rename_i hN
      rw [hs', hold (not_lt.mp hN)]
      exact ⟨.refl .., htracks.indexed, fun h => absurd h hN⟩

end

/-! ## rounds -/

section
variable {g g' : Given Obj Val} {e : Edit Obj Val}

theorem Between.addConstraints (h : Between F N g s) {src dst : NodeID} {k : Constraints}
    (hs : Given.Step s.core (.addConstraints src dst k) g g')
    (hrec : Recorded N s.core (k.source src) dst k.stored) :
    Between F N g' (addConstraints F N src dst k s) := by
  have htracks := h.tracks.edit hs
  cases hs with
  | constraint _ _ _ hl hok =>
    have hsrc := h.tracks.source_lt hl
    rw [Edit.apply, ConsGraph.addConstraints_eq] at htracks
    rw [addConstraints_eq]
    dsimp only
    split
    · rename_i hnew
      obtain ⟨h1, h2, h3⟩ := h.callback (t := s.withGraph _) rfl htracks hnew hrec hsrc hok
      exact h.inserted rfl htracks h1 h2 fun _ => h3
    · rename_i hnew
      exact h.inserted rfl htracks (.refl ..) htracks.indexed fun h1 => absurd h1 hnew

omit [DecidableEq Obj] in
theorem Between.addCGNode (h : Between F N g s) {kind : NodeKind Obj Val}
    (hs : Given.Step s.core (.addCGNode kind) g g') : Between F N g' (addCGNode kind s) := by
  have hadd := h.tracks.shape.nodeAdded kind
  have hinv := h.tracks.shape.inv
  set s' := PartialUpdate.addCGNode kind s with hs'
  have hold : ∀ n < s.core.graph.nodeNum, s'.core.pts n = s.core.pts n :=
    fun n hn => Shape.pts_addCGNode_of_lt hn
  have hsucc : ∀ k, k ≠ .addrOf → ∀ n, s'.core.graph.succ k n = s.core.graph.succ k n :=
    fun k hk n => hadd.succ k hk n
  refine ⟨h.tracks.edit hs, h.le.trans hadd.lt.le, h.copySize, h.lsSize, h.targetSize, fun n hn => ?_,
    fun u v ⟨h1, h2⟩ => ?_, fun n hn => ⟨fun v hv x hx => ?_, fun u hu x hx => ?_, fun d hd => ?_⟩⟩
  · exact (congrFun hadd.superOf n).trans (h.fresh n hn)
  · rw [hsucc .copy (by decide)] at h1
    obtain ⟨hu, hv⟩ := hinv.edge_lt _ _ _ h1
    rw [hold u hu, hold v hv] at h2
    exact h.unsat u v ⟨h1, h2⟩
  · rw [hsucc .load (by decide)] at hv
    rw [hold n (hn.trans_le h.le)] at hx
    exact covers_nodeAdded hadd (by decide) ((h.closed n hn).load v hv x hx)
  · rw [hsucc .store (by decide)] at hu
    rw [hold n (hn.trans_le h.le)] at hx
    exact covers_nodeAdded hadd (by decide) ((h.closed n hn).store u hu x hx)
  · rw [hsucc .offset (by decide)] at hd
    rw [hold n (hn.trans_le h.le)]
    exact (h.closed n hn).offset d hd

/-- one edit between two runs -/
def Edited (F : Config Obj Val) (N : Nat) (e : Edit Obj Val) (a b : Given Obj Val × St Obj Val) :
    Prop :=
  Given.Step a.2.core e a.1 b.1 ∧ b.2 = lateEdit F N a.2 e

/-- one edit between two runs that `onNewConstraint` gets right -/
def Late (F : Config Obj Val) (N : Nat) (a b : Given Obj Val × St Obj Val) : Prop :=
  ∃ e, Edited F N e a b ∧ RecordedEdit N a.2.core e

theorem Between.late (h : Between F N g s) (hs : Late F N (g, s) (g', t)) :
    Between F N g' t := by
  obtain ⟨e, ⟨h1, rfl⟩, h2⟩ := hs
  cases e with
  | addCGNode kind => exact h.addCGNode h1
  | addConstraints src dst k => exact h.addConstraints h1 h2

theorem Between.lates (h : Between F N g s) {b : Given Obj Val × St Obj Val}
    (hs : ReflTransGen (Late F N) (g, s) b) : Between F N b.1 b.2 := by
  induction hs with
  | refl => exact h
  | tail _ hstep ih => exact ih.late hstep

omit [DecidableEq Obj] in
/-- the invariant at the end of a run -/
theorem Ready.between (h : Ready F g.gep s) (hd : AllDone s)
    (ht : s.core.Tracks F.mem g.gep g.cons) : Between F s.core.graph.nodeNum g s := by
  have hcl := h.closed hd
  refine ⟨ht, le_rfl, h.sized.copyWL, h.sized.ls, h.sized.target, fun n hn => ?_,
    fun u v huv => absurd (hcl.copy u v huv.1) huv.2, fun n hn => ?_⟩
  · cases hsup : s.core.graph.superOf n with
    | none => rfl
    | some m => exact absurd (h.shape.inv.sup_lt _ _ hsup).1 (not_lt.mpr hn)
  · exact h.ls n (BitVector.all_iff.mp hd.ls n (h.sized.ls.symm ▸ hn))

/-- The states at the end of the runs of `solve`, with what the graph has been given so far. -/
inductive Solved (F : Config Obj Val) : Given Obj Val → St Obj Val → Prop where
  | first {s s' : St Obj Val} {fuel : Nat} (G : NodeID → Prop) : s.core.Built →
      s.core.graph.WellFormedOn G → Unset s → runSolver F fuel s = some s' →
      Solved F ⟨s.core.graph.ofGraph, G⟩ s'
  | next {g g' : Given Obj Val} {s t s' : St Obj Val} {fuel : Nat} : Solved F g s →
      ReflTransGen (Late F s.core.graph.nodeNum) (g, s) (g', t) →
      runSolver F fuel (extendLists t) = some s' → Solved F g' s'

theorem Solved.between (h : Solved F g s) : Between F s.core.graph.nodeNum g s ∧
    ∀ n < s.core.graph.nodeNum, ∀ o, s.core.PointsTo n o ↔
      Inclusion.Least (andersen F.mem g.cons) (s.core.graph.name n) o := by
  induction h with
  | first G hb hwf hu hrun =>
    have ht := hb.tracks F.mem hwf
    have hr : Ready F G _ := hu.ready ht
    obtain ⟨h1, h2⟩ := hr.exact ht hrun
    obtain ⟨h3, h4, -⟩ := hr.runSolver hrun
    exact ⟨Ready.between (g := ⟨_, G⟩) h3 h4 h1, h2⟩
  | @next g g' s t s' fuel _ hlate hrun ih =>
    have hbt := ih.1.lates hlate
    obtain ⟨h1, h2⟩ := hbt.ready.exact hbt.tracks hrun
    obtain ⟨h3, h4, -⟩ := hbt.ready.runSolver hrun
    exact ⟨h3.between h4 h1, h2⟩

/-- In every run of `solve` whose late constraints are recorded rightly, every call of `runSolver`
returns, and every node then has the least solution of all constraints given so far. -/
theorem solved_least (h : Solved F g s) :
    (∀ n < s.core.graph.nodeNum, ∀ o, s.core.PointsTo n o ↔
      Inclusion.Least (andersen F.mem g.cons) (s.core.graph.name n) o) ∧
    ∀ b, ReflTransGen (Late F s.core.graph.nodeNum) (g, s) b →
      ∃ fuel s', runSolver F fuel (extendLists b.2) = some s' := by
  refine ⟨h.between.2, fun b hb => ?_⟩
  have hr := (h.between.1.lates hb).ready
  exact runSolver_some hr.shape.sane hr.sized

end

/-! ## a late constraint of the sample -/

/-- after the first run the nodes 2 and 3 are one, and 3 is the super node -/
@[irreducible] def sampleSolved : St Bool Unit :=
  (runSolver sampleConfig 10 sampleState).get (by decide +kernel)

def sampleGiven : Given Bool Unit := ⟨sampleCore.graph.ofGraph, sampleCore.graph.IsGep⟩

theorem sampleSolved_solved : Solved sampleConfig sampleGiven sampleSolved := by
  have hrun : runSolver sampleConfig 10 sampleState = some sampleSolved := by
    unfold sampleSolved
    exact (Option.some_get _).symm
  exact .first (s := sampleState) _ sampleCore_built sampleCore_wellFormed (unset_extendLists _) hrun

/-- a new pointer node, and a copy constraint to it -/
def sampleNode : St Bool Unit := addCGNode (.ptrNode none) sampleSolved

def sampleNodeGiven : Given Bool Unit :=
  { sampleGiven with
    gep := fun n => sampleGiven.gep n ∨ (n = sampleSolved.core.graph.nodeNum ∧ False) }

def sampleLate (src : NodeID) : St Bool Unit := addConstraints sampleConfig 7 src 7 .copy sampleNode

def sampleLateGiven (src : NodeID) : Given Bool Unit :=
  { sampleNodeGiven with
    cons := addCons sampleGiven.cons .copy (sampleNode.core.graph.name src)
      (sampleNode.core.graph.name 7) }

theorem sampleNode_edited : Edited sampleConfig 7 (.addCGNode (.ptrNode none))
    (sampleGiven, sampleSolved) (sampleNodeGiven, sampleNode) :=
  ⟨.node _ False trivial False.elim, rfl⟩

theorem sampleLate_edited (src : NodeID) (h : src < 8) :
    Edited sampleConfig 7 (.addConstraints src 7 .copy) (sampleNodeGiven, sampleNode)
      (sampleLateGiven src, sampleLate src) := by
  have h8 : sampleNode.core.graph.nodeNum = 8 := by decide +kernel
  have h7 : ¬ sampleNode.core.graph.IsAddr 7 := by decide +kernel
  refine ⟨.constraint src 7 .copy ⟨h8 ▸ h, h8 ▸ Nat.lt_succ_self 7, fun h => by cases h⟩
    ⟨fun _ => ⟨h7, ?_⟩, fun h => (by cases h), fun h => (by cases h)⟩, rfl⟩
  · rintro (⟨u, hu⟩ | ⟨-, h⟩)
    · refine absurd (sampleCore_built.fresh.inv.edge_lt _ _ _ hu).2 ?_
      decide +kernel
    · exact h.elim

theorem sampleSolved_nodeNum : sampleSolved.core.graph.nodeNum = 7 := by decide +kernel

/-- the constraint from the super node is recorded rightly -/
theorem sampleLate_solved : ∃ fuel s, runSolver sampleConfig fuel (extendLists (sampleLate 3)) = some s ∧
    Solved sampleConfig (sampleLateGiven 3) s := by
  have h1 : Late sampleConfig 7 _ _ := ⟨_, sampleNode_edited, trivial⟩
  have h2 : Late sampleConfig 7 _ _ := ⟨_, sampleLate_edited 3 (by decide),
    .inr fun _ => .inl ⟨by decide +kernel, by decide +kernel⟩⟩
  have hrun : (runSolver sampleConfig 10 (extendLists (sampleLate 3))).isSome = true := by
    decide +kernel
  obtain ⟨s, hs⟩ := Option.isSome_iff_exists.mp hrun
  refine ⟨10, s, hs, sampleSolved_solved.next ?_ hs⟩
  rw [sampleSolved_nodeNum]
  exact .tail (.single h1) h2

theorem solved_least_sample : ∃ s, Solved sampleConfig (sampleLateGiven 3) s ∧
    (∀ n < s.core.graph.nodeNum, ∀ o, s.core.PointsTo n o ↔
      Inclusion.Least (andersen sampleMem (sampleLateGiven 3).cons) (s.core.graph.name n) o) ∧
    ∀ b, ReflTransGen (Late sampleConfig s.core.graph.nodeNum) (sampleLateGiven 3, s) b →
      ∃ fuel s', runSolver sampleConfig fuel (extendLists b.2) = some s' := by
  obtain ⟨_, s, -, hs⟩ := sampleLate_solved
  exact ⟨s, hs, solved_least hs⟩

/-- The object reaches the first node of the cycle, so it must reach the new node. -/
theorem sampleLate_least :
    Inclusion.Least (andersen sampleMem (sampleLateGiven 2).cons) (sampleNode.core.graph.name 7)
      false := by
  have hsol := Inclusion.Least.solution (andersen sampleMem (sampleLateGiven 2).cons)
  have hname : sampleNode.core.graph.name 2 = sampleCore.graph.name 2 := by decide +kernel
  have hedge : (2 : NodeID) ∈ sampleCore.graph.succ .copy 1 := by decide +kernel
  have h1 : Inclusion.Least (andersen sampleMem (sampleLateGiven 2).cons) (.addr false) false :=
    hsol.base _ _ rfl
  have h2 := hsol.copy (.addr false) (sampleCore.graph.name 2)
    (.inl ⟨1, 2, hedge, by decide +kernel, rfl⟩) false h1
  exact hsol.copy _ _ (.inr ⟨rfl, hname.symm, rfl⟩) false h2

/-- A constraint that starts in a merged node is recorded at that node, and the object is lost. -/
theorem merged_source_lost : ∃ (g : Given Bool Unit) (s : St Bool Unit),
    Solved sampleConfig g s ∧
    ∃ b, ReflTransGen (fun a b => ∃ e, Edited sampleConfig s.core.graph.nodeNum e a b) (g, s) b ∧
    ∃ fuel s', runSolver sampleConfig fuel (extendLists b.2) = some s' ∧
      ¬ ∀ n < s'.core.graph.nodeNum, ∀ o, s'.core.PointsTo n o ↔
        Inclusion.Least (andersen sampleMem b.1.cons) (s'.core.graph.name n) o := by
  have hrun : ∃ s, runSolver sampleConfig 10 (extendLists (sampleLate 2)) = some s ∧
      s.core.graph.nodeNum = 8 ∧ s.core.graph.name 7 = sampleNode.core.graph.name 7 ∧
      s.core.pts (s.core.graph.getSuperNode 7) = ∅ := by decide +kernel
  obtain ⟨s', hs', hnum, hname, hpts⟩ := hrun
  refine ⟨sampleGiven, sampleSolved, sampleSolved_solved, (sampleLateGiven 2, sampleLate 2), ?_, 10, s',
    hs', fun h => ?_⟩
  · rw [sampleSolved_nodeNum]
    exact .tail (.single ⟨_, sampleNode_edited⟩) ⟨_, sampleLate_edited 2 (by decide)⟩
  · obtain ⟨x, hx, -⟩ := (h 7 (by rw [hnum]; decide) false).mpr (hname ▸ sampleLate_least)
    rw [hpts] at hx
    cases hx

end PartialUpdate

end AserPTA
