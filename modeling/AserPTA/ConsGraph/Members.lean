import AserPTA.ConsGraph.Invariant
import AserPTA.Loop.Fold

/-!
# The members of a super node

`collapseSCCTo` joins the `childNodes` of the merged node to those of the super node, but never adds
the merged node itself.  So the sets start empty and stay empty (`Reachable.noChildren`), and they
are the members of the super nodes exactly as long as no node is merged.

* `Members`                  every super node records the nodes merged into it;
* `Op.Merges`                the call gives some node a super node;
* `Reachable.members_iff`    a run ends with `Members` iff none of its calls merges a node.
-/

namespace AserPTA

variable {Obj Val : Type}

namespace ConsGraph

variable (g : ConsGraph Obj Val)

def childNodes (n : NodeID) : Finset NodeID := (g.node n).childNodes

def isSuperNode (n : NodeID) : Bool := decide (g.childNodes n ≠ ∅)

/-- `childNodes` of a node that is not merged holds the nodes merged into it, directly or through a
super node that was merged later, and `isSuperNode` tells whether there is one -/
def Members : Prop :=
  ∀ s, g.hasSuperNode s = false →
    (∀ n, n ∈ g.childNodes s ↔ g.hasSuperNode n = true ∧ g.getSuperNode n = s) ∧
    (g.isSuperNode s = true ↔ ∃ n, g.hasSuperNode n = true ∧ g.getSuperNode n = s)

def NoChildren : Prop := ∀ n, g.childNodes n = ∅

def Unmerged : Prop := ∀ n, g.superOf n = none

variable {g}

/-! ## no operation adds a child -/

theorem childNodes_modify (n : NodeID) (f : CGNode Obj Val → CGNode Obj Val) (m : NodeID) :
    (g.modify n f).childNodes m =
      if m = n then (f (g.node m)).childNodes else g.childNodes m := by
  by_cases h : m = n <;> simp [modify, childNodes, h]

/-- a write that adds no child -/
theorem NoChildren.modify (h : g.NoChildren) (n : NodeID) (f : CGNode Obj Val → CGNode Obj Val)
    (hf : ∀ x, x.childNodes = ∅ → (f x).childNodes = ∅) : (g.modify n f).NoChildren := by
  intro m
  rw [childNodes_modify]
  split
  · exact hf _ (h m)
  · exact h m

theorem NoChildren.insertSucc (h : g.NoChildren) (n v : NodeID) (k : Constraints) :
    (g.insertSucc n k v).NoChildren := h.modify n _ fun _ hx => hx

theorem NoChildren.insertPred (h : g.NoChildren) (n v : NodeID) (k : Constraints) :
    (g.insertPred n k v).NoChildren := h.modify n _ fun _ hx => hx

theorem NoChildren.eraseSucc (h : g.NoChildren) (n v : NodeID) (k : Constraints) :
    (g.eraseSucc n k v).NoChildren := by
  have h1 := h.modify n (fun x =>
    { x with succCons := fun k' => if k' = k then (x.succCons k').erase v else x.succCons k' })
    fun _ hx => hx
  exact h1

theorem NoChildren.erasePred (h : g.NoChildren) (n v : NodeID) (k : Constraints) :
    (g.erasePred n k v).NoChildren := by
  have h1 := h.modify n (fun x =>
    { x with predCons := fun k' => if k' = k then (x.predCons k').erase v else x.predCons k' })
    fun _ hx => hx
  exact h1

theorem NoChildren.insertConstraint (h : g.NoChildren) (a b : NodeID) (k : Constraints) :
    (g.insertConstraint a b k).1.NoChildren := by
  rw [ConsGraph.insertConstraint]
  dsimp only
  split
  · exact h
  · exact (h.insertSucc (g.getSuperNode a) (g.getSuperNode b) k).insertPred (g.getSuperNode b)
      (g.getSuperNode a) k

theorem NoChildren.addNewNode (h : g.NoChildren) (kind : NodeKind Obj Val) :
    (g.addNewNode kind).NoChildren := by
  intro m
  by_cases hm : m = g.nodeNum
  · simp [ConsGraph.addNewNode, childNodes, hm]
  · have := h m
    simpa [ConsGraph.addNewNode, childNodes, hm] using this

theorem NoChildren.clearKind (h : g.NoChildren) (w : Walk) (n : NodeID) (k : Constraints) :
    (g.clearKind w n k).NoChildren := by
  rw [ConsGraph.clearKind]
  refine NoChildren.modify ?_ n _ fun _ hx => hx
  refine Loop.foldl_inv (fun g t _ hg => hg.eraseSucc t n k) ?_
  exact Loop.foldl_inv (fun g t _ hg => hg.erasePred t n k) h

theorem NoChildren.clearConstraints (h : g.NoChildren) (w : Walk) (n : NodeID) :
    (g.clearConstraints w n).NoChildren :=
  Loop.foldl_inv (fun _ k _ hg => hg.clearKind w n k) h

/-- the children of the merged node are none, and the node itself is not added -/
theorem NoChildren.mergeInto (h : g.NoChildren) (w : Walk) (m s : NodeID) :
    (g.mergeInto w m s).NoChildren := by
  rw [ConsGraph.mergeInto]
  refine NoChildren.modify (NoChildren.clearConstraints ?_ w m) m _ fun _ hx => hx
  refine NoChildren.modify ?_ m _ fun _ _ => rfl
  have h1 : ((g.predEdges w m).foldl (fun g e => (g.insertConstraint e.2 s e.1).1) g).NoChildren :=
    Loop.foldl_inv (fun _ e _ hg => hg.insertConstraint e.2 s e.1) h
  have h2 := Loop.foldl_inv (f := fun g e => (g.insertConstraint s e.2 e.1).1) (I := NoChildren)
    (l := ((g.predEdges w m).foldl (fun g e => (g.insertConstraint e.2 s e.1).1) g).succEdges w m)
    (fun _ e _ hg => hg.insertConstraint s e.2 e.1) h1
  refine h2.modify s _ fun x hx => ?_
  show x.childNodes ∪ ConsGraph.childNodes _ m = ∅
  rw [hx, h2 m, Finset.empty_union]

theorem NoChildren.collapse (h : g.NoChildren) (w : Walk) (scc : List NodeID) (s : NodeID) :
    (g.collapseSCCTo w scc s).NoChildren := by
  refine Loop.foldl_inv (fun g m _ hg => ?_) h
  split
  · exact hg
  · exact hg.mergeInto w m s

theorem NoChildren.addCGNode (h : g.NoChildren) (kind : NodeKind Obj Val) :
    (g.addCGNode kind).NoChildren := by
  cases kind with
  | ptrNode p => exact h.addNewNode _
  | objNode o => exact ((h.addNewNode _).addNewNode _).insertConstraint _ _ _

/-! ## the recorded members are none -/

theorem NoChildren.isSuperNode (h : g.NoChildren) (s : NodeID) : g.isSuperNode s = false := by
  rw [ConsGraph.isSuperNode, h s]
  simp

/-- with empty sets, the members are right iff there are none -/
theorem NoChildren.members_iff_unmerged (h : g.NoChildren) (hinv : g.Inv) : g.Members ↔ g.Unmerged := by
  constructor
  · intro hm n
    by_contra hn
    have hroot : g.hasSuperNode (g.getSuperNode n) = false := by
      rw [hasSuperNode, hinv.superOf_getSuperNode]
      rfl
    have hmem := ((hm _ hroot).1 n).mpr ⟨Option.isSome_iff_ne_none.mpr hn, rfl⟩
    rw [h] at hmem
    exact Finset.notMem_empty n hmem
  · intro hu s _
    have hno : ∀ n, g.hasSuperNode n ≠ true := by
      intro n hn
      rw [hasSuperNode, hu n] at hn
      cases hn
    refine ⟨fun n => ?_, ?_⟩
    · rw [h s]
      exact iff_of_false (Finset.notMem_empty n) fun hn => hno n hn.1
    · rw [h.isSuperNode s]
      refine iff_of_false Bool.false_ne_true ?_
      rintro ⟨n, hn⟩
      exact hno n hn.1

end ConsGraph

namespace Op

/-- the call gives some node a super node -/
def Merges : Op Obj Val → Prop
  | .addCGNode _ => False
  | .addConstraints _ _ _ => False
  | .collapseSCCTo scc superNode => ∃ n ∈ scc, n ≠ superNode

theorem noChildren_apply (w : Walk) {g : ConsGraph Obj Val} (op : Op Obj Val) (h : g.NoChildren) :
    (op.apply w g).NoChildren := by
  cases op with
  | addCGNode kind => exact h.addCGNode kind
  | addConstraints src dst c =>
    rw [apply, ConsGraph.addConstraints_fst]
    exact h.insertConstraint _ _ _
  | collapseSCCTo scc superNode => exact h.collapse w scc superNode

/-- a merged node stays merged, and only a collapse merges one -/
theorem unmerged_apply (w : Walk) {g : ConsGraph Obj Val} (op : Op Obj Val) (hop : op.Legal g)
    (h : g.Inv) : (op.apply w g).Unmerged ↔ g.Unmerged ∧ ¬ op.Merges := by
  cases op with
  | addCGNode kind =>
    rw [ConsGraph.Unmerged, apply, (h.addCGNode kind).2.superOf]
    exact (and_iff_left fun hf => hf).symm
  | addConstraints src dst c =>
    have hs : (apply w g (.addConstraints src dst c)).superOf = g.superOf := by
      rw [apply, ConsGraph.addConstraints_fst]
      exact funext (ConsGraph.insertConstraint_sameNodes _ _ _).superOf
    rw [ConsGraph.Unmerged, hs]
    exact (and_iff_left fun hf => hf).symm
  | collapseSCCTo scc superNode =>
    obtain ⟨hnd, hmem, hscc⟩ := hop
    have hsup := (h.collapse w scc hnd (hscc _ hmem).2 (hscc _ hmem).1 hscc).2.superOf
    constructor
    · intro hu
      have hno : ∀ n, ¬ (n ∈ scc ∧ n ≠ superNode) := by
        intro n hn
        have := hu n
        rw [apply, hsup, if_pos hn] at this
        cases this
      refine ⟨fun n => ?_, not_exists.mpr hno⟩
      have := hu n
      rwa [apply, hsup, if_neg (hno n)] at this
    · rintro ⟨hu, hno⟩ n
      rw [apply, hsup, if_neg fun hn => hno ⟨n, hn⟩]
      exact hu n

end Op

/-- no call of the interface ever records a member -/
theorem Reachable.noChildren {w : Walk} {g : ConsGraph Obj Val} (h : Reachable w g) :
    g.NoChildren := by
  induction h with
  | empty => exact fun _ => rfl
  | step op _ _ ih => exact op.noChildren_apply w ih

/-! ## runs -/

/-- a run of legal calls stays among the reachable graphs -/
theorem Reachable.run {w : Walk} (ops : List (Op Obj Val)) {g : ConsGraph Obj Val}
    (h : Reachable w g) (hl : Loop.FoldOk (fun g op => Op.Legal g op) (Op.apply w) ops g) :
    Reachable w (ops.foldl (Op.apply w) g) := by
  induction ops generalizing g with
  | nil => exact h
  | cons op ops ih => exact ih (.step op h hl.1) hl.2

theorem Reachable.unmerged_run {w : Walk} (ops : List (Op Obj Val)) {g : ConsGraph Obj Val}
    (h : Reachable w g) (hl : Loop.FoldOk (fun g op => Op.Legal g op) (Op.apply w) ops g) :
    (ops.foldl (Op.apply w) g).Unmerged ↔ g.Unmerged ∧ ∀ op ∈ ops, ¬ op.Merges := by
  induction ops generalizing g with
  | nil => simp
  | cons op ops ih =>
    rw [List.foldl_cons, ih (.step op h hl.1) hl.2, op.unmerged_apply w hl.1 h.inv.1]
    simp [and_assoc]

/-- From a graph without merged nodes, the super nodes know their members at the end of a run of
legal calls iff no call of the run merges a node. -/
theorem Reachable.members_iff {w : Walk} (ops : List (Op Obj Val)) {g : ConsGraph Obj Val}
    (h : Reachable w g) (hu : g.Unmerged)
    (hl : Loop.FoldOk (fun g op => Op.Legal g op) (Op.apply w) ops g) :
    (ops.foldl (Op.apply w) g).Members ↔ ∀ op ∈ ops, ¬ op.Merges := by
  have hr := h.run ops hl
  rw [hr.noChildren.members_iff_unmerged hr.inv.1, h.unmerged_run ops hl]
  exact and_iff_right hu

/-- two pointers that copy each other, and a collapse into the first -/
def copyCycle (scc : List NodeID) : List (Op Unit Unit) :=
  [.addCGNode (.ptrNode none), .addCGNode (.ptrNode none), .addConstraints 0 1 .copy,
    .addConstraints 1 0 .copy, .collapseSCCTo scc 0]

/-- a component of one node: nothing is merged, and no node is a super node -/
theorem members_single : ((copyCycle [0]).foldl (Op.apply .ascending) {}).Members := by
  refine (Reachable.members_iff (copyCycle [0]) .empty (fun _ => rfl) ?_).mpr fun op hop => ?_
  · refine ⟨trivial, trivial, ⟨by decide, by decide, by simp⟩, ⟨by decide, by decide, by simp⟩,
      ⟨by decide, by decide, fun n hn => ?_⟩, trivial⟩
    obtain rfl := List.mem_singleton.mp hn
    exact ⟨by decide, by decide⟩
  · simp only [copyCycle, List.mem_cons, List.not_mem_nil, or_false] at hop
    rcases hop with rfl | rfl | rfl | rfl | rfl <;> simp [Op.Merges]

/-- the node 1 is merged into 0, which does not know it -/
theorem members_copyCycle :
    let g := (copyCycle [0, 1]).foldl (Op.apply .ascending) {}
    Reachable .ascending g ∧ g.hasSuperNode 0 = false ∧ g.hasSuperNode 1 = true ∧
      g.getSuperNode 1 = 0 ∧ 1 ∉ g.childNodes 0 ∧ g.isSuperNode 0 = false ∧ ¬ g.Members := by
  refine ⟨?_, by decide, by decide, by decide, by decide, by decide, fun h => ?_⟩
  · refine Reachable.run (copyCycle [0, 1]) .empty ?_
    exact ⟨trivial, trivial, ⟨by decide, by decide, by simp⟩, ⟨by decide, by decide, by simp⟩,
      ⟨by decide, by decide, by simp [Op.apply]; decide⟩, trivial⟩
  · have h1 := ((h 0 (by decide)).1 1).mpr ⟨by decide, by decide⟩
    exact absurd h1 (by decide)

end AserPTA
