import AserPTA.ConsGraph.Invariant
import AserPTA.Scc.Tarjan

/-!
# The components of a constraint graph

`SCCIterator` is a template over the edge kind and the direction of the walk (`ConsGraph.sccGraph`).

* `SCCIterator.Within`            every node on the stacks of the iterator satisfies a property;
* `SCCIterator.Within.sccStack`   a property that edges pass on, and that the start nodes have, holds
                                  of every node that is emitted;
* `Topo.pairwise`                 a component does not reach one that is emitted after it;
* `ConsGraph.emitted_spec`        what is emitted, for both constructors.
-/

namespace AserPTA

open Loop Relation

/-- the graph along whose edges of kind `cons` the iterator walks, against them if `reverse` -/
def ConsGraph.sccGraph {Obj Val : Type} (w : Walk) (cons : Constraints) (reverse : Bool)
    (g : ConsGraph Obj Val) : SccGraph :=
  { nodeNum := g.nodeNum
    child := fun n => w.walk (if reverse then g.pred cons n else g.succ cons n)
    hasSuperNode := g.hasSuperNode }

namespace SCCIterator

/-- the components in the order in which they are emitted -/
def emitted (G : SccGraph) (it : SCCIterator) : Option (List (List NodeID)) :=
  (sccStack G it).map List.reverse

variable {G : SccGraph} {P : NodeID → Prop}

/-! ## where the emitted nodes come from -/

/-- every node that the iterator holds satisfies `P` -/
structure Within (P : NodeID → Prop) (it : SCCIterator) : Prop where
  node : ∀ f ∈ it.visitStack, P f.node
  child : ∀ f ∈ it.visitStack, ∀ v ∈ f.nextChild, P v
  stack : ∀ n ∈ it.sccNodeStack, P n
  scc : ∀ n ∈ it.currentSCC, P n

theorem mem_popUntil {n v : NodeID} (l : List NodeID)
    (h : v ∈ (popUntil n l).1 ∨ v ∈ (popUntil n l).2) : v ∈ l := by
  induction l with
  | nil => simp [popUntil] at h
  | cons a l ih =>
    rw [popUntil] at h
    split at h
    · simpa using h
    · simp only [List.mem_cons] at h ⊢
      tauto

namespace Within

variable {it : SCCIterator} (hP : ∀ u v, P u → v ∈ G.child u → P v)

theorem of_stacks {it' : SCCIterator} (h : Within P it) (h1 : it'.visitStack = it.visitStack)
    (h2 : it'.sccNodeStack = it.sccNodeStack) (h3 : ∀ n ∈ it'.currentSCC, P n) : Within P it' :=
  ⟨h1 ▸ h.node, h1 ▸ h.child, h2 ▸ h.stack, h3⟩

include hP

theorem dfsVisitOne (h : Within P it) {n : NodeID} (hn : P n) : Within P (dfsVisitOne G n it) := by
  refine ⟨?_, ?_, ?_, h.scc⟩
  · intro f hf
    rcases List.mem_cons.mp hf with rfl | hf
    · exact hn
    · exact h.node f hf
  · intro f hf v hv
    rcases List.mem_cons.mp hf with rfl | hf
    · exact hP n v hn hv
    · exact h.child f hf v hv
  · intro m hm
    rcases List.mem_cons.mp hm with rfl | hm
    · exact hn
    · exact h.stack m hm

theorem visitNextChild (h : Within P it) : Within P (visitNextChild G it) := by
  unfold SCCIterator.visitNextChild
  split
  · rename_i n childN rest m st hst
    have hfr : ∀ (m' : Nat) (f : StackElement), f ∈ (⟨n, rest, m'⟩ :: st : List StackElement) →
        P f.node ∧ ∀ v ∈ f.nextChild, P v := by
      intro m' f hf
      rcases List.mem_cons.mp hf with rfl | hf
      · have htop : (⟨n, childN :: rest, m⟩ : StackElement) ∈ it.visitStack := by simp [hst]
        have hnode := h.node _ htop
        exact ⟨hnode, fun v hv => h.child _ htop v (List.mem_cons_of_mem _ hv)⟩
      · have hmem : f ∈ it.visitStack := by simp [hst, hf]
        exact ⟨h.node f hmem, h.child f hmem⟩
    have hchild : P childN := h.child ⟨n, childN :: rest, m⟩ (by simp [hst]) childN (by simp)
    split
    · refine dfsVisitOne hP ?_ hchild
      exact ⟨fun f hf => (hfr m f hf).1, fun f hf => (hfr m f hf).2, h.stack, h.scc⟩
    · exact ⟨fun f hf => (hfr _ f hf).1, fun f hf => (hfr _ f hf).2, h.stack, h.scc⟩
  · exact h

theorem dfsVisitChildren {it' : SCCIterator} (h : Within P it)
    (he : dfsVisitChildren G it = some it') : Within P it' :=
  (loop_inv (fun s t hs _ hst => by
    obtain rfl : SCCIterator.visitNextChild G s = t := Option.some.inj hst
    exact visitNextChild hP hs) _ h he).1

omit hP in
theorem popLeaf (h : Within P it) : Within P (popLeaf it) := by
  unfold SCCIterator.popLeaf
  split
  · exact h
  · rename_i n rest m st hst
    have hfr : ∀ f ∈ propagateMin m st, P f.node ∧ ∀ v ∈ f.nextChild, P v := by
      intro f hf
      cases st with
      | nil => cases hf
      | cons a st =>
        have hold : ∀ f' ∈ a :: st, P f'.node ∧ ∀ v ∈ f'.nextChild, P v := fun f' hf' =>
          ⟨h.node f' (hst ▸ List.mem_cons_of_mem _ hf'), h.child f' (hst ▸ List.mem_cons_of_mem _ hf')⟩
        rcases List.mem_cons.mp hf with rfl | hf
        · exact hold a (List.mem_cons_self ..)
        · exact hold f (List.mem_cons_of_mem _ hf)
    dsimp only
    split
    · refine ⟨fun f hf => (hfr f hf).1, fun f hf => (hfr f hf).2, fun v hv => ?_, fun v hv => ?_⟩
      · exact h.stack v (mem_popUntil _ (.inr hv))
      · exact h.stack v (mem_popUntil _ (.inl hv))
    · exact ⟨fun f hf => (hfr f hf).1, fun f hf => (hfr f hf).2, h.stack, h.scc⟩

theorem getNextSCC {it' : SCCIterator} (h : Within P it) (he : getNextSCC G it = some it') :
    Within P it' := by
  have h0 : Within P { it with currentSCC := [] } := h.of_stacks rfl rfl (by simp)
  refine (loop_inv (fun s t hs _ hst => ?_) _ h0 he).1
  obtain ⟨u, hu, rfl⟩ := Option.map_eq_some_iff.mp hst
  exact (hs.dfsVisitChildren hP hu).popLeaf

end Within

/-- a node that the work list leaves unset and that is not merged -/
def StartNode (G : SccGraph) (workList : NodeID → Bool) (n : NodeID) : Prop :=
  n < G.nodeNum ∧ workList n = false ∧ G.hasSuperNode n = false

namespace Within

variable {workList : NodeID → Bool} {it it' : SCCIterator} {out : List (List NodeID)}
  (hP : ∀ u v, P u → v ∈ G.child u → P v) (hstart : ∀ n, StartNode G workList n → P n)

include hP hstart

/-- the root of the next sub graph is a start node -/
theorem nextSubGraph (h : Within P it) (hrun : Run G workList it out)
    (he : nextSubGraph G it = some it') : Within P it' := by
  let I : SCCIterator → Prop := fun s => s = { it with lastRoot := s.lastRoot } ∧
    ∀ r, s.lastRoot = some r → 0 < r → r < G.nodeNum ∧ it.visitedNode.test r = false
  have hroot : ∀ s, s = { it with lastRoot := s.lastRoot } → I (nextRoot s) := by
    intro s hs
    have hvis : s.visitedNode = it.visitedNode := by rw [hs]
    refine ⟨by rw [hs]; rfl, fun r hr _ => ?_⟩
    have hr' : s.lastRoot.elim it.visitedNode.findFirstUnset it.visitedNode.findNextUnset =
        some r := by rw [← hvis]; exact hr
    cases hl : s.lastRoot with
    | none =>
      rw [hl] at hr'
      have hf := BitVector.findFirstUnset_eq_some hr'
      exact ⟨hrun.size ▸ hf.1, hf.2.1⟩
    | some r' =>
      rw [hl] at hr'
      have hf := BitVector.findNextUnset_eq_some hr'
      exact ⟨hrun.size ▸ hf.1, hf.2.2.1⟩
  rw [SCCIterator.nextSubGraph] at he
  obtain ⟨s, hs, hes⟩ := Option.bind_eq_some_iff.mp he
  obtain ⟨⟨hs1, hs2⟩, hexit⟩ := loop_inv (I := I) (fun s t hs _ hst => by
    obtain rfl : nextRoot s = t := Option.some.inj hst
    exact hroot s hs.1) _ (hroot it rfl) hs
  have hw : Within P s := by
    rw [hs1]
    exact h.of_stacks rfl rfl h.scc
  split at hes
  · rename_i r hr
    split at hes
    · rename_i hpos
      obtain ⟨hlt, htest⟩ := hs2 r hr hpos
      have hsup : G.hasSuperNode r = false := by simpa [hr, hpos] using hexit
      have hwl : workList r = false := by
        cases hb : workList r with
        | false => rfl
        | true =>
          rw [(hrun.bit r).mpr (.inl hb)] at htest
          cases htest
      exact (hw.dfsVisitOne hP (hstart r ⟨hlt, hwl, hsup⟩)).getNextSCC hP hes
    · cases hes
      exact hw
  · cases hes
    exact hw

variable (hG : ∀ u v, v ∈ G.child u → v < G.nodeNum)

include hG

theorem next (h : Within P it) (hrun : Run G workList it out) (he : next G it = some it') :
    Within P it' := by
  rw [SCCIterator.next] at he
  obtain ⟨s, hs, hes⟩ := Option.bind_eq_some_iff.mp he
  have hw := h.getNextSCC hP hs
  split at hes
  · rename_i hcur
    by_cases hv : it.visitStack = []
    · rw [getNextSCC_of_nil hv] at hs
      cases hs
      have hrun' : Run G workList { it with currentSCC := [] } out :=
        hrun.of_frame { hrun.inv with } le_rfl (.of_eq rfl rfl fun _ => Iff.rfl)
      exact nextSubGraph hP hstart hw hrun' hes
    · obtain ⟨t, ht, -, -, hne, -⟩ := getNextSCC_spec hrun.inv hG hrun.work hv
      obtain rfl : s = t := Option.some.inj (hs.symm.trans ht)
      exact absurd (List.isEmpty_iff.mp hcur) hne
  · cases hes
    exact hw

/-- what edges pass on, and start nodes have, every emitted node has -/
theorem sccStack (h : Within P it)
    (hrun : it.currentSCC ≠ [] ∧ Run G workList it (it.currentSCC :: []) ∨
      it.isEnd = true ∧ TInv G it [] ∧ Complete G workList it)
    {sccs : List (List NodeID)} (he : sccStack G it = some sccs) :
    ∀ c ∈ sccs, ∀ n ∈ c, P n := by
  let I : SCCIterator × List (List NodeID) → Prop := fun s =>
    (s.1.currentSCC ≠ [] ∧ Run G workList s.1 (s.1.currentSCC :: s.2) ∨
      s.1.isEnd = true ∧ TInv G s.1 s.2 ∧ Complete G workList s.1) ∧
    Within P s.1 ∧ ∀ c ∈ s.2, ∀ n ∈ c, P n
  obtain ⟨s, hs, rfl⟩ := Option.map_eq_some_iff.mp he
  refine (loop_inv (I := I) (fun s t hs hc hst => ?_) _
    ⟨hrun, h, fun c hc => by cases hc⟩ hs).1.2.2
  obtain ⟨hr, hw, hout⟩ := hs
  obtain ⟨u, hu, rfl⟩ := Option.map_eq_some_iff.mp hst
  rcases hr with ⟨-, hr⟩ | ⟨hend, -⟩
  · obtain ⟨u', hu', hnext⟩ := next_spec hG hr
    obtain rfl : u = u' := Option.some.inj (hu.symm.trans hu')
    refine ⟨hnext, hw.next hP hstart hG hr hu, fun c hc => ?_⟩
    rcases List.mem_cons.mp hc with rfl | hc
    · exact hw.scc
    · exact hout c hc
  · rw [hend] at hc
    cases hc

end Within

end SCCIterator

/-! ## what is emitted -/

theorem Topo.mem_of_reach {G : SccGraph} {sccs : List (List NodeID)} (h : Topo G sccs)
    {u v : NodeID} (hu : u ∈ sccs.flatten) (huv : G.Reach u v) : v ∈ sccs.flatten := by
  induction huv with
  | refl => exact hu
  | tail _ hbc ih => exact h.mem_flatten ih hbc

/-- a component does not reach one that is emitted after it -/
theorem Topo.pairwise {G : SccGraph} {sccs : List (List NodeID)} (h : Topo G sccs)
    (hnd : sccs.flatten.Nodup) : sccs.Pairwise fun A B => ∀ u ∈ B, ∀ v ∈ A, ¬ G.Reach u v := by
  induction sccs with
  | nil => exact .nil
  | cons A sccs ih =>
    rw [List.flatten_cons, List.nodup_append'] at hnd
    obtain ⟨-, hnd', hdisj⟩ := hnd
    refine List.pairwise_cons.mpr ⟨fun B hB u hu v hv huv => ?_, ih h.2 hnd'⟩
    exact hdisj hv (h.2.mem_of_reach (List.mem_flatten_of_mem hB hu) huv)

namespace ConsGraph

variable {Obj Val : Type}

/-- reached from a start node, or without edges -/
def FromStart (w : Walk) (cons : Constraints) (reverse : Bool) (g : ConsGraph Obj Val)
    (workList : NodeID → Bool) (n : NodeID) : Prop :=
  (∃ s, SCCIterator.StartNode (g.sccGraph w cons reverse) workList s ∧
    (g.sccGraph w cons reverse).Reach s n) ∨ ∀ k, g.succ k n = ∅ ∧ g.pred k n = ∅

/-- `out` lists the components reached from the nodes that the work list leaves unset -/
structure Enumerates (w : Walk) (cons : Constraints) (reverse : Bool) (g : ConsGraph Obj Val)
    (workList : NodeID → Bool) (out : List (List NodeID)) : Prop where
  once : ∀ s n, SCCIterator.StartNode (g.sccGraph w cons reverse) workList s →
    (g.sccGraph w cons reverse).Reach s n → ∃! i : Nat, ∃ c, out[i]? = some c ∧ n ∈ c
  /-- a merged node may be emitted, by itself: the first start node is not looked at -/
  only : ∀ c ∈ out, ∀ n ∈ c, FromStart w cons reverse g workList n
  scc : ∀ (i j : Nat) A B, out[i]? = some A → out[j]? = some B → ∀ u ∈ A, ∀ v ∈ B,
    (i = j ↔ (g.sccGraph w cons reverse).Reach u v ∧ (g.sccGraph w cons reverse).Reach v u)
  /-- the target of an edge is emitted first -/
  order : ∀ (i j : Nat) A B, out[i]? = some A → out[j]? = some B → i ≠ j → ∀ u ∈ A, ∀ v ∈ B,
    (g.sccGraph w cons reverse).Edge u v → j < i

section
variable {w : Walk} {cons : Constraints} {reverse : Bool} {g : ConsGraph Obj Val}
  {workList : NodeID → Bool} {sccs : List (List NodeID)}

/-- what the stack of components says about the order in which they are emitted -/
theorem enumerates_of_order (h : SccOrder (g.sccGraph w cons reverse) workList sccs)
    (honly : ∀ c ∈ sccs, ∀ n ∈ c, FromStart w cons reverse g workList n) :
    Enumerates w cons reverse g workList sccs.reverse := by
  set G := g.sccGraph w cons reverse with hG
  have hpair : sccs.reverse.Pairwise fun A B => ∀ u ∈ A, ∀ v ∈ B, ¬ G.Reach u v :=
    List.pairwise_reverse.mpr (h.topo.pairwise h.nodup)
  have hlt : ∀ (i j : Nat) A B, sccs.reverse[i]? = some A → sccs.reverse[j]? = some B → ∀ u ∈ A, ∀ v ∈ B,
      G.Reach u v → j ≤ i := by
    intro i j A B hi hj u hu v hv huv
    by_contra hlt
    obtain ⟨hi', rfl⟩ := List.getElem?_eq_some_iff.mp hi
    obtain ⟨hj', rfl⟩ := List.getElem?_eq_some_iff.mp hj
    exact List.pairwise_iff_getElem.mp hpair i j hi' hj' (Nat.lt_of_not_le hlt) u hu v hv huv
  refine ⟨fun s n hs hsn => ?_, fun c hc => honly c (List.mem_reverse.mp hc), ?_, ?_⟩
  · have hmem := h.topo.mem_of_reach (h.covers s hs.1 hs.2.1 hs.2.2) hsn
    obtain ⟨c, hc, hn⟩ := List.mem_flatten.mp hmem
    obtain ⟨i, hi⟩ := List.mem_iff_getElem?.mp (List.mem_reverse.mpr hc)
    refine ⟨i, ⟨c, hi, hn⟩, ?_⟩
    rintro j ⟨c', hj, hn'⟩
    exact le_antisymm (hlt i j c c' hi hj n hn n hn' .refl) (hlt j i c' c hj hi n hn' n hn .refl)
  · intro i j A B hi hj u hu v hv
    constructor
    · rintro rfl
      obtain rfl : A = B := Option.some.inj (hi.symm.trans hj)
      have hA := List.mem_reverse.mp (List.mem_of_getElem? hi)
      exact ⟨h.reach A hA u hu v hv, h.reach A hA v hv u hu⟩
    · rintro ⟨huv, hvu⟩
      exact le_antisymm (hlt j i B A hj hi v hv u hu hvu) (hlt i j A B hi hj u hu v hv huv)
  · intro i j A B hi hj hij u hu v hv huv
    exact lt_of_le_of_ne (hlt i j A B hi hj u hu v hv (.single huv)) (Ne.symm hij)

section start
variable (hagree : g.Agree)
  (hmerged : ∀ u s, g.superOf u = some s → ∀ k v, v ∉ g.succ k u ∧ u ∉ g.succ k v)
  (hlt : ∀ k u v, v ∈ g.succ k u → u < g.nodeNum ∧ v < g.nodeNum)

theorem mem_child_sccGraph {u v : NodeID} : v ∈ (g.sccGraph w cons reverse).child u ↔
    v ∈ if reverse then g.pred cons u else g.succ cons u := w.mem_walk _ _

theorem fromStart_child {u v : NodeID} (hu : FromStart w cons reverse g workList u)
    (huv : v ∈ (g.sccGraph w cons reverse).child u) :
    FromStart w cons reverse g workList v := by
  rcases hu with ⟨s, hs, hsu⟩ | hu
  · exact .inl ⟨s, hs, hsu.tail huv⟩
  · rw [mem_child_sccGraph, (hu cons).1, (hu cons).2] at huv
    simp at huv

include hagree

include hlt in
theorem sccGraph_lt (u v : NodeID) (huv : v ∈ (g.sccGraph w cons reverse).child u) :
    v < (g.sccGraph w cons reverse).nodeNum := by
  rw [mem_child_sccGraph] at huv
  cases reverse with
  | true => exact (hlt cons v u ((hagree ..).mpr huv)).1
  | false => exact (hlt cons u v huv).2

include hmerged in
/-- the first start node may be merged, but then it has no edges -/
theorem fromStart_of_unset {r : NodeID} (hr : r < g.nodeNum) (hw : workList r = false) :
    FromStart w cons reverse g workList r := by
  cases hs : g.superOf r with
  | none => exact .inl ⟨r, ⟨hr, hw, by simp [sccGraph, hasSuperNode, hs]⟩, .refl⟩
  | some s =>
    have hm := hmerged r s hs
    refine .inr fun k => ⟨Finset.eq_empty_of_forall_notMem fun v => (hm k v).1,
      Finset.eq_empty_of_forall_notMem fun v hv => (hm k v).2 ((hagree ..).mpr hv)⟩

include hlt

/-- the iterator at its first component, or at the end -/
theorem emitted_of_run {it : SCCIterator}
    (hw : SCCIterator.Within (FromStart w cons reverse g workList) it)
    (h : it.currentSCC ≠ [] ∧
        SCCIterator.Run (g.sccGraph w cons reverse) workList it (it.currentSCC :: []) ∨
      it.isEnd = true ∧ SCCIterator.TInv (g.sccGraph w cons reverse) it [] ∧
        SCCIterator.Complete (g.sccGraph w cons reverse) workList it) :
    ∃ out, SCCIterator.emitted (g.sccGraph w cons reverse) it = some out ∧
      Enumerates w cons reverse g workList out := by
  have hG : ∀ u v, v ∈ (g.sccGraph w cons reverse).child u →
      v < (g.sccGraph w cons reverse).nodeNum := fun u v => sccGraph_lt hagree hlt u v
  obtain ⟨sccs, h1, h2⟩ := SCCIterator.sccStack_spec hG h
  have hP : ∀ u v, FromStart w cons reverse g workList u →
      v ∈ (g.sccGraph w cons reverse).child u → FromStart w cons reverse g workList v :=
    fun u v => fromStart_child
  have honly := SCCIterator.Within.sccStack hP (fun n hn => .inl ⟨n, hn, .refl⟩) hG hw h h1
  exact ⟨sccs.reverse, by rw [SCCIterator.emitted, h1]; rfl, enumerates_of_order h2 honly⟩

include hmerged

/-- the first component, from a node that the work list leaves unset -/
theorem emitted_of_first {b : BitVector} (hsize : b.size = g.nodeNum) {r : NodeID}
    (hr : r < g.nodeNum) (hun : b.test r = false)
    (hb : ∀ n ≤ 0, n < g.nodeNum → n = r ∨ b.test n = true) :
    ∃ out, (SCCIterator.getNextSCC (g.sccGraph w cons reverse)
        (SCCIterator.dfsVisitOne (g.sccGraph w cons reverse) r { visitedNode := b })).bind
          (SCCIterator.emitted (g.sccGraph w cons reverse)) = some out ∧
      Enumerates w cons reverse g b.test out := by
  have hG : ∀ u v, v ∈ (g.sccGraph w cons reverse).child u →
      v < (g.sccGraph w cons reverse).nodeNum := fun u v => sccGraph_lt hagree hlt u v
  have hP : ∀ u v, FromStart w cons reverse g b.test u →
      v ∈ (g.sccGraph w cons reverse).child u → FromStart w cons reverse g b.test v :=
    fun u v => fromStart_child
  obtain ⟨it, h1, h2, h3⟩ := SCCIterator.startAt_spec hG hsize hr hb
  have hw0 : SCCIterator.Within (FromStart w cons reverse g b.test) { visitedNode := b } := by
    constructor <;> simp
  have hw := (hw0.dfsVisitOne hP (fromStart_of_unset hagree hmerged hr hun)).getNextSCC hP h1
  obtain ⟨out, h4, h5⟩ := emitted_of_run hagree hlt hw (.inl ⟨h2, h3⟩)
  exact ⟨out, by rw [h1, Option.bind_some, h4], h5⟩

/-- Both constructors, for every edge kind and both directions: the iteration ends, and what it emits
are the components reached from the start nodes, the targets of edges first.  The constructor
without a work list starts at `G[0]`, so it needs a node. -/
theorem emitted_spec (w : Walk) (cons : Constraints) (reverse : Bool) :
    (0 < g.nodeNum →
      ∃ out, (SCCIterator.start (g.sccGraph w cons reverse)).bind
          (SCCIterator.emitted (g.sccGraph w cons reverse)) = some out ∧
        Enumerates w cons reverse g (fun _ => false) out) ∧
    ∀ workList : BitVector, workList.size = g.nodeNum →
      ∃ out, (SCCIterator.startFrom (g.sccGraph w cons reverse) workList).bind
          (SCCIterator.emitted (g.sccGraph w cons reverse)) = some out ∧
        Enumerates w cons reverse g workList.test out := by
  refine ⟨fun hpos => ?_, fun workList hsize => ?_⟩
  · exact emitted_of_first hagree hmerged hlt (b := { size := g.nodeNum }) rfl hpos rfl
      fun n hn _ => .inl (Nat.le_zero.mp hn)
  · cases hf : workList.findFirstUnset with
    | none =>
      have hall := BitVector.findFirstUnset_eq_none.mp hf
      have hend : SCCIterator.Complete (g.sccGraph w cons reverse) workList.test
          { visitedNode := workList } := fun n hn hw => by
        rw [hall n (hsize ▸ hn)] at hw
        cases hw
      have hw0 : SCCIterator.Within (FromStart w cons reverse g workList.test)
          { visitedNode := workList } := by
        constructor <;> simp
      rw [SCCIterator.startFrom, hf]
      exact emitted_of_run hagree hlt hw0 (.inr ⟨rfl, SCCIterator.TInv.init _ workList _, hend⟩)
    | some first =>
      obtain ⟨h1, h2, h3⟩ := BitVector.findFirstUnset_eq_some hf
      rw [SCCIterator.startFrom, hf]
      refine emitted_of_first hagree hmerged hlt hsize (hsize ▸ h1) h2 fun n hn _ => ?_
      obtain rfl : n = 0 := Nat.le_zero.mp hn
      rcases Nat.eq_zero_or_pos first with h | h
      · exact .inl h.symm
      · exact .inr (h3 0 h)

end start

end

end ConsGraph

/-- the offset edge of `twoPtrs`, against its direction: its target is emitted last -/
theorem emitted_twoPtrs :
    let g := twoPtrs.foldl (Op.apply .ascending) {}
    ∃ out, (SCCIterator.start (g.sccGraph .ascending .offset true)).bind
        (SCCIterator.emitted (g.sccGraph .ascending .offset true)) = some out ∧
      ConsGraph.Enumerates .ascending .offset true g (fun _ => false) out := by
  obtain ⟨hinv, -⟩ := reachable_twoPtrs.inv
  exact (ConsGraph.emitted_spec hinv.agree hinv.merged hinv.edge_lt .ascending .offset true).1
    (by decide)

end AserPTA
