import AserPTA.Solver.CopyNew
import AserPTA.Solver.Tracks

/-!
# Going through the nodes

After the wave `WavePropagation` and `DeepPropagation` go through the load, store and offset edges of
every node.  They differ in what they do at one edge, and in the invariant that they keep.

* `NodeWork`         what is done at one edge of each kind;
* `processNode`      the edges of one node;
* `EdgeCached`       the objects that an edge has cached have their copy edges;
* `Turn`             what going through edges does: the invariant is kept, and as long as `changed` is
                     not set no points-to set has changed;
* `NodeWork.Turns`   the work at every edge is a turn that closes the edge;
* `Turns.nodes`      then so is a loop over nodes, which closes all their edges.
-/

namespace AserPTA

open Relation Loop

variable {Obj Val ε : Type}

/-- what is done at one edge: `load n r d` at the load edge from `n` to `d`, `store n r u` at the store
edge from `u` to `n`, `offset n r d` at the offset edge from `n` to `d` -/
structure NodeWork (Obj Val ε : Type) where
  load : NodeID → Flagged Obj Val ε → NodeID → Flagged Obj Val ε
  store : NodeID → Flagged Obj Val ε → NodeID → Flagged Obj Val ε
  offset : NodeID → Flagged Obj Val ε → NodeID → Flagged Obj Val ε

/-- conditions on the states in which the work at one edge starts -/
structure NodeCond (Obj Val ε : Type) where
  load : NodeID → Flagged Obj Val ε → NodeID → Prop := fun _ _ _ => True
  store : NodeID → Flagged Obj Val ε → NodeID → Prop := fun _ _ _ => True
  offset : NodeID → Flagged Obj Val ε → NodeID → Prop := fun _ _ _ => True

namespace NodeWork

variable (f : NodeWork Obj Val ε) (ok : NodeCond Obj Val ε) (w : Walk)

def loads (r : Flagged Obj Val ε) (id : NodeID) : Flagged Obj Val ε :=
  (w.walk (r.1.core.graph.succ .load id)).foldl (f.load id) r

def stores (r : Flagged Obj Val ε) (id : NodeID) : Flagged Obj Val ε :=
  (w.walk (r.1.core.graph.pred .store id)).foldl (f.store id) r

def offsets (r : Flagged Obj Val ε) (id : NodeID) : Flagged Obj Val ε :=
  (w.walk (r.1.core.graph.succ .offset id)).foldl (f.offset id) r

/-- the load, store and offset edges of a node -/
def processNode (r : Flagged Obj Val ε) (id : NodeID) : Flagged Obj Val ε :=
  f.offsets w (f.stores w (f.loads w r id) id) id

/-- the condition holds at every edge of the node -/
def NodeOk (r : Flagged Obj Val ε) (id : NodeID) : Prop :=
  FoldOk (ok.load id) (f.load id) (w.walk (r.1.core.graph.succ .load id)) r ∧
  let r := f.loads w r id
  FoldOk (ok.store id) (f.store id) (w.walk (r.1.core.graph.pred .store id)) r ∧
  let r := f.stores w r id
  FoldOk (ok.offset id) (f.offset id) (w.walk (r.1.core.graph.succ .offset id)) r

instance [∀ n r v, Decidable (ok.load n r v)] [∀ n r v, Decidable (ok.store n r v)]
    [∀ n r v, Decidable (ok.offset n r v)] (r : Flagged Obj Val ε) (id : NodeID) :
    Decidable (f.NodeOk ok w r id) :=
  inferInstanceAs (Decidable (_ ∧ _ ∧ _))

end NodeWork

open AserPTA.Core ConsGraph

/-- the copy edges that the cached objects of the load and store edges stand for are there -/
structure EdgeCached (g : ConsGraph Obj Val)
    (load store : NodeID → NodeID → Finset NodeID) : Prop where
  load : ∀ u v, ∀ x ∈ load u v, g.Covers .copy x v
  store : ∀ u v, ∀ x ∈ store u v, g.Covers .copy v x

/-- the caches of the edges stay right when the graph is edited -/
theorem EdgeCached.edit {c : Core Obj Val} {M : MemModel Obj Val} {g g' : Given Obj Val}
    {load store : NodeID → NodeID → Finset NodeID} (h : EdgeCached c.graph load store)
    (ht : c.Tracks M g.gep g.cons) {e : Edit Obj Val} (hs : Given.Step c e g g') :
    EdgeCached (e.apply c).graph load store := by
  have hcov : ∀ u v, c.graph.Covers .copy u v → (e.apply c).graph.Covers .copy u v := by
    intro u v huv
    cases hs with
    | node kind target hl _ => exact covers_nodeAdded (ht.shape.nodeAdded kind) (by decide) huv
    | constraint src dst k hl _ =>
      show (c.graph.addConstraints src dst k).1.Covers .copy u v
      rw [addConstraints_fst]
      exact covers_insertConstraint huv
  exact ⟨fun u v x hx => hcov x v (h.load u v x hx), fun u v x hx => hcov v x (h.store u v x hx)⟩

variable [DecidableEq Obj] {M : MemModel Obj Val} {w : Walk} {G : NodeID → Prop}
  {K : Flagged Obj Val ε → Prop} {r r₀ : Flagged Obj Val ε}

/-! ## turns -/

/-- going through load, store and offset edges, where `K` is kept -/
structure Turn (M : MemModel Obj Val) (w : Walk) (K : Flagged Obj Val ε → Prop)
    (r₀ r : Flagged Obj Val ε) : Prop where
  ext : r₀.1.core.Extends M w r.1.core
  keep : ∀ G, r₀.1.core.Shape G → K r₀ → K r
  indexed : ∀ G, r₀.1.core.Shape G → r₀.1.core.AllIndexed M → r.1.core.AllIndexed M
  flag : r.2 = false → r₀.2 = false ∧ r.1.core.pts = r₀.1.core.pts
  less : r.2 = true → r₀.2 = true ∨ r.1.core.measure M < r₀.1.core.measure M

namespace Turn

theorem refl (M : MemModel Obj Val) (w : Walk) (K : Flagged Obj Val ε → Prop)
    (r : Flagged Obj Val ε) : Turn M w K r r :=
  ⟨.refl .., fun _ _ h => h, fun _ _ h => h, fun h => ⟨h, rfl⟩, .inl⟩

theorem trans {r₁ r₂ r₃ : Flagged Obj Val ε} (hs : r₁.1.core.Sane) (h : Turn M w K r₁ r₂)
    (h' : Turn M w K r₂ r₃) : Turn M w K r₁ r₃ where
  ext := h.ext.trans h'.ext
  keep G hg hk := h'.keep G (hg.run h.ext.steps) (h.keep G hg hk)
  indexed G hg hi := h'.indexed G (hg.run h.ext.steps) (h.indexed G hg hi)
  flag hf := by
    obtain ⟨h1, h2⟩ := h'.flag hf
    obtain ⟨h3, h4⟩ := h.flag h1
    exact ⟨h3, h2.trans h4⟩
  less hf := by
    obtain ⟨hs₂, hle⟩ := hs.run h.ext.steps
    rcases h'.less hf with h1 | h1
    · exact (h.less h1).imp_right fun h2 => (hs₂.run h'.ext.steps).2.trans_lt h2
    · exact .inr (h1.trans_le hle)

/-- a node stays closed while nothing changes -/
theorem closed (h : Turn M w K r₀ r) {n : NodeID} (hc : r₀.2 = false → r₀.1.core.LsClosed n)
    (hf : r.2 = false) : r.1.core.LsClosed n := by
  obtain ⟨h1, h2⟩ := h.flag hf
  exact (hc h1).of_extends h.ext (congrFun h2 n)

/-- the turns over a list -/
theorem fold (hsh : r.1.core.Shape G) (hk : K r) {l : List NodeID}
    {f : Flagged Obj Val ε → NodeID → Flagged Obj Val ε} {ok : Flagged Obj Val ε → NodeID → Prop}
    {Q : NodeID → Flagged Obj Val ε → Prop} (hok : FoldOk ok f l r)
    (hf : ∀ t, Turn M w K r t → t.1.core.Shape G → K t → ∀ e ∈ l, ok t e →
      Turn M w K t (f t e) ∧ Q e (f t e))
    (hQ : ∀ e (t t' : Flagged Obj Val ε), Turn M w K t t' → Q e t → Q e t') :
    Turn M w K r (l.foldl f r) ∧ ∀ e ∈ l, Q e (l.foldl f r) := by
  have hstep : ∀ t, Turn M w K r t → ∀ e ∈ l, ok t e → Turn M w K t (f t e) ∧ Q e (f t e) :=
    fun t ht => hf t ht (hsh.run ht.ext.steps) (ht.keep G hsh hk)
  exact foldl_ok (P := ok) (I := fun t => Turn M w K r t) (Q := Q)
    (fun t e hel hoe ht => ht.trans hsh.sane (hstep t ht e hel hoe).1)
    (fun t e hel hoe ht => (hstep t ht e hel hoe).2)
    (fun t e hel e' hoe ht => hQ e' t _ (hstep t ht e hel hoe).1) hok (.refl ..)

/-- When all nodes are closed and no copy edge is unsatisfied, everything is closed. -/
theorem all_closed (hsh : r₀.1.core.Shape G) (h : Turn M w K r₀ r)
    (hclosed : ∀ n < r₀.1.core.graph.nodeNum, r.1.core.LsClosed n)
    (hcopy : ∀ u v, ¬ r.1.core.Unsat u v) (hidx : r.1.core.AllIndexed M) :
    r.1.core.Closed M := by
  -- the load, store and offset edges are between old nodes
  have hlt : ∀ k, k ≠ .copy → k ≠ .addrOf → ∀ u v, v ∈ r.1.core.graph.succ k u →
      u < r₀.1.core.graph.nodeNum ∧ v < r₀.1.core.graph.nodeNum := fun k hk hk' u v huv =>
    hsh.inv.edge_lt k u v (h.ext.succ k hk hk' u ▸ huv)
  refine ⟨fun u v huv => ?_, fun u v huv => ?_, fun u v huv => ?_, fun u d hud => ?_, hidx⟩
  · by_contra hsub
    exact hcopy u v ⟨huv, hsub⟩
  · exact (hclosed u (hlt _ (by decide) (by decide) u v huv).1).load v huv
  · exact (hclosed v (hlt _ (by decide) (by decide) u v huv).2).store u huv
  · exact (hclosed u (hlt _ (by decide) (by decide) u d hud).1).offset d hud

end Turn

/-! ## the edges of one node, and of all nodes -/

/-- where the condition holds, the work at an edge is a turn, and it closes the edge -/
structure NodeWork.Turns (M : MemModel Obj Val) (w : Walk) (K : Flagged Obj Val ε → Prop)
    (ok : NodeCond Obj Val ε) (f : NodeWork Obj Val ε) : Prop where
  load : ∀ G r u v, r.1.core.Shape G → K r → v ∈ r.1.core.graph.succ .load u → ok.load u r v →
    Turn M w K r (f.load u r v) ∧
      ∀ x ∈ r.1.core.pts u, (f.load u r v).1.core.graph.Covers .copy x v
  store : ∀ G r u v, r.1.core.Shape G → K r → u ∈ r.1.core.graph.succ .store v → ok.store u r v →
    Turn M w K r (f.store u r v) ∧
      ∀ x ∈ r.1.core.pts u, (f.store u r v).1.core.graph.Covers .copy v x
  offset : ∀ G r u v, r.1.core.Shape G → K r → v ∈ r.1.core.graph.succ .offset u →
    ok.offset u r v → Turn M w K r (f.offset u r v) ∧
      r.1.core.pts u ⊆ (f.offset u r v).1.core.handledGEPMap v

namespace NodeWork.Turns

variable {f : NodeWork Obj Val ε} {ok : NodeCond Obj Val ε} (h : f.Turns M w K ok)
  (hsh : r.1.core.Shape G) (hk : K r)
include h hsh hk

theorem loads (n : NodeID)
    (hok : FoldOk (ok.load n) (f.load n) (w.walk (r.1.core.graph.succ .load n)) r) :
    Turn M w K r (f.loads w r n) ∧
      ∀ v ∈ r.1.core.graph.succ .load n, (f.loads w r n).2 = false →
        ∀ x ∈ (f.loads w r n).1.core.pts n, (f.loads w r n).1.core.graph.Covers .copy x v := by
  obtain ⟨h1, h2⟩ := Turn.fold (M := M) (w := w) hsh hk hok
    (Q := fun v t => t.2 = false → ∀ x ∈ t.1.core.pts n, t.1.core.graph.Covers .copy x v)
    (fun t ht hst hkt v hv hov => by
      have hv' : v ∈ t.1.core.graph.succ .load n := by
        rw [ht.ext.succ .load (by decide) (by decide)]
        exact (w.mem_walk _ _).mp hv
      obtain ⟨h3, h4⟩ := h.load G t n v hst hkt hv' hov
      refine ⟨h3, fun hf x hx => h4 x ?_⟩
      rwa [(h3.flag hf).2] at hx)
    (fun v t t' ht hq hf x hx => by
      obtain ⟨h3, h4⟩ := ht.flag hf
      exact ht.ext.covers (by decide) (hq h3 x (h4 ▸ hx)))
  exact ⟨h1, fun v hv => h2 v ((w.mem_walk _ _).mpr hv)⟩

theorem stores (n : NodeID)
    (hok : FoldOk (ok.store n) (f.store n) (w.walk (r.1.core.graph.pred .store n)) r) :
    Turn M w K r (f.stores w r n) ∧
      ∀ u, n ∈ r.1.core.graph.succ .store u → (f.stores w r n).2 = false →
        ∀ x ∈ (f.stores w r n).1.core.pts n, (f.stores w r n).1.core.graph.Covers .copy u x := by
  obtain ⟨h1, h2⟩ := Turn.fold (M := M) (w := w) hsh hk hok
    (Q := fun u t => t.2 = false → ∀ x ∈ t.1.core.pts n, t.1.core.graph.Covers .copy u x)
    (fun t ht hst hkt u hu hou => by
      have hu' : n ∈ t.1.core.graph.succ .store u := by
        rw [ht.ext.succ .store (by decide) (by decide)]
        exact (hsh.inv.agree .store u n).mpr ((w.mem_walk _ _).mp hu)
      obtain ⟨h3, h4⟩ := h.store G t n u hst hkt hu' hou
      refine ⟨h3, fun hf x hx => h4 x ?_⟩
      rwa [(h3.flag hf).2] at hx)
    (fun u t t' ht hq hf x hx => by
      obtain ⟨h3, h4⟩ := ht.flag hf
      exact ht.ext.covers (by decide) (hq h3 x (h4 ▸ hx)))
  exact ⟨h1, fun u hu => h2 u ((w.mem_walk _ _).mpr ((hsh.inv.agree .store u n).mp hu))⟩

theorem offsets (n : NodeID)
    (hok : FoldOk (ok.offset n) (f.offset n) (w.walk (r.1.core.graph.succ .offset n)) r) :
    Turn M w K r (f.offsets w r n) ∧
      ∀ d ∈ r.1.core.graph.succ .offset n, (f.offsets w r n).2 = false →
        (f.offsets w r n).1.core.pts n ⊆ (f.offsets w r n).1.core.handledGEPMap d := by
  obtain ⟨h1, h2⟩ := Turn.fold (M := M) (w := w) hsh hk hok
    (Q := fun d t => t.2 = false → t.1.core.pts n ⊆ t.1.core.handledGEPMap d)
    (fun t ht hst hkt d hd hod => by
      have hd' : d ∈ t.1.core.graph.succ .offset n := by
        rw [ht.ext.succ .offset (by decide) (by decide)]
        exact (w.mem_walk _ _).mp hd
      obtain ⟨h3, h4⟩ := h.offset G t n d hst hkt hd' hod
      refine ⟨h3, fun hf => ?_⟩
      rw [(h3.flag hf).2]
      exact h4)
    (fun d t t' ht hq hf => by
      obtain ⟨h3, h4⟩ := ht.flag hf
      rw [h4]
      exact (hq h3).trans (ht.ext.handled d))
  exact ⟨h1, fun d hd => h2 d ((w.mem_walk _ _).mpr hd)⟩

/-- if nothing has changed, then the edges of the node are closed -/
theorem node (n : NodeID) (hok : f.NodeOk ok w r n) : Turn M w K r (f.processNode w r n) ∧
    ((f.processNode w r n).2 = false → (f.processNode w r n).1.core.LsClosed n) := by
  obtain ⟨ok1, ok2, ok3⟩ := hok
  obtain ⟨h1, q1⟩ := h.loads hsh hk n ok1
  have hsh₁ := hsh.run h1.ext.steps
  have hk₁ := h1.keep G hsh hk
  obtain ⟨h2, q2⟩ := h.stores hsh₁ hk₁ n ok2
  have hsh₂ := hsh₁.run h2.ext.steps
  obtain ⟨h3, q3⟩ := h.offsets hsh₂ (h2.keep G hsh₁ hk₁) n ok3
  refine ⟨h1.trans hsh.sane (h2.trans hsh₁.sane h3), fun hf => ?_⟩
  obtain ⟨f2, u3⟩ := h3.flag hf
  obtain ⟨f1, u2⟩ := h2.flag f2
  refine ⟨fun v hv x hx => ?_, fun u hu x hx => ?_, fun d hd => ?_⟩
  · rw [processNode, h3.ext.succ .load (by decide) (by decide),
      h2.ext.succ .load (by decide) (by decide), h1.ext.succ .load (by decide) (by decide)] at hv
    refine (h2.ext.trans h3.ext).covers (by decide) (q1 v hv f1 x ?_)
    rwa [processNode, u3, u2] at hx
  · rw [processNode, h3.ext.succ .store (by decide) (by decide),
      h2.ext.succ .store (by decide) (by decide)] at hu
    refine h3.ext.covers (by decide) (q2 u hu f2 x ?_)
    rwa [processNode, u3] at hx
  · rw [processNode, h3.ext.succ .offset (by decide) (by decide)] at hd
    exact q3 d hd hf

/-- if nothing has changed, then the edges of all the nodes are closed -/
theorem nodes {l : List NodeID} (hok : FoldOk (f.NodeOk ok w) (f.processNode w) l r) :
    Turn M w K r (l.foldl (f.processNode w) r) ∧
      ∀ n ∈ l, (l.foldl (f.processNode w) r).2 = false →
        (l.foldl (f.processNode w) r).1.core.LsClosed n :=
  Turn.fold hsh hk hok (Q := fun n r => r.2 = false → r.1.core.LsClosed n)
    (fun _ _ hst hkt n _ hon => h.node hst hkt n hon) fun _ _ _ ht hq hf => ht.closed hq hf

end NodeWork.Turns

end AserPTA
