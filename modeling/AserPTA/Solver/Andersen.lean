import AserPTA.Solver.WavePropagation

/-!
# Andersen

The solver without detection of components.  Its worklist is a queue of nodes.  The edges of a node are
walked with the iterators that were taken when its turn began, while its table of copy edges may grow.

* `processEdge`, `processNode`, `turn`, `runSolver`
                       the solver;
* `EdgeOk`             what goes wrong is not met at an edge: a node that has to be visited again is
                       in the worklist, and the table that is walked is not moved;
* `Pending`            every edge is satisfied, or its source is in the worklist, or it is still to
                       be processed;
* `runSolver_spec`     a run that only meets such edges returns, and everything is closed;
* `emptied_least`      then the points-to sets are the least solution, as those of `WavePropagation`
                       are.
-/

namespace AserPTA

open Relation Loop

namespace Andersen

open AserPTA.Core ConsGraph State

variable {Obj Val : Type} [DecidableEq Obj]

/-! ## the solver -/

/-- the state of the solver, with its worklist -/
abbrev St (Obj Val : Type) := State Obj Val (List NodeID)

def push (l : List NodeID) (s : St Obj Val) : St Obj Val := { s with self := s.self ++ l }

def copyEdge (src : NodeID) (s : St Obj Val) (dst : NodeID) : St Obj Val :=
  let r := s.core.processCopy src dst
  let s' := { s with core := r.1 }
  if r.2 then push [dst] s' else s'

def loadEdge (src : NodeID) (s : St Obj Val) (dst : NodeID) : St Obj Val :=
  let r := s.processLoad State.noop State.noop dst (s.core.pts src)
  -- every node in `pts(src)` has a new copy edge to `dst`
  if r.2 then push (bits (r.1.core.pts src)) r.1 else r.1

def storeEdge (src : NodeID) (s : St Obj Val) (dst : NodeID) : St Obj Val :=
  let r := s.processStore State.noop State.noop src (s.core.pts dst)
  -- `src` has new copy edges to the nodes in `pts(dst)`
  if r.2 then push [src] r.1 else r.1

variable (M : MemModel Obj Val) (w : Walk)

/-- the result of `processOffset` is not looked at -/
def offsetEdge (src : NodeID) (s : St Obj Val) (dst : NodeID) : St Obj Val :=
  (s.processOffset M State.noop State.noop src dst).1

def processEdge (src : NodeID) (s : St Obj Val) (edge : Constraints × NodeID) : St Obj Val :=
  match edge.1 with
  | .addrOf => s
  | .copy => copyEdge src s edge.2
  | .load => loadEdge src s edge.2
  | .store => storeEdge src s edge.2
  | .offset => offsetEdge M src s edge.2

/-- The copy edges that are walked when the iterator was taken at the first of the edges `old`, and the
table has the edges `new` when it gets there: an edge that came into a later bucket is walked as well. -/
def copiesFrom (old new : Finset NodeID) : List NodeID :=
  match w.walk old with
  | [] => []
  | first :: _ => (w.walk new).filter fun x => x ∈ old ∨ x ∈ (w.walk new).dropWhile (· ≠ first)

def offsetEdges (g : ConsGraph Obj Val) (src : NodeID) : List (Constraints × NodeID) :=
  (w.walk (g.succ .offset src)).map fun v => (.offset, v)

/-- the edges after those; `g` is the graph that the iterators were taken in -/
def otherEdges (g g' : ConsGraph Obj Val) (src : NodeID) : List (Constraints × NodeID) :=
  ((w.walk (g.succ .addrOf src)).map (fun v => (.addrOf, v)) ++
    (copiesFrom w (g.succ .copy src) (g'.succ .copy src)).map fun v => (.copy, v)) ++
    ((w.walk (g.succ .store src)).map (fun v => (.store, v)) ++
      (w.walk (g.succ .load src)).map fun v => (.load, v))

def processOffsets (src : NodeID) (s : St Obj Val) : St Obj Val :=
  (offsetEdges w s.core.graph src).foldl (processEdge M src) s

def processEdges (src : NodeID) (s : St Obj Val) : St Obj Val :=
  let s' := processOffsets M w src s
  (otherEdges w s.core.graph s'.core.graph src).foldl (processEdge M src) s'

/-- The buckets of a `DenseSet` that `n` elements were inserted into: 64 with the first one, and twice as
many when an insertion would fill three quarters of them. -/
def buckets : Nat → Nat
  | 0 => 0
  | n + 1 => if 3 * buckets n ≤ 4 * (n + 1) then max 64 (2 * buckets n) else buckets n

/-- the buckets of the copy edges of a node; nothing is erased from them -/
def table (c : Core Obj Val) (n : NodeID) : Nat := buckets (c.graph.succ .copy n).card

/-- When the table that is walked has moved, the iterator is never equal to `child_edge_end`, which is
taken anew for each edge, and runs past the end of the last table. -/
def processNode (src : NodeID) (s : St Obj Val) : Option (St Obj Val) :=
  let s' := processEdges M w src s
  if table s'.core src = table s.core src then some s' else none

/-- the body of the loop of `runSolver`, which is not run when the worklist is empty -/
def turn (s : St Obj Val) : Option (St Obj Val) :=
  match s.self with
  | [] => some s
  | curNode :: rest => processNode M w curNode { s with self := rest }

/-- all nodes are in the worklist -/
def start (s : St Obj Val) : St Obj Val := { s with self := List.range s.core.graph.nodeNum }

def runSolver (fuel : Nat) (s : St Obj Val) : Option (St Obj Val) :=
  loop (fun s => !s.self.isEmpty) (turn M w) fuel (start s)

/-- `n` turns -/
def turns (n : Nat) (s : St Obj Val) : Option (St Obj Val) := (fun t => t.bind (turn M w))^[n] (some s)

/-! ## the edges at which nothing is lost -/

/-- When `dst` grows, the sources of the store edges to it have to be visited again. -/
def CopyOk (src : NodeID) (s : St Obj Val) (dst : NodeID) : Prop :=
  ∀ p ∈ s.core.graph.pred .store dst, p = src ∨ p ∈ s.self ∨
    ∀ x ∈ s.core.pts src, x ∈ s.core.pts dst ∨ s.core.graph.Covers .copy p x

/-- The copy edges from `src` to the nodes of `new`, no self edges, leave its table where it is. -/
def Kept (c : Core Obj Val) (src : NodeID) (new : Finset NodeID) : Prop :=
  buckets (c.graph.succ .copy src ∪ new.erase src).card = table c src

/-- The field that is taken of an object has a node, and it is known to `dst`, or its address node has
the edge to `dst` already, or it will be visited. -/
def OffsetOk (src : NodeID) (s : St Obj Val) (dst : NodeID) : Prop :=
  ∀ x ∈ s.core.pts src, x ∈ s.core.handledGEPMap dst ∨
    match s.core.graph.kind dst, s.core.graph.kind x with
    | .ptrNode (some gep), .objNode o => match M.indexObject o gep with
      | none => True
      | some f => match s.core.graph.findObj f with
        | none => False
        | some i => i ∈ s.core.pts dst ∨ s.core.graph.Covers .copy (i + 1) dst ∨
          i + 1 ∈ s.self ∧ (i + 1 = src → Kept s.core src {dst})
    | _, _ => True

def EdgeOk (src : NodeID) (s : St Obj Val) (edge : Constraints × NodeID) : Prop :=
  match edge.1 with
  | .addrOf => True
  | .copy => CopyOk src s edge.2
  | .load => src ∈ s.core.pts src → Kept s.core src {edge.2}
  | .store => Kept s.core src (s.core.pts edge.2)
  | .offset => OffsetOk M src s edge.2

instance (c : Core Obj Val) (src : NodeID) (new : Finset NodeID) : Decidable (Kept c src new) :=
  inferInstanceAs (Decidable (_ = _))

instance (src dst : NodeID) (s : St Obj Val) : Decidable (OffsetOk M src s dst) := by
  unfold OffsetOk
  refine @Finset.decidableDforallFinset _ _ _ fun x _ => @instDecidableOr _ _ _ ?_
  split
  · split
    · infer_instance
    · split <;> infer_instance
  · infer_instance

instance (src : NodeID) (s : St Obj Val) (edge : Constraints × NodeID) :
    Decidable (EdgeOk M src s edge) := by
  unfold EdgeOk CopyOk
  split <;> infer_instance

/-- nothing is lost at the edges of a node -/
def TurnOk (s : St Obj Val) : Prop :=
  match s.self with
  | [] => True
  | curNode :: rest =>
    let s₀ : St Obj Val := { s with self := rest }
    let s₁ := processOffsets M w curNode s₀
    FoldOk (EdgeOk M curNode) (processEdge M curNode) (offsetEdges w s₀.core.graph curNode) s₀ ∧
      FoldOk (EdgeOk M curNode) (processEdge M curNode)
        (otherEdges w s₀.core.graph s₁.core.graph curNode) s₁

instance (s : St Obj Val) : Decidable (TurnOk M w s) := by
  unfold TurnOk
  split <;> infer_instance

/-- nothing is lost in any turn -/
def RunOk (s : St Obj Val) : Prop := ∀ n t, turns M w n (start s) = some t → TurnOk M w t

/-! ## what an edge does -/

variable {M w} {s : St Obj Val} {G : NodeID → Prop}

/-- nothing is merged -/
structure Good (M : MemModel Obj Val) (G : NodeID → Prop) (s : St Obj Val) : Prop where
  shape : s.core.Shape G
  flat : ∀ n, s.core.graph.superOf n = none
  indexed : s.core.AllIndexed M

/-- the pairs of a node and an object that it is not known to point to -/
def unknown (c : Core Obj Val) : Finset (NodeID × NodeID) :=
  (Finset.range c.graph.nodeNum ×ˢ Finset.range c.graph.nodeNum).filter fun p => p.2 ∉ c.pts p.1

/-- what goes down when something is pushed -/
def potential (M : MemModel Obj Val) (c : Core Obj Val) : Measure ×ₗ ℕ :=
  toLex (c.measure M, (unknown c).card)

/-- the work at an edge: the potential goes down if something is pushed -/
structure Work (M : MemModel Obj Val) (w : Walk) (s t : St Obj Val) : Prop where
  ext : s.core.Extends M w t.core
  queue : ∃ l, t.self = s.self ++ l
  less : potential M t.core < potential M s.core ∨
    potential M t.core = potential M s.core ∧ t.self = s.self

namespace Work

theorem refl (M : MemModel Obj Val) (w : Walk) (s : St Obj Val) : Work M w s s :=
  ⟨.refl .., ⟨[], (List.append_nil _).symm⟩, .inr ⟨rfl, rfl⟩⟩

theorem trans {s₁ s₂ s₃ : St Obj Val} (h : Work M w s₁ s₂) (h' : Work M w s₂ s₃) :
    Work M w s₁ s₃ := by
  obtain ⟨l, hl⟩ := h.queue
  obtain ⟨l', hl'⟩ := h'.queue
  refine ⟨h.ext.trans h'.ext, ⟨l ++ l', by rw [hl', hl, List.append_assoc]⟩, ?_⟩
  rcases h.less with h1 | ⟨h1, h2⟩ <;> rcases h'.less with h3 | ⟨h3, h4⟩
  · exact .inl (h3.trans h1)
  · exact .inl (h3 ▸ h1)
  · exact .inl (h1 ▸ h3)
  · exact .inr ⟨h3.trans h1, h4.trans h2⟩

theorem mem {t : St Obj Val} (h : Work M w s t) {n : NodeID} (hn : n ∈ s.self) : n ∈ t.self := by
  obtain ⟨l, hl⟩ := h.queue
  rw [hl]
  exact List.mem_append_left _ hn

theorem good {t : St Obj Val} (h : Work M w s t) (hg : Good M G s)
    (hi : t.core.AllIndexed M) : Good M G t :=
  ⟨hg.shape.run h.ext.steps, fun n => (h.ext.superOf n).trans (hg.flat n), hi⟩

end Work

theorem potential_of_measure {c c' : Core Obj Val} (h : c'.measure M < c.measure M) :
    potential M c' < potential M c :=
  Prod.Lex.toLex_lt_toLex.mpr (.inl h)

theorem potential_congr {c c' : Core Obj Val} (h : c'.measure M = c.measure M)
    (hn : c'.graph.nodeNum = c.graph.nodeNum) (hp : c'.pts = c.pts) :
    potential M c' = potential M c := by
  rw [potential, potential, h, unknown, unknown, hn, hp]

/-- a points-to set has grown -/
theorem potential_union (hg : Good M G s) {u v : NodeID} (huv : v ∈ s.core.graph.succ .copy u)
    (hnew : ¬ s.core.pts u ⊆ s.core.pts v) :
    potential M (s.core.processCopy u v).1 < potential M s.core := by
  have hgrow := PtsGrow.processCopy (M := M) (w := .ascending) huv
  refine Prod.Lex.toLex_lt_toLex.mpr (.inr ⟨measure_of_pts hgrow.graph hgrow.handled, ?_⟩)
  refine Finset.card_lt_card (Finset.ssubset_iff_subset_ne.mpr ⟨fun p hp => ?_, fun he => ?_⟩)
  · obtain ⟨h1, h2⟩ := Finset.mem_filter.mp hp
    rw [hgrow.graph] at h1
    exact Finset.mem_filter.mpr ⟨h1, fun h3 => h2 (hgrow.pts _ h3)⟩
  · obtain ⟨x, hx, hxv⟩ := Finset.not_subset.mp hnew
    have hp : (v, x) ∈ unknown s.core :=
      Finset.mem_filter.mpr ⟨Finset.mem_product.mpr
        ⟨Finset.mem_range.mpr (hg.shape.inv.edge_lt _ _ _ huv).2,
          Finset.mem_range.mpr (hg.shape.pts_obj u x hx).1⟩, hxv⟩
    rw [← he] at hp
    refine (Finset.mem_filter.mp hp).2 ?_
    show x ∈ (s.core.unionPts v (s.core.pts u)).1.pts v
    rw [pts_unionPts, if_pos rfl]
    exact Finset.mem_union_right _ hx

omit [DecidableEq Obj] in
theorem Good.getSuperNode (hg : Good M G s) (n : NodeID) : s.core.graph.getSuperNode n = n :=
  getSuperNode_of_none (hg.flat n)

omit [DecidableEq Obj] in
theorem Good.covers_iff (hg : Good M G s) {k : Constraints} {u v : NodeID} :
    s.core.graph.Covers k u v ↔ v ∈ s.core.graph.succ k u ∨ k = .copy ∧ u = v := by
  rw [Covers, hg.getSuperNode, hg.getSuperNode]

/-! ## copy edges are added -/

/-- copy edges are added, and their sources are in the worklist -/
structure Adds (M : MemModel Obj Val) (w : Walk) (s t : St Obj Val) : Prop where
  work : Work M w s t
  pts : t.core.pts = s.core.pts
  copy : ∀ a b, b ∈ t.core.graph.succ .copy a → b ∈ s.core.graph.succ .copy a ∨ a ∈ t.self

/-- without callbacks only the edges are new -/
theorem addCopies_quiet {ends : ConsGraph Obj Val → NodeID → NodeID × NodeID} {l : List NodeID}
    (hE : Ends M w s.core ends l) :
    let r := addCopies State.noop State.noop ends l (s, false)
    r.1.self = s.self ∧ r.1.core.pts = s.core.pts ∧
      r.1.core.graph.nodeNum = s.core.graph.nodeNum ∧
      ∀ a b, b ∈ r.1.core.graph.succ .copy a → b ∈ s.core.graph.succ .copy a ∨
        r.2 = true ∧ ∃ x ∈ l, ends s.core.graph x = (a, b) := by
  intro r
  refine (foldl_inv (I := fun r : State Obj Val (List NodeID) × Bool => s.core.Extends M w r.1.core ∧
    r.1.self = s.self ∧ r.1.core.pts = s.core.pts ∧
    r.1.core.graph.nodeNum = s.core.graph.nodeNum ∧
    ∀ a b, b ∈ r.1.core.graph.succ .copy a → b ∈ s.core.graph.succ .copy a ∨
      r.2 = true ∧ ∃ x ∈ l, ends s.core.graph x = (a, b)) (fun r x hx hI => ?_)
    ⟨.refl .., rfl, rfl, rfl, fun _ _ => .inl⟩).2
  obtain ⟨hext, hself, hpts, hnum, hedge⟩ := hI
  obtain ⟨h1, h2⟩ := hE.root x hx
  rw [hE.same _ hext]
  have hs := hE.step _ hext x hx
  have hn := insertConstraint_sameNodes (g := r.1.core.graph) (ends s.core.graph x).1
    (ends s.core.graph x).2 .copy
  have hext' := hext.trans (.insert hs)
  have hmem := mem_succ_insertConstraint (g := r.1.core.graph) (ends s.core.graph x).1
    (ends s.core.graph x).2 .copy .copy
  rw [getSuperNode_of_none ((hext.superOf _).trans h1),
    getSuperNode_of_none ((hext.superOf _).trans h2)] at hmem
  rw [addCopyThen_eq]
  dsimp only [State.noop]
  cases hi : (r.1.core.graph.insertConstraint (ends s.core.graph x).1
      (ends s.core.graph x).2 .copy).2 with
  | true =>
    rw [if_pos rfl]
    refine ⟨hext', hself, hpts, hn.nodeNum.trans hnum, fun a b hab => ?_⟩
    rcases (hmem a b).mp hab with h3 | ⟨-, rfl, rfl, -⟩
    · exact (hedge a b h3).imp_right fun h4 => ⟨rfl, h4.2⟩
    · exact .inr ⟨rfl, x, hx, rfl⟩
  | false =>
    rw [if_neg Bool.false_ne_true]
    exact ⟨hext', hself, hpts, hn.nodeNum.trans hnum, fun a b hab => hedge a b (succ_of_not_new hi hab)⟩

theorem tame_noop (w : Walk) : Tame M w (State.noop : CallBack Obj Val (List NodeID)) :=
  neutral_noop.tame

/-- Copy edges from the nodes `q` are added, and `q` is pushed if one of them is new. -/
theorem adds_of_addCopies (hg : Good M G s) {ends : ConsGraph Obj Val → NodeID → NodeID × NodeID}
    {l q : List NodeID} (hE : Ends M w s.core ends l) (hq : ∀ x ∈ l, (ends s.core.graph x).1 ∈ q) :
    let r := addCopies State.noop State.noop ends l (s, false)
    Adds M w s (if r.2 then push q r.1 else r.1) := by
  intro r
  obtain ⟨hself, hpts, hnum, hedge⟩ := addCopies_quiet hE
  obtain ⟨hext, hh, hlt, -⟩ := addCopies_spec hg.shape.sane hE neutral_noop
    (tame_noop w)
  by_cases hr : r.2 = true
  · rw [if_pos hr]
    refine ⟨⟨hext, ⟨q, congrArg (· ++ q) hself⟩, .inl (potential_of_measure (hlt hr))⟩, hpts,
      fun a b hab => (hedge a b hab).imp_right ?_⟩
    rintro ⟨-, x, hx, he⟩
    have := hq x hx
    rw [he] at this
    exact List.mem_append_right _ this
  · rw [if_neg hr]
    have hcopy : ∀ a b, b ∈ r.1.core.graph.succ .copy a → b ∈ s.core.graph.succ .copy a :=
      fun a b hab => (hedge a b hab).resolve_right fun h => hr h.1
    have hmeas : r.1.core.measure M = s.core.measure M := by
      refine (hg.shape.sane.run hext.steps).2.eq_of_not_lt fun h => ?_
      rcases hext.cause h with h | ⟨u, v, h1, h2⟩ | ⟨d, x, h1, h2⟩
      · exact h.ne hnum.symm
      · exact h2 (hcopy u v h1)
      · exact h2 (hh ▸ h1)
    exact ⟨⟨hext, ⟨[], hself.trans (List.append_nil _).symm⟩,
      .inr ⟨potential_congr hmeas hnum hpts, hself⟩⟩, hpts, fun a b hab => .inl (hcopy a b hab)⟩

theorem loadEdge_adds (hg : Good M G s) {u v : NodeID} (huv : v ∈ s.core.graph.succ .load u) :
    Adds M w s (loadEdge u s v) := by
  have hE := ends_load (M := M) (w := w) hg.shape.sane huv (Finset.Subset.refl _)
  obtain ⟨-, hpts, -⟩ := addCopies_quiet hE
  have h := adds_of_addCopies (q := bits (s.core.pts u)) hg hE fun x hx => by
    rwa [hg.getSuperNode]
  generalize hr : addCopies State.noop State.noop _ _ (s, false) = r at h hpts
  have hl : loadEdge u s v = if r.2 then push (bits (r.1.core.pts u)) r.1 else r.1 := by
    rw [← hr]
    rfl
  rw [hl, hpts]
  exact h

theorem storeEdge_adds (hg : Good M G s) {u v : NodeID} (huv : v ∈ s.core.graph.succ .store u) :
    Adds M w s (storeEdge u s v) := by
  have hE := ends_store (M := M) (w := w) hg.shape.sane huv (Finset.Subset.refl _)
  have h := adds_of_addCopies (q := [u]) hg hE fun _ _ => List.mem_singleton_self u
  exact h

omit [DecidableEq Obj] in
theorem loadEdge_core (u v : NodeID) (s : St Obj Val) :
    (loadEdge u s v).core = (s.processLoad State.noop State.noop v (s.core.pts u)).1.core := by
  unfold loadEdge
  dsimp only
  split <;> rfl

omit [DecidableEq Obj] in
theorem storeEdge_core (u v : NodeID) (s : St Obj Val) :
    (storeEdge u s v).core = (s.processStore State.noop State.noop u (s.core.pts v)).1.core := by
  unfold storeEdge
  dsimp only
  split <;> rfl

theorem loadEdge_spec (hg : Good M G s) {u v : NodeID} (huv : v ∈ s.core.graph.succ .load u) :
    (loadEdge u s v).core.handledGEPMap = s.core.handledGEPMap ∧
      ∀ x ∈ s.core.pts u, (loadEdge u s v).core.graph.Covers .copy x v := by
  obtain ⟨-, h1, -, h2⟩ := processLoad_spec (M := M) (w := .ascending) hg.shape.sane neutral_noop
    (tame_noop .ascending) huv (Finset.Subset.refl _)
  rw [loadEdge_core]
  exact ⟨h1, h2⟩

/-- the new copy edges go from the objects to `dst` -/
theorem loadEdge_new (hg : Good M G s) {u v : NodeID} (huv : v ∈ s.core.graph.succ .load u)
    {a b : NodeID} (hab : b ∈ (loadEdge u s v).core.graph.succ .copy a) :
    b ∈ s.core.graph.succ .copy a ∨ a ∈ s.core.pts u ∧ b = v := by
  have hE := ends_load (M := M) (w := .ascending) hg.shape.sane huv (Finset.Subset.refl _)
  rw [loadEdge_core] at hab
  refine ((addCopies_quiet hE).2.2.2 a b hab).imp_right ?_
  rintro ⟨-, x, hx, he⟩
  obtain ⟨rfl, rfl⟩ := Prod.mk.inj he
  rw [hg.getSuperNode]
  exact ⟨(mem_bits _ _).mp hx, rfl⟩

theorem storeEdge_spec (hg : Good M G s) {u v : NodeID} (huv : v ∈ s.core.graph.succ .store u) :
    (storeEdge u s v).core.handledGEPMap = s.core.handledGEPMap ∧
      ∀ x ∈ s.core.pts v, (storeEdge u s v).core.graph.Covers .copy u x := by
  obtain ⟨-, h1, -, h2⟩ := processStore_spec (M := M) (w := .ascending) hg.shape.sane neutral_noop
    (tame_noop .ascending) huv (Finset.Subset.refl _)
  rw [storeEdge_core]
  exact ⟨h1, h2⟩

/-- the new copy edges go from `src` to the objects -/
theorem storeEdge_new (hg : Good M G s) {u v : NodeID} (huv : v ∈ s.core.graph.succ .store u)
    {a b : NodeID} (hab : b ∈ (storeEdge u s v).core.graph.succ .copy a) :
    b ∈ s.core.graph.succ .copy a ∨ a = u ∧ b ∈ s.core.pts v := by
  have hE := ends_store (M := M) (w := .ascending) hg.shape.sane huv (Finset.Subset.refl _)
  rw [storeEdge_core] at hab
  refine ((addCopies_quiet hE).2.2.2 a b hab).imp_right ?_
  rintro ⟨-, x, hx, he⟩
  obtain ⟨rfl, rfl⟩ := Prod.mk.inj he
  rw [hg.getSuperNode]
  exact ⟨rfl, (mem_bits _ _).mp hx⟩

/-! ## field objects -/

/-- the worklist is not touched -/
theorem offsetStep_self (d x : NodeID) (gep : Val) (r : State Obj Val (List NodeID) × Bool) :
    (offsetStep M State.noop State.noop d gep r x).1.self = r.1.self := by
  rcases offsetStep_cases State.noop State.noop M d gep r x with
    ⟨heq, -⟩ | ⟨o, f, i, c, -, -, -, heq⟩
  · rw [heq]
  · rw [heq]
    split
    · rfl
    · show (addAddrOf { r.1 with core := c } State.noop i d).1.self = _
      rw [addAddrOf_eq]
      dsimp only
      split <;> rfl

theorem offsetEdge_self (u d : NodeID) : (offsetEdge M u s d).self = s.self := by
  unfold offsetEdge processOffset
  split
  · exact foldl_inv (I := fun r : State Obj Val (List NodeID) × Bool => r.1.self = s.self)
      (fun r x _ hI => (offsetStep_self ..).trans hI) rfl
  · rfl

theorem offsetEdge_spec (hg : Good M G s) {u d : NodeID} (hd : d ∈ s.core.graph.succ .offset u) :
    Work M w s (offsetEdge M u s d) ∧ (offsetEdge M u s d).core.AllIndexed M ∧
      s.core.pts u ⊆ (offsetEdge M u s d).core.handledGEPMap d := by
  obtain ⟨hext, h1, -, h2, h3⟩ := processOffset_spec (M := M) (w := w) State.noop hg.shape.sane
    neutral_noop hd fun _ _ _ _ => .refl ..
  refine ⟨⟨hext, ⟨[], ?_⟩, ?_⟩, fun e x hx => ?_,
    h2 (hg.shape.wf.gep_kind d (hg.shape.wf.gep_target u d hd)).2⟩
  · rw [offsetEdge_self, List.append_nil]
  · rcases h1 with h1 | h1
    · exact .inr ⟨congrArg (fun t : St Obj Val => potential M t.core) h1, offsetEdge_self ..⟩
    · exact .inl (potential_of_measure h1)
  · rcases h3 e x hx with h4 | ⟨rfl, -, h4⟩
    · exact hg.shape.indexed_run hext.steps (hg.shape.handled_gep e x h4)
        (hg.shape.handled_lt e x h4) (hg.indexed e x h4)
    · exact (hg.shape.run hext.steps).indexed_of_taken (hg.shape.wf.gep_target u e hd) h4

/-- what the condition says of an object that is new -/
theorem OffsetOk.node {u d x : NodeID} {o f : Obj} {gep : Val} (h : OffsetOk M u s d)
    (hx : x ∈ s.core.pts u \ s.core.handledGEPMap d) (ho : s.core.graph.kind x = .objNode o)
    (hgep : s.core.graph.kind d = .ptrNode (some gep)) (hf : M.indexObject o gep = some f) :
    ∃ i, s.core.graph.findObj f = some i ∧ (i ∈ s.core.pts d ∨ s.core.graph.Covers .copy (i + 1) d ∨
      i + 1 ∈ s.self ∧ (i + 1 = u → Kept s.core u {d})) := by
  obtain ⟨hx1, hx2⟩ := Finset.mem_sdiff.mp hx
  have h1 := (h x hx1).resolve_left hx2
  simp only [hgep, ho, hf] at h1
  cases hi : s.core.graph.findObj f with
  | none =>
    rw [hi] at h1
    exact h1.elim
  | some i =>
    rw [hi] at h1
    exact ⟨i, rfl, h1⟩

/-- if nothing is lost then only edges to `dst` are added, from nodes that will be visited -/
theorem offsetEdge_new (hg : Good M G s) {u d : NodeID} (hd : d ∈ s.core.graph.succ .offset u)
    (hok : OffsetOk M u s d) : (offsetEdge M u s d).core.pts = s.core.pts ∧ ∀ a b,
      b ∈ (offsetEdge M u s d).core.graph.succ .copy a → b ∈ s.core.graph.succ .copy a ∨
        a ∈ s.self ∧ b = d ∧ (a = u → Kept s.core u {d}) := by
  obtain ⟨-, gep, hgep⟩ := hg.shape.wf.gep_kind d (hg.shape.wf.gep_target u d hd)
  unfold offsetEdge processOffset
  rw [hgep]
  refine (foldl_inv (I := fun r : State Obj Val (List NodeID) × Bool =>
    SameNodes s.core.graph r.1.core.graph ∧ r.1.core.pts = s.core.pts ∧ ∀ a b,
      b ∈ r.1.core.graph.succ .copy a → b ∈ s.core.graph.succ .copy a ∨
        a ∈ s.self ∧ b = d ∧ (a = u → Kept s.core u {d}))
    (fun r x hx hI => ?_) ⟨.refl _, rfl, fun _ _ => .inl⟩).2
  obtain ⟨hsame, hpts, hedge⟩ := hI
  rcases offsetStep_cases State.noop State.noop M d gep r x with
    ⟨heq, -⟩ | ⟨o, f, i, c, ho, hf, hc, heq⟩
  · rw [heq]
    exact ⟨hsame, hpts, hedge⟩
  obtain ⟨i', hi', hcase⟩ := hok.node ((mem_bits _ _).mp hx) ((hsame.kind x).symm.trans ho) hgep hf
  rw [findObj_congr hsame.nodeNum fun n _ => hsame.kind n, hi'] at hc
  -- so no node is made
  obtain ⟨rfl, rfl⟩ : c = r.1.core ∧ i' = i := by
    rcases hc with ⟨h1, h2⟩ | ⟨-, h1, -⟩
    · exact ⟨h1, Option.some.inj h2⟩
    · cases h1
  rw [heq]
  split
  · exact ⟨hsame, hpts, hedge⟩
  · rename_i hnot
    have hcore : (addAddrOf r.1 State.noop i' d).1.core = { r.1.core with
        graph := (r.1.core.graph.insertConstraint (i' + 1) d .copy).1 } := by
      rw [addAddrOf_eq]
      dsimp only
      split <;> rfl
    show SameNodes s.core.graph (addAddrOf r.1 State.noop i' d).1.core.graph ∧
      (addAddrOf r.1 State.noop i' d).1.core.pts = _ ∧ ∀ a b,
        b ∈ (addAddrOf r.1 State.noop i' d).1.core.graph.succ .copy a → _
    rw [hcore]
    refine ⟨hsame.trans (insertConstraint_sameNodes ..), hpts, fun a b hab => ?_⟩
    rcases (mem_succ_insertConstraint ..).mp hab with h1 | ⟨-, rfl, rfl, h1⟩
    · exact hedge a b h1
    · rw [hsame.getSuperNode, hsame.getSuperNode, hg.getSuperNode, hg.getSuperNode] at h1 ⊢
      rcases hcase with h2 | h2 | h2
      · exact absurd (hpts ▸ h2) hnot
      · exact .inl ((hg.covers_iff.mp h2).resolve_right fun h3 => h1 ⟨h3.2, rfl⟩)
      · exact .inr ⟨h2.1, rfl, h2.2⟩

theorem offsetEdge_adds (hg : Good M G s) {u d : NodeID} (hd : d ∈ s.core.graph.succ .offset u)
    (hok : OffsetOk M u s d) : Adds M w s (offsetEdge M u s d) := by
  have hwork := (offsetEdge_spec (w := w) hg hd).1
  obtain ⟨hpts, hnew⟩ := offsetEdge_new hg hd hok
  exact ⟨hwork, hpts, fun a b hab => (hnew a b hab).imp_right fun h => hwork.mem h.1⟩

/-! ## one edge -/

omit [DecidableEq Obj] in
theorem copyEdge_cases (u v : NodeID) (s : St Obj Val) :
    (s.core.pts u ⊆ s.core.pts v ∧ copyEdge u s v = s) ∨
    (¬ s.core.pts u ⊆ s.core.pts v ∧
      copyEdge u s v = push [v] { s with core := (s.core.processCopy u v).1 }) := by
  unfold copyEdge processCopy unionPts
  by_cases h : s.core.pts u ⊆ s.core.pts v
  · refine .inl ⟨h, ?_⟩
    rw [if_pos h, if_neg Bool.false_ne_true]
  · refine .inr ⟨h, ?_⟩
    rw [if_neg h, if_pos rfl]

theorem copyEdge_spec (hg : Good M G s) {u v : NodeID} (huv : v ∈ s.core.graph.succ .copy u) :
    Work M w s (copyEdge u s v) ∧ (copyEdge u s v).core.AllIndexed M := by
  rcases copyEdge_cases u v s with ⟨-, heq⟩ | ⟨hnew, heq⟩ <;> rw [heq]
  · exact ⟨.refl .., hg.indexed⟩
  · have hgrow := PtsGrow.processCopy (M := M) (w := w) huv
    exact ⟨⟨hgrow.extends, ⟨[v], rfl⟩, .inl (potential_union hg huv hnew)⟩,
      hg.indexed.run hg.shape hgrow.steps hgrow.handled⟩

theorem Adds.indexed {t : St Obj Val} (h : Adds M w s t) (hg : Good M G s)
    (hh : t.core.handledGEPMap = s.core.handledGEPMap) : t.core.AllIndexed M :=
  hg.indexed.run hg.shape h.work.ext.steps hh

/-- the edge of `src` that is processed -/
def IsEdge (src : NodeID) (s : St Obj Val) (edge : Constraints × NodeID) : Prop :=
  edge.2 ∈ s.core.graph.succ edge.1 src

theorem IsEdge.work {src : NodeID} {t : St Obj Val} {e : Constraints × NodeID} (h : IsEdge src s e)
    (hw : Work M w s t) (hk : e.1 ≠ .addrOf) : IsEdge src t e := by
  by_cases hc : e.1 = .copy
  · rw [IsEdge, hc] at h ⊢
    exact hw.ext.copy _ _ h
  · rw [IsEdge, hw.ext.succ _ hc hk]
    exact h

theorem processEdge_spec (hg : Good M G s) {src : NodeID} {e : Constraints × NodeID}
    (he : IsEdge src s e) :
    Work M w s (processEdge M src s e) ∧ Good M G (processEdge M src s e) := by
  obtain ⟨k, dst⟩ := e
  have hspec : Work M w s (processEdge M src s (k, dst)) ∧
      (processEdge M src s (k, dst)).core.AllIndexed M := by
    cases k with
    | addrOf => exact ⟨.refl .., hg.indexed⟩
    | copy => exact copyEdge_spec hg he
    | load =>
      have h := loadEdge_adds (w := w) hg he
      exact ⟨h.work, h.indexed hg (loadEdge_spec hg he).1⟩
    | store =>
      have h := storeEdge_adds (w := w) hg he
      exact ⟨h.work, h.indexed hg (storeEdge_spec hg he).1⟩
    | offset =>
      obtain ⟨h1, h2, -⟩ := offsetEdge_spec (w := w) hg he
      exact ⟨h1, h2⟩
  exact ⟨hspec.1, hspec.1.good hg hspec.2⟩

/-! ## the table that is walked -/

theorem buckets_mono : Monotone buckets := by
  refine monotone_nat_of_le_succ fun n => ?_
  rw [buckets]
  split <;> omega

omit [DecidableEq Obj] in
theorem Kept.table {src : NodeID} {new : Finset NodeID} {c c' : Core Obj Val} (h : Kept c src new)
    (hold : c.graph.succ .copy src ⊆ c'.graph.succ .copy src)
    (hnew : ∀ b ∈ c'.graph.succ .copy src, b ∈ c.graph.succ .copy src ∨ b ≠ src ∧ b ∈ new) :
    table c' src = table c src := by
  refine le_antisymm ?_ (buckets_mono (Finset.card_le_card hold))
  rw [← h]
  refine buckets_mono (Finset.card_le_card fun b hb => ?_)
  exact Finset.mem_union.mpr ((hnew b hb).imp_right Finset.mem_erase.mpr)

/-- an edge at which nothing is lost leaves the table that is walked where it is -/
theorem processEdge_table (hg : Good M G s) {src : NodeID} {e : Constraints × NodeID}
    (he : IsEdge src s e) (hok : EdgeOk M src s e) :
    table (processEdge M src s e).core src = table s.core src := by
  obtain ⟨hw, hg'⟩ := processEdge_spec (w := .ascending) hg he
  have hold := hw.ext.copy src
  have hne : ∀ b ∈ (processEdge M src s e).core.graph.succ .copy src, b ≠ src :=
    fun b hb hbs => hg'.shape.inv.noSelf src (hbs ▸ hb)
  have hsame : (∀ b ∈ (processEdge M src s e).core.graph.succ .copy src,
      b ∈ s.core.graph.succ .copy src) → table (processEdge M src s e).core src = table s.core src :=
    fun h => congrArg (fun t : Finset NodeID => buckets t.card) (Finset.Subset.antisymm h hold)
  obtain ⟨k, dst⟩ := e
  cases k with
  | addrOf => rfl
  | copy =>
    refine hsame fun b hb => ?_
    have hcore : (copyEdge src s dst).core.graph = s.core.graph := by
      rcases copyEdge_cases src dst s with ⟨-, heq⟩ | ⟨-, heq⟩ <;> rw [heq]
      exact graph_unionPts ..
    exact hcore ▸ hb
  | load =>
    by_cases hsrc : src ∈ s.core.pts src
    · refine (hok hsrc).table hold fun b hb => (loadEdge_new hg he hb).imp_right fun h => ?_
      exact ⟨hne b hb, Finset.mem_singleton.mpr h.2⟩
    · exact hsame fun b hb => (loadEdge_new hg he hb).resolve_right fun h => hsrc h.1
  | store =>
    exact Kept.table hok hold fun b hb => (storeEdge_new hg he hb).imp_right fun h => ⟨hne b hb, h.2⟩
  | offset =>
    by_cases hk : Kept s.core src {dst}
    · refine hk.table hold fun b hb => ((offsetEdge_new hg he hok).2 _ b hb).imp_right fun h => ?_
      exact ⟨hne b hb, Finset.mem_singleton.mpr h.2.1⟩
    · exact hsame fun b hb => ((offsetEdge_new hg he hok).2 _ b hb).resolve_right fun h => hk (h.2.2 rfl)

/-! ## what is still to be done -/

/-- the edge from `u` to `v` is satisfied -/
def Sat (c : Core Obj Val) (u v : NodeID) : Constraints → Prop
  | .copy => c.pts u ⊆ c.pts v
  | .load => ∀ x ∈ c.pts u, c.graph.Covers .copy x v
  | .store => ∀ x ∈ c.pts v, c.graph.Covers .copy u x
  | .offset => c.pts u ⊆ c.handledGEPMap v
  | .addrOf => True

/-- every edge is satisfied, or its source is in the worklist, or it is one of the edges of `src` that
are left -/
def Pending (src : NodeID) (left : List (Constraints × NodeID)) (s : St Obj Val) : Prop :=
  ∀ k u v, v ∈ s.core.graph.succ k u →
    u ∈ s.self ∨ Sat s.core u v k ∨ u = src ∧ (k, v) ∈ left

omit [DecidableEq Obj] in
/-- the first of the edges that are left is satisfied -/
theorem Pending.drop {src : NodeID} {e : Constraints × NodeID} {left : List (Constraints × NodeID)}
    (h : Pending src (e :: left) s) (he : src ∈ s.self ∨ Sat s.core src e.2 e.1) :
    Pending src left s := by
  intro k u v huv
  rcases h k u v huv with h1 | h1 | ⟨rfl, h1⟩
  · exact .inl h1
  · exact .inr (.inl h1)
  · rcases List.mem_cons.mp h1 with rfl | h1
    · exact he.imp_right .inl
    · exact .inr (.inr ⟨rfl, h1⟩)

theorem Sat.adds {t : St Obj Val} {u v : NodeID} {k : Constraints} (h : Sat s.core u v k)
    (ha : Adds M w s t) : Sat t.core u v k := by
  have hext := ha.work.ext
  cases k with
  | copy =>
    rw [Sat, ha.pts]
    exact h
  | load =>
    rw [Sat, ha.pts]
    exact fun x hx => hext.covers (by decide) (h x hx)
  | store =>
    rw [Sat, ha.pts]
    exact fun x hx => hext.covers (by decide) (h x hx)
  | offset =>
    rw [Sat, ha.pts]
    exact h.trans (hext.handled v)
  | addrOf => trivial

/-- edges whose sources will be visited may be added -/
theorem Pending.adds {src : NodeID} {left : List (Constraints × NodeID)} {t : St Obj Val}
    (h : Pending src left s) (ha : Adds M w s t) : Pending src left t := by
  intro k u v huv
  have hold : v ∈ s.core.graph.succ k u ∨ u ∈ t.self ∨ k = .addrOf := by
    by_cases hk : k = .copy
    · subst hk
      exact (ha.copy u v huv).imp_right .inl
    · by_cases hk' : k = .addrOf
      · exact .inr (.inr hk')
      · rw [ha.work.ext.succ k hk hk'] at huv
        exact .inl huv
  rcases hold with hold | hold | rfl
  · rcases h k u v hold with h1 | h1 | h1
    · exact .inl (ha.work.mem h1)
    · exact .inr (.inl (h1.adds ha))
    · exact .inr (.inr h1)
  · exact .inl hold
  · exact .inr (.inl trivial)

omit [DecidableEq Obj] in
/-- a points-to set grows: its node is pushed, and the sources of the store edges to it will be
visited -/
theorem Pending.copyEdge {src dst : NodeID} {left : List (Constraints × NodeID)}
    (h : Pending src ((.copy, dst) :: left) s) (hok : CopyOk src s dst) (hg : Good M G s)
    (hstores : ∀ v, v ∈ s.core.graph.succ .store src → (.store, v) ∈ left) :
    Pending src left (copyEdge src s dst) := by
  rcases copyEdge_cases src dst s with ⟨hsub, heq⟩ | ⟨hnew, heq⟩ <;> rw [heq]
  · exact h.drop (.inr hsub)
  set c := (s.core.processCopy src dst).1 with hc
  have hgraph : c.graph = s.core.graph := graph_unionPts ..
  have hpts : ∀ n, c.pts n = if n = dst then s.core.pts n ∪ s.core.pts src else s.core.pts n :=
    pts_unionPts _ _
  have hsame : ∀ n, n ≠ dst → c.pts n = s.core.pts n := fun n hn => (hpts n).trans (if_neg hn)
  have hgrow : ∀ n, s.core.pts n ⊆ c.pts n := by
    intro n
    rw [hpts]
    split
    · exact Finset.subset_union_left
    · exact Finset.Subset.refl _
  have hdst : c.pts dst = s.core.pts dst ∪ s.core.pts src := (hpts dst).trans (if_pos rfl)
  intro k u v huv
  have huv' : v ∈ s.core.graph.succ k u := hgraph ▸ huv
  have hqueue : ∀ n, n ∈ s.self → n ∈ s.self ++ [dst] := fun n => List.mem_append_left _
  by_cases hu : u = dst
  · exact .inl (List.mem_append_right _ (List.mem_singleton.mpr hu))
  rcases h k u v huv' with h1 | h1 | ⟨rfl, h1⟩
  · exact .inl (hqueue u h1)
  · cases k with
    | addrOf => exact .inr (.inl trivial)
    | copy =>
      refine .inr (.inl ?_)
      show c.pts u ⊆ c.pts v
      rw [hsame u hu]
      exact h1.trans (hgrow v)
    | load =>
      refine .inr (.inl fun x hx => ?_)
      show c.graph.Covers .copy x v
      rw [hgraph]
      exact h1 x (hsame u hu ▸ hx)
    | offset =>
      refine .inr (.inl ?_)
      show c.pts u ⊆ c.handledGEPMap v
      rw [hsame u hu, hc, processCopy, handledGEPMap_unionPts]
      exact h1
    | store =>
      -- the set at the target may be the one that grows
      by_cases hv : v = dst
      · rw [hv] at huv' h1 ⊢
        rcases hok u ((hg.shape.inv.agree ..).mp huv') with rfl | h2 | h2
        · exact .inr (.inr ⟨rfl, hstores dst huv'⟩)
        · exact .inl (hqueue u h2)
        · refine .inr (.inl fun x hx => ?_)
          show c.graph.Covers .copy u x
          rw [hgraph]
          have hx' : x ∈ c.pts dst := hx
          rw [hdst] at hx'
          rcases Finset.mem_union.mp hx' with hx' | hx'
          · exact h1 x hx'
          · exact (h2 x hx').elim (h1 x) id
      · refine .inr (.inl fun x hx => ?_)
        show c.graph.Covers .copy u x
        rw [hgraph]
        exact h1 x (hsame v hv ▸ hx)
  · rcases List.mem_cons.mp h1 with he | h1
    · cases he
      refine .inr (.inl ?_)
      show c.pts u ⊆ c.pts dst
      rw [hsame u hu, hdst]
      exact Finset.subset_union_right
    · exact .inr (.inr ⟨rfl, h1⟩)

/-- one edge of `src` is processed -/
theorem Pending.edge {src : NodeID} {e : Constraints × NodeID}
    {left : List (Constraints × NodeID)} (h : Pending src (e :: left) s) (hg : Good M G s)
    (he : IsEdge src s e) (hok : EdgeOk M src s e)
    (hstores : e.1 = .copy → ∀ v, v ∈ s.core.graph.succ .store src → (.store, v) ∈ left) :
    Pending src left (processEdge M src s e) := by
  obtain ⟨k, dst⟩ := e
  cases k with
  | addrOf => exact h.drop (.inr trivial)
  | copy => exact h.copyEdge hok hg (hstores rfl)
  | load =>
    have ha := loadEdge_adds (w := .ascending) hg he
    refine (h.adds ha).drop (.inr fun x hx => (loadEdge_spec hg he).2 x ?_)
    rwa [← ha.pts]
  | store =>
    have ha := storeEdge_adds (w := .ascending) hg he
    refine (h.adds ha).drop (.inr fun x hx => (storeEdge_spec hg he).2 x ?_)
    rwa [← ha.pts]
  | offset =>
    have ha := offsetEdge_adds (w := .ascending) hg he hok
    refine (h.adds ha).drop (.inr ?_)
    show (offsetEdge M src s dst).core.pts src ⊆ _
    rw [ha.pts]
    exact (offsetEdge_spec (w := .ascending) hg he).2.2

/-! ## one turn -/

/-- the edges of `l` are processed -/
theorem edges_spec {src : NodeID} {l : List (Constraints × NodeID)} (hg : Good M G s)
    (hl : ∀ e ∈ l, e.1 ≠ .addrOf → IsEdge src s e) :
    Work M w s (l.foldl (processEdge M src) s) ∧ Good M G (l.foldl (processEdge M src) s) := by
  refine foldl_inv (I := fun t => Work M w s t ∧ Good M G t) (fun t e he hI => ?_) ⟨.refl .., hg⟩
  by_cases hk : e.1 = .addrOf
  · have heq : processEdge M src t e = t := by rw [processEdge, hk]
    rwa [heq]
  · obtain ⟨h1, h2⟩ := processEdge_spec (w := w) hI.2 ((hl e he hk).work hI.1 hk)
    exact ⟨hI.1.trans h1, h2⟩

/-- If nothing is lost then only the edges of `left` have not been processed.  A copy edge is processed
before the store edges. -/
theorem Pending.edges {src : NodeID} {l left : List (Constraints × NodeID)}
    (h : Pending src (l ++ left) s) (hg : Good M G s)
    (hl : ∀ e ∈ l, e.1 ≠ .addrOf → IsEdge src s e)
    (hok : FoldOk (EdgeOk M src) (processEdge M src) l s)
    (hstores : ∀ e ∈ l, e.1 = .copy → ∀ v, v ∈ s.core.graph.succ .store src →
      (.store, v) ∈ left) : Pending src left (l.foldl (processEdge M src) s) := by
  induction l generalizing s with
  | nil => exact h
  | cons e l ih =>
    have hmem := List.mem_cons_self (a := e) (l := l)
    have hsub := fun e' (he' : e' ∈ l) => List.mem_cons_of_mem e he'
    by_cases hk : e.1 = .addrOf
    · have heq : processEdge M src s e = s := by rw [processEdge, hk]
      have hsat : Sat s.core src e.2 e.1 := by
        rw [hk]
        trivial
      rw [List.foldl_cons, heq]
      exact ih (h.drop (.inr hsat)) hg (fun e' he' => hl e' (hsub e' he')) (heq ▸ hok.2)
        fun e' he' => hstores e' (hsub e' he')
    · have he := hl e hmem hk
      obtain ⟨hw, hg'⟩ := processEdge_spec (w := .ascending) hg he
      refine ih (h.edge hg he hok.1 fun hc v hv => ?_) hg'
        (fun e' he' hk' => (hl e' (hsub e' he') hk').work hw hk') hok.2 fun e' he' hc v hv => ?_
      · exact List.mem_append_right _ (hstores e hmem hc v hv)
      · rw [hw.ext.succ .store (by decide) (by decide)] at hv
        exact hstores e' (hsub e' he') hc v hv

/-- the edges of `l` leave the table that is walked where it is -/
theorem edges_table {src : NodeID} {l : List (Constraints × NodeID)} (hg : Good M G s)
    (hl : ∀ e ∈ l, e.1 ≠ .addrOf → IsEdge src s e)
    (hok : FoldOk (EdgeOk M src) (processEdge M src) l s) :
    table (l.foldl (processEdge M src) s).core src = table s.core src := by
  induction l generalizing s with
  | nil => rfl
  | cons e l ih =>
    have hsub := fun e' (he' : e' ∈ l) => List.mem_cons_of_mem e he'
    rw [List.foldl_cons]
    by_cases hk : e.1 = .addrOf
    · have heq : processEdge M src s e = s := by rw [processEdge, hk]
      rw [heq]
      exact ih hg (fun e' he' => hl e' (hsub e' he')) (heq ▸ hok.2)
    · have he := hl e List.mem_cons_self hk
      obtain ⟨hw, hg'⟩ := processEdge_spec (w := .ascending) hg he
      rw [ih hg' (fun e' he' hk' => (hl e' (hsub e' he') hk').work hw hk') hok.2]
      exact processEdge_table hg he hok.1

omit [DecidableEq Obj] in
theorem mem_offsetEdges {g : ConsGraph Obj Val} {n : NodeID} {e : Constraints × NodeID} :
    e ∈ offsetEdges w g n ↔ e.1 = .offset ∧ e.2 ∈ g.succ e.1 n := by
  obtain ⟨k, v⟩ := e
  rw [offsetEdges, List.mem_map]
  constructor
  · rintro ⟨v, hv, he⟩
    cases he
    exact ⟨rfl, (w.mem_walk ..).mp hv⟩
  · rintro ⟨hk, hv⟩
    obtain rfl : k = .offset := hk
    exact ⟨v, (w.mem_walk ..).mpr hv, rfl⟩

theorem mem_of_mem_copiesFrom {old new : Finset NodeID} {x : NodeID} (h : x ∈ copiesFrom w old new) :
    x ∈ new := by
  unfold copiesFrom at h
  split at h
  · cases h
  · exact (w.mem_walk ..).mp (List.mem_filter.mp h).1

/-- the edges that were there are walked -/
theorem mem_copiesFrom {old new : Finset NodeID} {x : NodeID} (h : x ∈ old) (hsub : old ⊆ new) :
    x ∈ copiesFrom w old new := by
  unfold copiesFrom
  split
  · rename_i hnil
    have hx := (w.mem_walk old x).mpr h
    rw [hnil] at hx
    cases hx
  · exact List.mem_filter.mpr ⟨(w.mem_walk ..).mpr (hsub h), decide_eq_true (.inl h)⟩

omit [DecidableEq Obj] in
/-- every edge is walked -/
theorem mem_edges {g g' : ConsGraph Obj Val} {n : NodeID} {e : Constraints × NodeID}
    (h : e.2 ∈ g.succ e.1 n) (hsub : g.succ .copy n ⊆ g'.succ .copy n) :
    e ∈ offsetEdges w g n ++ otherEdges w g g' n := by
  obtain ⟨k, v⟩ := e
  unfold otherEdges
  simp only [List.mem_append]
  have hmem : ∀ (k : Constraints) (s : Finset NodeID), v ∈ s → (k, v) ∈ (w.walk s).map (Prod.mk k) :=
    fun k s hv => List.mem_map.mpr ⟨v, (w.mem_walk s v).mpr hv, rfl⟩
  cases k with
  | offset => exact .inl (hmem .offset _ h)
  | addrOf => exact .inr (.inl (.inl (hmem .addrOf _ h)))
  | copy => exact .inr (.inl (.inr (List.mem_map.mpr ⟨v, mem_copiesFrom h hsub, rfl⟩)))
  | store => exact .inr (.inr (.inl (hmem .store _ h)))
  | load => exact .inr (.inr (.inr (hmem .load _ h)))

/-- the edges before the store edges, and those from there on -/
theorem isEdge_otherEdges {s' : St Obj Val} {src : NodeID} (hw : Work M w s s') :
    ∀ e ∈ otherEdges w s.core.graph s'.core.graph src, e.1 ≠ .addrOf → IsEdge src s' e := by
  intro e he hk
  have hedge : ∀ {k : Constraints} {l : List NodeID}, e ∈ l.map (Prod.mk k) →
      (∀ v ∈ l, v ∈ s.core.graph.succ k src) → IsEdge src s' e := by
    intro k l hl hsub
    obtain ⟨v, hv, rfl⟩ := List.mem_map.mp hl
    exact IsEdge.work (s := s) (hsub v hv) hw hk
  unfold otherEdges at he
  simp only [List.mem_append] at he
  rcases he with (he | he) | he | he
  · exact hedge he fun v => (w.mem_walk ..).mp
  · obtain ⟨v, hv, rfl⟩ := List.mem_map.mp he
    exact mem_of_mem_copiesFrom hv
  · exact hedge he fun v => (w.mem_walk ..).mp
  · exact hedge he fun v => (w.mem_walk ..).mp

theorem processOffsets_spec (hg : Good M G s) (src : NodeID) :
    Work M w s (processOffsets M w src s) ∧ Good M G (processOffsets M w src s) :=
  edges_spec hg fun _ he _ => (mem_offsetEdges.mp he).2

theorem processEdges_spec (hg : Good M G s) (src : NodeID) :
    Work M w s (processEdges M w src s) ∧ Good M G (processEdges M w src s) := by
  obtain ⟨hw, hg'⟩ := processOffsets_spec (w := w) hg src
  obtain ⟨hw', hg''⟩ := edges_spec (w := w) hg' (isEdge_otherEdges hw)
  exact ⟨hw.trans hw', hg''⟩

/-- a turn takes its node from the worklist, and pushes nodes only if the potential goes down -/
theorem turn_spec {t : St Obj Val} {cur : NodeID} {rest : List NodeID} (hs : s.self = cur :: rest)
    (hg : Good M G s) (ht : turn M w s = some t) : Good M G t ∧ Steps M w s.core t.core ∧
      (potential M t.core < potential M s.core ∨
        potential M t.core = potential M s.core ∧ t.self = rest) := by
  have hg' : Good M G ({ s with self := rest } : St Obj Val) := ⟨hg.shape, hg.flat, hg.indexed⟩
  obtain ⟨h1, h2⟩ := processEdges_spec (w := w) hg' cur
  obtain rfl : processEdges M w cur { s with self := rest } = t := by
    simp only [turn, hs, processNode, Option.ite_none_right_eq_some, Option.some.injEq] at ht
    exact ht.2
  exact ⟨h2, h1.ext.steps, h1.less⟩

/-- a turn in which nothing is lost ends -/
theorem turn_ok (hg : Good M G s) (hok : TurnOk M w s) : ∃ t, turn M w s = some t := by
  cases hs : s.self with
  | nil => exact ⟨s, by rw [turn, hs]⟩
  | cons cur rest =>
    have hg' : Good M G ({ s with self := rest } : St Obj Val) := ⟨hg.shape, hg.flat, hg.indexed⟩
    obtain ⟨hw, hg''⟩ := processOffsets_spec (w := w) hg' cur
    simp only [TurnOk, hs] at hok
    have htable : table (processEdges M w cur { s with self := rest }).core cur = table s.core cur :=
      (edges_table hg'' (isEdge_otherEdges hw) hok.2).trans
        (edges_table hg' (fun _ he _ => (mem_offsetEdges.mp he).2) hok.1)
    exact ⟨processEdges M w cur { s with self := rest }, by
      simp only [turn, hs, processNode, htable, if_true]⟩

theorem Pending.turn {t : St Obj Val} {src : NodeID} (h : Pending src [] s) (hg : Good M G s)
    (hok : TurnOk M w s) (ht : turn M w s = some t) : Pending src [] t := by
  cases hs : s.self with
  | nil =>
    simp only [Andersen.turn, hs, Option.some.injEq] at ht
    rwa [← ht]
  | cons cur rest =>
    have hg' : Good M G ({ s with self := rest } : St Obj Val) := ⟨hg.shape, hg.flat, hg.indexed⟩
    obtain ⟨hw, hg''⟩ := processOffsets_spec (w := w) hg' cur
    obtain rfl : processEdges M w cur { s with self := rest } = t := by
      simp only [Andersen.turn, hs, processNode, Option.ite_none_right_eq_some, Option.some.injEq] at ht
      exact ht.2
    simp only [TurnOk, hs] at hok
    obtain ⟨hok1, hok2⟩ := hok
    have hpend : Pending cur (offsetEdges w s.core.graph cur ++ otherEdges w s.core.graph
        (processOffsets M w cur { s with self := rest }).core.graph cur) { s with self := rest } := by
      intro k u v huv
      rcases h k u v huv with h1 | h1 | ⟨-, h1⟩
      · rw [hs] at h1
        rcases List.mem_cons.mp h1 with rfl | h1
        · exact .inr (.inr ⟨rfl, mem_edges huv (hw.ext.copy u)⟩)
        · exact .inl h1
      · exact .inr (.inl h1)
      · cases h1
    have hedges : ∀ e ∈ otherEdges w _ _ cur, _ := isEdge_otherEdges hw
    have h1 := hpend.edges hg' (fun _ he _ => (mem_offsetEdges.mp he).2) hok1 fun e he hc =>
      absurd ((mem_offsetEdges.mp he).1.symm.trans hc) (by decide)
    -- the store edges come after the copy edges
    unfold otherEdges at h1 hok2 hedges
    obtain ⟨hok2, hok3⟩ := (foldOk_append _ _ _).mp hok2
    have hedges2 := fun e he => hedges e (List.mem_append_left _ he)
    obtain ⟨hw2, hg2⟩ := edges_spec (w := w) hg'' hedges2
    have h2 := h1.edges hg'' hedges2 hok2 fun _ _ _ v hv => by
      have hv : v ∈ s.core.graph.succ .store cur := by
        rwa [← hw.ext.succ .store (by decide) (by decide)]
      exact List.mem_append_left _ (List.mem_map.mpr ⟨v, (w.mem_walk ..).mpr hv, rfl⟩)
    rw [← List.append_nil (_ ++ _)] at h2
    have h3 := h2.edges hg2 (fun e he hk => (hedges e (List.mem_append_right _ he) hk).work hw2 hk) hok3
      fun e he hc => by
        rcases List.mem_append.mp he with he | he <;> obtain ⟨v, -, rfl⟩ := List.mem_map.mp he <;> cases hc
    intro k u v huv
    unfold processEdges otherEdges at huv ⊢
    rw [List.foldl_append] at huv ⊢
    exact (h3 k u v huv).imp_right fun h4 => .inl (h4.resolve_right fun h5 => by cases h5.2)

/-! ## the loop -/

omit [DecidableEq Obj] in
theorem Good.start (hg : Good M G s) : Good M G (start s) := ⟨hg.shape, hg.flat, hg.indexed⟩

omit [DecidableEq Obj] in
/-- at the start every node is in the worklist -/
theorem pending_start (hg : Good M G s) : Pending 0 [] (start s) := by
  intro k u v huv
  exact .inl (List.mem_range.mpr (hg.shape.inv.edge_lt k u v huv).1)

omit [DecidableEq Obj] in
/-- with an empty worklist everything is satisfied -/
theorem Pending.closed {src : NodeID} (h : Pending src [] s) (hg : Good M G s) (hs : s.self = []) :
    s.core.Closed M := by
  have hsat : ∀ k u v, v ∈ s.core.graph.succ k u → Sat s.core u v k := by
    intro k u v huv
    rcases h k u v huv with h1 | h1 | ⟨-, h1⟩
    · rw [hs] at h1
      cases h1
    · exact h1
    · cases h1
  exact ⟨fun u v => hsat .copy u v, fun u v => hsat .load u v, fun u v => hsat .store u v,
    fun u d => hsat .offset u d, hg.indexed⟩

/-- the turns that are left after the first one -/
theorem turns_succ {s t u : St Obj Val} {n : Nat} (ht : turn M w s = some t)
    (hu : turns M w n t = some u) : turns M w (n + 1) s = some u := by
  rw [turns, Function.iterate_succ_apply]
  show (fun t => t.bind (turn M w))^[n] (turn M w s) = _
  rw [ht]
  exact hu

/-- A run that ends has Good states.  If nothing is lost on the way then there is one, and everything is
closed. -/
theorem runSolver_spec (hg : Good M G s) : (RunOk M w s → ∃ fuel s', runSolver M w fuel s = some s') ∧
    ∀ fuel s', runSolver M w fuel s = some s' → s'.self = [] ∧ Good M G s' ∧
      Steps M w s.core s'.core ∧ (RunOk M w s → s'.core.Closed M) := by
  constructor
  · intro hok
    refine loop_wf (I := fun s => Good M G s ∧ ∀ n t, turns M w n s = some t → TurnOk M w t)
      (InvImage.wf (fun s : St Obj Val => toLex (potential M s.core, s.self.length))
        wellFounded_lt) (fun s hI => ?_) ⟨hg.start, hok⟩
    obtain ⟨hg, hok⟩ := hI
    obtain ⟨t, ht⟩ := turn_ok hg (hok 0 s rfl)
    refine ⟨t, ht, fun hc => ?_⟩
    cases hs : s.self with
    | nil =>
      rw [turn, hs] at ht
      cases ht
      rw [hs] at hc
      cases hc
    | cons cur rest =>
      obtain ⟨h1, -, h2⟩ := turn_spec hs hg ht
      refine ⟨⟨h1, fun n u hu => hok (n + 1) u (turns_succ ht hu)⟩, Prod.Lex.toLex_lt_toLex.mpr ?_⟩
      rcases h2 with h2 | ⟨h2, h3⟩
      · exact .inl h2
      · refine .inr ⟨h2, ?_⟩
        rw [h3, hs]
        exact Nat.lt_succ_self _
  · intro fuel s' hs'
    obtain ⟨⟨h1, h2, h3⟩, h4⟩ := loop_inv
      (I := fun t => Good M G t ∧ Steps M w s.core t.core ∧
        (RunOk M w s → (∀ n u, turns M w n t = some u → TurnOk M w u) ∧ Pending 0 [] t))
      (fun t t' hI _ ht' => by
        obtain ⟨hI1, hI2, hI3⟩ := hI
        have hspec : Good M G t' ∧ Steps M w t.core t'.core := by
          cases ht : t.self with
          | nil =>
            rw [turn, ht] at ht'
            cases ht'
            exact ⟨hI1, .refl⟩
          | cons cur rest =>
            obtain ⟨h1, h2, -⟩ := turn_spec ht hI1 ht'
            exact ⟨h1, h2⟩
        refine ⟨hspec.1, hI2.trans hspec.2, fun hok => ?_⟩
        obtain ⟨h1, h2⟩ := hI3 hok
        exact ⟨fun n u hu => h1 (n + 1) u (turns_succ ht' hu), h2.turn hI1 (h1 0 t rfl) ht'⟩)
      fuel ⟨hg.start, .refl, fun hok => ⟨hok, pending_start hg⟩⟩ hs'
    have hempty : s'.self = [] := by simpa using h4
    exact ⟨hempty, h1, h2, fun hok => (h3 hok).2.closed h1 hempty⟩

/-- a run in which the table is moved does not return -/
theorem runSolver_of_turns_none {n : Nat} (h : turns M w n (start s) = none) (fuel : Nat) :
    runSolver M w fuel s = none := by
  unfold runSolver
  generalize start s = t at h
  induction fuel generalizing n t with
  | zero => rfl
  | succ fuel ih =>
    cases ht : t.self with
    | nil =>
      have hfix : (fun t => t.bind (turn M w)) (some t) = some t := by
        show turn M w t = some t
        rw [turn, ht]
      rw [turns, Function.iterate_fixed hfix] at h
      cases h
    | cons cur rest =>
      rw [loop_of_cond (by rw [ht]; rfl)]
      cases hu : turn M w t with
      | none => rfl
      | some u =>
        cases n with
        | zero => cases h
        | succ n =>
          refine ih (n := n) u ?_
          cases hn : turns M w n u with
          | none => rfl
          | some v => rw [turns_succ hu hn] at h; cases h

/-- nothing is lost if nothing is lost until the worklist is empty -/
theorem runOk_of_turns {k : Nat}
    (h : ∀ n < k, (turns M w n (start s)).all (fun t => decide (TurnOk M w t)) = true)
    (hend : (turns M w k (start s)).all (fun t => t.self.isEmpty) = true) : RunOk M w s := by
  have hdone : ∀ m t, turns M w (m + k) (start s) = some t → t.self = [] := by
    intro m
    induction m with
    | zero =>
      intro t ht
      rw [Nat.zero_add] at ht
      rw [ht] at hend
      exact List.isEmpty_iff.mp hend
    | succ m ih =>
      intro t ht
      rw [Nat.succ_add, turns, Function.iterate_succ_apply'] at ht
      obtain ⟨u, hu, hut⟩ := Option.bind_eq_some_iff.mp ht
      have hu' := ih u hu
      rw [turn, hu'] at hut
      cases hut
      exact hu'
  intro n t ht
  by_cases hn : n < k
  · have := h n hn
    rw [ht] at this
    exact of_decide_eq_true this
  · obtain ⟨m, rfl⟩ : ∃ m, n = m + k := ⟨n - k, by omega⟩
    rw [TurnOk, hdone m t ht]
    trivial

/-! ## histories -/

/-- the states after earlier runs, new nodes and new constraints, with what was given so far -/
inductive History (M : MemModel Obj Val) (w : Walk) : Given Obj Val → St Obj Val → Prop where
  | start {c : Core Obj Val} (G : NodeID → Prop) : c.Built → c.graph.WellFormedOn G →
      History M w ⟨c.graph.ofGraph, G⟩ ⟨c, []⟩
  | edit {g g' : Given Obj Val} {s : St Obj Val} {e : Edit Obj Val} : History M w g s →
      Given.Step s.core e g g' → History M w g' { s with core := e.apply s.core }
  | run {g : Given Obj Val} {s s' : St Obj Val} {fuel : Nat} : History M w g s →
      runSolver M w fuel s = some s' → History M w g s'

omit [DecidableEq Obj] in
theorem flat_edit {c : Core Obj Val} {g g' : Given Obj Val} (ht : c.Tracks M g.gep g.cons)
    (hc : ∀ n, c.graph.superOf n = none) {e : Edit Obj Val} (hs : Given.Step c e g g') (n : NodeID) :
    (e.apply c).graph.superOf n = none := by
  cases hs with
  | node kind target hl _ =>
    exact (congrFun (ht.shape.nodeAdded kind).superOf n).trans (hc n)
  | constraint src dst k hl _ =>
    show (c.graph.addConstraints src dst k).1.superOf n = none
    rw [addConstraints_fst]
    exact ((insertConstraint_sameNodes ..).superOf n).trans (hc n)

theorem History.inv {g : Given Obj Val} (h : History M w g s) :
    s.core.Tracks M g.gep g.cons ∧ Good M g.gep s := by
  induction h with
  | start G hb hwf =>
    have ht := hb.tracks M hwf
    exact ⟨ht, ht.shape, hb.fresh.superOf, ht.indexed⟩
  | edit _ hs ih =>
    have ht := ih.1.edit hs
    exact ⟨ht, ht.shape, flat_edit ih.1 ih.2.flat hs, ht.indexed⟩
  | run _ hrun ih =>
    obtain ⟨-, h1, h2, -⟩ := (runSolver_spec ih.2).2 _ _ hrun
    exact ⟨ih.1.run h2 h1.indexed, h1⟩

/-- In a run that loses nothing the worklist becomes empty.  Everything is then closed, every node has the
least solution of the constraints given so far, and so the points-to sets are those that
`WavePropagation` computes from the same constraints. -/
theorem emptied_least {g : Given Obj Val} (h : History M w g s) (hok : RunOk M w s) :
    (∃ fuel s', runSolver M w fuel s = some s') ∧
    ∀ fuel s', runSolver M w fuel s = some s' → s'.self = [] ∧ s'.core.Closed M ∧
      (∀ n < s'.core.graph.nodeNum, ∀ o, s'.core.PointsTo n o ↔
        Inclusion.Least (andersen M g.cons) (s'.core.graph.name n) o) ∧
      ∀ (w' : Walk) (t t' : Wave.St Obj Val) (G' : NodeID → Prop) (fuel' : Nat),
        WavePropagation.History M w' ⟨g.cons, G'⟩ t → 0 < t.core.graph.nodeNum →
        WavePropagation.runSolver M w' fuel' t = some t' →
        ∀ n < s'.core.graph.nodeNum, ∀ m < t'.core.graph.nodeNum,
          s'.core.graph.name n = t'.core.graph.name m →
          ∀ o, s'.core.PointsTo n o ↔ t'.core.PointsTo m o := by
  obtain ⟨ht, hg⟩ := h.inv
  obtain ⟨h1, h2⟩ := runSolver_spec (w := w) hg
  refine ⟨h1 hok, fun fuel s' hs' => ?_⟩
  obtain ⟨h3, h4, h5, h6⟩ := h2 fuel s' hs'
  have hleast := (ht.run h5 h4.indexed).exact (h6 hok)
  refine ⟨h3, h6 hok, hleast, fun w' t t' G' fuel' ht' hpos hrun n hn m hm hname o => ?_⟩
  rw [hleast n hn o, hname]
  obtain ⟨htracks, hedges⟩ := ht'.inv
  obtain ⟨h7, h8, h9⟩ := (WavePropagation.runSolver_spec htracks.shape hpos hedges htracks.indexed).2 fuel'
    t' hrun
  exact ((htracks.run h9 h7.indexed).exact h8 m hm o).symm

/-- two objects, a cycle of two pointers and a `getelementptr` of the second one; the node of the field
is made after them -/
def fieldEdits : List (Edit Bool Unit) :=
  [.addCGNode (.objNode false), .addCGNode (.ptrNode none), .addCGNode (.ptrNode none),
    .addCGNode (.ptrNode (some ())), .addCGNode (.objNode true), .addConstraints 0 2 .addrOf,
    .addConstraints 2 3 .copy, .addConstraints 3 2 .copy, .addConstraints 3 4 .offset]

def fieldCore : Core Bool Unit := fieldEdits.foldl Edit.apply {}

theorem fieldCore_built : fieldCore.Built := Core.Built.empty.foldl (by decide)

/-- the address node of the field is still in the worklist when the field is taken -/
theorem runOk_fieldCore : RunOk sampleMem .ascending ⟨fieldCore, []⟩ := by
  have hrun : (∀ n < 20, (turns sampleMem .ascending n (start ⟨fieldCore, []⟩)).all
      (fun t => decide (TurnOk sampleMem .ascending t)) = true) ∧
      (turns sampleMem .ascending 20 (start ⟨fieldCore, []⟩)).all (fun t => t.self.isEmpty) = true := by
    decide +kernel
  exact runOk_of_turns hrun.1 hrun.2

theorem emptied_least_fieldCore :
    (∃ fuel s', runSolver sampleMem .ascending fuel ⟨fieldCore, []⟩ = some s') ∧
    ∀ fuel s', runSolver sampleMem .ascending fuel ⟨fieldCore, []⟩ = some s' →
      s'.self = [] ∧ s'.core.Closed sampleMem ∧
      (∀ n < s'.core.graph.nodeNum, ∀ o, s'.core.PointsTo n o ↔
        Inclusion.Least (andersen sampleMem fieldCore.graph.ofGraph) (s'.core.graph.name n) o) ∧
      ∀ (w' : Walk) (t t' : Wave.St Bool Unit) (G' : NodeID → Prop) (fuel' : Nat),
        WavePropagation.History sampleMem w' ⟨fieldCore.graph.ofGraph, G'⟩ t →
        0 < t.core.graph.nodeNum →
        WavePropagation.runSolver sampleMem w' fuel' t = some t' →
        ∀ n < s'.core.graph.nodeNum, ∀ m < t'.core.graph.nodeNum,
          s'.core.graph.name n = t'.core.graph.name m →
          ∀ o, s'.core.PointsTo n o ↔ t'.core.PointsTo m o :=
  emptied_least (.start fieldCore.graph.IsGep fieldCore_built
    (wellFormed_of_checks fieldCore_built.fresh.inv (by decide))) runOk_fieldCore

/-- a pointer to one object that is stored through another pointer, to which a chain of copies brings
the other object -/
def storeEdits : List (Edit Bool Unit) :=
  [.addCGNode (.objNode false), .addCGNode (.objNode true), .addCGNode (.ptrNode none),
    .addCGNode (.ptrNode none), .addCGNode (.ptrNode none), .addCGNode (.ptrNode none),
    .addCGNode (.ptrNode none), .addConstraints 2 4 .addrOf, .addConstraints 0 8 .addrOf,
    .addConstraints 4 5 .store, .addConstraints 8 7 .copy, .addConstraints 7 6 .copy,
    .addConstraints 6 5 .copy]

def storeCore : Core Bool Unit := storeEdits.foldl Edit.apply {}

theorem storeCore_built : storeCore.Built := Core.Built.empty.foldl (by decide)

/-- a run that ends with an empty set where the least solution has an object -/
theorem not_closed_of_empty {c : Core Obj Val} (hb : c.Built) (hwf : c.graph.WellFormed) {fuel : Nat}
    {s' : St Obj Val} (hrun : runSolver M w fuel ⟨c, []⟩ = some s') {n : NodeID} {o : Obj}
    (hn : n < s'.core.graph.nodeNum) (hpts : s'.core.pts (s'.core.graph.getSuperNode n) = ∅)
    (ho : Inclusion.Least (andersen M c.graph.ofGraph) (s'.core.graph.name n) o) :
    ¬ s'.core.Closed M ∧ ¬ ∀ n < s'.core.graph.nodeNum, ∀ o, s'.core.PointsTo n o ↔
      Inclusion.Least (andersen M c.graph.ofGraph) (s'.core.graph.name n) o := by
  have hnot : ¬ s'.core.PointsTo n o := by
    rintro ⟨x, hx, -⟩
    rw [hpts] at hx
    cases hx
  have hleast : ¬ ∀ n < s'.core.graph.nodeNum, ∀ o, s'.core.PointsTo n o ↔
      Inclusion.Least (andersen M c.graph.ofGraph) (s'.core.graph.name n) o :=
    fun h => hnot ((h n hn o).mpr ho)
  refine ⟨fun hcl => hleast ?_, hleast⟩
  obtain ⟨ht, hg⟩ := (History.start (M := M) (w := w) _ hb hwf).inv
  obtain ⟨-, h1, h2, -⟩ := (runSolver_spec hg).2 _ _ hrun
  exact (ht.run h2 h1.indexed).exact hcl

/-- the field of the object belongs to the `getelementptr` node -/
theorem sampleCore_least : Inclusion.Least (andersen sampleMem sampleCore.graph.ofGraph)
    (.ptr 4 (some ())) true := by
  have hsol := Inclusion.Least.solution (andersen sampleMem sampleCore.graph.ofGraph)
  have hedges : (2 : NodeID) ∈ sampleCore.graph.succ .copy 1 ∧
      (3 : NodeID) ∈ sampleCore.graph.succ .copy 2 ∧
      (4 : NodeID) ∈ sampleCore.graph.succ .offset 3 := by decide
  obtain ⟨h1, h2, h3⟩ := hedges
  have hp := hsol.copy _ _ ⟨1, 2, h1, rfl, rfl⟩ false (hsol.base (.addr false) false rfl)
  have hq := hsol.copy _ _ ⟨2, 3, h2, rfl, rfl⟩ false hp
  exact hsol.offset _ _ ⟨3, 4, h3, rfl, rfl⟩ false hq true rfl

/-- the object that is stored belongs to the other one -/
theorem storeCore_least : Inclusion.Least (andersen sampleMem storeCore.graph.ofGraph)
    (.obj false) true := by
  have hsol := Inclusion.Least.solution (andersen sampleMem storeCore.graph.ofGraph)
  have hedges : (4 : NodeID) ∈ storeCore.graph.succ .copy 3 ∧
      (8 : NodeID) ∈ storeCore.graph.succ .copy 1 ∧ (7 : NodeID) ∈ storeCore.graph.succ .copy 8 ∧
      (6 : NodeID) ∈ storeCore.graph.succ .copy 7 ∧ (5 : NodeID) ∈ storeCore.graph.succ .copy 6 ∧
      (5 : NodeID) ∈ storeCore.graph.succ .store 4 := by decide
  obtain ⟨h1, h2, h3, h4, h5, h6⟩ := hedges
  have hp := hsol.copy _ _ ⟨3, 4, h1, rfl, rfl⟩ true (hsol.base (.addr true) true rfl)
  have hr := hsol.copy _ _ ⟨1, 8, h2, rfl, rfl⟩ false (hsol.base (.addr false) false rfl)
  have hq := hsol.copy _ _ ⟨6, 5, h5, rfl, rfl⟩ false
    (hsol.copy _ _ ⟨7, 6, h4, rfl, rfl⟩ false (hsol.copy _ _ ⟨8, 7, h3, rfl, rfl⟩ false hr))
  exact hsol.store _ _ ⟨4, 5, h6, rfl, rfl⟩ false hq true hp

/-- two pointers to objects, and one of them is stored through the other one -/
def firstCopyEdits : List (Edit Bool Unit) :=
  [.addCGNode (.objNode false), .addCGNode (.objNode true), .addCGNode (.ptrNode none),
    .addCGNode (.ptrNode none), .addConstraints 0 4 .addrOf, .addConstraints 2 5 .addrOf,
    .addConstraints 4 5 .store]

def firstCopyCore : Core Bool Unit := firstCopyEdits.foldl Edit.apply {}

theorem firstCopyCore_built : firstCopyCore.Built := Core.Built.empty.foldl (by decide)

/-- The worklist becomes empty while the address node of a new field has not been visited, and while
the source of a store edge has not been visited since its target has grown.  It does not become empty
when a store makes the first copy edge of the node whose edges are walked. -/
theorem emptied_not_closed :
    (sampleCore.Built ∧ sampleCore.graph.WellFormed ∧
      ∃ fuel s', runSolver sampleMem .ascending fuel ⟨sampleCore, []⟩ = some s' ∧
        ¬ s'.core.Closed sampleMem ∧
        ¬ ∀ n < s'.core.graph.nodeNum, ∀ o, s'.core.PointsTo n o ↔
          Inclusion.Least (andersen sampleMem sampleCore.graph.ofGraph) (s'.core.graph.name n) o) ∧
    (storeCore.Built ∧ storeCore.graph.WellFormed ∧
      ∃ fuel s', runSolver sampleMem .ascending fuel ⟨storeCore, []⟩ = some s' ∧
        ¬ s'.core.Closed sampleMem ∧
        ¬ ∀ n < s'.core.graph.nodeNum, ∀ o, s'.core.PointsTo n o ↔
          Inclusion.Least (andersen sampleMem storeCore.graph.ofGraph) (s'.core.graph.name n) o) ∧
    firstCopyCore.Built ∧ firstCopyCore.graph.WellFormed ∧
      ∀ fuel, runSolver sampleMem .ascending fuel ⟨firstCopyCore, []⟩ = none := by
  have hwf := wellFormed_of_checks storeCore_built.fresh.inv (by decide)
  have hwf' := wellFormed_of_checks firstCopyCore_built.fresh.inv (by decide)
  have hnone : turns sampleMem .ascending 20 (start ⟨firstCopyCore, []⟩) = none := by
    have hrun : (turns sampleMem .ascending 20 (start ⟨firstCopyCore, []⟩)).isNone = true := by
      decide +kernel
    exact Option.isNone_iff_eq_none.mp hrun
  refine ⟨⟨sampleCore_built, sampleCore_wellFormed, 20, ?_⟩, ⟨storeCore_built, hwf, 20, ?_⟩,
    firstCopyCore_built, hwf', runSolver_of_turns_none hnone⟩
  · have hrun : ∃ s', runSolver sampleMem .ascending 20 ⟨sampleCore, []⟩ = some s' ∧
        4 < s'.core.graph.nodeNum ∧ s'.core.graph.name 4 = .ptr 4 (some ()) ∧
        s'.core.pts (s'.core.graph.getSuperNode 4) = ∅ := by decide +kernel
    obtain ⟨s', hs', hnum, hname, hpts⟩ := hrun
    exact ⟨s', hs', not_closed_of_empty sampleCore_built sampleCore_wellFormed hs' hnum hpts
      (hname ▸ sampleCore_least)⟩
  · have hrun : ∃ s', runSolver sampleMem .ascending 20 ⟨storeCore, []⟩ = some s' ∧
        0 < s'.core.graph.nodeNum ∧ s'.core.graph.name 0 = .obj false ∧
        s'.core.pts (s'.core.graph.getSuperNode 0) = ∅ := by decide +kernel
    obtain ⟨s', hs', hnum, hname, hpts⟩ := hrun
    exact ⟨s', hs', not_closed_of_empty storeCore_built hwf hs' hnum hpts (hname ▸ storeCore_least)⟩

end Andersen

end AserPTA
