import AserPTA.Solver.DeepPropagate
import AserPTA.Solver.Tracks
import AserPTA.Solver.Turn

/-!
# DeepPropagation

One wave, and then difference propagation from every edge that is new.

* `runSolver`         the solver;
* `RunOk`             no pass of the solver takes a branch that loses something;
* `turns`             then the work at every edge is a turn that closes the edge;
* `History`           the states after earlier runs, new nodes and new constraints;
* `returned_least`    from such a state `runSolver` returns, and ends in the least solution;
* `successor_lost`    a run that takes such a branch and ends in less.
-/

namespace AserPTA

open Relation Loop

namespace DeepPropagation

open AserPTA.Core ConsGraph State Wave

variable {Obj Val : Type} [DecidableEq Obj]

/-! ## the solver -/

/-- note that the edge is there for the objects in `new` -/
def cacheEdge (n m : NodeID) (k : Constraints) (new : Finset NodeID) (s : St Obj Val) : St Obj Val :=
  { s with self := { s.self with
      edgeCachedPTS := fun n' m' k' =>
        if n' = n ∧ m' = m ∧ k' = k then s.self.edgeCachedPTS n' m' k' ∪ new
        else s.self.edgeCachedPTS n' m' k' } }

/-- enough for `deepPropagate` (`deepPropagate_fuel`) -/
def depth (s : St Obj Val) : Nat := s.core.graph.nodeNum + 1

variable (M : MemModel Obj Val) (w : Walk)

/-- the edge from one object; what the object holds is collected if the edge is new -/
def loadStep (dst : NodeID) (a : St Obj Val × Finset NodeID) (v : NodeID) :
    St Obj Val × Finset NodeID :=
  let b := a.1.addCopy noop v dst
  if b.2 then (b.1, a.2 ∪ b.1.core.pts v) else (b.1, a.2)

/-- the objects that are new at the load edge -/
def newLoads (curNode dst : NodeID) (s : St Obj Val) : Finset NodeID :=
  s.core.pts curNode \ s.self.edgeCachedPTS curNode dst .load

/-- the new edges of a load edge, and what is to be propagated along them -/
def addLoads (curNode dst : NodeID) (s : St Obj Val) : St Obj Val × Finset NodeID :=
  let newEdgePTS := newLoads curNode dst s
  (bits newEdgePTS).foldl (loadStep dst) (cacheEdge curNode dst .load newEdgePTS s, ∅)

def loadEdge (curNode : NodeID) (r : Flagged Obj Val Fields) (dst : NodeID) :
    Flagged Obj Val Fields :=
  let a := addLoads curNode dst r.1
  let diffPTS := a.2 \ a.1.core.pts dst
  let r' := (deepPropagate w (depth a.1) (a.1, r.2) dst dst diffPTS).1
  (unmarkBlack r'.1, r'.2)

/-- the edge to one object, and the propagation along it -/
def storeStep (src : NodeID) (r : Flagged Obj Val Fields) (v : NodeID) : Flagged Obj Val Fields :=
  let b := r.1.addCopy noop src v
  if b.2 then
    let diff := b.1.core.pts src \ b.1.core.pts v
    (deepPropagate w (depth b.1) (b.1, r.2) v src diff).1
  else (b.1, r.2)

/-- the objects that are new at the store edge -/
def newStores (curNode src : NodeID) (s : St Obj Val) : Finset NodeID :=
  s.core.pts curNode \ s.self.edgeCachedPTS src curNode .store

def storeEdge (curNode : NodeID) (r : Flagged Obj Val Fields) (src : NodeID) :
    Flagged Obj Val Fields :=
  let newEdgePTS := newStores curNode src r.1
  let r' := (bits newEdgePTS).foldl (storeStep w src)
    (cacheEdge src curNode .store newEdgePTS r.1, r.2)
  (unmarkBlack r'.1, r'.2)

def offsetEdge (curNode : NodeID) (r : Flagged Obj Val Fields) (dst : NodeID) :
    Flagged Obj Val Fields :=
  let r' := r.1.processOffset M noop copyAddrOf curNode dst
  (r'.1, r.2 || r'.2)

/-- the load, store and offset edges -/
def edges : NodeWork Obj Val Fields := ⟨loadEdge w, storeEdge w, offsetEdge M⟩

/-- the body of the loop of `runSolver` -/
def pass (s : St Obj Val) : Flagged Obj Val Fields :=
  (List.range s.core.graph.nodeNum).foldl ((edges M w).processNode w) (s, false)

/-- SCC detection and one wave over the copy edges -/
def firstWave (s : St Obj Val) : Option (St Obj Val) :=
  (wave w ⟨s.core, { s.self.toCaches with cachedPTS := fun _ => ∅ }⟩).map fun t =>
    ⟨t.core, { s.self with toCaches := t.self }⟩

def runSolver (fuel : Nat) (s : St Obj Val) : Option (St Obj Val) :=
  (firstWave w s).bind fun s =>
    (doWhile (fun r => r.2) (fun r => some (pass M w r.1)) fuel (s, true)).map fun r => r.1

/-! ## the branches that lose nothing -/

/-- an object that is merged has its edge already, and no other successor of `dst` lacks anything -/
def LoadOk (curNode : NodeID) (r : Flagged Obj Val Fields) (dst : NodeID) : Prop :=
  (∀ v ∈ newLoads curNode dst r.1,
    r.1.core.graph.superOf v = none ∨ r.1.core.graph.Covers .copy v dst) ∧
  let a := addLoads curNode dst r.1
  PropOk w (depth a.1) a.1 dst dst (a.2 \ a.1.core.pts dst)

/-- the same for the edge to one object -/
def StoreStepOk (src : NodeID) (r : Flagged Obj Val Fields) (v : NodeID) : Prop :=
  let b := r.1.addCopy noop src v
  b.2 = true → r.1.core.graph.superOf v = none ∧
    PropOk w (depth b.1) b.1 v src (b.1.core.pts src \ b.1.core.pts v)

def StoreOk (curNode : NodeID) (r : Flagged Obj Val Fields) (src : NodeID) : Prop :=
  let newEdgePTS := newStores curNode src r.1
  FoldOk (StoreStepOk w src) (storeStep w src) (bits newEdgePTS)
    (cacheEdge src curNode .store newEdgePTS r.1, r.2)

/-- every copy successor of `d` holds the field that `d` takes of `x` already -/
def FieldKnown (c : Core Obj Val) (d x : NodeID) : Prop :=
  match c.graph.kind x, c.graph.kind d with
  | .objNode o, .ptrNode (some gep) =>
    match M.indexObject o gep with
    | some f => ∀ v ∈ c.graph.succ .copy d, ∃ i ∈ c.pts v, c.graph.kind i = .objNode f
    | none => True
  | _, _ => True

def OffsetOk (curNode : NodeID) (r : Flagged Obj Val Fields) (dst : NodeID) : Prop :=
  ∀ x ∈ newGEPs curNode dst r.1, FieldKnown M r.1.core dst x

def edgesOk : NodeCond Obj Val Fields := ⟨LoadOk w, StoreOk w, OffsetOk M⟩

def PassOk (s : St Obj Val) : Prop :=
  FoldOk ((edges M w).NodeOk (edgesOk M w) w) ((edges M w).processNode w)
    (List.range s.core.graph.nodeNum) (s, false)

/-- the first `n` passes -/
def PassesOk : Nat → St Obj Val → Prop
  | 0, _ => True
  | n + 1, s => PassOk M w s ∧ ((pass M w s).2 = true → PassesOk n (pass M w s).1)

section
variable [DecidableEq Val] (n v : NodeID) (r : Flagged Obj Val Fields)

instance (c : Core Obj Val) (d x : NodeID) : Decidable (FieldKnown M c d x) := by
  unfold FieldKnown
  split
  · split <;> infer_instance
  · infer_instance

instance : Decidable ((edgesOk M w).load n r v) := inferInstanceAs (Decidable (_ ∧ PropOk ..))

instance (src : NodeID) (r : Flagged Obj Val Fields) (v : NodeID) :
    Decidable (StoreStepOk w src r v) := inferInstanceAs (Decidable (_ → _ ∧ PropOk ..))

instance : Decidable ((edgesOk M w).store n r v) := inferInstanceAs (Decidable (FoldOk ..))

instance : Decidable ((edgesOk M w).offset n r v) :=
  inferInstanceAs (Decidable (∀ x ∈ newGEPs n v r.1, FieldKnown M r.1.core v x))

instance (s : St Obj Val) : Decidable (PassOk M w s) := inferInstanceAs (Decidable (FoldOk ..))

end

/-- every pass of the run -/
def RunOk (s : St Obj Val) : Prop := ∀ t ∈ firstWave w s, ∀ n, PassesOk M w n t

/-! ## adding edges -/

variable {M w} {s : St Obj Val} {r r₀ : Flagged Obj Val Fields} {G : NodeID → Prop}

/-- the caches of the load and store edges are right -/
abbrev EdgesCached (s : St Obj Val) : Prop :=
  EdgeCached s.core.graph (fun u v => s.self.edgeCachedPTS u v .load)
    fun u v => s.self.edgeCachedPTS v u .store

/-- what going through the nodes keeps -/
structure Kept (r : Flagged Obj Val Fields) : Prop where
  unsat : ∀ u v, ¬ r.1.core.Unsat u v
  edges : EdgesCached r.1

/-- adding copy edges and propagating along them -/
structure Ran (M : MemModel Obj Val) (w : Walk) (r₀ r : Flagged Obj Val Fields) : Prop where
  ext : r₀.1.core.Extends M w r.1.core
  handled : r.1.core.handledGEPMap = r₀.1.core.handledGEPMap
  caches : r.1.self.toCaches = r₀.1.self.toCaches
  flag : r.2 = false → r₀.2 = false ∧ r.1.core.pts = r₀.1.core.pts
  less : r.2 = true → r₀.2 = true ∨ r.1.core.measure M < r₀.1.core.measure M

theorem Ran.refl (M : MemModel Obj Val) (w : Walk) (r : Flagged Obj Val Fields) :
    Ran M w r r :=
  ⟨.refl .., rfl, rfl, fun h => ⟨h, rfl⟩, .inl⟩

theorem Ran.trans {r₁ r₂ r₃ : Flagged Obj Val Fields} (hs : r₁.1.core.Sane) (h : Ran M w r₁ r₂)
    (h' : Ran M w r₂ r₃) : Ran M w r₁ r₃ where
  ext := h.ext.trans h'.ext
  handled := h'.handled.trans h.handled
  caches := h'.caches.trans h.caches
  flag hf := by
    obtain ⟨h1, h2⟩ := h'.flag hf
    obtain ⟨h3, h4⟩ := h.flag h1
    exact ⟨h3, h2.trans h4⟩
  less hf := by
    obtain ⟨hs₂, hle⟩ := hs.run h.ext.steps
    rcases h'.less hf with h1 | h1
    · exact (h.less h1).imp_right fun h2 => (hs₂.run h'.ext.steps).2.trans_lt h2
    · exact .inr (h1.trans_le hle)

/-! ## load edges -/

/-- the state while the edges from some objects are added; `a.2` is to be propagated -/
structure Loading (M : MemModel Obj Val) (w : Walk) (s : St Obj Val) (dst : NodeID)
    (a : St Obj Val × Finset NodeID) : Prop where
  ext : s.core.Extends M w a.1.core
  handled : a.1.core.handledGEPMap = s.core.handledGEPMap
  pts : a.1.core.pts = s.core.pts
  self : a.1.self = s.self
  less : a.2 ≠ ∅ → a.1.core.measure M < s.core.measure M
  reach : ∀ x ∈ a.2, ∃ u, x ∈ a.1.core.pts u ∧ dst ∈ a.1.core.graph.succ .copy u
  edge : ∀ u v, v ∈ a.1.core.graph.succ .copy u →
    v ∈ s.core.graph.succ .copy u ∨ (v = dst ∧ a.1.core.pts u ⊆ a.2)

theorem Loading.step {u dst x : NodeID} {a : St Obj Val × Finset NodeID}
    (h : Loading M w s dst a) (hsh : s.core.Shape G) (hd : dst ∈ s.core.graph.succ .load u)
    (hx : x ∈ s.core.pts u)
    (hok : s.core.graph.superOf x = none ∨ s.core.graph.Covers .copy x dst) :
    Loading M w s dst (loadStep dst a x) ∧ (loadStep dst a x).1.core.graph.Covers .copy x dst ∧
      a.1.core.Extends M w (loadStep dst a x).1.core := by
  have hsa := hsh.run h.ext.steps
  have hd' : dst ∈ a.1.core.graph.succ .load u := by
    rwa [h.ext.succ .load (by decide) (by decide)]
  have hlt := hsa.inv.edge_lt _ _ _ hd'
  have hx' : x ∈ a.1.core.pts u := h.pts ▸ hx
  have hs := Step.load (M := M) (w := w) (c := a.1.core) x u dst hx' hd'
  rw [insertConstraint_rep_left hsa.inv] at hs
  have hext := Extends.insert hs
  have hcov := covers_insertConstraint_self (g := a.1.core.graph) x dst .copy
  rw [loadStep, addCopy_noop]
  dsimp only
  cases hi : (a.1.core.graph.insertConstraint x dst .copy).2 with
  | false =>
    rw [if_neg Bool.false_ne_true]
    refine ⟨⟨h.ext.trans hext, h.handled, h.pts, h.self, fun hne => ?_, fun y hy => ?_,
      fun p q hpq => h.edge p q (succ_of_not_new hi hpq)⟩, hcov, hext⟩
    · exact ((hsa.sane.measure_insert (hsa.pts_obj u x hx').1 hlt.2).1).trans_lt (h.less hne)
    · obtain ⟨p, h1, h2⟩ := h.reach y hy
      exact ⟨p, h1, hext.copy _ _ h2⟩
  | true =>
    rw [if_pos rfl]
    -- a new edge starts at the object itself
    have hxn : a.1.core.graph.superOf x = none := by
      rw [h.ext.superOf]
      exact hok.resolve_right fun hc =>
        not_covers_of_new hi (h.ext.covers (by decide) hc)
    have hdn := hsa.inv.target_none hd'
    have hmem := mem_succ_insertConstraint (g := a.1.core.graph) x dst .copy .copy
    rw [getSuperNode_of_none hxn, getSuperNode_of_none hdn] at hmem
    have hne : x ≠ dst := fun e => not_covers_of_new hi (.inr ⟨rfl, by rw [e]⟩)
    refine ⟨⟨h.ext.trans hext, h.handled, h.pts, h.self, fun _ => ?_, fun y hy => ?_,
      fun p q hpq => ?_⟩, hcov, hext⟩
    · exact ((hsa.sane.measure_insert (hsa.pts_obj u x hx').1 hlt.2).2 hi).trans_le
        (hsh.sane.run h.ext.steps).2
    · rcases Finset.mem_union.mp hy with hy | hy
      · obtain ⟨p, h1, h2⟩ := h.reach y hy
        exact ⟨p, h1, hext.copy _ _ h2⟩
      · exact ⟨x, hy, (hmem x dst).mpr (.inr ⟨rfl, rfl, rfl, fun e => hne e.1⟩)⟩
    · rcases (hmem p q).mp hpq with h1 | ⟨-, rfl, rfl, -⟩
      · exact (h.edge p q h1).imp_right fun h2 => ⟨h2.1, h2.2.trans Finset.subset_union_left⟩
      · exact .inr ⟨rfl, Finset.subset_union_right⟩

theorem addLoads_spec {u dst : NodeID} (hsh : s.core.Shape G)
    (hd : dst ∈ s.core.graph.succ .load u) (hok : ∀ v ∈ newLoads u dst s,
      s.core.graph.superOf v = none ∨ s.core.graph.Covers .copy v dst) :
    Loading M w (cacheEdge u dst .load (newLoads u dst s) s) dst (addLoads u dst s) ∧
      ∀ v ∈ newLoads u dst s, (addLoads u dst s).1.core.graph.Covers .copy v dst := by
  have hstep : ∀ a, Loading M w (cacheEdge u dst .load (newLoads u dst s) s) dst a →
      ∀ x ∈ bits (newLoads u dst s), _ := fun a ha x hx =>
    ha.step hsh hd (Finset.sdiff_subset ((mem_bits _ _).mp hx)) (hok x ((mem_bits _ _).mp hx))
  obtain ⟨h1, h2⟩ := foldl_all (f := loadStep dst) (l := bits (newLoads u dst s))
    (s := (cacheEdge u dst .load (newLoads u dst s) s, ∅))
    (I := Loading M w (cacheEdge u dst .load (newLoads u dst s) s) dst)
    (Q := fun x a => a.1.core.graph.Covers .copy x dst)
    (fun a x hx ha => (hstep a ha x hx).1) (fun a x hx ha => (hstep a ha x hx).2.1)
    (fun a x hx y ha hy => (hstep a ha x hx).2.2.covers (by decide) hy)
    ⟨.refl .., rfl, rfl, rfl, fun h => absurd rfl h, fun x hx => absurd hx (Finset.notMem_empty x),
      fun _ _ h => .inl h⟩
  exact ⟨h1, fun v hv => h2 v ((mem_bits _ _).mpr hv)⟩

theorem loadEdge_ran {u v : NodeID} (hsh : r.1.core.Shape G)
    (hun : ∀ p q, ¬ r.1.core.Unsat p q) (huv : v ∈ r.1.core.graph.succ .load u)
    (hok : LoadOk w u r v) :
    Ran M w (cacheEdge u v .load (newLoads u v r.1) r.1, r.2) (loadEdge w u r v) ∧
      (∀ p q, ¬ (loadEdge w u r v).1.core.Unsat p q) ∧
      ∀ x ∈ newLoads u v r.1, (loadEdge w u r v).1.core.graph.Covers .copy x v := by
  obtain ⟨ha, hcov⟩ := addLoads_spec (M := M) (w := w) hsh huv hok.1
  have hsa := hsh.run ha.ext.steps
  rw [loadEdge]
  set a := addLoads u v r.1 with hadef
  have hvlt : v < a.1.core.graph.nodeNum :=
    (hsh.inv.edge_lt _ _ _ huv).2.trans_le ha.ext.nodeNum
  obtain ⟨hrun, hless⟩ := deepPropagate_run (M := M) (w := w) (depth a.1) (a.1, r.2) v v
    (a.2 \ a.1.core.pts v) fun x hx => by
      obtain ⟨p, h1, h2⟩ := ha.reach x (Finset.mem_sdiff.mp hx).1
      exact ⟨p, h1, .single h2⟩
  have hsat := deepPropagate_sat (w := w) (depth a.1) (a.1, r.2) v v (a.2 \ a.1.core.pts v)
    hsa.inv hvlt (Nat.lt_succ_of_le (card_lacking_le _ _)) (fun p q hpq => ?_) (.inl rfl) hok.2
  · refine ⟨⟨ha.ext.trans hrun.core.extends, hrun.core.handled.trans ha.handled,
      hrun.caches.trans (congrArg Fields.toCaches ha.self), fun hf => ?_, fun hf => ?_⟩, hsat,
      fun x hx => hrun.core.extends.covers (by decide) (hcov x hx)⟩
    · obtain ⟨h1, h2⟩ := hrun.flag hf
      exact ⟨h1, h2.trans ha.pts⟩
    · refine (hless hf).imp_right fun hne => ?_
      have hne' : a.2 ≠ ∅ := by
        rintro he
        rw [he, Finset.empty_sdiff] at hne
        exact hne (Finset.empty_subset _)
      exact (hsa.sane.run hrun.core.steps).2.trans_lt (ha.less hne')
  · rcases ha.edge p q hpq with h1 | ⟨rfl, h1⟩
    · left
      show a.1.core.pts p ⊆ a.1.core.pts q
      rw [ha.pts]
      by_contra hsub
      exact hun p q ⟨h1, hsub⟩
    · right
      refine ⟨rfl, ?_⟩
      show a.1.core.pts p ⊆ a.1.core.pts q ∪ (a.2 \ a.1.core.pts q)
      rw [Finset.union_sdiff_self_eq_union]
      exact h1.trans Finset.subset_union_right

/-! ## store edges -/

theorem storeStep_ran {u v x : NodeID} (hsh : r.1.core.Shape G)
    (hun : ∀ p q, ¬ r.1.core.Unsat p q) (huv : v ∈ r.1.core.graph.succ .store u)
    (hx : x ∈ r.1.core.pts v) (hok : StoreStepOk w u r x) :
    Ran M w r (storeStep w u r x) ∧ (∀ p q, ¬ (storeStep w u r x).1.core.Unsat p q) ∧
      (storeStep w u r x).1.core.graph.Covers .copy u x := by
  obtain ⟨hult, -⟩ := hsh.inv.edge_lt _ _ _ huv
  have hxlt := (hsh.pts_obj v x hx).1
  have hs := Step.store (M := M) (w := w) (c := r.1.core) x u v hx huv
  rw [insertConstraint_rep_right hsh.inv] at hs
  have hext := Extends.insert hs
  have hcov := covers_insertConstraint_self (g := r.1.core.graph) u x .copy
  have hmeas := hsh.sane.measure_insert (M := M) hult hxlt
  rw [StoreStepOk, addCopy_noop] at hok
  rw [storeStep, addCopy_noop]
  dsimp only at hok ⊢
  cases hi : (r.1.core.graph.insertConstraint u x .copy).2 with
  | false =>
    rw [if_neg Bool.false_ne_true]
    exact ⟨⟨hext, rfl, rfl, fun hf => ⟨hf, rfl⟩, .inl⟩,
      fun p q hpq => hun p q ⟨succ_of_not_new hi hpq.1, hpq.2⟩, hcov⟩
  | true =>
    rw [if_pos rfl]
    obtain ⟨hxn, hok⟩ := hok hi
    set b := r.1.withGraph (r.1.core.graph.insertConstraint u x .copy).1 with hb
    have hshb : b.core.Shape G := hsh.run hext.steps
    have hmem := mem_succ_insertConstraint (g := r.1.core.graph) u x .copy .copy
    rw [getSuperNode_of_none (hsh.inv.source_none huv), getSuperNode_of_none hxn] at hmem
    have hne : u ≠ x := fun e => not_covers_of_new hi (.inr ⟨rfl, by rw [e]⟩)
    have hedge : x ∈ b.core.graph.succ .copy u :=
      (hmem u x).mpr (.inr ⟨rfl, rfl, rfl, fun e => hne e.1⟩)
    obtain ⟨hrun, -⟩ := deepPropagate_run (M := M) (w := w) (depth b) (b, r.2) x u
      (b.core.pts u \ b.core.pts x) fun y hy => ⟨u, (Finset.mem_sdiff.mp hy).1, .single hedge⟩
    have hsat := deepPropagate_sat (w := w) (depth b) (b, r.2) x u (b.core.pts u \ b.core.pts x)
      hshb.inv (hxlt.trans_le hext.nodeNum) (Nat.lt_succ_of_le (card_lacking_le _ _))
      (fun p q hpq => ?_) (.inr Finset.sdiff_subset) hok
    · refine ⟨⟨hext.trans hrun.core.extends, hrun.core.handled, hrun.caches,
        fun hf => hrun.flag hf, fun _ => .inr ?_⟩, hsat, hrun.core.extends.covers (by decide) hcov⟩
      exact (hshb.sane.run hrun.core.steps).2.trans_lt (hmeas.2 hi)
    · rcases (hmem p q).mp hpq with h1 | ⟨-, rfl, rfl, -⟩
      · left
        by_contra hsub
        exact hun p q ⟨h1, hsub⟩
      · right
        refine ⟨rfl, ?_⟩
        show b.core.pts p ⊆ b.core.pts q ∪ (b.core.pts p \ b.core.pts q)
        rw [Finset.union_sdiff_self_eq_union]
        exact Finset.subset_union_right

theorem storeEdge_ran {u v : NodeID} (hsh : r.1.core.Shape G)
    (hun : ∀ p q, ¬ r.1.core.Unsat p q) (huv : u ∈ r.1.core.graph.succ .store v)
    (hok : StoreOk w u r v) :
    Ran M w (cacheEdge v u .store (newStores u v r.1) r.1, r.2) (storeEdge w u r v) ∧
      (∀ p q, ¬ (storeEdge w u r v).1.core.Unsat p q) ∧
      ∀ x ∈ newStores u v r.1, (storeEdge w u r v).1.core.graph.Covers .copy v x := by
  set r₁ : Flagged Obj Val Fields := (cacheEdge v u .store (newStores u v r.1) r.1, r.2) with hr₁
  have hsh₁ : r₁.1.core.Shape G := hsh
  have hult := (hsh.inv.edge_lt _ _ _ huv).2
  have hstep : ∀ t : Flagged Obj Val Fields, Ran M w r₁ t → (∀ p q, ¬ t.1.core.Unsat p q) →
      ∀ x ∈ bits (newStores u v r.1), StoreStepOk w v t x → _ := fun t ht hunt x hx hok =>
    storeStep_ran (M := M) (w := w) (G := G) (hsh₁.run ht.ext.steps) hunt
      (by rwa [ht.ext.succ .store (by decide) (by decide)])
      (ht.ext.pts u hult (Finset.sdiff_subset ((mem_bits _ _).mp hx))) hok
  obtain ⟨⟨h1, h2⟩, h3⟩ := foldl_ok (f := storeStep w v) (l := bits (newStores u v r.1)) (s := r₁)
    (P := StoreStepOk w v) (I := fun t => Ran M w r₁ t ∧ ∀ p q, ¬ t.1.core.Unsat p q)
    (Q := fun x t => t.1.core.graph.Covers .copy v x)
    (fun t x hx hokt ht => by
      obtain ⟨h1, h2, -⟩ := hstep t ht.1 ht.2 x hx hokt
      exact ⟨ht.1.trans hsh₁.sane h1, h2⟩)
    (fun t x hx hokt ht => (hstep t ht.1 ht.2 x hx hokt).2.2)
    (fun t x hx y hokt ht hy => (hstep t ht.1 ht.2 x hx hokt).1.ext.covers (by decide) hy)
    hok ⟨.refl .., hun⟩
  exact ⟨⟨h1.ext, h1.handled, h1.caches, h1.flag, h1.less⟩, h2,
    fun x hx => h3 x ((mem_bits _ _).mpr hx)⟩

/-! ## offset edges -/

/-- while `d` gets fields that its successors hold already, every copy edge stays satisfied -/
theorem unsat_keptBy {d x : NodeID} {gep : Val} {S : Finset NodeID} {t : St Obj Val}
    (hsh : t.core.Shape G) (hd : G d) (hknown : ∀ o f, t.core.graph.kind x = .objNode o →
      M.indexObject o gep = some f →
        ∀ v ∈ S, ∃ i ∈ t.core.pts v, t.core.graph.kind i = .objNode f) :
    KeptBy M G (fun t => (∀ p q, ¬ t.core.Unsat p q) ∧ t.core.graph.succ .copy d = S) t d gep
      x := by
  rintro o f i c ho hf hc hshc hi hif - ⟨hun, hS⟩
  have hia := Shape.isAddr_succ hi hif
  have hne : i + 1 ≠ d := fun e => hshc.not_addr_of_gep hd (e ▸ hia)
  -- making the node of the field leaves the edges and the sets of their ends as they are
  have hedges : ∀ u, c.graph.succ .copy u = t.core.graph.succ .copy u := by
    rcases hc with ⟨rfl, -⟩ | ⟨rfl, -, rfl⟩
    · exact fun _ => rfl
    · exact (hsh.nodeAdded (.objNode f)).succ .copy (by decide)
  have hold : ∀ n < t.core.graph.nodeNum, c.pts n = t.core.pts n ∧
      c.graph.kind n = t.core.graph.kind n := by
    rcases hc with ⟨rfl, -⟩ | ⟨rfl, -, rfl⟩
    · exact fun _ _ => ⟨rfl, rfl⟩
    · exact fun n hn => ⟨Shape.pts_addCGNode_of_lt hn, (hsh.nodeAdded (.objNode f)).kind_old n hn⟩
  have hsucc := mem_succ_copyAlong (s := { t with core := c }) hne (hshc.addr_fixed _ hia).1
    (hshc.gep_fixed d hd).1
  refine ⟨fun p q hpq => hpq.2 ?_, ?_⟩
  · have hgrow : ∀ n, c.pts n ⊆ (copyAlong (i + 1) d { t with core := c }).core.pts n := fun n => by
      rw [pts_copyAlong]
      split
      · exact Finset.subset_union_left
      · exact Finset.Subset.refl _
    rcases (hsucc p q).mp hpq.1 with h1 | ⟨rfl, rfl⟩
    · rw [show (State.core { t with core := c }) = c from rfl, hedges] at h1
      obtain ⟨hp, hq⟩ := hsh.inv.edge_lt _ _ _ h1
      have hsub : c.pts p ⊆ c.pts q := by
        rw [(hold p hp).1, (hold q hq).1]
        by_contra hsub
        exact hun p q ⟨h1, hsub⟩
      rw [pts_copyAlong]
      split
      · rename_i hpd
        refine Finset.union_subset (hsub.trans (hgrow q)) ?_
        obtain ⟨j, hj, hjf⟩ := hknown o f ho hf q (hS ▸ hpd ▸ h1)
        have hjlt := (hsh.pts_obj q j hj).1
        rw [← (hold q hq).1] at hj
        rw [← (hold j hjlt).2] at hjf
        have hji := hshc.uniq j i f (hshc.pts_obj q j hj).1 hi hjf hif
        show c.pts (i + 1) ⊆ _
        rw [hshc.pts_addr i f hi hif]
        exact Finset.singleton_subset_iff.mpr (hji ▸ hgrow q hj)
      · exact hsub.trans (hgrow q)
    · rw [pts_copyAlong, pts_copyAlong, if_neg hne, if_pos rfl]
      exact Finset.subset_union_right
  · rw [← hS, ← hedges d]
    ext v
    exact (hsucc d v).trans (or_iff_left fun h => hne h.1.symm)

theorem offsetEdge_unsat {u d : NodeID} (hsh : r.1.core.Shape G) (hd : d ∈ r.1.core.graph.succ .offset u)
    (hok : OffsetOk M u r d) :
    Run M w (fun t => (∀ p q, ¬ t.core.Unsat p q) ∧
      t.core.graph.succ .copy d = r.1.core.graph.succ .copy d) (r.1, false)
        (r.1.processOffset M noop copyAddrOf u d) := by
  have hG := hsh.wf.gep_target u d hd
  refine processOffset_run hsh hd (fun h => h) fun t ht hst gep hgep x hx => unsat_keptBy hst hG ?_
  intro o f ho hf v hv
  have hxlt := (hsh.pts_obj u x (Finset.mem_sdiff.mp hx).1).1
  have hknown := hok x hx
  rw [ht.kind x hxlt] at ho
  simp only [FieldKnown, ho, hgep, hf] at hknown
  obtain ⟨i, hi, hif⟩ := hknown v hv
  exact ⟨i, ht.pts v (hsh.inv.edge_lt _ _ _ hv).2 hi,
    (ht.kind i (hsh.pts_obj v i hi).1).trans hif⟩

/-! ## the edges are turns -/

/-- a load or store edge was processed -/
theorem turn_of_ran {n m : NodeID} {k : Constraints} {new : Finset NodeID}
    (hran : Ran M w (cacheEdge n m k new r₀.1, r₀.2) r) (hun : ∀ p q, ¬ r.1.core.Unsat p q)
    (hload : k = .load → ∀ x ∈ new, r.1.core.graph.Covers .copy x m)
    (hstore : k = .store → ∀ x ∈ new, r.1.core.graph.Covers .copy n x) :
    Turn M w Kept r₀ r := by
  have hext : r₀.1.core.Extends M w r.1.core := hran.ext
  have hcache : r.1.self.edgeCachedPTS = (cacheEdge n m k new r₀.1).self.edgeCachedPTS :=
    congrArg Caches.edgeCachedPTS hran.caches
  have hmem : ∀ a b k' x, x ∈ r.1.self.edgeCachedPTS a b k' →
      x ∈ r₀.1.self.edgeCachedPTS a b k' ∨ (a = n ∧ b = m ∧ k' = k ∧ x ∈ new) := by
    intro a b k' x hx
    rw [hcache] at hx
    have hx' : x ∈ (if a = n ∧ b = m ∧ k' = k then _ else _) := hx
    split at hx'
    · rename_i he
      exact (Finset.mem_union.mp hx').imp_right fun h => ⟨he.1, he.2.1, he.2.2, h⟩
    · exact .inl hx'
  refine ⟨hext, fun _ _ hk => ⟨hun, ⟨fun a b x hx => ?_, fun a b x hx => ?_⟩⟩,
    fun G hg hi => hi.run hg hext.steps hran.handled, hran.flag, hran.less⟩
  · rcases hmem _ _ _ x hx with h1 | ⟨-, rfl, h2, h3⟩
    · exact hext.covers (by decide) (hk.edges.load a b x h1)
    · exact hload h2.symm x h3
  · rcases hmem _ _ _ x hx with h1 | ⟨rfl, -, h2, h3⟩
    · exact hext.covers (by decide) (hk.edges.store a b x h1)
    · exact hstore h2.symm x h3

/-- where nothing is lost, the work at every edge is a turn that closes the edge -/
theorem turns : (edges M w).Turns M w (Kept : Flagged Obj Val Fields → Prop) (edgesOk M w) where
  load G r u v hsh hk huv hok := by
    obtain ⟨h1, h2, h3⟩ := loadEdge_ran (M := M) hsh hk.unsat huv hok
    refine ⟨turn_of_ran h1 h2 (fun _ => h3) fun h => (by cases h), fun x hx => ?_⟩
    by_cases hc : x ∈ r.1.self.edgeCachedPTS u v .load
    · exact h1.ext.covers (by decide) (hk.edges.load u v x hc)
    · exact h3 x (Finset.mem_sdiff.mpr ⟨hx, hc⟩)
  store G r u v hsh hk huv hok := by
    obtain ⟨h1, h2, h3⟩ := storeEdge_ran (M := M) hsh hk.unsat huv hok
    refine ⟨turn_of_ran h1 h2 (fun h => (by cases h)) fun _ => h3, fun x hx => ?_⟩
    by_cases hc : x ∈ r.1.self.edgeCachedPTS v u .store
    · exact h1.ext.covers (by decide) (hk.edges.store u v x hc)
    · exact h3 x (Finset.mem_sdiff.mpr ⟨hx, hc⟩)
  offset G r u v hsh hk huv hok := by
    have hrun := offsetEdge_unsat (w := w) hsh huv hok
    obtain ⟨h1, h2, h3⟩ := processOffset_handled (M := M) hsh huv
    refine ⟨⟨hrun.ext, fun G' hg hk' => ⟨(hrun.keep G' hg ⟨hk'.unsat, rfl⟩).1,
      fun a b x hx => ?_, fun a b x hx => ?_⟩, h3, fun hf => ?_, fun hf => ?_⟩, h2⟩
    · have hx' : x ∈ (r.1.processOffset M noop copyAddrOf u v).1.self.edgeCachedPTS a b .load := hx
      rw [hrun.self] at hx'
      exact hrun.ext.covers (by decide) (hk'.edges.load a b x hx')
    · have hx' : x ∈ (r.1.processOffset M noop copyAddrOf u v).1.self.edgeCachedPTS b a .store :=
        hx
      rw [hrun.self] at hx'
      exact hrun.ext.covers (by decide) (hk'.edges.store a b x hx')
    · obtain ⟨h4, h5⟩ := Bool.or_eq_false_iff.mp hf
      exact ⟨h4, (hrun.flag h5).2.pts⟩
    · exact (Bool.or_eq_true_iff.mp hf).imp_right h1

/-! ## the loop -/

/-- the invariant of the loop of `runSolver` -/
structure Good (M : MemModel Obj Val) (G : NodeID → Prop) (s : St Obj Val) : Prop where
  shape : s.core.Shape G
  unsat : ∀ u v, ¬ s.core.Unsat u v
  edges : EdgesCached s
  indexed : s.core.AllIndexed M

/-- One pass: either nothing has changed and everything is closed, or the measure is lower. -/
theorem Good.pass (h : Good M G s) (hok : PassOk M w s) :
    Good M G (pass M w s).1 ∧ Steps M w s.core (pass M w s).1.core ∧
    ((pass M w s).2 = false → (pass M w s).1.core.Closed M) ∧
    ((pass M w s).2 = true → (pass M w s).1.core.measure M < s.core.measure M) := by
  have hkept : Kept (s, false) := ⟨h.unsat, h.edges⟩
  obtain ⟨hturn, hnodes⟩ := (turns (M := M) (w := w)).nodes (r := (s, false)) h.shape hkept hok
  have hk := hturn.keep G h.shape hkept
  have hidx := hturn.indexed G h.shape h.indexed
  refine ⟨⟨h.shape.run hturn.ext.steps, hk.unsat, hk.edges, hidx⟩, hturn.ext.steps, fun hf => ?_,
    fun hf => (hturn.less hf).resolve_left Bool.false_ne_true⟩
  exact hturn.all_closed h.shape (fun n hn => hnodes n (List.mem_range.mpr hn) hf) hk.unsat hidx

/-- after the first wave every copy edge is satisfied -/
theorem firstWave_good (hsh : s.core.Shape G) (hpos : 0 < s.core.graph.nodeNum)
    (he : EdgesCached s) (hi : s.core.AllIndexed M) :
    ∃ t, firstWave w s = some t ∧ Good M G t ∧ Steps M w s.core t.core := by
  obtain ⟨t, ht, hrun, -, -, hunsat⟩ := wave_spec (M := M) (w := w)
    (s := ⟨s.core, { s.self.toCaches with cachedPTS := fun _ => ∅ }⟩) hsh.inv hpos
    ⟨fun _ => Finset.empty_subset _, fun _ _ _ => Finset.empty_subset _⟩
  refine ⟨_, by rw [firstWave, ht]; rfl, ⟨hsh.run hrun.steps, hunsat, ⟨fun u v x hx => ?_,
    fun u v x hx => ?_⟩, hi.run hsh hrun.steps hrun.handled⟩, hrun.steps⟩
  · have hx' : x ∈ t.self.edgeCachedPTS u v .load := hx
    rw [hrun.edgeCachedPTS] at hx'
    exact hsh.covers_run hrun.steps (by decide) (he.load u v x hx')
  · have hx' : x ∈ t.self.edgeCachedPTS v u .store := hx
    rw [hrun.edgeCachedPTS] at hx'
    exact hsh.covers_run hrun.steps (by decide) (he.store u v x hx')

/-- If no pass takes a branch that loses something, then `runSolver` returns, and then everything is
closed. -/
theorem runSolver_spec (hsh : s.core.Shape G) (hpos : 0 < s.core.graph.nodeNum)
    (he : EdgesCached s) (hi : s.core.AllIndexed M) (hok : RunOk M w s) :
    (∃ fuel s', runSolver M w fuel s = some s') ∧
    ∀ fuel s', runSolver M w fuel s = some s' →
      Good M G s' ∧ s'.core.Closed M ∧ Steps M w s.core s'.core := by
  obtain ⟨t, ht, hgood, hsteps⟩ := firstWave_good (M := M) (w := w) hsh hpos he hi
  have hpasses := hok t ht
  constructor
  · obtain ⟨fuel, r, hr⟩ := doWhile_wf (c := fun r : Flagged Obj Val Fields => r.2)
      (b := fun r => some (pass M w r.1))
      (I := fun r => Good M G r.1 ∧ ∀ n, PassesOk M w n r.1)
      (InvImage.wf (fun r : Flagged Obj Val Fields => r.1.core.measure M) measure_wf)
      (fun r hI => by
        obtain ⟨h1, -, -, h2⟩ := hI.1.pass (hI.2 1).1
        exact ⟨_, rfl, fun hc => ⟨⟨h1, fun n => (hI.2 (n + 1)).2 hc⟩, h2 hc⟩⟩) (s := (t, true))
      ⟨hgood, hpasses⟩
    exact ⟨fuel, r.1, by rw [runSolver, ht, Option.bind_some, hr]; rfl⟩
  · intro fuel s' hs'
    rw [runSolver, ht, Option.bind_some] at hs'
    obtain ⟨r, hr, rfl⟩ := Option.map_eq_some_iff.mp hs'
    have hend := doWhile_inv
      (I := fun r : Flagged Obj Val Fields => (Good M G r.1 ∧ Steps M w s.core r.1.core) ∧
        ∀ n, PassesOk M w n r.1)
      (J := fun r : Flagged Obj Val Fields => (Good M G r.1 ∧ Steps M w s.core r.1.core) ∧
        (r.2 = true → ∀ n, PassesOk M w n r.1) ∧ (r.2 = false → r.1.core.Closed M))
      (fun r r' hI hr' => by
        obtain ⟨h1, h2, h3, -⟩ := hI.1.1.pass (hI.2 1).1
        cases hr'
        exact ⟨⟨h1, hI.1.2.trans h2⟩, fun hc n => (hI.2 (n + 1)).2 hc, h3⟩)
      (fun r hJ hc => ⟨hJ.1, hJ.2.1 hc⟩) ⟨⟨hgood, hsteps⟩, hpasses⟩ hr
    exact ⟨hend.1.1.1, hend.1.2.2 hend.2, hend.1.1.2⟩

/-! ## histories -/

/-- The states after earlier runs that lose nothing, new nodes and new constraints, with what was
given so far.  The iterator starts at node 0, so a run needs a node. -/
inductive History (M : MemModel Obj Val) (w : Walk) : Given Obj Val → St Obj Val → Prop where
  | start {c : Core Obj Val} (G : NodeID → Prop) : c.Built → c.graph.WellFormedOn G →
      History M w ⟨c.graph.ofGraph, G⟩ ⟨c, {}⟩
  | edit {g g' : Given Obj Val} {s : St Obj Val} {e : Edit Obj Val} : History M w g s →
      Given.Step s.core e g g' → History M w g' { s with core := e.apply s.core }
  | run {g : Given Obj Val} {s s' : St Obj Val} {fuel : Nat} : History M w g s →
      0 < s.core.graph.nodeNum → RunOk M w s → runSolver M w fuel s = some s' →
      History M w g s'

theorem History.inv {g : Given Obj Val} (h : History M w g s) :
    s.core.Tracks M g.gep g.cons ∧ EdgesCached s := by
  induction h with
  | start G hb hwf =>
    exact ⟨hb.tracks M hwf, fun _ _ x hx => (by cases hx), fun _ _ x hx => (by cases hx)⟩
  | edit _ hs ih => exact ⟨ih.1.edit hs, ih.2.edit ih.1 hs⟩
  | run _ hpos hok hrun ih =>
    obtain ⟨h1, -, h3⟩ := (runSolver_spec ih.1.shape hpos ih.2 ih.1.indexed hok).2 _ _ hrun
    exact ⟨ih.1.run h3 h1.indexed, h1.edges⟩

/-- In a run that takes no branch that loses something, `runSolver` returns, and then every node has
the least solution of all constraints given so far and every copy edge is satisfied. -/
theorem returned_least {g : Given Obj Val} (h : History M w g s)
    (hpos : 0 < s.core.graph.nodeNum) (hok : RunOk M w s) :
    (∃ fuel s', runSolver M w fuel s = some s') ∧
    ∀ fuel s', runSolver M w fuel s = some s' →
      (∀ n < s'.core.graph.nodeNum, ∀ o, s'.core.PointsTo n o ↔
        Inclusion.Least (andersen M g.cons) (s'.core.graph.name n) o) ∧
      ∀ u v, v ∈ s'.core.graph.succ .copy u → s'.core.pts u ⊆ s'.core.pts v := by
  obtain ⟨ht, he⟩ := h.inv
  obtain ⟨h1, h2⟩ := runSolver_spec (M := M) (w := w) ht.shape hpos he ht.indexed hok
  refine ⟨h1, fun fuel s' hs => ?_⟩
  obtain ⟨h3, h4, h5⟩ := h2 fuel s' hs
  exact ⟨(ht.run h5 h3.indexed).exact h4, h4.copy⟩

/-- a pointer to an object that points to another one, a load through it, and copies of what is
loaded -/
def loadEdits (copies : List NodeID) : List (Edit Bool Unit) :=
  [.addCGNode (.objNode false), .addCGNode (.objNode true), .addCGNode (.ptrNode none),
    .addCGNode (.ptrNode none), .addCGNode (.ptrNode none), .addCGNode (.ptrNode none),
    .addConstraints 2 0 .addrOf, .addConstraints 0 4 .addrOf, .addConstraints 4 5 .load] ++
  copies.map fun v => .addConstraints 5 v .copy

def loadCore (copies : List NodeID) : Core Bool Unit := (loadEdits copies).foldl Edit.apply {}

def loadState (copies : List NodeID) : St Bool Unit := ⟨loadCore copies, {}⟩

theorem loadCore_built (copies : List NodeID) (h : Edit.AllLegal (loadEdits copies) {}) :
    (loadCore copies).Built := Core.Built.empty.foldl h

/-- with one copy nothing is lost -/
theorem runOk_loadState : RunOk sampleMem .ascending (loadState [6]) := by
  have hpasses : ∀ t ∈ firstWave .ascending (loadState [6]), PassOk sampleMem .ascending t ∧
      PassOk sampleMem .ascending (pass sampleMem .ascending t).1 ∧
      (pass sampleMem .ascending (pass sampleMem .ascending t).1).2 = false := by decide +kernel
  intro t ht n
  obtain ⟨h1, h2, h3⟩ := hpasses t ht
  match n with
  | 0 => trivial
  | 1 => exact ⟨h1, fun _ => trivial⟩
  | n + 2 => exact ⟨h1, fun _ => ⟨h2, fun h => absurd (h3.symm.trans h) Bool.false_ne_true⟩⟩

theorem returned_least_sample :
    (∃ fuel s', runSolver sampleMem .ascending fuel (loadState [6]) = some s') ∧
    ∀ fuel s', runSolver sampleMem .ascending fuel (loadState [6]) = some s' →
      (∀ n < s'.core.graph.nodeNum, ∀ o, s'.core.PointsTo n o ↔
        Inclusion.Least (andersen sampleMem (loadCore [6]).graph.ofGraph) (s'.core.graph.name n) o) ∧
      ∀ u v, v ∈ s'.core.graph.succ .copy u → s'.core.pts u ⊆ s'.core.pts v :=
  returned_least (.start (loadCore [6]).graph.IsGep (loadCore_built [6] (by decide))
    (wellFormed_of_checks (loadCore_built [6] (by decide)).fresh.inv (by decide)))
    (by decide) runOk_loadState

/-- the loaded object reaches both copies -/
theorem loadCore_least : Inclusion.Least (andersen sampleMem (loadCore [6, 7]).graph.ofGraph)
    ((loadCore [6, 7]).graph.name 7) true := by
  have hsol := Inclusion.Least.solution (andersen sampleMem (loadCore [6, 7]).graph.ofGraph)
  have hedges : (4 : NodeID) ∈ (loadCore [6, 7]).graph.succ .copy 1 ∧
      (0 : NodeID) ∈ (loadCore [6, 7]).graph.succ .copy 3 ∧
      (5 : NodeID) ∈ (loadCore [6, 7]).graph.succ .load 4 ∧
      (7 : NodeID) ∈ (loadCore [6, 7]).graph.succ .copy 5 := by decide
  obtain ⟨h1, h2, h3, h4⟩ := hedges
  have hp := hsol.copy _ _ ⟨1, 4, h1, rfl, rfl⟩ false (hsol.base (.addr false) false rfl)
  have ho := hsol.copy (.addr true) (.obj false) ⟨3, 0, h2, rfl, rfl⟩ true (hsol.base _ _ rfl)
  exact hsol.copy _ _ ⟨5, 7, h4, rfl, rfl⟩ true
    (hsol.load _ _ ⟨4, 5, h3, rfl, rfl⟩ false hp true ho)

/-- Two copies of what is loaded: only the first one gets it. -/
theorem successor_lost : (loadCore [6, 7]).Built ∧ (loadCore [6, 7]).graph.WellFormed ∧
    ∃ fuel s', runSolver sampleMem .ascending fuel (loadState [6, 7]) = some s' ∧
      (∃ u v, v ∈ s'.core.graph.succ .copy u ∧ ¬ s'.core.pts u ⊆ s'.core.pts v) ∧
      ¬ ∀ n < s'.core.graph.nodeNum, ∀ o, s'.core.PointsTo n o ↔
        Inclusion.Least (andersen sampleMem (loadCore [6, 7]).graph.ofGraph)
          (s'.core.graph.name n) o := by
  have hb := loadCore_built [6, 7] (by decide)
  refine ⟨hb, wellFormed_of_checks hb.fresh.inv (by decide), 10, ?_⟩
  have hrun : ∃ s', runSolver sampleMem .ascending 10 (loadState [6, 7]) = some s' ∧
      s'.core.graph.nodeNum = 8 ∧ s'.core.graph.name 7 = (loadCore [6, 7]).graph.name 7 ∧
      7 ∈ s'.core.graph.succ .copy 5 ∧ s'.core.pts 5 = {2} ∧
      s'.core.pts (s'.core.graph.getSuperNode 7) = ∅ ∧ s'.core.pts 7 = ∅ := by decide +kernel
  obtain ⟨s', hs', hnum, hname, hedge, h5, hrep, h7⟩ := hrun
  refine ⟨s', hs', ⟨5, 7, hedge, ?_⟩, fun h => ?_⟩
  · rw [h5, h7]
    decide
  · obtain ⟨x, hx, -⟩ := (h 7 (by rw [hnum]; decide) true).mpr (hname ▸ loadCore_least)
    rw [hrep] at hx
    cases hx

end DeepPropagation

end AserPTA
