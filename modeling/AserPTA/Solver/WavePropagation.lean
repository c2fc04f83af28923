import AserPTA.Solver.AddressNodes
import AserPTA.Solver.Turn
import AserPTA.Solver.Wave

/-!
# WavePropagation

* `Kept`               what going through the nodes keeps: the caches are right, and as long as
                       `changed` is not set every copy edge is satisfied;
* `turns`              the work at every edge is a turn that closes the edge;
* `Good.iteration`     one run of the body of the loop of `runSolver`;
* `History`            the states after earlier runs, new nodes and new constraints;
* `history_least`      from such a state `runSolver` returns, and ends in the least solution.
-/

namespace AserPTA

open Relation Loop

namespace WavePropagation

open AserPTA.Core ConsGraph State Wave

variable {Obj Val : Type} [DecidableEq Obj]

/-! ## the solver -/

/-- what is new at `curNode` for the edge to or from `other` -/
def edgeDiff (curNode other : NodeID) (k : Constraints) (s : St Obj Val) : Finset NodeID :=
  s.core.pts curNode \ s.self.edgeCachedPTS curNode other k

def cacheEdge (curNode other : NodeID) (k : Constraints) (s : St Obj Val) : St Obj Val :=
  { s with self := { s.self with
      edgeCachedPTS := fun n m k' =>
        if n = curNode ∧ m = other ∧ k' = k then
          s.self.edgeCachedPTS n m k' ∪ edgeDiff curNode other k s
        else s.self.edgeCachedPTS n m k' } }

variable (M : MemModel Obj Val) (w : Walk)

def loadEdge (curNode : NodeID) (r : Flagged Obj Val Caches) (dst : NodeID) : Flagged Obj Val Caches :=
  let r' := (cacheEdge curNode dst .load r.1).processLoad State.noop copyNew dst
    (edgeDiff curNode dst .load r.1)
  (r'.1, r.2 || r'.2)

def storeEdge (curNode : NodeID) (r : Flagged Obj Val Caches) (src : NodeID) : Flagged Obj Val Caches :=
  let r' := (cacheEdge curNode src .store r.1).processStore State.noop copyNew src
    (edgeDiff curNode src .store r.1)
  (r'.1, r.2 || r'.2)

def offsetEdge (curNode : NodeID) (r : Flagged Obj Val Caches) (dst : NodeID) : Flagged Obj Val Caches :=
  let r' := r.1.processOffset M State.noop copyAddrOf curNode dst
  (r'.1, r.2 || r'.2)

/-- the load, store and offset edges -/
def edges : NodeWork Obj Val Caches := ⟨loadEdge, storeEdge, offsetEdge M⟩

/-- the body of the loop of `runSolver` -/
def iteration (s : St Obj Val) : Option (Flagged Obj Val Caches) :=
  (wave w s).map fun s => (List.range s.core.graph.nodeNum).foldl ((edges M).processNode w) (s, false)

def clearCache (s : St Obj Val) : St Obj Val :=
  { s with self := { s.self with cachedPTS := fun _ => ∅ } }

def runSolver (fuel : Nat) (s : St Obj Val) : Option (St Obj Val) :=
  (doWhile (fun r => r.2) (fun r => iteration M w r.1) fuel (clearCache s, true)).map fun r => r.1

/-! ## one edge -/

variable {M w} {s s₀ : St Obj Val} {r r₀ : Flagged Obj Val Caches} {G : NodeID → Prop}

omit [DecidableEq Obj] in
/-- the caches stay right when points-to sets grow and edges along which everything is propagated are
added -/
theorem cached_of_grow {t : St Obj Val} (h : Cached s) (hsh : s.core.Shape G)
    (hself : t.self = s.self)
    (hpts : ∀ n < s.core.graph.nodeNum, s.core.pts n ⊆ t.core.pts n)
    (hedge : ∀ u v, v ∈ t.core.graph.succ .copy u →
      v ∈ s.core.graph.succ .copy u ∨ t.core.pts u ⊆ t.core.pts v) : Cached t := by
  have hall : ∀ n, s.core.pts n ⊆ t.core.pts n := fun n x hx =>
    hpts n (hsh.pts_lt n x hx) hx
  refine ⟨fun u => ?_, fun u v huv => ?_⟩ <;> rw [hself]
  · exact (h.self u).trans (hall u)
  · rcases hedge u v huv with h1 | h1
    · exact (h.succ u v h1).trans (hall v)
    · exact (h.self u).trans ((hall u).trans h1)

omit [DecidableEq Obj] in
theorem cached_copyAlong {a b : NodeID} (h : Cached s) (hne : a ≠ b)
    (ha : s.core.graph.superOf a = none) (hb : s.core.graph.superOf b = none) :
    Cached (copyAlong a b s) := by
  have hgrow : ∀ n, s.core.pts n ⊆ (copyAlong a b s).core.pts n := fun n => by
    rw [pts_copyAlong]
    split
    · exact Finset.subset_union_left
    · exact Finset.Subset.refl _
  refine ⟨fun u => (h.self u).trans (hgrow u), fun u v huv => ?_⟩
  rcases (mem_succ_copyAlong hne ha hb u v).mp huv with h1 | ⟨rfl, rfl⟩
  · exact (h.succ u v h1).trans (hgrow v)
  · refine (h.self u).trans ?_
    rw [pts_copyAlong, if_pos rfl]
    exact Finset.subset_union_right

/-- one edge is added, if it is new -/
theorem addCopyThen_run {a b : NodeID} (r : Flagged Obj Val Caches)
    (ha : r.1.core.graph.superOf a = none) (hb : r.1.core.graph.superOf b = none)
    (hs : Step M w r.1.core { r.1.core with
      graph := (r.1.core.graph.insertConstraint a b .copy).1 }) :
    Run M w Cached r (addCopyThen noop copyNew a b r) := by
  have hsnd := insertConstraint_snd (g := r.1.core.graph) a b .copy
  rw [getSuperNode_of_none ha, getSuperNode_of_none hb] at hsnd
  rw [addCopyThen_eq]
  dsimp only [noop]
  cases hi : (r.1.core.graph.insertConstraint a b .copy).2 with
  | true =>
    have hne : a ≠ b := fun h => (hsnd.mp hi).2 ⟨h, rfl⟩
    rw [if_pos rfl]
    exact ⟨extends_copyAlong hne ha hb hs, rfl, fun _ _ h => cached_copyAlong h hne ha hb,
      fun hf => by cases hf⟩
  | false =>
    rw [if_neg Bool.false_ne_true]
    have hold : ∀ u v, v ∈ (r.1.core.graph.insertConstraint a b .copy).1.succ .copy u →
        v ∈ r.1.core.graph.succ .copy u := fun _ _ => succ_of_not_new hi
    exact ⟨.insert hs, rfl, fun G hsh hc => cached_of_grow hc hsh rfl
      (fun _ _ => Finset.Subset.refl _) fun u v huv => .inl (hold u v huv), fun hf => ⟨hf, rfl, hold⟩⟩

theorem addCopies_run {ends : ConsGraph Obj Val → NodeID → NodeID × NodeID}
    {l : List NodeID} (hE : Ends M w s.core ends l) :
    Run M w Cached (s, false) (addCopies noop copyNew ends l (s, false)) := by
  refine foldl_inv (I := fun t : Flagged Obj Val Caches =>
    Run M w Cached (s, false) t) (fun t x hx hI => ?_)
    (.refl ..)
  obtain ⟨h3, h4⟩ := hE.root x hx
  rw [hE.same _ hI.ext]
  exact hI.trans (addCopyThen_run t ((hI.ext.superOf _).trans h3) ((hI.ext.superOf _).trans h4)
    (hE.step _ hI.ext x hx))

/-- the field that a `getelementptr` node gets is copied along its edge -/
theorem cached_keptBy {d x : NodeID} {gep : Val} (hsh : s.core.Shape G) (hd : G d) :
    KeptBy M G Cached s d gep x := by
  intro o f i c _ _ hc hshc hi hif _ h
  have hia := Shape.isAddr_succ hi hif
  refine cached_copyAlong ?_ (fun he => hshc.not_addr_of_gep hd (he ▸ hia))
    (hshc.addr_fixed _ hia).1 (hshc.gep_fixed d hd).1
  rcases hc with ⟨rfl, -⟩ | ⟨rfl, -, rfl⟩
  · exact h
  · have hadd := hsh.nodeAdded (.objNode f)
    refine cached_of_grow h hsh rfl (fun n hn => (Shape.pts_addCGNode_of_lt hn).ge)
      fun u v huv => .inl ?_
    exact (hadd.succ .copy (by decide) u) ▸ huv

/-! ## the caches of the edges -/

/-- the caches of the load and store edges are right -/
abbrev EdgesCached (s : St Obj Val) : Prop :=
  EdgeCached s.core.graph (fun u v => s.self.edgeCachedPTS u v .load)
    fun u v => s.self.edgeCachedPTS u v .store

/-- what going through the nodes keeps -/
structure Kept (r : Flagged Obj Val Caches) : Prop where
  cached : Cached r.1
  edges : EdgesCached r.1
  unsat : r.2 = false → ∀ u v, ¬ r.1.core.Unsat u v

omit [DecidableEq Obj] in
/-- the cache of one edge after its objects are processed -/
theorem mem_cacheEdge {curNode other n m x : NodeID} {k k' : Constraints}
    (hx : x ∈ (cacheEdge curNode other k s).self.edgeCachedPTS n m k') :
    x ∈ s.self.edgeCachedPTS n m k' ∨
      (n = curNode ∧ m = other ∧ k' = k ∧ x ∈ edgeDiff curNode other k s) := by
  have hx' : x ∈ (if n = curNode ∧ m = other ∧ k' = k then
      s.self.edgeCachedPTS n m k' ∪ edgeDiff curNode other k s
    else s.self.edgeCachedPTS n m k') := hx
  split at hx'
  · rename_i he
    exact (Finset.mem_union.mp hx').imp_right fun h => ⟨he.1, he.2.1, he.2.2, h⟩
  · exact .inl hx'

omit [DecidableEq Obj] in
/-- what the edge has to cover: the part that was cached is covered already -/
theorem mem_edgeDiff {curNode x : NodeID} (other : NodeID) (k : Constraints) (hx : x ∈ s.core.pts curNode) :
    x ∈ s.self.edgeCachedPTS curNode other k ∨ x ∈ edgeDiff curNode other k s := by
  by_cases hc : x ∈ s.self.edgeCachedPTS curNode other k
  · exact .inl hc
  · exact .inr (Finset.mem_sdiff.mpr ⟨hx, hc⟩)

/-- a run from `t`, which may have noted objects in the caches of the edges, is a turn -/
theorem turn_of_run {t : St Obj Val} {f : Bool} {r : Flagged Obj Val Caches}
    (hcore : t.core = s.core) (hself : t.self.cachedPTS = s.self.cachedPTS)
    (hrun : Run M w Cached (t, false) r) (he : EdgesCached s → EdgesCached r.1)
    (hidx : ∀ G, s.core.Shape G → s.core.AllIndexed M → r.1.core.AllIndexed M)
    (hless : r.2 = true → r.1.core.measure M < s.core.measure M) :
    Turn M w Kept (s, f) (r.1, f || r.2) := by
  refine ⟨hcore ▸ hrun.ext, fun G hsh hk => ⟨?_, he hk.edges, fun hf u v huv => ?_⟩, hidx,
    fun hf => ?_, fun hf => ?_⟩
  · refine hrun.keep G (hcore ▸ hsh) ⟨?_, ?_⟩ <;> rw [hcore, hself]
    · exact hk.cached.self
    · exact hk.cached.succ
  · obtain ⟨h1, h2⟩ := Bool.or_eq_false_iff.mp hf
    have hun := (hrun.flag h2).2
    rw [hcore] at hun
    refine hk.unsat h1 u v ⟨hun.copy u v huv.1, ?_⟩
    rw [← hun.pts]
    exact huv.2
  · obtain ⟨h1, h2⟩ := Bool.or_eq_false_iff.mp hf
    exact ⟨h1, (hcore ▸ (hrun.flag h2).2).pts⟩
  · exact (Bool.or_eq_true_iff.mp hf).imp_right hless

/-- a load or store edge was processed: `other` is its other end -/
theorem turn_of_addCopies {u other : NodeID} {k : Constraints} {f : Bool}
    {r : Flagged Obj Val Caches} (hrun : Run M w Cached (cacheEdge u other k s, false) r)
    (hh : r.1.core.handledGEPMap = s.core.handledGEPMap)
    (hless : r.2 = true → r.1.core.measure M < s.core.measure M)
    (hload : k = .load → ∀ x ∈ edgeDiff u other k s, r.1.core.graph.Covers .copy x other)
    (hstore : k = .store → ∀ x ∈ edgeDiff u other k s, r.1.core.graph.Covers .copy other x) :
    Turn M w Kept (s, f) (r.1, f || r.2) := by
  have hext : s.core.Extends M w r.1.core := hrun.ext
  refine turn_of_run (t := cacheEdge u other k s) rfl rfl hrun
    (fun he => ⟨fun a b x hx => ?_, fun a b x hx => ?_⟩)
    (fun G' hg hi => hi.run hg hext.steps hh) hless
  all_goals
    rw [hrun.self] at hx
    rcases mem_cacheEdge hx with h1 | ⟨rfl, rfl, hk, h1⟩
  · exact hext.covers (by decide) (he.load a b x h1)
  · exact hload hk.symm x h1
  · exact hext.covers (by decide) (he.store a b x h1)
  · exact hstore hk.symm x h1

/-- the work at every edge is a turn that closes the edge -/
theorem turns : (edges M).Turns M w (Kept : Flagged Obj Val Caches → Prop) {} where
  load G r u v hsh hk huv _ := by
    obtain ⟨s, f⟩ := r
    have hsub : edgeDiff u v .load s ⊆ s.core.pts u := Finset.sdiff_subset
    have hE := ends_load (M := M) (w := w) (s := cacheEdge u v .load s) hsh.sane huv hsub
    have hrun := addCopies_run hE
    obtain ⟨h1, h2, h3, h4⟩ := processLoad_spec (M := M) (w := w) (s := cacheEdge u v .load s)
      hsh.sane neutral_noop tame_copyNew huv hsub
    refine ⟨turn_of_addCopies hrun h2 h3 (fun _ => h4) fun h => (by cases h), fun x hx => ?_⟩
    rcases mem_edgeDiff v .load hx with h5 | h5
    · exact h1.covers (by decide) (hk.edges.load u v x h5)
    · exact h4 x h5
  store G r u v hsh hk huv _ := by
    obtain ⟨s, f⟩ := r
    have hsub : edgeDiff u v .store s ⊆ s.core.pts u := Finset.sdiff_subset
    have hE := ends_store (M := M) (w := w) (s := cacheEdge u v .store s) hsh.sane huv hsub
    have hrun := addCopies_run hE
    obtain ⟨h1, h2, h3, h4⟩ := processStore_spec (M := M) (w := w) (s := cacheEdge u v .store s)
      hsh.sane neutral_noop tame_copyNew huv hsub
    refine ⟨turn_of_addCopies hrun h2 h3 (fun h => (by cases h)) fun _ => h4, fun x hx => ?_⟩
    rcases mem_edgeDiff v .store hx with h5 | h5
    · exact h1.covers (by decide) (hk.edges.store u v x h5)
    · exact h4 x h5
  offset G r u v hsh hk huv _ := by
    obtain ⟨s, f⟩ := r
    have hG := hsh.wf.gep_target u v huv
    have hrun := processOffset_run (M := M) (w := w) (K := Cached) hsh huv
      (fun h => ⟨h.self, h.succ⟩) fun t _ hst _ _ _ _ => cached_keptBy hst hG
    obtain ⟨h1, h2, h3⟩ := processOffset_handled (M := M) hsh huv
    refine ⟨turn_of_run rfl rfl hrun (fun he => ⟨fun a b x hx => ?_, fun a b x hx => ?_⟩) h3 h1, h2⟩
    · rw [hrun.self] at hx
      exact hrun.ext.covers (by decide) (he.load a b x hx)
    · rw [hrun.self] at hx
      exact hrun.ext.covers (by decide) (he.store a b x hx)

/-! ## from any state in which address nodes are what they should be -/

theorem loadEdge_extends (h : r.1.core.Typed) {u v : NodeID}
    (huv : v ∈ r.1.core.graph.succ .load u) :
    r.1.core.Extends M w (loadEdge u r v).1.core :=
  (processLoad_spec (M := M) (s := cacheEdge u v .load r.1) h.sane neutral_noop tame_copyNew huv
    Finset.sdiff_subset).1

theorem storeEdge_extends (h : r.1.core.Typed) {u v : NodeID}
    (huv : u ∈ r.1.core.graph.succ .store v) :
    r.1.core.Extends M w (storeEdge u r v).1.core :=
  (processStore_spec (M := M) (s := cacheEdge u v .store r.1) h.sane neutral_noop tame_copyNew huv
    Finset.sdiff_subset).1

theorem offsetEdge_extends (h : r.1.core.Typed) {u d : NodeID}
    (hd : d ∈ r.1.core.graph.succ .offset u) :
    r.1.core.Extends M w (offsetEdge M u r d).1.core := by
  refine (processOffset_spec copyAddrOf h.sane neutral_noop hd fun i t ht ho => ?_).1
  obtain ⟨x, o, f, gep, -, -, hk, -, hi, hif, hcov⟩ := ho
  have hroot : t.core.graph.superOf d = none :=
    (ht.superOf d).trans (h.inv.target_none hd)
  exact .processCopy ((h.run ht.steps).succ_of_covers hi hif hroot hk hcov)

/-- an iteration is a run of steps -/
theorem iteration_steps (h : s.core.Typed) (hpos : 0 < s.core.graph.nodeNum) :
    ∃ r, iteration M w s = some r ∧ Steps M w s.core r.1.core := by
  obtain ⟨t, ht, hrun⟩ := wave_run (M := M) (w := w) h.inv hpos
  refine ⟨_, by rw [iteration, ht]; rfl, hrun.steps.trans ?_⟩
  have hfold : ∀ (l : List NodeID) (f : Flagged Obj Val Caches → NodeID → Flagged Obj Val Caches)
      (r : Flagged Obj Val Caches), r.1.core.Typed →
      (∀ r' : Flagged Obj Val Caches, r.1.core.Extends M w r'.1.core → r'.1.core.Typed → ∀ v ∈ l,
        r'.1.core.Extends M w (f r' v).1.core) →
      r.1.core.Extends M w (l.foldl f r).1.core := by
    intro l f r hr hf
    refine foldl_inv (I := fun r' : Flagged Obj Val Caches => r.1.core.Extends M w r'.1.core)
      (fun r' v hv hI => ?_) (.refl ..)
    exact hI.trans (hf r' hI (hr.run hI.steps) v hv)
  refine (hfold (List.range t.core.graph.nodeNum) _ (t, false) (h.run hrun.steps)
    fun r _ hr n _ => ?_).steps
  have hl : r.1.core.Extends M w ((edges M).loads w r n).1.core :=
    hfold _ _ r hr fun r' he hr' v hv => loadEdge_extends hr' (by
      rw [he.succ .load (by decide) (by decide)]
      exact (w.mem_walk _ _).mp hv)
  have hs : ((edges M).loads w r n).1.core.Extends M w
      ((edges M).stores w ((edges M).loads w r n) n).1.core :=
    hfold _ _ _ (hr.run hl.steps) fun r' he hr' v hv => storeEdge_extends hr' (by
      rw [he.succ .store (by decide) (by decide)]
      exact ((hr.run hl.steps).inv.agree ..).mpr ((w.mem_walk _ _).mp hv))
  have ho := hfold _ ((edges M).offset n) ((edges M).stores w ((edges M).loads w r n) n)
    (hr.run (hl.trans hs).steps) fun r' he hr' v hv => offsetEdge_extends hr' (by
      rw [he.succ .offset (by decide) (by decide)]
      exact (w.mem_walk _ _).mp hv)
  exact (hl.trans hs).trans ho

/-- the runs of `runSolver` from a graph on, with any caches -/
def Run (M : MemModel Obj Val) (w : Walk) (c c' : Core Obj Val) : Prop :=
  ∃ n self s', runSolver M w n ⟨c, self⟩ = some s' ∧ s'.core = c'

theorem Run.steps {c c' : Core Obj Val} (hr : Run M w c c') (h : c.Typed)
    (hpos : 0 < c.graph.nodeNum) : Steps M w c c' := by
  obtain ⟨n, self, s', hr, rfl⟩ := hr
  obtain ⟨r, hloop, rfl⟩ := Option.map_eq_some_iff.mp hr
  have hinv := doWhile_inv
    (I := fun r : Flagged Obj Val Caches => Steps M w c r.1.core ∧ 0 < r.1.core.graph.nodeNum)
    (J := fun r : Flagged Obj Val Caches => Steps M w c r.1.core ∧ 0 < r.1.core.graph.nodeNum)
    (fun r r' hI hb => by
      obtain ⟨r1, hr1, hs⟩ := iteration_steps (M := M) (w := w) (h.run hI.1) hI.2
      rw [hr1] at hb
      cases hb
      refine ⟨hI.1.trans hs, ?_⟩
      have hle : ∀ {c₁ c₂ : Core Obj Val}, c₁.Typed → Steps M w c₁ c₂ →
          c₁.graph.nodeNum ≤ c₂.graph.nodeNum := by
        intro c₁ c₂ h₁ h₂
        induction h₂ with
        | refl => exact le_rfl
        | tail hrun hs ih => exact ih.trans ((h₁.run hrun).old_step hs).1
      exact hI.2.trans_le (hle (h.run hI.1) hs))
    (fun _ hJ _ => hJ) ⟨.refl, hpos⟩ hloop
  exact hinv.1.1

/-- so in every order of edits and iterations the address nodes are what they should be -/
theorem reached_iteration {returned : Finset NodeID} (h : Reached M w returned s.core)
    (hpos : 0 < s.core.graph.nodeNum) :
    ∃ r, iteration M w s = some r ∧ Reached M w returned r.1.core := by
  obtain ⟨r, h1, h2⟩ := iteration_steps (M := M) (w := w) h.typed.1 hpos
  exact ⟨r, h1, h.run h2⟩

/-! ## the loop -/

/-- the invariant of the loop of `runSolver` -/
structure Good (M : MemModel Obj Val) (G : NodeID → Prop) (s : St Obj Val) : Prop where
  shape : s.core.Shape G
  pos : 0 < s.core.graph.nodeNum
  cached : Cached s
  edges : EdgesCached s
  indexed : s.core.AllIndexed M

/-- One run of the body: either nothing has changed and everything is closed, or the measure is
lower. -/
theorem Good.iteration (h : Good M G s) : ∃ r, iteration M w s = some r ∧ Good M G r.1 ∧
    Steps M w s.core r.1.core ∧ (r.2 = false → r.1.core.Closed M) ∧
    (r.2 = true → r.1.core.measure M < s.core.measure M) := by
  obtain ⟨t, ht, hrun, -, hcached, hunsat⟩ := wave_spec (M := M) (w := w) h.shape.inv h.pos
    h.cached
  have hsh := h.shape.run hrun.steps
  have hedges : EdgesCached t := by
    refine ⟨fun u v x hx => ?_, fun u v x hx => ?_⟩ <;> rw [hrun.edgeCachedPTS] at hx
    · exact h.shape.covers_run hrun.steps (by decide) (h.edges.load u v x hx)
    · exact h.shape.covers_run hrun.steps (by decide) (h.edges.store u v x hx)
  have hkept : Kept (t, false) := ⟨hcached, hedges, fun _ => hunsat⟩
  obtain ⟨hturn, hnodes⟩ := (turns (M := M) (w := w)).nodes hsh hkept
    (l := List.range t.core.graph.nodeNum)
    (foldOk_of_forall (fun r n => ⟨foldOk_of_forall (fun _ _ => trivial) _ _,
      foldOk_of_forall (fun _ _ => trivial) _ _, foldOk_of_forall (fun _ _ => trivial) _ _⟩) _ _)
  refine ⟨_, by rw [WavePropagation.iteration, ht]; rfl, ?_⟩
  set r := (List.range t.core.graph.nodeNum).foldl ((WavePropagation.edges M).processNode w)
    (t, false) with hr
  have hk := hturn.keep G hsh hkept
  have hidx := hturn.indexed G hsh (h.indexed.run h.shape hrun.steps hrun.handled)
  refine ⟨⟨hsh.run hturn.ext.steps, ?_, hk.cached, hk.edges, hidx⟩,
    hrun.steps.trans hturn.ext.steps, fun hf => ?_, fun hf => ?_⟩
  · exact (hrun.nodeNum.symm ▸ h.pos).trans_le hturn.ext.nodeNum
  · exact hturn.all_closed hsh (fun n hn => hnodes n (List.mem_range.mpr hn) hf) (hk.unsat hf) hidx
  · have hlt := (hturn.less hf).resolve_left Bool.false_ne_true
    exact hlt.trans_le (h.shape.sane.run hrun.steps).2

/-- `runSolver` returns, and then everything is closed. -/
theorem runSolver_spec (hsh : s.core.Shape G) (hpos : 0 < s.core.graph.nodeNum)
    (he : EdgesCached s) (hi : s.core.AllIndexed M) :
    (∃ fuel s', runSolver M w fuel s = some s') ∧
    ∀ fuel s', runSolver M w fuel s = some s' →
      Good M G s' ∧ s'.core.Closed M ∧ Steps M w s.core s'.core := by
  have hgood : Good M G (clearCache s) :=
    ⟨hsh, hpos, ⟨fun _ => Finset.empty_subset _, fun _ _ _ => Finset.empty_subset _⟩,
      ⟨he.load, he.store⟩, hi⟩
  constructor
  · obtain ⟨fuel, r, hr⟩ := doWhile_wf (c := fun r : Flagged Obj Val Caches => r.2)
      (b := fun r => iteration M w r.1) (I := fun r => Good M G r.1)
      (InvImage.wf (fun r : Flagged Obj Val Caches => r.1.core.measure M) measure_wf)
      (fun r hI => by
        obtain ⟨r', h1, h2, -, -, h5⟩ := hI.iteration (w := w)
        exact ⟨r', h1, fun hc => ⟨h2, h5 hc⟩⟩) (s := (clearCache s, true)) hgood
    exact ⟨fuel, r.1, by rw [runSolver, hr]; rfl⟩
  · intro fuel s' hs'
    obtain ⟨r, hr, rfl⟩ := Option.map_eq_some_iff.mp hs'
    have hend := doWhile_inv
      (I := fun r : Flagged Obj Val Caches => Good M G r.1 ∧ Steps M w s.core r.1.core)
      (J := fun r : Flagged Obj Val Caches => (Good M G r.1 ∧ Steps M w s.core r.1.core) ∧
        (r.2 = false → r.1.core.Closed M))
      (fun r r' hI hr' => by
        obtain ⟨r'', h1, h2, h3, h4, -⟩ := hI.1.iteration (w := w)
        rw [hr'] at h1
        cases h1
        exact ⟨⟨h2, hI.2.trans h3⟩, h4⟩)
      (fun r hJ _ => hJ.1) ⟨hgood, .refl⟩ hr
    exact ⟨hend.1.1.1, hend.1.2 hend.2, hend.1.1.2⟩

/-! ## histories -/

/-- The states after earlier runs, new nodes and new constraints, with what was given so far.  The
iterator starts at node 0, so a run needs a node. -/
inductive History (M : MemModel Obj Val) (w : Walk) : Given Obj Val → St Obj Val → Prop where
  | start {c : Core Obj Val} (G : NodeID → Prop) : c.Built → c.graph.WellFormedOn G →
      History M w ⟨c.graph.ofGraph, G⟩ ⟨c, {}⟩
  | edit {g g' : Given Obj Val} {s : St Obj Val} {e : Edit Obj Val} : History M w g s →
      Given.Step s.core e g g' → History M w g' { s with core := e.apply s.core }
  | run {g : Given Obj Val} {s s' : St Obj Val} {fuel : Nat} : History M w g s →
      0 < s.core.graph.nodeNum → runSolver M w fuel s = some s' → History M w g s'

theorem History.inv {g : Given Obj Val} (h : History M w g s) :
    s.core.Tracks M g.gep g.cons ∧ EdgesCached s := by
  induction h with
  | start G hb hwf =>
    exact ⟨hb.tracks M hwf, fun _ _ x hx => (by cases hx), fun _ _ x hx => (by cases hx)⟩
  | edit _ hs ih => exact ⟨ih.1.edit hs, ih.2.edit ih.1 hs⟩
  | run _ hpos hrun ih =>
    obtain ⟨h1, -, h3⟩ := (runSolver_spec ih.1.shape hpos ih.2 ih.1.indexed).2 _ _ hrun
    exact ⟨ih.1.run h3 h1.indexed, h1.edges⟩

/-- After any history of runs, new nodes and new constraints `runSolver` returns, and then every node
has the least solution of all constraints given so far. -/
theorem history_least {g : Given Obj Val} (h : History M w g s)
    (hpos : 0 < s.core.graph.nodeNum) :
    (∃ fuel s', runSolver M w fuel s = some s') ∧
    ∀ fuel s', runSolver M w fuel s = some s' → ∀ n < s'.core.graph.nodeNum, ∀ o,
      s'.core.PointsTo n o ↔
        Inclusion.Least (andersen M g.cons) (s'.core.graph.name n) o := by
  obtain ⟨ht, he⟩ := h.inv
  obtain ⟨h1, h2⟩ := runSolver_spec (M := M) (w := w) ht.shape hpos he ht.indexed
  refine ⟨h1, fun fuel s' hs => ?_⟩
  obtain ⟨h3, h4, h5⟩ := h2 fuel s' hs
  exact (ht.run h5 h3.indexed).exact h4

/-! ### the sample after a run -/

/-- after the first run the nodes 2 and 3 are one, and 3 is the super node -/
@[irreducible] def sampleRun : St Bool Unit :=
  (runSolver sampleMem .ascending 10 ⟨sampleCore, {}⟩).get (by decide +kernel)

/-- a new pointer node, and a copy constraint to it from the node that was merged -/
def sampleAdded : St Bool Unit :=
  { sampleRun with core := Edit.apply sampleRun.core (.addCGNode (.ptrNode none)) }

def sampleEdited : St Bool Unit :=
  { sampleAdded with core := Edit.apply sampleAdded.core (.addConstraints 2 7 .copy) }

theorem sampleEdited_history : ∃ g, History sampleMem .ascending g sampleEdited := by
  have hrun : runSolver sampleMem .ascending 10 ⟨sampleCore, {}⟩ = some sampleRun := by
    unfold sampleRun
    exact (Option.some_get _).symm
  have h1 : History sampleMem .ascending ⟨sampleCore.graph.ofGraph, sampleCore.graph.IsGep⟩ sampleRun :=
    (History.start _ sampleCore_built sampleCore_wellFormed).run (by decide) hrun
  have h2 : History sampleMem .ascending _ sampleAdded :=
    h1.edit (.node (.ptrNode none) False trivial False.elim)
  have h8 : sampleAdded.core.graph.nodeNum = 8 := by decide +kernel
  have h7 : ¬ sampleAdded.core.graph.IsAddr 7 := by decide +kernel
  refine ⟨_, h2.edit (.constraint 2 7 .copy ⟨h8 ▸ by decide, h8 ▸ by decide, fun h => by cases h⟩
    ⟨fun _ => ⟨h7, ?_⟩, fun h => (by cases h), fun h => (by cases h)⟩)⟩
  -- the new node is no target of an offset edge
  rintro (⟨u, hu⟩ | ⟨-, h⟩)
  · exact absurd (sampleCore_built.fresh.inv.edge_lt _ _ _ hu).2 (by decide +kernel)
  · exact h.elim

/-- The second run brings the object to the new node. -/
theorem history_least_sample : ∃ g s, History sampleMem .ascending g sampleEdited ∧
    runSolver sampleMem .ascending 10 sampleEdited = some s ∧
    Inclusion.Least (andersen sampleMem g.cons) (s.core.graph.name 7) false := by
  obtain ⟨g, hg⟩ := sampleEdited_history
  have hrun : ∃ s, runSolver sampleMem .ascending 10 sampleEdited = some s ∧
      7 < s.core.graph.nodeNum ∧ 0 ∈ s.core.pts (s.core.graph.getSuperNode 7) ∧
      s.core.graph.kind 0 = .objNode false := by decide +kernel
  obtain ⟨s, hs, h7, hpts, hkind⟩ := hrun
  obtain ⟨-, hleast⟩ := history_least hg (by decide +kernel)
  exact ⟨g, s, hg, hs, (hleast 10 s hs 7 h7 false).mp ⟨0, hpts, hkind⟩⟩

end WavePropagation

end AserPTA
