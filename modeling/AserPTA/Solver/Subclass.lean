import AserPTA.Solver.Andersen
import AserPTA.Solver.DeepPropagation

/-!
# The subclasses of SolverBase

`SolverBase::solve` runs a solver many times, and between two runs the graph grows and function pointers
are resolved.  What it relies on is the same for every solver.

* `Core.Enlarges`   more nodes and edges, while nothing is propagated;
* `Subclass`        a solver with the data it keeps, which stay right in both;
* `Subclass.wavePropagation`, `Subclass.andersen`, `Subclass.deepPropagation`.
-/

namespace AserPTA

open ConsGraph AserPTA.Core

variable {Obj Val : Type}

namespace Core

/-! ## what happens between the runs -/

/-- there are more nodes and edges, and nothing has been propagated -/
structure Enlarges (c c' : Core Obj Val) : Prop where
  le : c.graph.nodeNum ≤ c'.graph.nodeNum
  kind : ∀ n < c.graph.nodeNum, c'.graph.kind n = c.graph.kind n
  superOf : c'.graph.superOf = c.graph.superOf
  pts : ∀ n < c.graph.nodeNum, c'.pts n = c.pts n
  succ : ∀ k u v, u < c.graph.nodeNum → v ∈ c.graph.succ k u → v ∈ c'.graph.succ k u
  handled : c'.handledGEPMap = c.handledGEPMap

namespace Enlarges

variable {c c' : Core Obj Val} {G : NodeID → Prop}

theorem allIndexed {M : MemModel Obj Val} (h : Enlarges c c') (hc : c.Shape G)
    (hi : c.AllIndexed M) : c'.AllIndexed M := by
  intro d x hx o gep f ho hg hf
  rw [h.handled] at hx
  have hd := (hc.wf.gep_kind d (hc.handled_gep d x hx)).1
  rw [h.kind x (hc.handled_lt d x hx)] at ho
  rw [h.kind d hd] at hg
  obtain ⟨i, hi, hif, h1⟩ := hi d x hx o gep f ho hg hf
  refine ⟨i, hi.trans_le h.le, (h.kind i hi).trans hif, ?_⟩
  rcases h1 with h1 | h1
  · left
    rw [h.pts d hd]
    exact h1
  · right
    exact h.succ .copy (i + 1) d (hc.inv.edge_lt .copy (i + 1) d h1).1 h1

theorem covers (h : Enlarges c c') (hc : c.graph.Inv) (hc' : c'.graph.Inv) {k : Constraints}
    {u v : NodeID} (hcov : c.graph.Covers k u v) : c'.graph.Covers k u v := by
  have hrep : ∀ n, c'.graph.getSuperNode n = c.graph.getSuperNode n := fun n =>
    hc'.getSuperNode_eq (h.superOf ▸ hc.root n)
  unfold Covers at hcov ⊢
  rw [hrep, hrep]
  rcases hcov with hcov | hcov
  · exact .inl (h.succ k _ _ (hc.edge_lt k _ _ hcov).1 hcov)
  · exact .inr hcov

theorem edgeCached (h : Enlarges c c') (hc : c.graph.Inv) (hc' : c'.graph.Inv)
    {load store : NodeID → NodeID → Finset NodeID} (he : EdgeCached c.graph load store) :
    EdgeCached c'.graph load store :=
  ⟨fun u v x hx => h.covers hc hc' (he.load u v x hx),
    fun u v x hx => h.covers hc hc' (he.store u v x hx)⟩

end Enlarges

end Core

/-! ## subclasses -/

section
variable [DecidableEq Obj]

/-- A solver with its own data.  `Inv` says that the data fit the graph, and `Ok` that nothing is lost
in the run from a state. -/
structure Subclass (M : MemModel Obj Val) (w : Walk) (ε : Type) where
  runSolver : Nat → State Obj Val ε → Option (State Obj Val ε)
  start : ε
  Inv : State Obj Val ε → Prop
  Ok : State Obj Val ε → Prop
  start_inv : ∀ (c : Core Obj Val), (∀ n, c.graph.superOf n = none) →
    c.handledGEPMap = (fun _ => ∅) → Inv ⟨c, start⟩
  enlarges : ∀ {c c' : Core Obj Val} {e : ε} {G G' : NodeID → Prop}, Inv ⟨c, e⟩ → c.Shape G →
    c'.Shape G' → c.Enlarges c' → Inv ⟨c', e⟩
  run : ∀ {s s' : State Obj Val ε} {G : NodeID → Prop} {n : Nat}, s.core.Shape G →
    0 < s.core.graph.nodeNum → Inv s → Ok s → runSolver n s = some s' →
    Steps M w s.core s'.core ∧ s'.core.Closed M ∧ Inv s'
  returns : ∀ {s : State Obj Val ε} {G : NodeID → Prop}, s.core.Shape G → 0 < s.core.graph.nodeNum →
    Inv s → Ok s → ∃ n s', runSolver n s = some s'

namespace Subclass

variable (M : MemModel Obj Val) (w : Walk)

def wavePropagation : Subclass M w Wave.Caches where
  runSolver := WavePropagation.runSolver M w
  start := {}
  Inv s := WavePropagation.EdgesCached s ∧ s.core.AllIndexed M
  Ok _ := True
  start_inv c _ hh := ⟨⟨fun _ _ x hx => (by cases hx), fun _ _ x hx => (by cases hx)⟩, fun d x hx => by
    rw [hh] at hx
    cases hx⟩
  enlarges h hc hc' he := ⟨he.edgeCached hc.inv hc'.inv h.1, he.allIndexed hc h.2⟩
  run hsh hpos h _ hrun := by
    obtain ⟨hg, hclosed, hsteps⟩ := (WavePropagation.runSolver_spec hsh hpos h.1 h.2).2 _ _ hrun
    exact ⟨hsteps, hclosed, hg.edges, hg.indexed⟩
  returns hsh hpos h _ := (WavePropagation.runSolver_spec hsh hpos h.1 h.2).1

def deepPropagation : Subclass M w DeepPropagation.Fields where
  runSolver := DeepPropagation.runSolver M w
  start := {}
  Inv s := DeepPropagation.EdgesCached s ∧ s.core.AllIndexed M
  Ok := DeepPropagation.RunOk M w
  start_inv c _ hh := ⟨⟨fun _ _ x hx => (by cases hx), fun _ _ x hx => (by cases hx)⟩, fun d x hx => by
    rw [hh] at hx
    cases hx⟩
  enlarges h hc hc' he := ⟨he.edgeCached hc.inv hc'.inv h.1, he.allIndexed hc h.2⟩
  run hsh hpos h hok hrun := by
    obtain ⟨hg, hclosed, hsteps⟩ := (DeepPropagation.runSolver_spec hsh hpos h.1 h.2 hok).2 _ _ hrun
    exact ⟨hsteps, hclosed, hg.edges, hg.indexed⟩
  returns hsh hpos h hok := (DeepPropagation.runSolver_spec hsh hpos h.1 h.2 hok).1

def andersen : Subclass M w (List NodeID) where
  runSolver := Andersen.runSolver M w
  start := []
  Inv s := (∀ n, s.core.graph.superOf n = none) ∧ s.core.AllIndexed M
  Ok := Andersen.RunOk M w
  start_inv c hflat hh := ⟨hflat, fun d x hx => by
    rw [hh] at hx
    cases hx⟩
  enlarges h hc _ he := ⟨fun n => (congrFun he.superOf n).trans (h.1 n), he.allIndexed hc h.2⟩
  run hsh _ h hok hrun := by
    obtain ⟨-, hg, hsteps, hclosed⟩ := (Andersen.runSolver_spec ⟨hsh, h.1, h.2⟩).2 _ _ hrun
    exact ⟨hsteps, hclosed hok, hg.flat, hg.indexed⟩
  returns hsh _ h := (Andersen.runSolver_spec ⟨hsh, h.1, h.2⟩).1

end Subclass

end

end AserPTA
