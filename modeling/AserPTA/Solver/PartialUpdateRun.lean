import AserPTA.Solver.AddressNodes
import AserPTA.Solver.PartialUpdateLs

/-!
# Runs of PartialUpdateSolver

* `iteration_exit`       one run of the body of the loop of `runSolver`: either the lists are in the
                         state that `solve` asserts, or the loop goes on and the measure is lower;
* `runSolver_returns`    the loop ends, in that state, from any content of the lists;
* `Ready`                the invariant of the loop that makes the result right;
* `runSolver_least`      a run from a ready state ends in the least solution.
-/

namespace AserPTA

open Relation Loop

namespace PartialUpdate

open AserPTA.Core ConsGraph State

variable {Obj Val : Type} [DecidableEq Obj] {F : Config Obj Val} {s s₀ : St Obj Val}
  {G : NodeID → Prop} {C : Cons Obj Val}

/-! ## one iteration -/

/-- the lists have a bit for every node -/
structure Sized (s : St Obj Val) : Prop where
  copyWL : s.self.copyWorkList.size = s.core.graph.nodeNum
  ls : s.self.lsWorkList.size = s.core.graph.nodeNum
  target : s.self.targetList.size = s.core.graph.nodeNum

/-- what `solve` asserts of the lists -/
structure AllDone (s : St Obj Val) : Prop where
  ls : s.self.lsWorkList.all = true
  target : s.self.targetList.all = true
  copyWL : s.self.copyWorkList.all = true
  required : s.self.requiredEdge = ∅

omit [DecidableEq Obj] in
theorem sized_resizeLists (s : St Obj Val) : Sized (resizeLists s) := ⟨rfl, rfl, rfl⟩

omit [DecidableEq Obj] in
theorem all_resize {b : BitVector} {n : Nat} {v : Bool} (h : (b.resize n v).all = true) :
    ∀ i < n, i < b.size → b.test i = true := by
  intro i hi hb
  have := BitVector.all_iff.mp h i hi
  rwa [BitVector.test_resize, if_pos hb] at this

omit [DecidableEq Obj] in
theorem resize_true_all {b : BitVector} (h : ∀ i < b.size, b.test i = true) (n : Nat) :
    (b.resize n true).all = true := by
  refine BitVector.all_iff.mpr fun i _ => ?_
  rw [BitVector.test_resize]
  split
  · exact h i ‹_›
  · rfl

omit [DecidableEq Obj] in
/-- work that is left is left after the lists were resized -/
theorem Noisy.not_all (h : Noisy s) (hsize : s.self.copyWorkList.size ≤ s.core.graph.nodeNum) :
    (resizeLists s).self.copyWorkList.all = false := by
  rw [Bool.eq_false_iff]
  intro hall
  have hall' := BitVector.all_iff.mp hall
  rcases h with ⟨i, hi, hb⟩ | h
  · rw [all_resize hall i (hi.trans_le hsize) hi] at hb
    cases hb
  · have := hall' s.self.copyWorkList.size h
    rw [show (resizeLists s).self.copyWorkList.test s.self.copyWorkList.size = false from
      if_neg (lt_irrefl _)] at this
    cases this

/-- what the iteration has added to the graph that the copy phase left, `t` -/
def Cause (t s : St Obj Val) : Prop :=
  t.core.graph.nodeNum < s.core.graph.nodeNum ∨
  (∃ u v, v ∈ s.core.graph.succ .copy u ∧ v ∉ t.core.graph.succ .copy u) ∨
  ∃ d x, x ∈ s.core.handledGEPMap d ∧ x ∉ t.core.handledGEPMap d

/-- how an iteration that started in `s₀` ends -/
structure Iterated (F : Config Obj Val) (s₀ s : St Obj Val) : Prop where
  steps : Steps F.mem F.walk s₀.core s.core
  sized : Sized s
  done : s.self.copyWorkList.all = true → AllDone s
  more : s.self.copyWorkList.all = false → s.core.measure F.mem < s₀.core.measure F.mem ∧
    ∃ t, copyPhase F s₀ = some t ∧ Cause t s

theorem iteration_exit (hsane : s₀.core.Sane) (hsz : Sized s₀) :
    ∃ s, iteration F s₀ = some s ∧ Iterated F s₀ s := by
  obtain ⟨t, ht, hrun⟩ := copyPhase_copyRun (F := F) hsane.inv hsz.copyWL
  refine ⟨_, by rw [iteration, ht]; rfl, ?_⟩
  obtain ⟨hsane₁, hle₁⟩ := hsane.run hrun.steps
  have htarget : (clearCopy t).self.targetList.size = (clearCopy t).core.graph.nodeNum := by
    rw [show (clearCopy t).self.targetList.size = t.self.targetList.size from rfl, hrun.targetSize,
      hsz.target]
    exact hrun.nodeNum.symm
  have hcopy : (clearCopy t).self.copyWorkList.size = t.core.graph.nodeNum := by
    rw [show (clearCopy t).self.copyWorkList.size = t.self.copyWorkList.size from rfl, hrun.copyWL,
      hsz.copyWL, hrun.nodeNum]
  have hls : (clearCopy t).self.lsWorkList.size = (clearCopy t).core.graph.nodeNum := by
    rw [show (clearCopy t).self.lsWorkList.size = t.self.lsWorkList.size from rfl, hrun.lsSize,
      hsz.ls]
    exact hrun.nodeNum.symm
  have hex : LsExit F (clearCopy t) (lsPhase F (clearCopy t)) := lsPhase_exit hsane₁ htarget hls
  set r := lsPhase F (clearCopy t) with hr
  have hsize : r.self.copyWorkList.size ≤ r.core.graph.nodeNum := by
    rw [hex.copySize, hcopy]
    exact hex.ext.nodeNum
  refine ⟨hrun.steps.trans hex.ext.steps, sized_resizeLists r, fun hall => ?_, fun hmore => ?_⟩
  · rcases hex.exit with ⟨hq, hls⟩ | ⟨hn, -⟩
    · refine ⟨resize_true_all (fun i _ => hls i) _, resize_true_all (fun i _ => ?_) _, hall,
        hq.required⟩
      rw [hq.target]
      rfl
    · rw [hn.not_all hsize] at hall
      cases hall
  · have hlt : r.core.measure F.mem < t.core.measure F.mem := by
      rcases hex.exit with ⟨hq, -⟩ | ⟨-, hlt⟩
      · -- the lists are as before, so nodes are new
        refine (hsane₁.nodeNum_run hex.ext.steps).resolve_left fun heq => ?_
        have hall : (resizeLists r).self.copyWorkList.all = true := by
          refine BitVector.all_iff.mpr fun i hi => ?_
          have hi' : i < r.self.copyWorkList.size := by
            rw [hex.copySize, hcopy]
            exact heq ▸ hi
          rw [show (resizeLists r).self.copyWorkList.test i = r.self.copyWorkList.test i from
            if_pos hi', hq.copyWL]
          rfl
        rw [hall] at hmore
        cases hmore
      · exact hlt
    exact ⟨hlt.trans_le hle₁, t, ht, hex.ext.cause hlt⟩

/-- so in every order of edits and iterations the address nodes are what they should be -/
theorem reached_iteration {returned : Finset NodeID} (h : Reached F.mem F.walk returned s₀.core)
    (hsz : Sized s₀) :
    ∃ s, iteration F s₀ = some s ∧ Reached F.mem F.walk returned s.core := by
  obtain ⟨s, hs, hit⟩ := iteration_exit (F := F) h.typed.1.sane hsz
  exact ⟨s, hs, h.run hit.steps⟩

/-! ## the loop ends -/

/-- the states in which an iteration of the loop of `runSolver` starts -/
def Started (F : Config Obj Val) : St Obj Val → St Obj Val → Prop :=
  ReflTransGen fun a b => iteration F a = some b ∧ b.self.copyWorkList.all = false

theorem Iterated.sane (h : Iterated F s₀ s) (hsane : s₀.core.Sane) : s.core.Sane :=
  (hsane.run h.steps).1

theorem Started.sized (h : Started F s₀ s) (hsane : s₀.core.Sane) (hsz : Sized s₀) :
    s.core.Sane ∧ Sized s := by
  induction h with
  | refl => exact ⟨hsane, hsz⟩
  | tail _ hs ih =>
    obtain ⟨t, ht, hit⟩ := iteration_exit (F := F) ih.1 ih.2
    rw [hs.1] at ht
    cases ht
    exact ⟨hit.sane ih.1, hit.sized⟩

/-- the loop ends, from any content of the lists -/
theorem runSolver_some (hsane : s₀.core.Sane) (hsz : Sized s₀) :
    ∃ fuel s, runSolver F fuel s₀ = some s := by
  refine doWhile_wf (I := fun s : St Obj Val => s.core.Sane ∧ Sized s)
    (InvImage.wf (fun s : St Obj Val => s.core.measure F.mem) measure_wf) (fun s hI => ?_)
    ⟨hsane, hsz⟩
  obtain ⟨t, ht, hit⟩ := iteration_exit (F := F) hI.1 hI.2
  exact ⟨t, ht, fun hc => ⟨⟨hit.sane hI.1, hit.sized⟩, (hit.more (by simpa using hc)).1⟩⟩

/-- `runSolver` returns, and then the assertions of `solve` hold.  Every further iteration has a cause:
in the one before it a node, a copy edge or a handled object was new. -/
theorem runSolver_returns (hsane : s₀.core.Sane) (hsz : Sized s₀) :
    (∃ fuel s, runSolver F fuel s₀ = some s) ∧
    (∀ fuel s, runSolver F fuel s₀ = some s → AllDone s) ∧
    ∀ a b, Started F s₀ a → iteration F a = some b → b.self.copyWorkList.all = false →
      ∃ t, copyPhase F a = some t ∧ Cause t b := by
  refine ⟨runSolver_some hsane hsz, fun fuel s h => ?_, fun a b ha hb hc => ?_⟩
  · have hend := doWhile_inv (I := fun s : St Obj Val => s.core.Sane ∧ Sized s)
      (J := fun s : St Obj Val => (s.core.Sane ∧ Sized s) ∧
        (s.self.copyWorkList.all = true → AllDone s))
      (fun s t hI ht => by
        obtain ⟨t', ht', hit⟩ := iteration_exit (F := F) hI.1 hI.2
        rw [ht] at ht'
        cases ht'
        exact ⟨⟨hit.sane hI.1, hit.sized⟩, hit.done⟩)
      (fun t hJ _ => hJ.1) ⟨hsane, hsz⟩ h
    exact hend.1.2 (by simpa using hend.2)
  · obtain ⟨h1, h2⟩ := ha.sized hsane hsz
    obtain ⟨b', hb', hit⟩ := iteration_exit (F := F) h1 h2
    rw [hb] at hb'
    cases hb'
    exact (hit.more hc).2

omit [DecidableEq Obj] in
/-- the lists are as long as the node list after `solve` has extended them -/
theorem sized_extendLists (s : St Obj Val) : Sized (extendLists s) := ⟨rfl, rfl, rfl⟩

/-- the sample, with a hash function that makes all edges collide -/
def sampleConfig : Config Bool Unit := ⟨sampleMem, .ascending, fun _ _ => 0, true⟩

def sampleState : St Bool Unit := extendLists ⟨sampleCore, {}⟩

theorem runSolver_returns_sample :
    (∃ fuel s, runSolver sampleConfig fuel sampleState = some s) ∧
    (∀ fuel s, runSolver sampleConfig fuel sampleState = some s → AllDone s) ∧
    ∀ a b, Started sampleConfig sampleState a → iteration sampleConfig a = some b →
      b.self.copyWorkList.all = false → ∃ t, copyPhase sampleConfig a = some t ∧ Cause t b :=
  runSolver_returns (sampleCore_built.tracks sampleMem sampleCore_wellFormed).shape.sane
    (sized_extendLists _)

/-- a `getelementptr` of the address of an object, which has the address of the field already -/
def indexedCore : Core Bool Unit :=
  [Edit.addCGNode (.objNode false), .addCGNode (.objNode true), .addCGNode (.ptrNode (some ())),
    .addConstraints 2 4 .addrOf, .addConstraints 1 4 .offset].foldl Edit.apply {}

theorem indexedCore_built : indexedCore.Built := Core.Built.empty.foldl (by decide)

/-- the copy edges count as handled, and the field is not in the points-to set yet -/
def indexedState : St Bool Unit :=
  ⟨indexedCore, ⟨.resize {} 5 true, .resize {} 5 false, .resize {} 5 true, ∅⟩⟩

/-- the only news is that the object is handled at the offset edge, and the loop goes on -/
theorem iteration_indexedState : indexedState.core.Built ∧ Sized indexedState ∧
    ∃ s, iteration ⟨sampleMem, .ascending, fun _ _ => 0, false⟩ indexedState = some s ∧
      s.self.copyWorkList.all = false ∧ s.core.graph.nodeNum = indexedState.core.graph.nodeNum ∧
      (∀ u < s.core.graph.nodeNum, s.core.graph.succ .copy u = indexedState.core.graph.succ .copy u) ∧
      ∀ n < s.core.graph.nodeNum, s.core.pts n = indexedState.core.pts n := by
  refine ⟨indexedCore_built, ⟨by decide, by decide, by decide⟩, _, rfl, ?_⟩
  decide +kernel

/-! ## the result is right -/

/-- What makes the result right, where an iteration starts: a copy edge that is not satisfied starts in
a node whose bit in `copyWorkList` is unset and is marked, and the other edges are closed where
`lsWorkList` says so. -/
structure Ready (F : Config Obj Val) (G : NodeID → Prop) (s : St Obj Val) : Prop where
  shape : s.core.Shape G
  sized : Sized s
  unsat : ∀ u v, s.core.Unsat u v → s.self.copyWorkList.test u = false ∧ Due F s u v
  ls : ∀ n, s.self.lsWorkList.test n = true → s.core.LsClosed n
  indexed : s.core.AllIndexed F.mem

omit [DecidableEq Obj] in
/-- the marks of the second phase, after the lists were resized -/
theorem Marked.due {u v : NodeID} (h : Marked F True True s u v) :
    (resizeLists s).self.copyWorkList.test u = false ∧ Due F (resizeLists s) u v := by
  have hcopy : (resizeLists s).self.copyWorkList.test u = false := by
    show (if u < s.self.copyWorkList.size then s.self.copyWorkList.test u else false) = false
    split
    · exact h.1 ‹_›
    · rfl
  refine ⟨hcopy, h.2.imp (fun h1 => ?_) fun h1 => ⟨hcopy, ?_, h1.2.2⟩⟩
  · exact (if_pos h1.2.1 : (resizeLists s).self.lsWorkList.test u = _).trans h1.2.2
  · exact (if_pos (h1.1 trivial) : (resizeLists s).self.targetList.test v = _).trans
      (h1.2.1 (h1.1 trivial))

theorem Ready.iteration (h : Ready F G s₀) (hs : PartialUpdate.iteration F s₀ = some s) :
    Ready F G s := by
  have hinv := h.shape.inv
  obtain ⟨t, ht, hrun⟩ := copyPhase_copyRun (F := F) hinv h.sized.copyWL
  obtain ⟨t', ht', hunsat, hls⟩ := copyPhase_spec h.shape h.sized.copyWL h.unsat h.ls
  rw [ht] at ht'
  cases ht'
  rw [PartialUpdate.iteration, ht] at hs
  cases hs
  have hsh : (clearCopy t).core.Shape G := h.shape.run hrun.steps
  have htarget : (clearCopy t).self.targetList.size = (clearCopy t).core.graph.nodeNum :=
    hrun.targetSize.trans (h.sized.target.trans hrun.nodeNum.symm)
  have hlsize : (clearCopy t).self.lsWorkList.size = (clearCopy t).core.graph.nodeNum :=
    hrun.lsSize.trans (h.sized.ls.trans hrun.nodeNum.symm)
  have hidx : (clearCopy t).core.AllIndexed F.mem :=
    h.indexed.run h.shape hrun.steps hrun.handled
  have hex := lsPhase_exit (F := F) hsh.sane htarget hlsize
  obtain ⟨h1, h2, h3⟩ := lsPhase_spec (F := F) hsh htarget hlsize hunsat hls hidx
  refine ⟨hsh.run hex.ext.steps, sized_resizeLists _, fun u v huv => (h1 u v huv).due,
    fun n hn => ?_, h3⟩
  by_cases hlt : n < (lsPhase F (clearCopy t)).self.lsWorkList.size
  · exact h2 n ((if_pos hlt : (resizeLists _).self.lsWorkList.test n = _).symm.trans hn)
  · -- a node that the first loop made has no such edges
    have hlt' := (not_lt.mp hlt).trans' hex.lsSize
    refine ⟨fun v hv => ?_, fun u hu => ?_, fun d hd => ?_⟩
    · have hv' := (hex.ext.succ .load (by decide) (by decide) n) ▸ hv
      exact absurd (hsh.inv.edge_lt _ _ _ hv').1 (not_lt.mpr hlt')
    · have hu' := (hex.ext.succ .store (by decide) (by decide) u) ▸ hu
      exact absurd (hsh.inv.edge_lt _ _ _ hu').2 (not_lt.mpr hlt')
    · have hd' := (hex.ext.succ .offset (by decide) (by decide) n) ▸ hd
      exact absurd (hsh.inv.edge_lt _ _ _ hd').1 (not_lt.mpr hlt')

omit [DecidableEq Obj] in
/-- where the loop ends, everything is closed -/
theorem Ready.closed (h : Ready F G s) (hd : AllDone s) : s.core.Closed F.mem where
  copy u v huv := by
    by_contra hsub
    have hu := (h.shape.inv.edge_lt _ _ _ huv).1
    have := BitVector.all_iff.mp hd.copyWL u (h.sized.copyWL.symm ▸ hu)
    rw [(h.unsat u v ⟨huv, hsub⟩).1] at this
    cases this
  load u v huv := by
    have hu := (h.shape.inv.edge_lt _ _ _ huv).1
    exact (h.ls u (BitVector.all_iff.mp hd.ls u (h.sized.ls.symm ▸ hu))).load v huv
  store u v huv := by
    have hv := (h.shape.inv.edge_lt _ _ _ huv).2
    exact (h.ls v (BitVector.all_iff.mp hd.ls v (h.sized.ls.symm ▸ hv))).store u huv
  offset u d hud := by
    have hu := (h.shape.inv.edge_lt _ _ _ hud).1
    exact (h.ls u (BitVector.all_iff.mp hd.ls u (h.sized.ls.symm ▸ hu))).offset d hud
  indexed := h.indexed

/-- a run from a ready state ends in a ready state, where the assertions of `solve` hold -/
theorem Ready.runSolver (h : Ready F G s₀) {fuel : Nat}
    (hs : PartialUpdate.runSolver F fuel s₀ = some s) :
    Ready F G s ∧ AllDone s ∧ Steps F.mem F.walk s₀.core s.core := by
  have hend := doWhile_inv
    (I := fun s => Ready F G s ∧ Steps F.mem F.walk s₀.core s.core)
    (J := fun s => (Ready F G s ∧ Steps F.mem F.walk s₀.core s.core) ∧
      (s.self.copyWorkList.all = true → AllDone s))
    (fun s t hI ht => by
      obtain ⟨t', ht', hit⟩ := iteration_exit (F := F) hI.1.shape.sane hI.1.sized
      rw [ht] at ht'
      cases ht'
      exact ⟨⟨hI.1.iteration ht, hI.2.trans hit.steps⟩, hit.done⟩)
    (fun t hJ _ => hJ.1) ⟨h, .refl⟩ hs
  exact ⟨hend.1.1.1, hend.1.2 (by simpa using hend.2), hend.1.1.2⟩

/-- Where the state tracks the constraints `C`, it still does, and holds their least solution. -/
theorem Ready.exact (h : Ready F G s₀) (ht : s₀.core.Tracks F.mem G C)
    {fuel : Nat} (hs : PartialUpdate.runSolver F fuel s₀ = some s) :
    s.core.Tracks F.mem G C ∧ ∀ n < s.core.graph.nodeNum, ∀ o, s.core.PointsTo n o ↔
      Inclusion.Least (andersen F.mem C) (s.core.graph.name n) o := by
  obtain ⟨hr, hdone, hsteps⟩ := h.runSolver hs
  have ht' := ht.run hsteps hr.indexed
  exact ⟨ht', ht'.exact (hr.closed hdone)⟩

/-! ## the first call -/

/-- nothing is done yet -/
structure Unset (s : St Obj Val) : Prop where
  sized : Sized s
  copyWL : ∀ i < s.core.graph.nodeNum, s.self.copyWorkList.test i = false
  ls : ∀ i < s.core.graph.nodeNum, s.self.lsWorkList.test i = false
  target : ∀ i < s.core.graph.nodeNum, s.self.targetList.test i = false

omit [DecidableEq Obj] in
theorem Unset.ready (h : Unset s) (ht : s.core.Tracks F.mem G C) : Ready F G s := by
  have hinv := ht.shape.inv
  refine ⟨ht.shape, h.sized, fun u v huv => ?_, fun n hn => ?_, ht.indexed⟩
  · have hu := (hinv.edge_lt _ _ _ huv.1).1
    exact ⟨h.copyWL u hu, .inl (h.ls u hu)⟩
  · have hlt : ¬ n < s.core.graph.nodeNum := fun hlt => by
      rw [h.ls n hlt] at hn
      cases hn
    exact ⟨fun v hv => absurd (hinv.edge_lt _ _ _ hv).1 hlt,
      fun u hu => absurd (hinv.edge_lt _ _ _ hu).2 hlt,
      fun d hd => absurd (hinv.edge_lt _ _ _ hd).1 hlt⟩

/-- The first call of `runSolver`, on a well-formed graph as the builder leaves it, returns, and then
every node has the least solution of the constraints of that graph. -/
theorem runSolver_least (F : Config Obj Val) {s : St Obj Val} (hb : s.core.Built)
    (hwf : s.core.graph.WellFormed) (hu : Unset s) :
    (∃ fuel s', runSolver F fuel s = some s') ∧
    ∀ fuel s', runSolver F fuel s = some s' → ∀ n < s'.core.graph.nodeNum, ∀ o,
      s'.core.PointsTo n o ↔
        Inclusion.Least (andersen F.mem s.core.graph.ofGraph) (s'.core.graph.name n) o := by
  have ht := hb.tracks F.mem hwf
  have hr : Ready F _ s := hu.ready ht
  exact ⟨runSolver_some hr.shape.sane hr.sized, fun fuel s' hs => (hr.exact ht hs).2⟩

omit [DecidableEq Obj] in
/-- the lists that `solve` makes for the first call -/
theorem unset_extendLists (c : Core Obj Val) : Unset (extendLists ⟨c, {}⟩) where
  sized := sized_extendLists _
  copyWL _ _ := rfl
  ls _ _ := rfl
  target _ _ := rfl

theorem runSolver_least_sample :
    (∃ fuel s', runSolver sampleConfig fuel sampleState = some s') ∧
    ∀ fuel s', runSolver sampleConfig fuel sampleState = some s' →
      ∀ n < s'.core.graph.nodeNum, ∀ o, s'.core.PointsTo n o ↔
        Inclusion.Least (andersen sampleMem sampleCore.graph.ofGraph) (s'.core.graph.name n) o :=
  runSolver_least sampleConfig sampleCore_built sampleCore_wellFormed (unset_extendLists _)

end PartialUpdate

end AserPTA
