import AserPTA.Loop.Fold
import AserPTA.Solver.Measure

/-!
# Load, store and offset edges

What one turn of `processLoad`, `processStore` and `processOffset` does, for any callback
(`addCopyThen_eq`, `offsetStep_cases`), and what does not change while a solver goes through the load,
store and offset edges (`Extends`).
-/

namespace AserPTA

open Relation Loop

variable {Obj Val ε : Type}

namespace ConsGraph

variable {g : ConsGraph Obj Val}

theorem addConstraints_copy (a b : NodeID) :
    g.addConstraints a b .copy = g.insertConstraint a b .copy := by
  rw [addConstraints]
  split
  · rename_i h
    rw [h.1]
    simp [insertConstraint]
  · rfl

theorem addConstraints_addrOf (a b : NodeID) :
    g.addConstraints a b .addrOf = g.insertConstraint (a + 1) b .copy := by
  simp [addConstraints]

end ConsGraph

namespace State

open ConsGraph

variable {hook callBack : CallBack Obj Val ε}

/-- the state with another graph -/
def withGraph (s : State Obj Val ε) (g : ConsGraph Obj Val) : State Obj Val ε :=
  { s with core := { s.core with graph := g } }

theorem addCopy_noop (a b : NodeID) (s : State Obj Val ε) :
    s.addCopy noop a b = (s.withGraph (s.core.graph.insertConstraint a b .copy).1,
      (s.core.graph.insertConstraint a b .copy).2) := by
  simp only [addCopy, addConstraints_copy, withGraph, noop]
  cases (s.core.graph.insertConstraint a b .copy).2 <;> rfl

theorem addCopyThen_eq (a b : NodeID) (r : State Obj Val ε × Bool) :
    addCopyThen hook callBack a b r =
      let i := r.1.core.graph.insertConstraint a b .copy
      if i.2 then (callBack a b (hook a b (r.1.withGraph i.1)), true)
      else (r.1.withGraph i.1, r.2) := by
  simp only [addCopyThen, addCopy, addConstraints_copy, withGraph]
  cases (r.1.core.graph.insertConstraint a b .copy).2 <;> rfl

theorem addAddrOf_eq (i d : NodeID) (s : State Obj Val ε) :
    (s.addAddrOf hook i d).1 =
      let r := s.core.graph.insertConstraint (i + 1) d .copy
      if r.2 then hook (i + 1) d (s.withGraph r.1) else s.withGraph r.1 := by
  simp only [addAddrOf, addConstraints_addrOf, withGraph]
  cases (s.core.graph.insertConstraint (i + 1) d .copy).2 <;> rfl

/-- One turn of the loop of `processOffset`: there is no field, or its node `i` is there or is made,
and then the pointer points to it already or the address edge is added and called back. -/
theorem offsetStep_cases [DecidableEq Obj] (hook callBack : CallBack Obj Val ε)
    (M : MemModel Obj Val) (d : NodeID) (gep : Val) (r : State Obj Val ε × Bool) (x : NodeID) :
    (offsetStep M hook callBack d gep r x = r ∧
      ∀ o, r.1.core.graph.kind x = .objNode o → M.indexObject o gep = none) ∨
    ∃ o f i c, r.1.core.graph.kind x = .objNode o ∧ M.indexObject o gep = some f ∧
      (c = r.1.core ∧ r.1.core.graph.findObj f = some i ∨
        c = r.1.core.addCGNode (.objNode f) ∧ r.1.core.graph.findObj f = none ∧
          i = r.1.core.graph.nodeNum) ∧
      offsetStep M hook callBack d gep r x =
        if i ∈ c.pts d then ({ r.1 with core := c }, r.2)
        else (callBack i d (addAddrOf { r.1 with core := c } hook i d).1, true) := by
  cases hk : r.1.core.graph.kind x with
  | ptrNode p =>
    left
    refine ⟨?_, fun o ho => by cases ho⟩
    simp only [offsetStep, hk]
  | objNode o =>
    cases hf : M.indexObject o gep with
    | none =>
      left
      refine ⟨?_, fun o' ho' => by cases ho'; exact hf⟩
      simp only [offsetStep, hk, Core.indexObject, hf, Option.map_none]
    | some f =>
      right
      cases ho : r.1.core.graph.findObj f with
      | some i =>
        refine ⟨o, f, i, r.1.core, rfl, hf, .inl ⟨rfl, ho⟩, ?_⟩
        simp only [offsetStep, hk, Core.indexObject, hf, Option.map_some, ho]
      | none =>
        refine ⟨o, f, r.1.core.graph.nodeNum, _, rfl, hf, .inr ⟨rfl, ho, rfl⟩, ?_⟩
        simp only [offsetStep, hk, Core.indexObject, hf, Option.map_some, ho]

end State

namespace Core

open ConsGraph

variable {c c₀ : Core Obj Val} {M : MemModel Obj Val} {w : Walk} {G : NodeID → Prop}

/-- only points-to sets grow -/
structure PtsGrow [DecidableEq Obj] (M : MemModel Obj Val) (w : Walk) (c₀ c : Core Obj Val) :
    Prop where
  steps : Steps M w c₀ c
  graph : c.graph = c₀.graph
  handled : c.handledGEPMap = c₀.handledGEPMap
  pts : ∀ n, c₀.pts n ⊆ c.pts n

/-- `c` comes from `c₀` by steps that neither merge nodes nor touch their load, store and offset
edges -/
structure Extends [DecidableEq Obj] (M : MemModel Obj Val) (w : Walk) (c₀ c : Core Obj Val) :
    Prop where
  steps : Steps M w c₀ c
  nodeNum : c₀.graph.nodeNum ≤ c.graph.nodeNum
  kind : ∀ n < c₀.graph.nodeNum, c.graph.kind n = c₀.graph.kind n
  superOf : ∀ n, c.graph.superOf n = c₀.graph.superOf n
  getSuperNode : ∀ n, c.graph.getSuperNode n = c₀.graph.getSuperNode n
  succ : ∀ k, k ≠ .copy → k ≠ .addrOf → ∀ n, c.graph.succ k n = c₀.graph.succ k n
  copy : ∀ u v, v ∈ c₀.graph.succ .copy u → v ∈ c.graph.succ .copy u
  handled : ∀ d, c₀.handledGEPMap d ⊆ c.handledGEPMap d
  pts : ∀ n < c₀.graph.nodeNum, c₀.pts n ⊆ c.pts n

section
variable [DecidableEq Obj]

theorem PtsGrow.refl (M : MemModel Obj Val) (w : Walk) (c : Core Obj Val) : c.PtsGrow M w c :=
  ⟨.refl, rfl, rfl, fun _ => Finset.Subset.refl _⟩

theorem PtsGrow.extends (h : c₀.PtsGrow M w c) : c₀.Extends M w c := by
  refine ⟨h.steps, ?_, ?_, ?_, ?_, ?_, ?_, ?_, fun n _ => h.pts n⟩
  · rw [h.graph]
  · exact fun n _ => by rw [h.graph]
  · exact fun n => by rw [h.graph]
  · exact fun n => by rw [h.graph]
  · exact fun k _ _ n => by rw [h.graph]
  · exact fun u v huv => by rwa [h.graph]
  · exact fun d => by rw [h.handled]

/-- propagating along one copy edge -/
theorem PtsGrow.processCopy {a b : NodeID} (hab : b ∈ c.graph.succ .copy a) :
    c.PtsGrow M w (c.processCopy a b).1 := by
  refine ⟨.single (.union a b _ (Finset.Subset.refl _) (.single hab)), graph_unionPts ..,
    handledGEPMap_unionPts .., fun n => ?_⟩
  rw [Core.processCopy, pts_unionPts]
  split
  · rename_i hn
    rw [hn]
    exact Finset.subset_union_left
  · exact Finset.Subset.refl _

namespace Extends

theorem refl (M : MemModel Obj Val) (w : Walk) (c : Core Obj Val) : c.Extends M w c :=
  (PtsGrow.refl M w c).extends

theorem trans {c₁ c₂ c₃ : Core Obj Val} (h : c₁.Extends M w c₂) (h' : c₂.Extends M w c₃) :
    c₁.Extends M w c₃ where
  steps := h.steps.trans h'.steps
  nodeNum := h.nodeNum.trans h'.nodeNum
  kind n hn := (h'.kind n (hn.trans_le h.nodeNum)).trans (h.kind n hn)
  superOf n := (h'.superOf n).trans (h.superOf n)
  getSuperNode n := (h'.getSuperNode n).trans (h.getSuperNode n)
  succ k hk hk' n := (h'.succ k hk hk' n).trans (h.succ k hk hk' n)
  copy u v huv := h'.copy u v (h.copy u v huv)
  handled d := (h.handled d).trans (h'.handled d)
  pts n hn := (h.pts n hn).trans (h'.pts n (hn.trans_le h.nodeNum))

/-- inserting the copy edge that a step stands for -/
theorem insert {a b : NodeID}
    (hs : Step M w c { c with graph := (c.graph.insertConstraint a b .copy).1 }) :
    c.Extends M w { c with graph := (c.graph.insertConstraint a b .copy).1 } := by
  have hn := insertConstraint_sameNodes (g := c.graph) a b .copy
  refine ⟨.single hs, hn.nodeNum.ge, fun n _ => hn.kind n, hn.superOf, hn.getSuperNode,
    fun k hk _ n => ?_, fun u v huv => ?_, fun _ => Finset.Subset.refl _,
    fun _ _ => Finset.Subset.refl _⟩
  · ext v
    exact (mem_succ_insertConstraint ..).trans (or_iff_left fun h => hk h.1)
  · exact (mem_succ_insertConstraint ..).mpr (.inl huv)

/-- noting handled objects -/
theorem note {u d : NodeID} {new : Finset NodeID} (hd : d ∈ c.graph.succ .offset u)
    (hnew : new ⊆ c.pts u) :
    c.Extends M w { c with
      handledGEPMap := fun m =>
        if m = d then c.handledGEPMap m ∪ new else c.handledGEPMap m } := by
  refine ⟨.single (.handled u d new hd hnew), le_rfl, fun _ _ => rfl, fun _ => rfl, fun _ => rfl,
    fun _ _ _ _ => rfl, fun _ _ h => h, fun m => ?_, fun _ _ => Finset.Subset.refl _⟩
  dsimp only
  split
  · exact Finset.subset_union_left
  · exact Finset.Subset.refl _

theorem field (hc : c.graph.Inv) {f : Obj} (hs : Step M w c (c.addCGNode (.objNode f))) :
    c.Extends M w (c.addCGNode (.objNode f)) := by
  have hadd := (hc.addCGNode (.objNode f)).2
  exact ⟨.single hs, hadd.lt.le, hadd.kind_old, fun n => congrFun hadd.superOf n,
    hadd.getSuperNode, fun k _ hk n => hadd.succ k hk n,
    fun u v huv => (hadd.succ .copy (by decide) u).symm ▸ huv,
    fun _ => Finset.Subset.refl _, fun n hn => (Shape.pts_addCGNode_of_lt hn).ge⟩

theorem covers (h : c₀.Extends M w c) {k : Constraints} (hk : k ≠ .addrOf) {u v : NodeID}
    (huv : c₀.graph.Covers k u v) : c.graph.Covers k u v := by
  rw [Covers, h.getSuperNode, h.getSuperNode]
  refine huv.imp_left fun h1 => ?_
  by_cases hk' : k = .copy
  · subst hk'
    exact h.copy _ _ h1
  · rwa [h.succ k hk' hk]

/-- the measure goes down for a reason -/
theorem cause (h : c₀.Extends M w c) (hlt : c.measure M < c₀.measure M) :
    c₀.graph.nodeNum < c.graph.nodeNum ∨
    (∃ u v, v ∈ c.graph.succ .copy u ∧ v ∉ c₀.graph.succ .copy u) ∨
    ∃ d x, x ∈ c.handledGEPMap d ∧ x ∉ c₀.handledGEPMap d := by
  by_contra hno
  push Not at hno
  obtain ⟨h1, h2, h3⟩ := hno
  have hn : c.graph.nodeNum = c₀.graph.nodeNum := Nat.le_antisymm h1 h.nodeNum
  refine hlt.ne (measure_congr ?_ ?_ ?_ ?_)
  · refine Finset.filter_congr fun f _ => ?_
    rw [findObj_congr hn h.kind]
  · rw [roots, roots, hn]
    exact Finset.filter_congr fun n _ => by rw [h.superOf]
  · rw [missingCopy, missingCopy, hn]
    exact Finset.filter_congr fun p _ => not_congr ⟨h2 p.1 p.2, h.copy p.1 p.2⟩
  · rw [unhandled, unhandled, hn]
    exact Finset.filter_congr fun p _ => not_congr ⟨h3 p.1 p.2, fun h4 => h.handled p.1 h4⟩

end Extends

end

/-- the field node `i` is on its way to `d` -/
def Offered (M : MemModel Obj Val) (c : Core Obj Val) (i d : NodeID) : Prop :=
  ∃ x o f gep, x ∈ c.handledGEPMap d ∧ c.graph.kind x = .objNode o ∧
    c.graph.kind d = .ptrNode (some gep) ∧ M.indexObject o gep = some f ∧
    i < c.graph.nodeNum ∧ c.graph.kind i = .objNode f ∧ c.graph.Covers .copy (i + 1) d

/-- the object that `d` takes of `x`, if any, is known to `d` or on its way to it -/
def Taken (M : MemModel Obj Val) (c : Core Obj Val) (d x : NodeID) : Prop :=
  ∀ o gep f, c.graph.kind x = .objNode o → c.graph.kind d = .ptrNode (some gep) →
    M.indexObject o gep = some f →
    ∃ i, i < c.graph.nodeNum ∧ c.graph.kind i = .objNode f ∧
      (i ∈ c.pts d ∨ c.graph.Covers .copy (i + 1) d)

theorem Taken.extends [DecidableEq Obj] {d x : NodeID} (h : c₀.Taken M d x)
    (he : c₀.Extends M w c) (hd : d < c₀.graph.nodeNum) (hx : x < c₀.graph.nodeNum) :
    c.Taken M d x := by
  intro o gep f ho hg hf
  rw [he.kind x hx] at ho
  rw [he.kind d hd] at hg
  obtain ⟨i, hi, hif, h1⟩ := h o gep f ho hg hf
  exact ⟨i, hi.trans_le he.nodeNum, (he.kind i hi).trans hif,
    h1.imp (fun h2 => he.pts d hd h2) (he.covers (by decide))⟩

/-- an address node and a `getelementptr` node are not merged, so the edge is between them -/
theorem Shape.covers_addr (hc : c.Shape G) {i d : NodeID} {f : Obj} (hi : i < c.graph.nodeNum)
    (hif : c.graph.kind i = .objNode f) (hd : G d)
    (h : c.graph.Covers .copy (i + 1) d) : d ∈ c.graph.succ .copy (i + 1) := by
  have hia := isAddr_succ hi hif
  rw [Covers, getSuperNode_of_none (hc.addr_fixed _ hia).1,
    getSuperNode_of_none (hc.gep_fixed _ hd).1] at h
  refine h.resolve_right fun h1 => hc.not_addr_of_gep hd ?_
  rw [← h1.2]
  exact hia

/-- every object that a `getelementptr` node has handled is indexed -/
def AllIndexed (M : MemModel Obj Val) (c : Core Obj Val) : Prop :=
  ∀ d, ∀ x ∈ c.handledGEPMap d, c.Indexed M d x

theorem AllIndexed.run [DecidableEq Obj] (h : c₀.AllIndexed M) (hc : c₀.Shape G)
    (hs : Steps M w c₀ c) (hh : c.handledGEPMap = c₀.handledGEPMap) : c.AllIndexed M := by
  intro d x hx
  rw [hh] at hx
  exact hc.indexed_run hs (hc.handled_gep d x hx) (hc.handled_lt d x hx) (h d x hx)

theorem Shape.indexed_of_taken (hc : c.Shape G) {d x : NodeID} (hd : G d)
    (h : c.Taken M d x) : c.Indexed M d x := by
  intro o gep f ho hg hf
  obtain ⟨i, hi, hif, h1⟩ := h o gep f ho hg hf
  exact ⟨i, hi, hif, h1.imp_right fun h2 => hc.covers_addr hi hif hd h2⟩

end Core

namespace ConsGraph

variable {g : ConsGraph Obj Val}

theorem covers_rep_left (h : g.Inv) {k : Constraints} {u v : NodeID} :
    g.Covers k (g.getSuperNode u) v ↔ g.Covers k u v := by
  rw [Covers, getSuperNode_of_none (h.superOf_getSuperNode u), Covers]

theorem insertConstraint_rep_left (h : g.Inv) (a b : NodeID) (k : Constraints) :
    g.insertConstraint (g.getSuperNode a) b k = g.insertConstraint a b k := by
  simp only [insertConstraint, getSuperNode_of_none (h.superOf_getSuperNode a)]

theorem insertConstraint_rep_right (h : g.Inv) (a b : NodeID) (k : Constraints) :
    g.insertConstraint a (g.getSuperNode b) k = g.insertConstraint a b k := by
  simp only [insertConstraint, getSuperNode_of_none (h.superOf_getSuperNode b)]

/-- an edge that is not new leaves the edges as they are -/
theorem succ_of_not_new {a b : NodeID} (hi : (g.insertConstraint a b .copy).2 = false) {u v : NodeID}
    (huv : v ∈ (g.insertConstraint a b .copy).1.succ .copy u) : v ∈ g.succ .copy u := by
  rcases (mem_succ_insertConstraint a b .copy .copy u v).mp huv with h1 | ⟨-, rfl, rfl, h1⟩
  · exact h1
  · by_contra hno
    exact Bool.false_ne_true (hi.symm.trans ((insertConstraint_snd a b .copy).mpr ⟨hno, h1⟩))

theorem not_covers_of_new {a b : NodeID} (hi : (g.insertConstraint a b .copy).2 = true) :
    ¬ g.Covers .copy a b := by
  obtain ⟨h1, h2⟩ := (insertConstraint_snd a b .copy).mp hi
  rintro (h | h)
  · exact h1 h
  · exact h2 ⟨h.2, h.1⟩

theorem covers_rep_right (h : g.Inv) {k : Constraints} {u v : NodeID} :
    g.Covers k u (g.getSuperNode v) ↔ g.Covers k u v := by
  rw [Covers, getSuperNode_of_none (h.superOf_getSuperNode v), Covers]

end ConsGraph

/-! ## the loops -/

namespace State

open AserPTA.Core ConsGraph

variable [DecidableEq Obj] {M : MemModel Obj Val} {w : Walk} {hook callBack : CallBack Obj Val ε}
  {s : State Obj Val ε}

/-- a callback that does not touch the graph and the points-to sets -/
def Neutral (callBack : CallBack Obj Val ε) : Prop :=
  ∀ a b (s : State Obj Val ε), (callBack a b s).core = s.core

omit [DecidableEq Obj] in
theorem neutral_noop : Neutral (noop : CallBack Obj Val ε) := fun _ _ _ => rfl

/-- a callback that, called on a copy edge, lets points-to sets grow -/
def Tame (M : MemModel Obj Val) (w : Walk) (callBack : CallBack Obj Val ε) : Prop :=
  ∀ a b (s : State Obj Val ε), b ∈ s.core.graph.succ .copy a →
    s.core.PtsGrow M w (callBack a b s).core

theorem Neutral.tame (h : Neutral callBack) : Tame M w callBack := fun a b s _ => by
  rw [h]
  exact .refl ..

/-- the copy edges that `processLoad` and `processStore` add for a list of objects -/
def addCopies (hook callBack : CallBack Obj Val ε)
    (ends : ConsGraph Obj Val → NodeID → NodeID × NodeID) (l : List NodeID)
    (r : State Obj Val ε × Bool) : State Obj Val ε × Bool :=
  l.foldl (fun r x =>
    addCopyThen hook callBack (ends r.1.core.graph x).1 (ends r.1.core.graph x).2 r) r

/-- `ends` gives the ends of edges that steps may insert -/
structure Ends (M : MemModel Obj Val) (w : Walk) (c₀ : Core Obj Val)
    (ends : ConsGraph Obj Val → NodeID → NodeID × NodeID) (l : List NodeID) : Prop where
  same : ∀ c, c₀.Extends M w c → ∀ x, ends c.graph x = ends c₀.graph x
  root : ∀ x ∈ l, c₀.graph.superOf (ends c₀.graph x).1 = none ∧
    c₀.graph.superOf (ends c₀.graph x).2 = none
  lt : ∀ x ∈ l, (ends c₀.graph x).1 < c₀.graph.nodeNum ∧ (ends c₀.graph x).2 < c₀.graph.nodeNum
  step : ∀ c, c₀.Extends M w c → ∀ x ∈ l, Step M w c { c with
    graph := (c.graph.insertConstraint (ends c₀.graph x).1 (ends c₀.graph x).2 .copy).1 }

/-- an edge is inserted and, if it is new, called back -/
theorem addCopyThen_grows (hhook : Neutral hook) (hcb : Tame M w callBack) {a b : NodeID}
    (r : State Obj Val ε × Bool) (hr : r.1.core.Sane)
    (ha : a < r.1.core.graph.nodeNum ∧ r.1.core.graph.superOf a = none)
    (hb : b < r.1.core.graph.nodeNum ∧ r.1.core.graph.superOf b = none)
    (hs : Step M w r.1.core { r.1.core with
      graph := (r.1.core.graph.insertConstraint a b .copy).1 }) :
    let r' := addCopyThen hook callBack a b r
    r.1.core.Extends M w r'.1.core ∧ r'.1.core.handledGEPMap = r.1.core.handledGEPMap ∧
      r'.1.core.graph.Covers .copy a b ∧
      (r'.2 = true → r.2 = true ∨ r'.1.core.measure M < r.1.core.measure M) := by
  intro r'
  have hext := Extends.insert hs
  have hself := covers_insertConstraint_self (g := r.1.core.graph) a b .copy
  have hmeas := (hr.measure_insert (M := M) ha.1 hb.1).2
  have hnew := insertConstraint_snd (g := r.1.core.graph) a b .copy
  have hmem := mem_succ_insertConstraint (g := r.1.core.graph) a b .copy .copy a b
  have heq : r' = _ := addCopyThen_eq a b r
  rw [getSuperNode_of_none ha.2, getSuperNode_of_none hb.2] at hnew hmem
  dsimp only at heq
  cases hi : (r.1.core.graph.insertConstraint a b .copy).2 with
  | false =>
    rw [hi, if_neg Bool.false_ne_true] at heq
    rw [heq]
    exact ⟨hext, rfl, hself, .inl⟩
  | true =>
    rw [hi, if_pos rfl] at heq
    have hedge := hmem.mpr (.inr ⟨rfl, rfl, rfl, (hnew.mp hi).2⟩)
    have hcore : (hook a b (r.1.withGraph (r.1.core.graph.insertConstraint a b .copy).1)).core = _ :=
      hhook ..
    have hg := hcb a b (hook a b (r.1.withGraph (r.1.core.graph.insertConstraint a b .copy).1))
      (by rw [hcore]; exact hedge)
    rw [hcore] at hg
    rw [heq]
    refine ⟨hext.trans hg.extends, hg.handled, ?_, fun _ => .inr ?_⟩
    · show (callBack a b _).core.graph.Covers .copy a b
      rw [hg.graph]
      exact hself
    · show (callBack a b _).core.measure M < _
      rw [measure_of_pts hg.graph hg.handled]
      exact hmeas hi

theorem addCopies_spec (h : s.core.Sane) {ends : ConsGraph Obj Val → NodeID → NodeID × NodeID}
    {l : List NodeID} (hE : Ends M w s.core ends l) (hhook : Neutral hook)
    (hcb : Tame M w callBack) :
    let r := addCopies hook callBack ends l (s, false)
    s.core.Extends M w r.1.core ∧ r.1.core.handledGEPMap = s.core.handledGEPMap ∧
      (r.2 = true → r.1.core.measure M < s.core.measure M) ∧
      ∀ x ∈ l, r.1.core.graph.Covers .copy (ends s.core.graph x).1 (ends s.core.graph x).2 := by
  have hturn : ∀ r : State Obj Val ε × Bool, ∀ x ∈ l, s.core.Extends M w r.1.core →
      let r' := addCopyThen hook callBack (ends r.1.core.graph x).1 (ends r.1.core.graph x).2 r
      r.1.core.Extends M w r'.1.core ∧ r'.1.core.handledGEPMap = r.1.core.handledGEPMap ∧
        r'.1.core.graph.Covers .copy (ends s.core.graph x).1 (ends s.core.graph x).2 ∧
        (r'.2 = true → r.2 = true ∨ r'.1.core.measure M < r.1.core.measure M) := by
    intro r x hx he
    obtain ⟨h1, h2⟩ := hE.root x hx
    obtain ⟨h3, h4⟩ := hE.lt x hx
    rw [hE.same _ he]
    exact addCopyThen_grows hhook hcb r (h.run he.steps).1
      ⟨h3.trans_le he.nodeNum, (he.superOf _).trans h1⟩
      ⟨h4.trans_le he.nodeNum, (he.superOf _).trans h2⟩ (hE.step _ he x hx)
  have hall := foldl_all
    (f := fun r x => addCopyThen hook callBack (ends r.1.core.graph x).1 (ends r.1.core.graph x).2 r)
    (l := l) (s := ((s, false) : State Obj Val ε × Bool))
    (I := fun r => s.core.Extends M w r.1.core ∧
      r.1.core.handledGEPMap = s.core.handledGEPMap ∧
      (r.2 = true → r.1.core.measure M < s.core.measure M))
    (Q := fun x r => r.1.core.graph.Covers .copy (ends s.core.graph x).1 (ends s.core.graph x).2)
    (fun r x hx hI => by
      obtain ⟨h1, h2, -, h3⟩ := hturn r x hx hI.1
      refine ⟨hI.1.trans h1, h2.trans hI.2.1, fun hr => ?_⟩
      rcases h3 hr with h4 | h4
      · exact ((h.run hI.1.steps).1.run h1.steps).2.trans_lt (hI.2.2 h4)
      · exact h4.trans_le (h.run hI.1.steps).2)
    (fun r x hx hI => (hturn r x hx hI.1).2.2.1)
    (fun r x hx y hI hy => (hturn r x hx hI.1).1.covers (by decide) hy)
    ⟨.refl .., rfl, fun h => by cases h⟩
  exact ⟨hall.1.1, hall.1.2.1, hall.1.2.2, hall.2⟩

section
variable {u v : NodeID} {diff : Finset NodeID} (h : s.core.Sane) (hhook : Neutral hook)
  (hcb : Tame M w callBack)
include h

theorem ends_load (huv : v ∈ s.core.graph.succ .load u) (hdiff : diff ⊆ s.core.pts u) :
    Ends M w s.core (fun g x => (g.getSuperNode x, v)) (bits diff) := by
  obtain ⟨hu, hv⟩ := h.inv.edge_lt _ _ _ huv
  refine ⟨fun c hc x => by rw [hc.getSuperNode], fun x _ => ⟨h.inv.superOf_getSuperNode x,
    h.inv.target_none huv⟩, fun x hx => ⟨?_, hv⟩, fun c hc x hx => ?_⟩
  · exact h.inv.getSuperNode_lt (h.pts_lt u x (hdiff ((mem_bits _ _).mp hx)))
  · have := Step.load (M := M) (w := w) (c := c) x u v
      (hc.pts u hu (hdiff ((mem_bits _ _).mp hx)))
      (by rwa [hc.succ .load (by decide) (by decide)])
    rwa [hc.getSuperNode] at this

theorem ends_store (huv : v ∈ s.core.graph.succ .store u) (hdiff : diff ⊆ s.core.pts v) :
    Ends M w s.core (fun g x => (u, g.getSuperNode x)) (bits diff) := by
  obtain ⟨hu, hv⟩ := h.inv.edge_lt _ _ _ huv
  refine ⟨fun c hc x => by rw [hc.getSuperNode], fun x _ => ⟨h.inv.source_none huv,
    h.inv.superOf_getSuperNode x⟩, fun x hx => ⟨hu, ?_⟩, fun c hc x hx => ?_⟩
  · exact h.inv.getSuperNode_lt (h.pts_lt v x (hdiff ((mem_bits _ _).mp hx)))
  · have := Step.store (M := M) (w := w) (c := c) x u v
      (hc.pts v hv (hdiff ((mem_bits _ _).mp hx)))
      (by rwa [hc.succ .store (by decide) (by decide)])
    rwa [hc.getSuperNode] at this

include hhook hcb

theorem processLoad_spec (huv : v ∈ s.core.graph.succ .load u) (hdiff : diff ⊆ s.core.pts u) :
    let r := s.processLoad hook callBack v diff
    s.core.Extends M w r.1.core ∧ r.1.core.handledGEPMap = s.core.handledGEPMap ∧
      (r.2 = true → r.1.core.measure M < s.core.measure M) ∧
      ∀ x ∈ diff, r.1.core.graph.Covers .copy x v := by
  obtain ⟨h1, h2, h3, h4⟩ := addCopies_spec h (ends_load (M := M) (w := w) h huv hdiff) hhook hcb
  refine ⟨h1, h2, h3, fun x hx => ?_⟩
  have := h4 x ((mem_bits _ _).mpr hx)
  rw [← h1.getSuperNode] at this
  exact (covers_rep_left (h.run h1.steps).1.inv).mp this

theorem processStore_spec (huv : v ∈ s.core.graph.succ .store u) (hdiff : diff ⊆ s.core.pts v) :
    let r := s.processStore hook callBack u diff
    s.core.Extends M w r.1.core ∧ r.1.core.handledGEPMap = s.core.handledGEPMap ∧
      (r.2 = true → r.1.core.measure M < s.core.measure M) ∧
      ∀ x ∈ diff, r.1.core.graph.Covers .copy u x := by
  obtain ⟨h1, h2, h3, h4⟩ := addCopies_spec h (ends_store (M := M) (w := w) h huv hdiff) hhook hcb
  refine ⟨h1, h2, h3, fun x hx => ?_⟩
  have := h4 x ((mem_bits _ _).mpr hx)
  rw [← h1.getSuperNode] at this
  exact (covers_rep_right (h.run h1.steps).1.inv).mp this

end

/-- one object is indexed -/
theorem offsetStep_grows (hhook : Neutral hook) {d x : NodeID} {gep : Val}
    (r : State Obj Val ε × Bool) (hr : r.1.core.Sane)
    (hd : r.1.core.graph.kind d = .ptrNode (some gep)) (hx : x ∈ r.1.core.handledGEPMap d)
    (hcb : ∀ i (s : State Obj Val ε), r.1.core.Extends M w s.core → s.core.Offered M i d →
      s.core.PtsGrow M w (callBack i d s).core) :
    let r' := offsetStep M hook callBack d gep r x
    r.1.core.Extends M w r'.1.core ∧ r'.1.core.handledGEPMap = r.1.core.handledGEPMap ∧
      r'.1.core.Taken M d x := by
  intro r'
  obtain ⟨hdlt, hxlt⟩ := hr.handled_lt d x hx
  rcases offsetStep_cases hook callBack M d gep r x with
    ⟨heq, hnone⟩ | ⟨o, f, i, c, ho, hf, hc, heq⟩
  · have heq' : r' = r := heq
    rw [heq']
    refine ⟨.refl .., rfl, fun o gep' f ho hg hf => ?_⟩
    rw [hd] at hg
    cases hg
    rw [hnone o ho] at hf
    cases hf
  · have heq' : r' = _ := heq
    -- the node of the field object is there, or it is made
    obtain ⟨hext, hh, hi, hif⟩ : r.1.core.Extends M w c ∧ c.handledGEPMap = r.1.core.handledGEPMap ∧
        i < c.graph.nodeNum ∧ c.graph.kind i = .objNode f := by
      rcases hc with ⟨rfl, hfo⟩ | ⟨rfl, hfo, rfl⟩
      · obtain ⟨h1, h2⟩ := findObj_eq_some hfo
        exact ⟨.refl .., rfl, h1, h2⟩
      · have hadd := (hr.inv.addCGNode (.objNode f)).2
        exact ⟨.field hr.inv (.field d x o f gep hx ho hd hf hfo), rfl, hadd.lt, hadd.kind_new⟩
    have hkx := (hext.kind x hxlt).trans ho
    have hkd := (hext.kind d hdlt).trans hd
    have hxc : x ∈ c.handledGEPMap d := by rwa [hh]
    have hdone : ∀ c' : Core Obj Val, c.Extends M w c' →
        (i ∈ c'.pts d ∨ c'.graph.Covers .copy (i + 1) d) → c'.Taken M d x := by
      intro c' he hi' o' gep' f' ho' hg' hf'
      rw [he.kind x (hxlt.trans_le hext.nodeNum), hkx] at ho'
      rw [he.kind d (hdlt.trans_le hext.nodeNum), hkd] at hg'
      cases ho'
      cases hg'
      rw [hf] at hf'
      cases hf'
      exact ⟨i, hi.trans_le he.nodeNum, (he.kind i hi).trans hif, hi'⟩
    split at heq'
    · rename_i hpts
      rw [heq']
      exact ⟨hext, hh, hdone c (.refl ..) (.inl hpts)⟩
    · have hins := Extends.insert
        (Step.addrOf (M := M) (w := w) (c := c) d x i o f gep hxc hkx hkd hf hi hif)
      have hself := covers_insertConstraint_self (g := c.graph) (i + 1) d .copy
      have hcore : (addAddrOf { r.1 with core := c } hook i d).1.core = { c with
          graph := (c.graph.insertConstraint (i + 1) d .copy).1 } := by
        rw [addAddrOf_eq]
        dsimp only
        split
        · rw [hhook]
          rfl
        · rfl
      have hg := hcb i (addAddrOf { r.1 with core := c } hook i d).1
        (by rw [hcore]; exact hext.trans hins) (by
          rw [hcore]
          exact ⟨x, o, f, gep, hxc, (hins.kind x (hxlt.trans_le hext.nodeNum)).trans hkx,
            (hins.kind d (hdlt.trans_le hext.nodeNum)).trans hkd, hf, hi.trans_le hins.nodeNum,
            (hins.kind i hi).trans hif, hself⟩)
      rw [hcore] at hg
      rw [heq']
      exact ⟨hext.trans (hins.trans hg.extends), hg.handled.trans hh,
        hdone _ (hins.trans hg.extends) (.inr (hg.extends.covers (by decide) hself))⟩

/-- The objects that are new are noted, and for each of them the field is taken. -/
theorem processOffset_spec (callBack : CallBack Obj Val ε) (h : s.core.Sane)
    (hhook : Neutral hook) {u d : NodeID}
    (hd : d ∈ s.core.graph.succ .offset u)
    (hcb : ∀ i (t : State Obj Val ε), s.core.Extends M w t.core → t.core.Offered M i d →
      t.core.PtsGrow M w (callBack i d t).core) :
    let r := s.processOffset M hook callBack u d
    s.core.Extends M w r.1.core ∧
      (r.1 = s ∨ r.1.core.measure M < s.core.measure M) ∧
      (r.2 = true → r.1.core.measure M < s.core.measure M) ∧
      ((∃ gep, s.core.graph.kind d = .ptrNode (some gep)) → s.core.pts u ⊆ r.1.core.handledGEPMap d) ∧
      ∀ e, ∀ x ∈ r.1.core.handledGEPMap e, x ∈ s.core.handledGEPMap e ∨
        e = d ∧ x ∈ s.core.pts u ∧ r.1.core.Taken M d x := by
  intro r
  obtain ⟨hu, hdlt⟩ := h.inv.edge_lt _ _ _ hd
  have hother : (∀ gep, s.core.graph.kind d ≠ .ptrNode (some gep)) → r = (s, false) := by
    intro hk
    show s.processOffset M hook callBack u d = _
    rw [processOffset]
    split
    · rename_i gep hg
      exact absurd hg (hk gep)
    · rfl
  by_cases hk : ∃ gep, s.core.graph.kind d = .ptrNode (some gep)
  swap
  · rw [hother fun gep hg => hk ⟨gep, hg⟩]
    exact ⟨.refl .., .inl rfl, fun h => (by cases h), fun h1 => absurd h1 hk, fun _ _ hx => .inl hx⟩
  obtain ⟨gep, hgep⟩ := hk
  set new := s.core.pts u \ s.core.handledGEPMap d with hnew
  set c₁ : Core Obj Val := { s.core with
    handledGEPMap := fun m =>
      if m = d then s.core.handledGEPMap m ∪ new else s.core.handledGEPMap m } with hc₁
  have hr : r = (bits new).foldl (offsetStep M hook callBack d gep)
      ({ s with core := c₁ }, false) := by
    show s.processOffset M hook callBack u d = _
    rw [processOffset, hgep]
  have hsub : new ⊆ s.core.pts u := Finset.sdiff_subset
  have hext₁ : s.core.Extends M w c₁ := .note hd hsub
  have hsane₁ := (h.run hext₁.steps).1
  have hhd : c₁.handledGEPMap d = s.core.handledGEPMap d ∪ new := if_pos rfl
  have hturn := fun (t : State Obj Val ε × Bool) (x : NodeID) (hx : x ∈ bits new)
      (hI : c₁.Extends M w t.1.core ∧ t.1.core.handledGEPMap = c₁.handledGEPMap) =>
    offsetStep_grows (M := M) (w := w) hhook (d := d) (x := x) t (hsane₁.run hI.1.steps).1
      ((hI.1.kind d hdlt).trans hgep)
      (by rw [hI.2, hhd]; exact Finset.mem_union_right _ ((mem_bits _ _).mp hx))
      (fun i t' ht' ho => hcb i t' (hext₁.trans (hI.1.trans ht')) ho)
  obtain ⟨⟨hext, hh⟩, hall⟩ := foldl_all
    (f := offsetStep M hook callBack d gep) (l := bits new)
    (s := (({ s with core := c₁ }, false) : State Obj Val ε × Bool))
    (I := fun t => c₁.Extends M w t.1.core ∧ t.1.core.handledGEPMap = c₁.handledGEPMap)
    (Q := fun x t => x ∈ new → t.1.core.Taken M d x)
    (fun t x hx hI => by
      obtain ⟨h1, h2, -⟩ := hturn t x hx hI
      exact ⟨hI.1.trans h1, h2.trans hI.2⟩)
    (fun t x hx hI _ => (hturn t x hx hI).2.2)
    (fun t x hx y hI hy hyn => (hy hyn).extends (hturn t x hx hI).1
      (hdlt.trans_le hI.1.nodeNum) ((h.pts_lt u y (hsub hyn)).trans_le hI.1.nodeNum))
    ⟨.refl .., rfl⟩
  rw [← hr] at hext hh hall
  have hmeas : ¬ new ⊆ s.core.handledGEPMap d → r.1.core.measure M < s.core.measure M :=
    fun hn => (hsane₁.run hext.steps).2.trans_lt
      ((measure_handled hdlt fun x hx => h.pts_lt u x (hsub hx)).2 hn)
  have hnil : new ⊆ s.core.handledGEPMap d → r = (s, false) := by
    intro hn
    have hempty : new = ∅ := by
      rw [hnew, Finset.sdiff_eq_empty_iff_subset]
      intro x hx
      by_contra hxd
      exact hxd (hn (Finset.mem_sdiff.mpr ⟨hx, hxd⟩))
    have hsame : c₁ = s.core := by
      rw [hc₁, hempty]
      simp only [Finset.union_empty, ite_self]
    rw [hr, hempty, hsame]
    rfl
  refine ⟨hext₁.trans hext, ?_, ?_, fun _ x hx => ?_, fun e x hx => ?_⟩
  · by_cases hn : new ⊆ s.core.handledGEPMap d
    · exact .inl (by rw [hnil hn])
    · exact .inr (hmeas hn)
  · intro hflag
    by_cases hn : new ⊆ s.core.handledGEPMap d
    · rw [hnil hn] at hflag
      cases hflag
    · exact hmeas hn
  · rw [hh, hhd]
    by_cases hxd : x ∈ s.core.handledGEPMap d
    · exact Finset.mem_union_left _ hxd
    · exact Finset.mem_union_right _ (Finset.mem_sdiff.mpr ⟨hx, hxd⟩)
  · rw [hh] at hx
    by_cases he : e = d
    · subst he
      rw [hhd] at hx
      rcases Finset.mem_union.mp hx with hx | hx
      · exact .inl hx
      · exact .inr ⟨rfl, hsub hx, hall x ((mem_bits _ _).mpr hx) hx⟩
    · exact .inl ((if_neg he : c₁.handledGEPMap e = _) ▸ hx)

end State

namespace Core

open ConsGraph

variable {c c₀ : Core Obj Val} {M : MemModel Obj Val} {w : Walk} {G : NodeID → Prop}

/-- the load, store and offset edges at `n` have the copy edges they stand for -/
structure LsClosed (c : Core Obj Val) (n : NodeID) : Prop where
  load : ∀ v, v ∈ c.graph.succ .load n → ∀ x ∈ c.pts n, c.graph.Covers .copy x v
  store : ∀ u, n ∈ c.graph.succ .store u → ∀ x ∈ c.pts n, c.graph.Covers .copy u x
  offset : ∀ d, d ∈ c.graph.succ .offset n → c.pts n ⊆ c.handledGEPMap d

namespace LsClosed

variable {n : NodeID}

theorem of_graph (h : c.LsClosed n) {c' : Core Obj Val} (hg : c'.graph = c.graph)
    (hh : c'.handledGEPMap = c.handledGEPMap) (hp : c'.pts n = c.pts n) : c'.LsClosed n := by
  refine ⟨?_, ?_, ?_⟩ <;> rw [hg, hp]
  · exact h.load
  · exact h.store
  · rw [hh]
    exact h.offset

/-- a node without edges -/
theorem of_merged (hg : c.graph.Inv) {m : NodeID} (h : c.graph.superOf n = some m) :
    c.LsClosed n := by
  have hm := hg.merged n m h
  exact ⟨fun v hv => absurd hv (hm _ v).1, fun u hu => absurd hu (hm _ u).2,
    fun d hd => absurd hd (hm _ d).1⟩

theorem of_extends [DecidableEq Obj] (h : c₀.LsClosed n) (he : c₀.Extends M w c)
    (hp : c.pts n = c₀.pts n) : c.LsClosed n := by
  refine ⟨fun v hv x hx => ?_, fun u hu x hx => ?_, fun d hd => ?_⟩
  · rw [he.succ .load (by decide) (by decide)] at hv
    exact he.covers (by decide) (h.load v hv x (hp ▸ hx))
  · rw [he.succ .store (by decide) (by decide)] at hu
    exact he.covers (by decide) (h.store u hu x (hp ▸ hx))
  · rw [he.succ .offset (by decide) (by decide)] at hd
    rw [hp]
    exact (h.offset d hd).trans (he.handled d)

/-- a collapse that does not touch the points-to set of `n` -/
theorem collapse (h : c.LsClosed n) (hc : c.Shape G) {c' : Core Obj Val} {scc : List NodeID}
    {s : NodeID} (hnd : scc.Nodup) (hs : s ∈ scc) (hlen : 1 < scc.length)
    (hr : ∀ u ∈ scc, ∀ v ∈ scc, c.graph.CopyReach u v) (hcol : Collapsed c.graph c'.graph scc s)
    (hh : c'.handledGEPMap = c.handledGEPMap) (hn : n ∉ scc) (hp : c'.pts n = c.pts n) :
    c'.LsClosed n := by
  have hback : ∀ a, target scc s a = n → a = n := by
    intro a ha
    by_cases has : a ∈ scc
    · rw [target_of_mem s has] at ha
      exact absurd (ha ▸ hs) hn
    · rwa [target_of_notMem s has] at ha
  -- the representative of the target of an edge does not matter
  have hrep : ∀ b, c.graph.superOf b = none →
      c'.graph.getSuperNode (target scc s b) = c'.graph.getSuperNode b := by
    intro b hb
    have hts : c.graph.superOf (target scc s b) = none := by
      by_cases hbs : b ∈ scc
      · rw [target_of_mem s hbs]
        exact (hc.inv.scc_not_merged hnd hlen hr hs).2
      · rwa [target_of_notMem s hbs]
    have htt : target scc s (target scc s b) = target scc s b := by
      by_cases hbs : b ∈ scc
      · rw [target_of_mem s hbs, target_self]
      · rw [target_of_notMem s hbs, target_of_notMem s hbs]
    rw [hcol.getSuperNode, hcol.getSuperNode, getSuperNode_of_none hts, getSuperNode_of_none hb, htt]
  refine ⟨fun v hv x hx => ?_, fun u hu x hx => ?_, fun d hd => ?_⟩
  · obtain ⟨⟨a, b, hab, ha, rfl⟩, -⟩ := (hcol.succ _ _ _).mp hv
    obtain rfl := hback a ha
    have := covers_collapse hcol (h.load b hab x (hp ▸ hx))
    rwa [Covers, hrep b (hc.inv.target_none hab)]
  · obtain ⟨⟨a, b, hab, rfl, hb⟩, -⟩ := (hcol.succ _ _ _).mp hu
    obtain rfl := hback b hb
    have := covers_collapse hcol (h.store a hab x (hp ▸ hx))
    rwa [Covers, hrep a (hc.inv.source_none hab)]
  · obtain ⟨⟨a, b, hab, ha, rfl⟩, -⟩ := (hcol.succ _ _ _).mp hd
    obtain rfl := hback a ha
    have hbs : b ∉ scc := fun h1 =>
      (hc.scc_not_fixed hnd hlen hr h1).2 (hc.wf.gep_target a b hab)
    rw [hp, hh, target_of_notMem s hbs]
    exact h.offset b hab

end LsClosed

end Core

end AserPTA
