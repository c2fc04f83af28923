import AserPTA.Solver.Copy
import AserPTA.Solver.Edges

/-!
# Copying along new edges

`WavePropagation` and `DeepPropagation` copy along the address edges that `processOffset` adds, with
the callback `copyAddrOf`.

* `Run`                 adding copy edges and copying along them, where an invariant `K` is kept;
* `processOffset_run`   processing an offset edge is such a run, if the invariant is kept by every
                        field that is new.
-/

namespace AserPTA

open Relation Loop

variable {Obj Val ε : Type}

/-- the state, and `changed` -/
abbrev Flagged (Obj Val ε : Type) := State Obj Val ε × Bool

namespace State

open AserPTA.Core ConsGraph

variable [DecidableEq Obj]

/-- the callback of a new edge -/
def copyNew : CallBack Obj Val ε := fun src dst s =>
  { s with core := (s.core.processCopy src dst).1 }

/-- the callback of `processOffset`: the new edge starts at the address node -/
def copyAddrOf : CallBack Obj Val ε := fun fieldObj ptr s => copyNew (fieldObj + 1) ptr s

/-- the edge `a → b` is inserted, and what its source holds is copied along it -/
def copyAlong (a b : NodeID) (s : State Obj Val ε) : State Obj Val ε :=
  copyNew a b (s.withGraph (s.core.graph.insertConstraint a b .copy).1)

variable {M : MemModel Obj Val} {w : Walk} {K : State Obj Val ε → Prop} {s : State Obj Val ε}
  {r r₀ : Flagged Obj Val ε} {G : NodeID → Prop}

omit [DecidableEq Obj] in
theorem pts_copyAlong {a b : NodeID} (n : NodeID) : (copyAlong a b s).core.pts n =
    if n = b then s.core.pts n ∪ s.core.pts a else s.core.pts n := pts_unionPts ..

omit [DecidableEq Obj] in
theorem graph_copyAlong (a b : NodeID) :
    (copyAlong a b s).core.graph = (s.core.graph.insertConstraint a b .copy).1 := graph_unionPts ..

omit [DecidableEq Obj] in
/-- the edge that `processOffset` adds, with its callback -/
theorem copyAddrOf_addAddrOf (i d : NodeID) :
    copyAddrOf i d (addAddrOf s noop i d).1 = copyAlong (i + 1) d s := by
  rw [addAddrOf_eq]
  dsimp only [noop, copyAddrOf, copyAlong]
  rw [ite_self]

omit [DecidableEq Obj] in
/-- between nodes that are not merged the edge is the only new one -/
theorem mem_succ_copyAlong {a b : NodeID} (hne : a ≠ b) (ha : s.core.graph.superOf a = none)
    (hb : s.core.graph.superOf b = none) (u v : NodeID) :
    v ∈ (copyAlong a b s).core.graph.succ .copy u ↔
      v ∈ s.core.graph.succ .copy u ∨ (u = a ∧ v = b) := by
  rw [graph_copyAlong, mem_succ_insertConstraint, getSuperNode_of_none ha, getSuperNode_of_none hb]
  refine or_congr Iff.rfl ⟨fun h => ⟨h.2.1, h.2.2.1⟩, ?_⟩
  rintro ⟨rfl, rfl⟩
  exact ⟨rfl, rfl, rfl, fun h => hne h.1⟩

theorem tame_copyNew : Tame M w (copyNew : CallBack Obj Val ε) :=
  fun _ _ _ h => .processCopy h

/-- no points-to set and no copy edge is new -/
structure Unchanged (c₀ c : Core Obj Val) : Prop where
  pts : c.pts = c₀.pts
  copy : ∀ u v, v ∈ c.graph.succ .copy u → v ∈ c₀.graph.succ .copy u

omit [DecidableEq Obj] in
theorem Unchanged.trans {c₁ c₂ c₃ : Core Obj Val} (h : Unchanged c₁ c₂) (h' : Unchanged c₂ c₃) :
    Unchanged c₁ c₃ :=
  ⟨h'.pts.trans h.pts, fun u v huv => h.copy u v (h'.copy u v huv)⟩

/-- adding copy edges and copying along them, where `K` is kept -/
structure Run (M : MemModel Obj Val) (w : Walk) (K : State Obj Val ε → Prop)
    (r₀ r : Flagged Obj Val ε) : Prop where
  ext : r₀.1.core.Extends M w r.1.core
  self : r.1.self = r₀.1.self
  keep : ∀ G, r₀.1.core.Shape G → K r₀.1 → K r.1
  flag : r.2 = false → r₀.2 = false ∧ Unchanged r₀.1.core r.1.core

namespace Run

theorem refl (M : MemModel Obj Val) (w : Walk) (K : State Obj Val ε → Prop)
    (r : Flagged Obj Val ε) : Run M w K r r :=
  ⟨.refl .., rfl, fun _ _ h => h, fun h => ⟨h, rfl, fun _ _ h => h⟩⟩

theorem trans {r₁ r₂ r₃ : Flagged Obj Val ε} (h : Run M w K r₁ r₂) (h' : Run M w K r₂ r₃) :
    Run M w K r₁ r₃ where
  ext := h.ext.trans h'.ext
  self := h'.self.trans h.self
  keep G hs hk := h'.keep G (hs.run h.ext.steps) (h.keep G hs hk)
  flag hf := by
    obtain ⟨h1, h2⟩ := h'.flag hf
    obtain ⟨h3, h4⟩ := h.flag h1
    exact ⟨h3, h4.trans h2⟩

end Run

theorem extends_copyAlong {a b : NodeID} (hne : a ≠ b) (ha : s.core.graph.superOf a = none)
    (hb : s.core.graph.superOf b = none)
    (hs : Step M w s.core { s.core with
      graph := (s.core.graph.insertConstraint a b .copy).1 }) :
    s.core.Extends M w (copyAlong a b s).core := by
  have hedge := (mem_succ_copyAlong hne ha hb a b).mpr (.inr ⟨rfl, rfl⟩)
  rw [graph_copyAlong] at hedge
  exact (Extends.insert hs).trans (PtsGrow.processCopy hedge).extends

/-! ## offset edges -/

/-- `c` is the state with a node `i` for the field object `f`, which may have to be made -/
def HasField (c₀ c : Core Obj Val) (f : Obj) (i : NodeID) : Prop :=
  (c = c₀ ∧ c₀.graph.findObj f = some i) ∨
    (c = c₀.addCGNode (.objNode f) ∧ c₀.graph.findObj f = none ∧ i = c₀.graph.nodeNum)

/-- `K` is kept when `d` gets the field that it takes of `x` -/
def KeptBy (M : MemModel Obj Val) (G : NodeID → Prop) (K : State Obj Val ε → Prop)
    (t : State Obj Val ε) (d : NodeID) (gep : Val) (x : NodeID) : Prop :=
  ∀ o f i c, t.core.graph.kind x = .objNode o → M.indexObject o gep = some f →
    HasField t.core c f i → c.Shape G → i < c.graph.nodeNum → c.graph.kind i = .objNode f →
    i ∉ c.pts d → K t → K (copyAlong (i + 1) d { t with core := c })

/-- one object is indexed -/
theorem offsetStep_run {d x : NodeID} {gep : Val} (r : Flagged Obj Val ε) (hsh : r.1.core.Shape G)
    (hd : G d) (hk : r.1.core.graph.kind d = .ptrNode (some gep))
    (hx : x ∈ r.1.core.handledGEPMap d) (hkeep : KeptBy M G K r.1 d gep x) :
    Run M w K r (offsetStep M noop copyAddrOf d gep r x) := by
  have hxlt := hsh.handled_lt d x hx
  rcases offsetStep_cases noop copyAddrOf M d gep r x with
    ⟨heq, -⟩ | ⟨o, f, i, c, ho, hf, hc, heq⟩
  · rw [heq]
    exact .refl ..
  · have hnode : r.1.core.Extends M w c ∧ (i ∈ c.pts d → c = r.1.core) ∧
        c.handledGEPMap = r.1.core.handledGEPMap ∧ i < c.graph.nodeNum ∧
        c.graph.kind i = .objNode f := by
      rcases hc with ⟨rfl, hfo⟩ | ⟨rfl, hfo, rfl⟩
      · obtain ⟨h1, h2⟩ := findObj_eq_some hfo
        exact ⟨.refl .., fun _ => rfl, rfl, h1, h2⟩
      · have hadd := (hsh.inv.addCGNode (.objNode f)).2
        have hstep := Step.field (M := M) (w := w) d x o f gep hx ho hk hf hfo
        refine ⟨.field hsh.inv hstep, fun hi => ?_, rfl, hadd.lt, hadd.kind_new⟩
        rw [Shape.pts_addCGNode_of_lt (hsh.wf.gep_kind d hd).1] at hi
        exact absurd (hsh.pts_obj d _ hi).1 (lt_irrefl _)
    obtain ⟨hext, hold, hh, hi, hif⟩ := hnode
    have hshc := hsh.run hext.steps
    rw [heq]
    split
    · rename_i hpts
      rw [hold hpts]
      exact .refl ..
    · rename_i hpts
      have hia := Shape.isAddr_succ hi hif
      have hkx := (hext.kind x hxlt).trans ho
      have hkd := (hext.kind d (hsh.wf.gep_kind d hd).1).trans hk
      have hs := Step.addrOf (M := M) (w := w) (c := c) d x i o f gep (hh.symm ▸ hx) hkx hkd hf
        hi hif
      rw [copyAddrOf_addAddrOf]
      have hne : i + 1 ≠ d := fun h => hshc.not_addr_of_gep hd (h ▸ hia)
      have hcopy := extends_copyAlong (s := { r.1 with core := c }) hne (hshc.addr_fixed _ hia).1
        (hshc.gep_fixed d hd).1 hs
      exact ⟨hext.trans hcopy, rfl, fun _ _ => hkeep o f i c ho hf hc hshc hi hif hpts,
        fun h => by cases h⟩

/-- the objects that are new at an offset edge -/
def newGEPs (u d : NodeID) (s : State Obj Val ε) : Finset NodeID :=
  s.core.pts u \ s.core.handledGEPMap d

/-- the state after they are noted -/
def noteGEPs (u d : NodeID) (s : State Obj Val ε) : State Obj Val ε :=
  { s with core := { s.core with
      handledGEPMap := fun m =>
        if m = d then s.core.handledGEPMap m ∪ newGEPs u d s else s.core.handledGEPMap m } }

theorem processOffset_run (hsh : s.core.Shape G) {u d : NodeID}
    (hd : d ∈ s.core.graph.succ .offset u) (hnote : K s → K (noteGEPs u d s))
    (hkeep : ∀ t : State Obj Val ε, s.core.Extends M w t.core → t.core.Shape G →
      ∀ gep, s.core.graph.kind d = .ptrNode (some gep) → ∀ x ∈ newGEPs u d s,
        KeptBy M G K t d gep x) :
    Run M w K (s, false) (s.processOffset M noop copyAddrOf u d) := by
  have hG := hsh.wf.gep_target u d hd
  obtain ⟨hdlt, gep, hgep⟩ := hsh.wf.gep_kind d hG
  rw [processOffset, hgep]
  dsimp only
  have hext₁ : s.core.Extends M w (noteGEPs u d s).core := .note hd Finset.sdiff_subset
  have hsh₁ := hsh.run hext₁.steps
  have hrun₁ : Run M w K (s, false) (noteGEPs u d s, false) :=
    ⟨hext₁, rfl, fun _ _ => hnote, fun _ => ⟨rfl, rfl, fun _ _ h => h⟩⟩
  have hhd : (noteGEPs u d s).core.handledGEPMap d =
      s.core.handledGEPMap d ∪ newGEPs u d s := if_pos rfl
  refine hrun₁.trans (foldl_inv
    (I := fun t : Flagged Obj Val ε => Run M w K (noteGEPs u d s, false) t)
    (fun t x hx hI => ?_) (.refl ..))
  have hx' : x ∈ newGEPs u d s := (mem_bits _ _).mp hx
  have hst := hsh₁.run hI.ext.steps
  refine hI.trans (offsetStep_run t hst hG ((hI.ext.kind d hdlt).trans hgep)
    (hI.ext.handled d ?_) (hkeep t.1 (hext₁.trans hI.ext) hst gep hgep x hx'))
  rw [hhd]
  exact Finset.mem_union_right _ hx'

/-- what an offset edge does to the objects that are handled -/
theorem processOffset_handled (hsh : s.core.Shape G) {u d : NodeID}
    (hd : d ∈ s.core.graph.succ .offset u) :
    let r := s.processOffset M noop copyAddrOf u d
    (r.2 = true → r.1.core.measure M < s.core.measure M) ∧
      s.core.pts u ⊆ r.1.core.handledGEPMap d ∧
      ∀ G, s.core.Shape G → s.core.AllIndexed M → r.1.core.AllIndexed M := by
  intro r
  have hG := hsh.wf.gep_target u d hd
  obtain ⟨hext, -, h3, h4, h5⟩ := processOffset_spec (M := M) (w := .ascending) copyAddrOf
    hsh.sane neutral_noop hd fun i t ht ho => by
      obtain ⟨x, o, f, gep, hx, -, -, -, hi, hif, hcov⟩ := ho
      exact .processCopy ((hsh.run ht.steps).covers_addr hi hif hG hcov)
  refine ⟨h3, h4 (hsh.wf.gep_kind d hG).2, fun G' hg hi e x hx => ?_⟩
  rcases h5 e x hx with h6 | ⟨rfl, -, h6⟩
  · exact hg.indexed_run hext.steps (hg.handled_gep e x h6) (hg.handled_lt e x h6) (hi e x h6)
  · exact (hg.run hext.steps).indexed_of_taken (hg.wf.gep_target u e hd) h6

end State

end AserPTA
