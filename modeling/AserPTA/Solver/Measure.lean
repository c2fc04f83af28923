import AserPTA.Solver.Sound
import Mathlib.Data.Prod.Lex
import Mathlib.Order.WellFounded

/-!
# Why the solvers terminate

`Sane` is what termination needs of a state; a graph need not be well formed for it.  `measure` is
the lexicographic measure of a state: the field objects without node, the nodes that are not merged,
the pairs of nodes without copy edge, and the pairs of a `getelementptr` node and an object it has
not handled.  No step raises it (`Sane.measure_step`); a step that makes a node, adds a copy edge or
handles a new object lowers it.
-/

namespace AserPTA

open Relation

variable {Obj Val : Type}

namespace Core

open ConsGraph

variable {c : Core Obj Val} {M : MemModel Obj Val} {G : NodeID → Prop}

/-- the ids in a state are ids of nodes -/
structure Sane (c : Core Obj Val) : Prop where
  inv : c.graph.Inv
  addrNodes : c.graph.AddrNodes
  pts_lt : ∀ n, ∀ x ∈ c.pts n, x < c.graph.nodeNum
  handled_lt : ∀ d, ∀ x ∈ c.handledGEPMap d, d < c.graph.nodeNum ∧ x < c.graph.nodeNum

theorem Shape.sane (h : c.Shape G) : c.Sane where
  inv := h.inv
  addrNodes := h.addrNodes
  pts_lt n x hx := (h.pts_obj n x hx).1
  handled_lt d x hx := ⟨(h.wf.gep_kind d (h.handled_gep d x hx)).1, h.handled_lt d x hx⟩

section measure
variable [DecidableEq Obj]

/-- the field objects that have no node -/
def missingFields (M : MemModel Obj Val) (c : Core Obj Val) : Finset Obj :=
  M.fields.filter fun f => c.graph.findObj f = none

/-- the nodes that are not merged -/
def roots (c : Core Obj Val) : Finset NodeID :=
  (Finset.range c.graph.nodeNum).filter fun n => c.graph.superOf n = none

/-- the pairs of nodes without copy edge -/
def missingCopy (c : Core Obj Val) : Finset (NodeID × NodeID) :=
  (Finset.range c.graph.nodeNum ×ˢ Finset.range c.graph.nodeNum).filter fun p =>
    p.2 ∉ c.graph.succ .copy p.1

/-- the pairs of a node and an object it has not handled -/
def unhandled (c : Core Obj Val) : Finset (NodeID × NodeID) :=
  (Finset.range c.graph.nodeNum ×ˢ Finset.range c.graph.nodeNum).filter fun p =>
    p.2 ∉ c.handledGEPMap p.1

abbrev Measure := ℕ ×ₗ ℕ ×ₗ ℕ ×ₗ ℕ

def measure (M : MemModel Obj Val) (c : Core Obj Val) : Measure :=
  toLex (c.missingFields M |>.card, toLex (c.roots.card, toLex (c.missingCopy.card,
    c.unhandled.card)))

theorem measure_wf : WellFounded fun a b : Measure => a < b := wellFounded_lt

/-! ## comparing measures -/

variable {c' : Core Obj Val}

theorem measure_of_fields (h : (c'.missingFields M).card < (c.missingFields M).card) :
    c'.measure M < c.measure M :=
  Prod.Lex.toLex_lt_toLex.mpr (.inl h)

theorem measure_of_roots (h₁ : c'.missingFields M = c.missingFields M)
    (h : c'.roots.card < c.roots.card) : c'.measure M < c.measure M :=
  Prod.Lex.toLex_lt_toLex.mpr (.inr ⟨by rw [h₁], Prod.Lex.toLex_lt_toLex.mpr (.inl h)⟩)

theorem measure_of_copy (h₁ : c'.missingFields M = c.missingFields M)
    (h₂ : c'.roots = c.roots) (h : c'.missingCopy.card < c.missingCopy.card) :
    c'.measure M < c.measure M :=
  Prod.Lex.toLex_lt_toLex.mpr (.inr ⟨by rw [h₁], Prod.Lex.toLex_lt_toLex.mpr (.inr ⟨by rw [h₂],
    Prod.Lex.toLex_lt_toLex.mpr (.inl h)⟩)⟩)

theorem measure_of_unhandled (h₁ : c'.missingFields M = c.missingFields M)
    (h₂ : c'.roots = c.roots) (h₃ : c'.missingCopy = c.missingCopy)
    (h : c'.unhandled.card < c.unhandled.card) : c'.measure M < c.measure M :=
  Prod.Lex.toLex_lt_toLex.mpr (.inr ⟨by rw [h₁], Prod.Lex.toLex_lt_toLex.mpr (.inr ⟨by rw [h₂],
    Prod.Lex.toLex_lt_toLex.mpr (.inr ⟨by rw [h₃], h⟩)⟩)⟩)

theorem measure_congr (h₁ : c'.missingFields M = c.missingFields M)
    (h₂ : c'.roots = c.roots) (h₃ : c'.missingCopy = c.missingCopy)
    (h₄ : c'.unhandled = c.unhandled) : c'.measure M = c.measure M := by
  rw [measure, measure, h₁, h₂, h₃, h₄]

theorem findObj_congr {g g' : ConsGraph Obj Val} (hn : g'.nodeNum = g.nodeNum)
    (hk : ∀ n < g.nodeNum, g'.kind n = g.kind n) (f : Obj) : g'.findObj f = g.findObj f := by
  rw [findObj, findObj, hn, ← List.head?_filter, ← List.head?_filter]
  congr 1
  refine List.filter_congr fun n hmem => ?_
  rw [hk n (List.mem_range.mp hmem)]

/-- the graph is the same, and so are the handled objects -/
theorem measure_of_pts (hg : c'.graph = c.graph) (hh : c'.handledGEPMap = c.handledGEPMap) :
    c'.measure M = c.measure M := by
  refine measure_congr ?_ ?_ ?_ ?_
  · rw [missingFields, missingFields, hg]
  · rw [roots, roots, hg]
  · rw [missingCopy, missingCopy, hg]
  · rw [unhandled, unhandled, hg, hh]

/-- a copy edge is inserted: the measure does not go up, and goes down if the edge is new -/
theorem Sane.measure_insert (h : c.Sane) {a b : NodeID} (ha : a < c.graph.nodeNum)
    (hb : b < c.graph.nodeNum) :
    let c' : Core Obj Val := { c with graph := (c.graph.insertConstraint a b .copy).1 }
    c'.measure M ≤ c.measure M ∧
      ((c.graph.insertConstraint a b .copy).2 = true → c'.measure M < c.measure M) := by
  intro c'
  have hs := insertConstraint_sameNodes (g := c.graph) a b .copy
  have hsucc := mem_succ_insertConstraint (g := c.graph) a b .copy .copy
  have h₁ : c'.missingFields M = c.missingFields M := by
    refine Finset.filter_congr fun f _ => ?_
    rw [findObj_congr hs.nodeNum fun n _ => hs.kind n]
  have h₂ : c'.roots = c.roots := by
    show (Finset.range (c.graph.insertConstraint a b .copy).1.nodeNum).filter _ = _
    rw [hs.nodeNum]
    refine Finset.filter_congr fun n _ => ?_
    rw [hs.superOf]
  have hsub : c'.missingCopy ⊆ c.missingCopy := by
    intro p hp
    obtain ⟨h1, h2⟩ := Finset.mem_filter.mp hp
    rw [hs.nodeNum] at h1
    exact Finset.mem_filter.mpr ⟨h1, fun h3 => h2 ((hsucc _ _).mpr (.inl h3))⟩
  have h₄ : c'.unhandled = c.unhandled := by
    show (Finset.range (c.graph.insertConstraint a b .copy).1.nodeNum ×ˢ
      Finset.range (c.graph.insertConstraint a b .copy).1.nodeNum).filter _ = _
    rw [hs.nodeNum]
    rfl
  have hlt : (c.graph.insertConstraint a b .copy).2 = true → c'.measure M < c.measure M := by
    intro hnew
    obtain ⟨h1, h2⟩ := (insertConstraint_snd ..).mp hnew
    refine measure_of_copy h₁ h₂ (Finset.card_lt_card (Finset.ssubset_iff_subset_ne.mpr ⟨hsub, ?_⟩))
    intro he
    have hp : (c.graph.getSuperNode a, c.graph.getSuperNode b) ∈ c.missingCopy := by
      refine Finset.mem_filter.mpr ⟨Finset.mem_product.mpr ⟨?_, ?_⟩, h1⟩
      · exact Finset.mem_range.mpr (h.inv.getSuperNode_lt ha)
      · exact Finset.mem_range.mpr (h.inv.getSuperNode_lt hb)
    rw [← he] at hp
    exact (Finset.mem_filter.mp hp).2 ((hsucc _ _).mpr (.inr ⟨rfl, rfl, rfl, h2⟩))
  refine ⟨?_, hlt⟩
  cases hnew : (c.graph.insertConstraint a b .copy).2 with
  | true => exact (hlt hnew).le
  | false =>
    have h₃ : c'.missingCopy = c.missingCopy := by
      refine Finset.Subset.antisymm hsub fun p hp => ?_
      obtain ⟨h1, h2⟩ := Finset.mem_filter.mp hp
      refine Finset.mem_filter.mpr ⟨?_, fun h3 => ?_⟩
      · rw [hs.nodeNum]
        exact h1
      · rcases (hsucc _ _).mp h3 with h3 | ⟨-, hp1, hp2, h4⟩
        · exact h2 h3
        · rw [hp1, hp2] at h2
          have := (insertConstraint_snd (g := c.graph) a b .copy).mpr
            ⟨h2, fun h5 => h4 ⟨hp1.trans (h5.1.trans hp2.symm), rfl⟩⟩
          rw [hnew] at this
          cases this
    exact (measure_congr h₁ h₂ h₃ h₄).le

/-- handling objects lowers the measure if one of them is new -/
theorem measure_handled {d : NodeID} (hd : d < c.graph.nodeNum) {new : Finset NodeID}
    (hnew : ∀ x ∈ new, x < c.graph.nodeNum) :
    let c' : Core Obj Val := { c with
      handledGEPMap := fun m =>
        if m = d then c.handledGEPMap m ∪ new else c.handledGEPMap m }
    c'.measure M ≤ c.measure M ∧
      (¬ new ⊆ c.handledGEPMap d → c'.measure M < c.measure M) := by
  intro c'
  have hsub : c'.unhandled ⊆ c.unhandled := by
    intro p hp
    obtain ⟨h1, h2⟩ := Finset.mem_filter.mp hp
    refine Finset.mem_filter.mpr ⟨h1, fun h3 => h2 ?_⟩
    show p.2 ∈ (if p.1 = d then _ else _)
    split
    · exact Finset.mem_union_left _ h3
    · exact h3
  have hlt : ¬ new ⊆ c.handledGEPMap d → c'.measure M < c.measure M := by
    intro hn
    obtain ⟨x, hx, hxd⟩ := Finset.not_subset.mp hn
    refine measure_of_unhandled rfl rfl rfl
      (Finset.card_lt_card (Finset.ssubset_iff_subset_ne.mpr ⟨hsub, ?_⟩))
    intro he
    have hp : (d, x) ∈ c.unhandled :=
      Finset.mem_filter.mpr ⟨Finset.mem_product.mpr ⟨Finset.mem_range.mpr hd,
        Finset.mem_range.mpr (hnew x hx)⟩, hxd⟩
    rw [← he] at hp
    refine (Finset.mem_filter.mp hp).2 ?_
    show x ∈ (if d = d then _ else _)
    rw [if_pos rfl]
    exact Finset.mem_union_right _ hx
  refine ⟨?_, hlt⟩
  by_cases hn : new ⊆ c.handledGEPMap d
  · have hh : c'.handledGEPMap = c.handledGEPMap := by
      funext m
      show (if m = d then c.handledGEPMap m ∪ new else c.handledGEPMap m) = _
      split
      · rename_i hm
        rw [hm, Finset.union_eq_left.mpr hn]
      · rfl
    exact (measure_of_pts rfl hh : c'.measure M = c.measure M).le
  · exact (hlt hn).le

/-- a new node for a field object lowers the measure -/
theorem Sane.measure_field (h : c.Sane) {f : Obj} (hf : f ∈ M.fields)
    (hnone : c.graph.findObj f = none) :
    (c.addCGNode (.objNode f)).measure M < c.measure M := by
  have hadd := (h.inv.addCGNode (.objNode f)).2
  refine measure_of_fields (Finset.card_lt_card (Finset.ssubset_iff_subset_ne.mpr ⟨?_, ?_⟩))
  · intro f' hf'
    obtain ⟨h1, h2⟩ := Finset.mem_filter.mp hf'
    refine Finset.mem_filter.mpr ⟨h1, ?_⟩
    cases ho : c.graph.findObj f' with
    | none => rfl
    | some i =>
      obtain ⟨hi, hif⟩ := findObj_eq_some ho
      exact absurd ((hadd.kind_old i hi).trans hif) (findObj_eq_none h2 (hi.trans hadd.lt))
  · intro he
    have hm : f ∈ c.missingFields M := Finset.mem_filter.mpr ⟨hf, hnone⟩
    rw [← he] at hm
    exact findObj_eq_none (Finset.mem_filter.mp hm).2 hadd.lt hadd.kind_new

/-- collapsing a component of more than one node lowers the measure -/
theorem Sane.measure_collapse (h : c.Sane) (w : Walk) {scc : List NodeID} {s : NodeID}
    (hnd : scc.Nodup) (hs : s ∈ scc) (hlen : 1 < scc.length)
    (hr : ∀ u ∈ scc, ∀ v ∈ scc, c.graph.CopyReach u v) :
    (c.collapse w scc s).measure M < c.measure M := by
  obtain ⟨-, hcol⟩ := h.inv.collapse_scc w hnd hs hlen hr
  have hm := fun u (hu : u ∈ scc) => h.inv.scc_not_merged hnd hlen hr hu
  refine measure_of_roots ?_ (Finset.card_lt_card (Finset.ssubset_iff_subset_ne.mpr ⟨?_, ?_⟩))
  · refine Finset.filter_congr fun f _ => ?_
    rw [graph_collapse, findObj_congr hcol.nodeNum fun n _ => hcol.kind n]
  · intro n hn
    obtain ⟨h1, h2⟩ := Finset.mem_filter.mp hn
    rw [graph_collapse, hcol.nodeNum] at h1
    rw [graph_collapse, hcol.superOf] at h2
    split at h2
    · cases h2
    · exact Finset.mem_filter.mpr ⟨h1, h2⟩
  · intro he
    obtain ⟨v, hv, hne⟩ := exists_other hnd hlen s
    have hvr : v ∈ c.roots :=
      Finset.mem_filter.mpr ⟨Finset.mem_range.mpr (hm v hv).1, (hm v hv).2⟩
    rw [← he] at hvr
    have h2 := (Finset.mem_filter.mp hvr).2
    rw [graph_collapse, hcol.superOf, if_pos ⟨hv, hne.symm⟩] at h2
    cases h2

/-! ## every step -/

variable {w : Walk}

omit [DecidableEq Obj] in
theorem Sane.of_pts (h : c.Sane) (hg : c'.graph = c.graph)
    (hh : c'.handledGEPMap = c.handledGEPMap)
    (hp : ∀ n, ∀ x ∈ c'.pts n, x < c.graph.nodeNum) : c'.Sane := by
  refine ⟨hg ▸ h.inv, hg ▸ h.addrNodes, ?_, ?_⟩
  · rw [hg]
    exact hp
  · rw [hg, hh]
    exact h.handled_lt

omit [DecidableEq Obj] in
theorem Sane.insert (h : c.Sane) {a b : NodeID} (ha : a < c.graph.nodeNum)
    (hb : b < c.graph.nodeNum) :
    ({ c with graph := (c.graph.insertConstraint a b .copy).1 } : Core Obj Val).Sane := by
  have hs := insertConstraint_sameNodes (g := c.graph) a b .copy
  refine ⟨h.inv.insertConstraint ha hb _, h.addrNodes.of_eq hs.nodeNum hs.kind, ?_, ?_⟩
  · intro n x hx
    rw [hs.nodeNum]
    exact h.pts_lt n x hx
  · intro d x hx
    rw [hs.nodeNum]
    exact h.handled_lt d x hx

omit [DecidableEq Obj] in
theorem Sane.addCGNode (h : c.Sane) (kind : NodeKind Obj Val) : (c.addCGNode kind).Sane := by
  have hadd := (h.inv.addCGNode kind).2
  refine ⟨(h.inv.addCGNode kind).1, h.addrNodes.addCGNode h.inv _, fun n y hy => ?_,
    fun e y hy => ?_⟩
  · rcases Shape.mem_pts_addCGNode hy with hy | ⟨-, rfl, -⟩
    · exact (h.pts_lt n y hy).trans hadd.lt
    · exact hadd.lt
  · have := h.handled_lt e y hy
    exact ⟨this.1.trans hadd.lt, this.2.trans hadd.lt⟩

/-- the ends of the copy edge that a load, a store or an offset edge stands for are nodes -/
theorem Sane.step (h : c.Sane) (hs : Step M w c c') :
    c'.Sane ∧ c'.measure M ≤ c.measure M := by
  cases hs with
  | unionAll v new hnew =>
    refine ⟨h.of_pts (graph_unionPts ..) (handledGEPMap_unionPts ..) fun n x hx => ?_,
      (measure_of_pts (graph_unionPts ..) (handledGEPMap_unionPts ..)).le⟩
    rw [pts_unionPts] at hx
    split at hx
    · rcases Finset.mem_union.mp hx with hx | hx
      · exact h.pts_lt n x hx
      · obtain ⟨u, hxu, -⟩ := hnew x hx
        exact h.pts_lt u x hxu
    · exact h.pts_lt n x hx
  | clear n m _ _ _ =>
    refine ⟨h.of_pts rfl rfl fun y x hx => ?_, (measure_of_pts rfl rfl).le⟩
    rw [pts_setPts] at hx
    split at hx
    · cases hx
    · exact h.pts_lt y x hx
  | collapse scc s hnd hs hlen hr =>
    obtain ⟨hinv, hcol⟩ := h.inv.collapse_scc w hnd hs hlen hr
    refine ⟨⟨by simpa using hinv, by simpa using h.addrNodes.of_eq hcol.nodeNum hcol.kind, ?_, ?_⟩,
      (h.measure_collapse w hnd hs hlen hr).le⟩
    · rw [pts_collapse, graph_collapse, hcol.nodeNum]
      exact h.pts_lt
    · rw [handledGEPMap_collapse, graph_collapse, hcol.nodeNum]
      exact h.handled_lt
  | load x u v hx huv =>
    have h1 := h.inv.getSuperNode_lt (h.pts_lt u x hx)
    have h2 := (h.inv.edge_lt _ _ _ huv).2
    exact ⟨h.insert h1 h2, (h.measure_insert h1 h2).1⟩
  | store x u v hx huv =>
    have h1 := h.inv.getSuperNode_lt (h.pts_lt v x hx)
    have h2 := (h.inv.edge_lt _ _ _ huv).1
    exact ⟨h.insert h2 h1, (h.measure_insert h2 h1).1⟩
  | handled u d new hd hnew =>
    have h1 := (h.inv.edge_lt _ _ _ hd).2
    refine ⟨⟨h.inv, h.addrNodes, h.pts_lt, fun e x hx => ?_⟩,
      (measure_handled h1 fun x hx => h.pts_lt u x (hnew hx)).1⟩
    dsimp only at hx
    split at hx
    · rename_i he
      rcases Finset.mem_union.mp hx with hx | hx
      · exact h.handled_lt e x hx
      · exact ⟨he ▸ h1, h.pts_lt u x (hnew hx)⟩
    · exact h.handled_lt e x hx
  | field d x o f gep _ _ _ hf hnone =>
    exact ⟨h.addCGNode _, (h.measure_field (M.mem_fields _ _ _ hf) hnone).le⟩
  | addrOf d x i o f gep hx _ _ _ hi hif =>
    have h1 := (h.addrNodes i f hif hi).1
    have h2 := (h.handled_lt d x hx).1
    exact ⟨h.insert h1 h2, (h.measure_insert h1 h2).1⟩
  | insert d x i o f gep hx _ _ _ hi hif =>
    refine ⟨h.of_pts rfl rfl fun y z hz => ?_, (measure_of_pts rfl rfl).le⟩
    rw [pts_setPts] at hz
    split at hz
    · rcases Finset.mem_insert.mp hz with rfl | hz
      · exact hi
      · exact h.pts_lt d z hz
    · exact h.pts_lt y z hz

theorem Sane.run (h : c.Sane) (hs : Steps M w c c') :
    c'.Sane ∧ c'.measure M ≤ c.measure M := by
  induction hs with
  | refl => exact ⟨h, le_rfl⟩
  | tail _ hs ih =>
    obtain ⟨h1, h2⟩ := ih.1.step hs
    exact ⟨h1, h2.trans ih.2⟩

/-- only a field node adds to the graph -/
theorem Sane.nodeNum_step (h : c.Sane) (hs : Step M w c c') :
    c'.graph.nodeNum = c.graph.nodeNum ∨ c'.measure M < c.measure M := by
  cases hs with
  | unionAll => exact .inl (by rw [graph_unionPts])
  | clear => exact .inl rfl
  | collapse scc s hnd hs hlen hr => exact .inr (h.measure_collapse w hnd hs hlen hr)
  | load => exact .inl (insertConstraint_sameNodes ..).nodeNum
  | store => exact .inl (insertConstraint_sameNodes ..).nodeNum
  | handled => exact .inl rfl
  | field d x o f gep _ _ _ hf hnone =>
    exact .inr (h.measure_field (M.mem_fields _ _ _ hf) hnone)
  | addrOf => exact .inl (insertConstraint_sameNodes ..).nodeNum
  | insert => exact .inl rfl

theorem Sane.nodeNum_run (h : c.Sane) (hs : Steps M w c c') :
    c'.graph.nodeNum = c.graph.nodeNum ∨ c'.measure M < c.measure M := by
  induction hs with
  | refl => exact .inl rfl
  | tail hrun hs ih =>
    obtain ⟨h1, h2⟩ := h.run hrun
    rcases h1.nodeNum_step hs with h3 | h3
    · exact ih.imp h3.trans (h1.step hs).2.trans_lt
    · exact .inr (h3.trans_le h2)

end measure

end Core

end AserPTA
